import Mosaic.Object

/-!
# Editing objects

While an object is under construction, its parts can be replaced and its closure and fields added
to.
-/

namespace Mosaic

open Mosaic.Graph (NodeId)

/-- New contents for some parts of an object. -/
structure Edits where
  vertices : Option (List NodeId) := none
  edges : Option (List NodeId) := none
  parent : Option (Option NodeId) := none
  tile : Option (Option NodeId) := none
  position : Option Point := none
  index : Option Nat := none
  tiles : Option (List NodeId) := none
  locations : Option (List Point) := none
  items : Option (List Datum) := none
  label : Option Name := none
  params : Option (List Name) := none
  free : Option (List Name) := none
  closure : List (Name × Datum) := []
  fields : List (Name × Datum) := []

namespace Edits

/-- The nodes that an edit puts into an object of a type, with the types they must have. -/
def parts (e : Edits) : ObjectType → List (ObjectType × NodeId)
  | .tile =>
    (e.vertices.getD []).map (.vertex, ·) ++ (e.edges.getD []).map (.edge, ·) ++
      (e.parent.bind id).toList.map (.patch, ·)
  | .vertex | .edge => (e.tile.bind id).toList.map (.tile, ·)
  | .patch => (e.tiles.getD []).map (.tile, ·)
  | .cluster | .lambda => []

/-- The object with its parts replaced, and the closure added to. -/
def applyParts (e : Edits) : Object → Object
  | .tile t =>
    .tile { t with
      vertices := e.vertices.getD t.vertices
      edges := e.edges.getD t.edges
      parent := e.parent.getD t.parent }
  | .vertex v =>
    .vertex { v with
      tile := e.tile.getD v.tile
      position := e.position.getD v.position
      index := e.index.getD v.index }
  | .edge d => .edge { d with tile := e.tile.getD d.tile, index := e.index.getD d.index }
  | .patch p =>
    .patch { p with tiles := e.tiles.getD p.tiles, locations := e.locations.getD p.locations }
  | .cluster c => .cluster { c with items := e.items.getD c.items }
  | .lambda l =>
    .lambda { l with
      label := e.label.getD l.label
      params := e.params.getD l.params
      free := e.free.getD l.free
      closure := l.closure.insertMany e.closure }

/-- The edited object. -/
def apply (e : Edits) (o : Object) : Object :=
  (e.applyParts o).withFields (o.fields.insertMany e.fields)

theorem type_apply (e : Edits) (o : Object) : (e.apply o).type = o.type := by
  rw [apply, Object.type_withFields]
  cases o <;> rfl

end Edits

end Mosaic
