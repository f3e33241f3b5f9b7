import Std.Data.ExtTreeMap
import Mosaic.Plane
import Mosaic.Program.Literal

/-!
# Objects

What the nodes of the store hold. A tile owns its vertices and edges, which point back at it; a
patch places tiles and shares the locations of their vertices; a cluster is a list of data; a lambda
is a body with a closure. Every object can have fields of its own besides.
-/

namespace Mosaic

open Mosaic.Graph (NodeId Node Kind Tether)

/-- Data by name. -/
abbrev Fields := Std.ExtTreeMap Name Datum compare

/-- The nodes that the data point at, by name. -/
def Fields.pointers (fs : Fields) : List NodeId := fs.values.filterMap Datum.node?

/-- A polygon. -/
structure Tile where
  vertices : List NodeId := []
  edges : List NodeId := []
  /-- The patch it is placed in. -/
  parent : Option NodeId := none
  fields : Fields := {}

/-- A corner of a tile. -/
structure Vertex where
  tile : Option NodeId := none
  position : Point := .origin
  index : Nat := 0
  fields : Fields := {}

/-- A side of a tile, from the vertex at `index` to the next. -/
structure Edge where
  tile : Option NodeId := none
  index : Nat := 0
  fields : Fields := {}

/-- Tiles placed together. -/
structure Patch where
  tiles : List NodeId := []
  /-- The distinct places of the vertices. -/
  locations : List Point := []
  /-- For each tile and each of its vertices, the index of its location. -/
  tileLocations : List (List Nat) := []
  fields : Fields := {}

structure Cluster where
  items : List Datum := []
  fields : Fields := {}

structure Lambda where
  /-- The name it goes by in messages. -/
  label : Name := ""
  params : List Name := []
  body : Program := []
  free : List Name := []
  /-- The values of free names, as far as they were known. -/
  closure : Fields := {}
  fields : Fields := {}

namespace Lambda

/-- A lambda without a closure. -/
def ofTemplate (label : Name) (t : Template) : Lambda :=
  { label, params := t.params, body := t.body, free := t.free }

def arity (l : Lambda) : Nat := l.params.length

/-- The free names that the closure does not have. -/
def unresolved (l : Lambda) : List Name := l.free.filter fun n => !l.closure.contains n

def isComplete (l : Lambda) : Bool := l.unresolved.isEmpty

end Lambda

inductive Object where
  | tile (t : Tile)
  | vertex (v : Vertex)
  | edge (e : Edge)
  | patch (p : Patch)
  | cluster (c : Cluster)
  | lambda (l : Lambda)

namespace Object

def type : Object → ObjectType
  | tile _ => .tile
  | vertex _ => .vertex
  | edge _ => .edge
  | patch _ => .patch
  | cluster _ => .cluster
  | lambda _ => .lambda

/-- The object of a type that holds nothing yet. -/
def blank : ObjectType → Object
  | .tile => tile {}
  | .vertex => vertex {}
  | .edge => edge {}
  | .patch => patch {}
  | .cluster => cluster {}
  | .lambda => lambda {}

theorem type_blank (t : ObjectType) : (blank t).type = t := by cases t <;> rfl

def fields : Object → Fields
  | tile t => t.fields
  | vertex v => v.fields
  | edge e => e.fields
  | patch p => p.fields
  | cluster c => c.fields
  | lambda l => l.fields

def withFields (fields : Fields) : Object → Object
  | tile t => tile { t with fields }
  | vertex v => vertex { v with fields }
  | edge e => edge { e with fields }
  | patch p => patch { p with fields }
  | cluster c => cluster { c with fields }
  | lambda l => lambda { l with fields }

@[simp] theorem type_withFields (fields : Fields) (o : Object) :
    (o.withFields fields).type = o.type := by
  cases o <;> rfl

@[simp] theorem fields_withFields (fields : Fields) (o : Object) :
    (o.withFields fields).fields = fields := by
  cases o <;> rfl

/-- The nodes the object points at: its parts in order, then its fields by name. -/
def pointers : Object → List NodeId
  | tile t => t.vertices ++ t.edges ++ t.parent.toList ++ t.fields.pointers
  | vertex v => v.tile.toList ++ v.fields.pointers
  | edge e => e.tile.toList ++ e.fields.pointers
  | patch p => p.tiles ++ p.fields.pointers
  | cluster c => c.items.filterMap Datum.node? ++ c.fields.pointers
  | lambda l => l.closure.pointers ++ l.fields.pointers

/-- The handles that the object owns: a lambda has those of its body. -/
def tethers : Object → List Tether
  | lambda l => programTethers l.body
  | _ => []

instance : Node Object where
  kindName o := o.type.nodeName
  pointers := pointers
  tethers := tethers

/-! ## Kinds -/

/-- The objects of one type. -/
def ofType (t : ObjectType) : Kind Object { o : Object // o.type = t } where
  name := t.nodeName
  wrap := Subtype.val
  unwrap? o := if h : o.type = t then some ⟨o, h⟩ else none
  unwrap_wrap a := by simp [a.property]
  wrap_unwrap n a h := by
    split at h
    · cases h; rfl
    · cases h
  kindName_wrap a := congrArg ObjectType.nodeName a.property

def tiles : Kind Object Tile where
  name := "Tile"
  wrap := tile
  unwrap?
    | tile t => some t
    | _ => none
  wrap_unwrap n a h := by cases n <;> simp_all

def vertices : Kind Object Vertex where
  name := "Vertex"
  wrap := vertex
  unwrap?
    | vertex v => some v
    | _ => none
  wrap_unwrap n a h := by cases n <;> simp_all

def edges : Kind Object Edge where
  name := "Edge"
  wrap := edge
  unwrap?
    | edge e => some e
    | _ => none
  wrap_unwrap n a h := by cases n <;> simp_all

def patches : Kind Object Patch where
  name := "Patch"
  wrap := patch
  unwrap?
    | patch p => some p
    | _ => none
  wrap_unwrap n a h := by cases n <;> simp_all

def clusters : Kind Object Cluster where
  name := "Cluster"
  wrap := cluster
  unwrap?
    | cluster c => some c
    | _ => none
  wrap_unwrap n a h := by cases n <;> simp_all

def lambdas : Kind Object Lambda where
  name := "Lambda"
  wrap := lambda
  unwrap?
    | lambda l => some l
    | _ => none
  wrap_unwrap n a h := by cases n <;> simp_all

end Object

/-! ## Renaming nodes -/

section Rename

variable {m : Type → Type} [Monad m] (f : ObjectType → NodeId → m NodeId)

def Datum.renameNodes : Datum → m Datum
  | .object type id => return .object type (← f type id)
  | d => return d

/-- Renames the nodes in the order of the names. -/
def Fields.renameNodes (fs : Fields) : m Fields := do
  let renamed ← fs.toList.mapM fun (name, d) => return (name, ← d.renameNodes f)
  return Std.ExtTreeMap.ofList renamed compare

/-- The object with every node it points at replaced, in the order of `pointers`. -/
def Object.renameNodes : Object → m Object
  | .tile t => do
    let vertices ← t.vertices.mapM (f .vertex)
    let edges ← t.edges.mapM (f .edge)
    let parent ← t.parent.mapM (f .patch)
    return .tile { vertices, edges, parent, fields := ← t.fields.renameNodes f }
  | .vertex v => do
    let tile ← v.tile.mapM (f .tile)
    return .vertex { v with tile, fields := ← v.fields.renameNodes f }
  | .edge e => do
    let tile ← e.tile.mapM (f .tile)
    return .edge { e with tile, fields := ← e.fields.renameNodes f }
  | .patch p => do
    let tiles ← p.tiles.mapM (f .tile)
    return .patch { p with tiles, fields := ← p.fields.renameNodes f }
  | .cluster c => do
    let items ← c.items.mapM (Datum.renameNodes f)
    return .cluster { items, fields := ← c.fields.renameNodes f }
  | .lambda l => do
    let closure ← l.closure.renameNodes f
    return .lambda { l with closure, fields := ← l.fields.renameNodes f }

end Rename

end Mosaic
