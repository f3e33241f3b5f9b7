import Mosaic.Store.Copy
import Mosaic.Store.Field

/-!
# Tiles and patches

Making a tile from the positions of its vertices, and a patch from tiles. A patch holds copies of
the tiles, and the vertices of different tiles that lie on the same place share a location.
-/

namespace Mosaic

open Mosaic.Graph (NodeId)

/-- The locations of a patch with their keys, in the order in which they were found. -/
abbrev Locations := List ((Int × Int) × Point)

namespace Locations

/-- The index of the location of a point, which is added if it is new. -/
def intern (table : Locations) (p : Point) : Nat × Locations :=
  let key := Plane.locationKey p
  match table.findIdx? fun location => location.1 == key with
  | some i => (i, table)
  | none => (table.length, table ++ [(key, p)])

/-- The indices of the locations of points, in order. -/
def internAll (table : Locations) : List Point → List Nat × Locations
  | [] => ([], table)
  | p :: ps =>
    let (i, table) := table.intern p
    let (is, table) := internAll table ps
    (i :: is, table)

end Locations

namespace StoreM

/-- A new tile with vertices at the points, in order. -/
def makeTile (points : List Point) : StoreM NodeId := do
  let n := points.length
  if n < 3 then fail (.invalidGeometry s!"a tile needs at least 3 vertices, got {n}")
  match points.find? fun p => !p.isFinite with
  | some p => fail (.invalidGeometry ("vertex " ++ p.text ++ " is not finite"))
  | none =>
    let id ← allocate (.tile {})
    keeping [id] do
      let vertices ← allocateAll (points.mapIdx fun index position =>
        .vertex { tile := some id, position, index })
      keeping vertices do
        let edges ← allocateAll ((List.range n).map fun index => .edge { tile := some id, index })
        update Object.tiles id fun t => { t with vertices, edges }
        return id

/-- Copies tiles into a patch one after the other. Each copy is returned with the locations of its
vertices. -/
def placeTiles (patch : NodeId) (table : Locations) :
    List NodeId → StoreM (List (NodeId × List Nat) × Locations)
  | [] => return ([], table)
  | tile :: tiles => do
    let copy ← copyObject .tile tile
    keeping [copy] do
      update Object.tiles copy fun t => { t with parent := some patch }
      let points ← tilePoints (← fetch Object.tiles copy)
      let (locations, table) := table.internAll points
      let (placed, table) ← placeTiles patch table tiles
      return ((copy, locations) :: placed, table)

/-- A new patch of copies of the tiles. -/
def makePatch (tiles : List NodeId) : StoreM NodeId := do
  let id ← allocate (.patch {})
  keeping [id] do
    let (placed, table) ← placeTiles id [] tiles
    update Object.patches id fun p =>
      { p with
        tiles := placed.map Prod.fst
        locations := table.map Prod.snd
        tileLocations := placed.map Prod.snd }
    return id

/-- A datum that is a coordinate. -/
def coordinate (d : Datum) : StoreM Double := do
  let v ← load d
  return (← ofExcept v.toNumber).value

/-- The points that a cluster of clusters of two coordinates stands for. -/
def pointsOf (v : Value) : StoreM (List Point) := do
  let outer ← fetch Object.clusters (← ofExcept (v.toObject .cluster))
  outer.items.mapM fun d => do
    let pair ← load d
    match (← fetch Object.clusters (← ofExcept (pair.toObject .cluster))).items with
    | [x, y] => return ⟨← coordinate x, ← coordinate y⟩
    | items =>
      let n := items.length
      fail (.invalidGeometry s!"a point needs 2 coordinates, got {n}")

end StoreM

end Mosaic
