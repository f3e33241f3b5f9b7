import Mosaic.Store

/-!
# Fields

Reading a field of an object. The fields that were assigned come first; the others are read off the
object itself, and a list is then a new cluster.
-/

namespace Mosaic

open Mosaic.Graph (NodeId)

/-- The number that a text of decimal digits stands for, with or without a plus sign. -/
def decimalIndex? (s : String) : Option Nat :=
  let digits := match s.toList with
    | '+' :: ds => ds
    | ds => ds
  if digits.isEmpty || !digits.all Char.isDigit then none
  else some (digits.foldl (fun n d => 10 * n + (d.toNat - '0'.toNat)) 0)

namespace StoreM

/-- The node as a value, or nil. -/
def loadOption (t : ObjectType) : Option NodeId → StoreM Value
  | some id => load (.object t id)
  | none => return .nil

/-- A new cluster of objects of one type. -/
def clusterOf (t : ObjectType) (ids : List NodeId) : StoreM Value := do
  makeCluster (← ids.mapM fun id => load (.object t id))

/-- The positions of the vertices of a tile, in order. -/
def tilePoints (tile : Tile) : StoreM (List Point) :=
  tile.vertices.mapM fun id => return (← fetch Object.vertices id).position

/-- The two vertices that an edge joins, if it belongs to a tile that has any. Indices are 64-bit
words, so the one after the largest is zero. -/
def endpoints (edge : Edge) : StoreM (Option (NodeId × NodeId)) := do
  match edge.tile with
  | none => return none
  | some id =>
    let vertices := (← fetch Object.tiles id).vertices
    let at? (i : Nat) := vertices[i % 1 <<< 64 % vertices.length]?
    return do return (← at? edge.index, ← at? (edge.index + 1))

def undefinedField {α : Type} (name : Name) (t : ObjectType) : StoreM α :=
  fail (.undefinedField name t.name)

def tileField (tile : Tile) (name : Name) : StoreM Value := do
  match name.text with
  | "vertices" => clusterOf .vertex tile.vertices
  | "edges" => clusterOf .edge tile.edges
  | "patch" => loadOption .patch tile.parent
  | "sides" => return .count tile.vertices.length
  | "centroid" => makePoint (Plane.centroid (← tilePoints tile))
  | _ => undefinedField name .tile

def vertexField (vertex : Vertex) (name : Name) : StoreM Value := do
  match name.text with
  | "x" => return .number (.ofDouble vertex.position.x)
  | "y" => return .number (.ofDouble vertex.position.y)
  | "tile" => loadOption .tile vertex.tile
  | "index" => return .count vertex.index
  | _ => undefinedField name .vertex

def edgeField (edge : Edge) (name : Name) : StoreM Value := do
  match name.text with
  | "start" => loadOption .vertex ((← endpoints edge).map Prod.fst)
  | "end" => loadOption .vertex ((← endpoints edge).map Prod.snd)
  | "tile" => loadOption .tile edge.tile
  | "length" =>
    match ← endpoints edge with
    | some (a, b) =>
      let a ← fetch Object.vertices a
      let b ← fetch Object.vertices b
      return .number (.ofDouble (Plane.distance a.position b.position))
    | none => return .nil
  | _ => undefinedField name .edge

/-- New clusters of coordinates, one for each point, each made while the ones before it are held. -/
def makePoints : List Point → StoreM (List Value)
  | [] => return []
  | p :: ps => do
    let v ← makePoint p
    keeping v.node?.toList do return v :: (← makePoints ps)

def patchField (patch : Patch) (name : Name) : StoreM Value := do
  match name.text with
  | "tiles" => clusterOf .tile patch.tiles
  | "locations" => makeCluster (← makePoints patch.locations)
  | _ => undefinedField name .patch

def clusterField (cluster : Cluster) (name : Name) : StoreM Value := do
  if name.text = "size" then return .count cluster.items.length
  match (decimalIndex? name.text).bind fun i => cluster.items[i]? with
  | some d => load d
  | none => undefinedField name .cluster

def lambdaField (lambda : Lambda) (name : Name) : StoreM Value := do
  match name.text with
  | "arity" => return .count lambda.arity
  | _ => undefinedField name .lambda

/-- A field that an object has by itself. -/
def ownField (o : Object) (name : Name) : StoreM Value :=
  match o with
  | .tile t => tileField t name
  | .vertex v => vertexField v name
  | .edge e => edgeField e name
  | .patch p => patchField p name
  | .cluster c => clusterField c name
  | .lambda l => lambdaField l name

/-- A field of a value. -/
def getField (v : Value) (name : Name) : StoreM Value := do
  match v with
  | .datum (.object t id) =>
    let o ← fetchObject t id
    match o.fields[name]? with
    | some d => load d
    | none => ownField o name
  | _ => fail (.undefinedField name v.typeName)

end StoreM

end Mosaic
