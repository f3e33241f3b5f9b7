import Std.Data.ExtTreeSet
import Mosaic.Graph.Collect

/-!
# Tables

How a pool is laid out: the nodes of each kind are in a table of their own, the edges of all nodes in
another, and the counts of the handles in a third. Each operation changes one table after the other,
and leaves all of them as they were if it fails. Whether a node is live is read off the edges, also
to tell why it is not among the nodes of a kind.
-/

namespace Mosaic.Graph

/-- The edges of the live nodes, by owner. -/
abbrev Adjacency := Std.ExtTreeMap NodeId Edges compare

/-- The nodes of one kind. -/
abbrev NodeTable (ν : Type) := Std.ExtTreeMap NodeId ν compare

namespace Adjacency

/-- Adds an edge, if the owner has a row. -/
def addEdge (a : Adjacency) (owner target : NodeId) : Adjacency :=
  a.modify owner fun e => e.add target

def removeEdge (a : Adjacency) (owner target : NodeId) : Adjacency :=
  a.modify owner fun e => e.remove target

def addEdges (a : Adjacency) (owner : NodeId) (targets : List NodeId) : Adjacency :=
  targets.foldl (fun a t => a.addEdge owner t) a

def removeEdges (a : Adjacency) (owner : NodeId) (targets : List NodeId) : Adjacency :=
  targets.foldl (fun a t => a.removeEdge owner t) a

/-- The rows of the owners that are not among the visited ones. -/
def unvisited (a : Adjacency) (visited : NodeSet) : Adjacency :=
  a.filter fun id _ => !visited.contains id

theorem size_unvisited_insert {a : Adjacency} {visited : NodeSet} {id : NodeId} {e : Edges}
    (hid : visited.contains id = false) (he : a[id]? = some e) :
    (a.unvisited (visited.insert id)).size < (a.unvisited visited).size :=
  size_filter_insert hid he

/-- Visits the addresses in `work` and all that can be reached from them. An address that was visited
before is passed over; one without a row is a fault. -/
def mark (a : Adjacency) (visited : NodeSet) : List NodeId → Except Fault NodeSet
  | [] => .ok visited
  | id :: work =>
    if _hid : visited.contains id then mark a visited work
    else
      match _he : a[id]? with
      | none => .error (.corrupt id)
      | some e =>
        mark a (visited.insert id)
          (e.targets.filter (fun t => !(visited.insert id).contains t) ++ work)
termination_by work => ((a.unvisited visited).size, work.length)
decreasing_by
  · exact Prod.Lex.right _ (by simp)
  · exact Prod.Lex.left _ _ (size_unvisited_insert (by rwa [Bool.not_eq_true] at _hid) _he)

end Adjacency

structure Tables (ν : Type) where
  /-- The nodes, by the name of their kind. -/
  nodes : Std.ExtTreeMap String (NodeTable ν) compare := {}
  /-- Every live node has a row, even if it points at nothing. -/
  adjacency : Adjacency := {}
  /-- How many handles are held on each address. -/
  roots : Std.ExtTreeMap NodeId Nat compare := {}
  next : NodeId := 1

namespace Tables

variable {ν α : Type} [Node ν]

/-- The nodes of a kind. -/
def nodesOf (t : Tables ν) (kind : String) : NodeTable ν := t.nodes.getD kind {}

def contains (t : Tables ν) (id : NodeId) : Bool := t.adjacency.contains id

/-! ## Handles -/

def handleCount (t : Tables ν) (id : NodeId) : Nat := t.roots.getD id 0

def acquire (t : Tables ν) (id : NodeId) : Tables ν :=
  { t with roots := t.roots.insert id (t.handleCount id + 1) }

def release (t : Tables ν) (id : NodeId) : Tables ν :=
  match t.roots[id]? with
  | none => t
  | some n =>
    { t with roots := if n - 1 = 0 then t.roots.erase id else t.roots.insert id (n - 1) }

/-! ## Nodes -/

/-- Stores a node at a new address, with a handle on it. -/
def allocate (t : Tables ν) (node : ν) : NodeId × Tables ν :=
  let kind := Node.kindName node
  (t.next,
    { nodes := t.nodes.insert kind ((t.nodesOf kind).insert t.next node)
      adjacency := Adjacency.addEdges (t.adjacency.insert t.next {}) t.next (Node.pointers node)
      roots := t.roots.insert t.next (t.handleCount t.next + 1)
      next := t.next + 1 })

/-- Why a node is not among the nodes of a kind. -/
def missing (k : Kind ν α) (t : Tables ν) (id : NodeId) : Fault :=
  if t.contains id then .wrongKind id k.name else .dangling id

/-- The payload of a node of the kind. -/
def find? (k : Kind ν α) (t : Tables ν) (id : NodeId) : Option α :=
  (t.nodesOf k.name)[id]?.bind k.unwrap?

def get (k : Kind ν α) (t : Tables ν) (id : NodeId) : Except Fault α :=
  match t.find? k id with
  | some a => .ok a
  | none => .error (t.missing k id)

/-- Changes a payload. The edges are touched only if the node then points elsewhere. -/
def update (k : Kind ν α) (t : Tables ν) (id : NodeId) (f : α → α) : Except Fault Unit × Tables ν :=
  match t.find? k id with
  | none => (.error (t.missing k id), t)
  | some a =>
    let before := Node.pointers (k.wrap a)
    let node := k.wrap (f a)
    let after := Node.pointers node
    (.ok (),
      { t with
        nodes := t.nodes.insert k.name ((t.nodesOf k.name).insert id node)
        adjacency :=
          if before = after then t.adjacency
          else Adjacency.addEdges (Adjacency.removeEdges t.adjacency id before) id after })

/-- The address, if there is a node of the kind at it. -/
def address (k : Kind ν α) (t : Tables ν) (id : NodeId) : Except Fault NodeId :=
  if (t.find? k id).isSome then .ok id else .error (t.missing k id)

/-- Holds one more handle on a node of the kind. -/
def hold (k : Kind ν α) (t : Tables ν) (id : NodeId) : Except Fault Unit × Tables ν :=
  if (t.find? k id).isSome then (.ok (), t.acquire id) else (.error (t.missing k id), t)

/-- Adds an edge between two live nodes. -/
def link (t : Tables ν) (owner target : NodeId) : Except Fault Unit × Tables ν :=
  match [owner, target].find? fun id => !t.contains id with
  | some id => (.error (.dangling id), t)
  | none => (.ok (), { t with adjacency := t.adjacency.addEdge owner target })

/-! ## Collection -/

/-- The addresses with handles on them. -/
def rooted (t : Tables ν) : List NodeId := (t.roots.filter fun _ n => 0 < n).keys

/-- The nodes that are among the retained ones. -/
def sweep (nodes : NodeTable ν) (retained : NodeSet) : NodeTable ν :=
  nodes.filter fun id _ => retained.contains id

/-- Removes what is not among the retained ones, first from the nodes of each kind and then from the
edges. -/
def prune (t : Tables ν) (retained : NodeSet) : Tables ν :=
  { t with
    nodes := t.nodes.map fun _ nodes => sweep nodes retained
    adjacency := t.adjacency.filter fun id _ => retained.contains id }

/-- The handles that the stored nodes own. -/
def tethers (t : Tables ν) : List Tether :=
  t.nodes.values.flatMap fun nodes => nodes.values.flatMap Node.tethers

/-- The addresses of the handles that go with the nodes that are not retained. A handle stays if a
retained node shares it, or somebody outside of the tables. -/
def letGo (t : Tables ν) (retained : NodeSet) (outside : List Tether) : List NodeId :=
  (t.tethers.eraseDups.filter fun h =>
    !(t.prune retained).tethers.contains h && !outside.contains h).map Prod.snd

/-- Keeps the retained nodes. The others let go of the handles that they own. -/
def keep (t : Tables ν) (retained : NodeSet) (outside : List Tether) : Collection × Tables ν :=
  ({ roots := t.rooted.length
     retained := retained.size
     swept := t.nodes.foldl (fun n _ nodes => n + (nodes.size - (sweep nodes retained).size)) 0
     prunedEdges := (t.adjacency.unvisited retained).foldl (fun n _ e => n + e.size) 0 },
    (t.letGo retained outside).foldl release (t.prune retained))

/-- Keeps exactly the nodes that can be reached from the handles. If one of them has no row, nothing is
removed. The handles in `outside` are not owned by stored nodes alone. -/
def collect (t : Tables ν) (outside : List Tether) : Except Fault Collection × Tables ν :=
  match t.adjacency.mark {} t.rooted with
  | .error fault => (.error fault, t)
  | .ok retained => (.ok (t.keep retained outside).1, (t.keep retained outside).2)

/-- The addresses of the handles that a collection lets go of, each as often as there are handles. -/
def lost (t : Tables ν) (outside : List Tether) : List NodeId :=
  match t.adjacency.mark {} t.rooted with
  | .error _ => []
  | .ok retained => t.letGo retained outside

end Tables

end Mosaic.Graph
