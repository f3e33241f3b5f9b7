import Mosaic.Graph.Edges

/-!
# Pools

A pool stores nodes under their addresses, each with its edges, and counts the handles that are held
on them. Reading and writing go through a `Kind`: an address that is live at another kind and one
that is not live at all are told apart.
-/

namespace Mosaic.Graph

/-- A stored node and its edges. -/
structure Entry (ν : Type) where
  node : ν
  edges : Edges

/-- The entries of a pool, by address. -/
abbrev Entries (ν : Type) := Std.ExtTreeMap NodeId (Entry ν) compare

structure Pool (ν : Type) where
  entries : Entries ν := {}
  /-- How many handles are held on each address; none are held on those without an entry. -/
  handles : Std.ExtTreeMap NodeId Nat compare := {}
  /-- The kinds of node that were ever allocated. -/
  kinds : List String := []
  next : NodeId := 1

namespace Pool

variable {ν α : Type} [Node ν]

def empty : Pool ν := {}

instance : Inhabited (Pool ν) := ⟨empty⟩

def size (p : Pool ν) : Nat := p.entries.size

def isEmpty (p : Pool ν) : Bool := p.entries.isEmpty

def contains (p : Pool ν) (id : NodeId) : Bool := p.entries.contains id

/-- The addresses of the nodes, in order. -/
def live (p : Pool ν) : List NodeId := p.entries.keys

/-! ## Handles -/

def handleCount (p : Pool ν) (id : NodeId) : Nat := p.handles.getD id 0

/-- The handles that the stored nodes own. -/
def tethers (p : Pool ν) : List Tether := p.entries.values.flatMap fun e => Node.tethers e.node

/-- Counts one more handle on `id`. -/
def acquire (p : Pool ν) (id : NodeId) : Pool ν :=
  { p with handles := p.handles.insert id (p.handleCount id + 1) }

/-- Counts one handle on `id` less. -/
def release (p : Pool ν) (id : NodeId) : Pool ν :=
  if 1 < p.handleCount id then { p with handles := p.handles.insert id (p.handleCount id - 1) }
  else { p with handles := p.handles.erase id }

/-! ## Nodes -/

/-- Stores a node at a new address. -/
def allocate (p : Pool ν) (node : ν) : NodeId × Pool ν :=
  let kind := Node.kindName node
  (p.next,
    { p with
      entries := p.entries.insert p.next ⟨node, Edges.addAll {} (Node.pointers node)⟩
      kinds := if p.kinds.contains kind then p.kinds else kind :: p.kinds
      next := p.next + 1 })

/-- Why there is no node of the kind at the address. -/
def missing (k : Kind ν α) (p : Pool ν) (id : NodeId) : Fault :=
  if p.contains id then .wrongKind id k.name else .dangling id

/-- The payload at an address. -/
def get (k : Kind ν α) (p : Pool ν) (id : NodeId) : Except Fault α :=
  match p.entries[id]?.bind fun e => k.unwrap? e.node with
  | some a => .ok a
  | none => .error (p.missing k id)

/-- Changes the payload at an address. If the node then points elsewhere, the pointers it had
before are taken away from its edges, and the new ones are added. -/
def update (k : Kind ν α) (p : Pool ν) (id : NodeId) (f : α → α) : Except Fault (Pool ν) :=
  match p.entries[id]? with
  | none => .error (.dangling id)
  | some e =>
    match k.unwrap? e.node with
    | none => .error (.wrongKind id k.name)
    | some a =>
      let node := k.wrap (f a)
      let before := Node.pointers e.node
      let after := Node.pointers node
      let edges := if before = after then e.edges else (e.edges.removeAll before).addAll after
      .ok { p with entries := p.entries.insert id ⟨node, edges⟩ }

/-- Holds one more handle on a node of the kind. -/
def hold (k : Kind ν α) (p : Pool ν) (id : NodeId) : Except Fault (Pool ν) :=
  (p.get k id).map fun _ => p.acquire id

/-! ## Edges -/

/-- The distinct targets of a node, in order. -/
def edgesOf (p : Pool ν) (owner : NodeId) : Except Fault (List NodeId) :=
  match p.entries[owner]? with
  | some e => .ok e.edges.targets
  | none => .error (.dangling owner)

/-- Adds an edge between two live nodes. -/
def link (p : Pool ν) (owner target : NodeId) : Except Fault (Pool ν) :=
  match p.entries[owner]? with
  | none => .error (.dangling owner)
  | some e =>
    if p.contains target then
      .ok { p with entries := p.entries.insert owner { e with edges := e.edges.add target } }
    else .error (.dangling target)

/-! ## Summary -/

/-- How many nodes of each kind there are, by the name of the kind. A kind is listed once a node of
it was allocated. -/
def census (p : Pool ν) : List (String × Nat) :=
  let count (kind : String) :=
    p.entries.foldl (fun n _ e => if Node.kindName e.node = kind then n + 1 else n) 0
  (p.kinds.mergeSort fun a b => (compare a b).isLE).map fun kind => (kind, count kind)

/-- The size of the pool in one line. -/
def summary (p : Pool ν) : String :=
  let entry : String × Nat → String := fun (kind, n) => "(\"" ++ kind ++ "\", " ++ toString n ++ ")"
  "GraphPool \x7b nodes: " ++ toString p.size ++ ", rooted: " ++ toString p.handles.size ++
    ", pools: [" ++ ", ".intercalate (p.census.map entry) ++ "] \x7d"

end Pool

end Mosaic.Graph
