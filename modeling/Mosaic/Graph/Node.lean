/-!
# Nodes

What a graph stores: nodes of several kinds, each of which reports the nodes it points at, and the
handles that it owns. A `Kind` describes one kind of node by its name and by the payloads that its
nodes carry.
-/

namespace Mosaic.Graph

/-- The address of a node. Addresses are given out in order and never given out again. -/
abbrev NodeId := Nat

/-- How an address is written. -/
def NodeId.text (id : NodeId) : String := "#" ++ toString (id : Nat)

/-- A handle that a payload can own: its number, and the address it is on. -/
abbrev Tether := Nat × NodeId

/-- The nodes of a graph: each has a kind and points at others. A target that is reported twice
counts twice. A handle that several payloads share has one number, and is let go of with the last
of them. -/
class Node (ν : Type) where
  kindName : ν → String
  pointers : ν → List NodeId
  /-- The handles that the payload owns, on nodes that it need not point at. -/
  tethers : ν → List Tether

/-- One kind of node: its name, and the nodes it has, one for each payload. -/
structure Kind (ν α : Type) [Node ν] where
  name : String
  wrap : α → ν
  unwrap? : ν → Option α
  unwrap_wrap : ∀ a, unwrap? (wrap a) = some a := by intros; rfl
  wrap_unwrap : ∀ n a, unwrap? n = some a → wrap a = n
  kindName_wrap : ∀ a, Node.kindName (wrap a) = name := by intros; rfl

/-- What can go wrong with an address. -/
inductive Fault where
  /-- A node that can be reached has no entry. -/
  | corrupt (node : NodeId)
  /-- The node is gone. -/
  | dangling (node : NodeId)
  /-- The node is there, and of another kind. -/
  | wrongKind (node : NodeId) (expected : String)
deriving DecidableEq, Repr

/-- One word for the fault. -/
def Fault.word : Fault → String
  | corrupt _ => "CorruptAdjacency"
  | dangling _ => "DanglingHandle"
  | wrongKind .. => "TypeMismatch"

def Fault.message : Fault → String
  | corrupt node => "corrupt graph: node " ++ node.text ++ " has no adjacency entry"
  | dangling node => "dangling handle: node " ++ node.text ++ " was collected"
  | wrongKind node expected => "node " ++ node.text ++ " is not a " ++ expected

end Mosaic.Graph
