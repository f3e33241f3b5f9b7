import Mosaic.Store

/-!
# Deep copies

A copy of an object copies everything that can be reached from it. It remembers which node became
which, so a node that is reached twice is copied once, and a cycle closes on the copy. A node is
copied by allocating a blank object of its type, remembering it, and then copying what it points at,
in order.
-/

namespace Mosaic

open Mosaic.Graph (NodeId)

/-- The copies made so far, by the nodes they are copies of. -/
abbrev Copies := Std.ExtTreeMap NodeId NodeId compare

/-- An action that copies. -/
abbrev CopyM := StateT Copies StoreM

namespace CopyM

/-- Allocates while the copies made so far are held. -/
def allocate (o : Object) : CopyM NodeId := do
  let copies ← get
  StoreM.keeping copies.values (StoreM.allocate o)

/-- The copy of a node. The first argument bounds how deep nodes can lie inside each other: no
deeper than there are nodes. -/
def copyNode : Nat → ObjectType → NodeId → CopyM NodeId
  | 0, _, id => StoreM.fail (.graph (.dangling id))
  | depth + 1, t, id => do
    match (← get)[id]? with
    | some copy =>
      let _ ← StoreM.fetchObject t copy
      return copy
    | none =>
      let copy ← allocate (.blank t)
      modify (·.insert id copy)
      let source ← StoreM.fetchObject t id
      let renamed ← source.renameNodes (copyNode depth)
      StoreM.update (Object.ofType t) copy fun blank =>
        if h : renamed.type = t then ⟨renamed, h⟩ else blank
      return copy

def copyObject (t : ObjectType) (id : NodeId) : CopyM NodeId := do
  let store ← (get : StoreM Store)
  copyNode (store.pool.size + 1) t id

/-- The copy of a value. Scalars are their own copies. -/
def copyValue : Value → CopyM Value
  | .datum (.object t id) => do
    let copy ← copyObject t id
    StoreM.load (.object t copy)
  | .datum d => return d
  | .fieldRef .. => StoreM.fail .cannotCopyFieldRef

end CopyM

namespace StoreM

/-- A deep copy of a value. -/
def copy (v : Value) : StoreM Value := (CopyM.copyValue v).run' {}

/-- A deep copy of an object. -/
def copyObject (t : ObjectType) (id : NodeId) : StoreM NodeId := (CopyM.copyObject t id).run' {}

/-- A deep copy of an object, with one field assigned. -/
def copyWithField (t : ObjectType) (id : NodeId) (field : Name) (d : Datum) : StoreM NodeId := do
  let copy ← copyObject t id
  update (Object.ofType t) copy fun o =>
    ⟨o.val.withFields (o.val.fields.insert field d), by simp [o.property]⟩
  return copy

end StoreM

end Mosaic
