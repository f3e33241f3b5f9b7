import Mosaic.Machine.Basic
import Mosaic.Store.Copy

/-!
# Binding names and assigning fields

Binding a value to several names takes a cluster apart. A field is assigned by copying the object,
changing the copy, and binding the name to it: whoever else holds the object does not see the
change.
-/

namespace Mosaic.MachineM

open Mosaic.Graph (NodeId)

/-- The values for `n` targets: the value itself for one, else the items of a cluster of that
size. -/
def destructure (v : Value) (n : Nat) : MachineM (List Value) := do
  if n = 1 then return [v]
  match v with
  | .datum (.object .cluster id) =>
    onStore do
      let items := (← StoreM.fetch Object.clusters id).items
      if items.length ≠ n then StoreM.fail (.destructureMismatch n items.length)
      items.mapM StoreM.load
  | _ => fail (.destructureMismatch n 1)

/-- The nodes of targets and values. -/
def pairNodes (pairs : List (Operand × Value)) : List NodeId :=
  pairs.filterMap (fun p => p.1.node?) ++ pairs.filterMap fun p => p.2.node?

/-- Binds each target to its value, in order. -/
def bindAll : List (Operand × Value) → MachineM Unit
  | [] => return ()
  | (target, v) :: rest => do
    let name ← ofExcept target.toVariable
    setScopes ((← get).scopes.define name v)
    bindAll rest

def assign (n : Nat) (value : Operand) (targets : List Operand) : MachineM Effect := do
  let values ← destructure (← ofExcept value.toValue) n
  bindAll (targets.zip values)
  return .done

def getFieldRef (binding field : Name) : MachineM Effect := do
  let target ← lookup binding
  if !target.isObject then fail (.notAFieldTarget target.typeName)
  return .value (.fieldRef binding field)

/-- Rebinds a name to a copy of its object with one field assigned. The object is held until it was
copied. -/
def writeField (binding field : Name) (v : Value) : MachineM Unit := do
  let target ← lookup binding
  let d ← ofExcept v.toDatum
  match target with
  | .datum (.object t id) =>
    let copy ← keeping [id] (onStore (StoreM.copyWithField t id field d))
    setScopes ((← get).scopes.assign binding (.object t copy))
  | _ => fail (.notAFieldTarget target.typeName)

/-- Assigns each value to its field, in order. It is held until then, and so is what is left to be
assigned. -/
def writeAll : List (Operand × Value) → MachineM Unit
  | [] => return ()
  | (target, v) :: rest => do
    match ← ofExcept target.toValue with
    | .fieldRef binding field =>
      keeping (v.node?.toList ++ pairNodes rest) (writeField binding field v)
    | other => fail (.typeMismatch "field-ref" other.typeName)
    writeAll rest

def setField (n : Nat) (value : Operand) (targets : List Operand) : MachineM Effect := do
  let values ← destructure (← ofExcept value.toValue) n
  writeAll (targets.zip values)
  return .done

end Mosaic.MachineM
