import Mosaic.Machine.Basic

/-!
# Closures

A lambda takes the values of its free names from the scope it is made in. The names that are not
bound yet are filled in later, at the end of the block: this is how the lambdas of a block can call
themselves and each other.
-/

namespace Mosaic.MachineM

open Mosaic.Graph (NodeId)

/-- The data of those names that are in scope. -/
def capture (names : List Name) : MachineM (List (Name × Datum)) := do
  let scopes := (← get).scopes
  let found := names.filterMap fun n => (scopes.lookup? n).map fun v => (n, v)
  ofExcept (found.mapM fun (n, v) => return (n, ← v.toDatum))

/-- Makes a lambda. What it captures is held until it has it. -/
def makeLambda (label : Name) (t : Template) : MachineM Effect := do
  let captured ← capture t.free
  let lambda := { Lambda.ofTemplate label t with closure := .ofList captured compare }
  let id ← keeping (captured.filterMap fun p => p.2.node?) (onStore (StoreM.allocate (.lambda lambda)))
  if !lambda.isComplete then setScopes ((← get).scopes.park id)
  return .value (.object .lambda id)

/-- Adds to the closure of a lambda what it misses and is in scope now. -/
def complete (id : NodeId) : MachineM Unit := do
  let lambda ← onStore (StoreM.fetch Object.lambdas id)
  let found ← capture lambda.unresolved
  if !found.isEmpty then
    onStore <| StoreM.update Object.lambdas id fun l =>
      { l with closure := l.closure.insertMany found }

/-- Completes the lambdas in order. No scope has them any more: they are held until it was their
turn. -/
def completeAll : List NodeId → MachineM Unit
  | [] => return ()
  | id :: ids => do
    keeping (id :: ids) (complete id)
    completeAll ids

def setDependencies : MachineM Effect := do
  let (parked, scopes) ← ofExcept (← get).scopes.takeParked
  modify fun m => { m with scopes }
  completeAll parked
  return .done

end Mosaic.MachineM
