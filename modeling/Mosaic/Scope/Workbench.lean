import Mosaic.Memo
import Mosaic.Scope
import Mosaic.Store

/-!
# A workbench for scopes

A client that drives a stack of contexts, with a memo, a store for the lambdas it parks, and the
checkpoints it has taken.
-/

namespace Mosaic

structure ScopeWorkbench where
  scopes : Scopes := {}
  memo : Memo := {}
  store : Store := {}
  /-- The checkpoints that were taken, oldest first. -/
  marks : Array Checkpoint := #[]

namespace ScopeWorkbench

/-- Parks a new lambda with no body. -/
def park (w : ScopeWorkbench) (label : Name) : Except Failure Unit × ScopeWorkbench :=
  let pins := Pins.of fun _ => w.scopes.nodes
  match (StoreM.allocate (.lambda { label })).run pins |>.run w.store with
  | .error failure store => (.error failure, { w with store })
  | .ok id store =>
    match w.scopes.park id with
    | .error failure => (.error failure, { w with store })
    | .ok scopes => (.ok (), { w with store, scopes })

/-- Takes the parked lambdas, and returns their labels. -/
def takeParked (w : ScopeWorkbench) : Except Failure (List Name × ScopeWorkbench) :=
  w.scopes.takeParked.map fun (parked, scopes) =>
    let label? (id : Graph.NodeId) :=
      (w.store.pool.get Object.lambdas id).toOption.map Lambda.label
    (parked.filterMap label?, { w with scopes })

def collect (w : ScopeWorkbench) : Except Graph.Fault (Graph.Collection × ScopeWorkbench) :=
  (w.store.collect (.ofList w.scopes.nodes compare)).map fun (c, store) => (c, { w with store })

/-- Takes a checkpoint. -/
def mark (w : ScopeWorkbench) : ScopeWorkbench :=
  { w with marks := w.marks.push w.scopes.checkpoint }

/-- Goes back to a checkpoint. -/
def restore? (w : ScopeWorkbench) (mark : Nat) : Option ScopeWorkbench :=
  w.marks[mark]?.map fun c => { w with scopes := w.scopes.restore c }

end ScopeWorkbench

end Mosaic
