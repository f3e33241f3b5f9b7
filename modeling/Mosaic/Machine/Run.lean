import Mosaic.Machine.Binding
import Mosaic.Machine.Call
import Mosaic.Machine.Closure
import Mosaic.Machine.Comprehension
import Mosaic.Primitive.Apply
import Mosaic.Store.Field

/-!
# Running programs

`MachineM.perform` is what each operation does with its operands, `MachineM.runItem` one step of a
program, and `Machine.run` a whole run. A run that fails leaves the machine as deep in scopes as it
was before, without anything left on its stacks. A program may run for ever, so a run has a number
of items that it may take; if they are used up it has no result.
-/

namespace Mosaic

open Mosaic.Graph (NodeId)

namespace MachineM

/-- What an operation does with its operands, the first one first. -/
def perform (op : Op) (args : List Operand) : MachineM Effect := do
  match op, args with
  | .getVariable, [name] => getVariable (← ofExcept name.toVariable)
  | .pushContext, _ =>
    modify fun m => { m with scopes := m.scopes.pushContext {} }
    return .done
  | .popContext, _ =>
    let (_, scopes) ← ofExcept (← get).scopes.popContext
    modify fun m => { m with scopes }
    return .done
  | .pushFrame, _ =>
    setScopes (← get).scopes.pushFrame
    return .done
  | .popFrame, _ =>
    let (_, scopes) ← ofExcept (← get).scopes.popFrame
    modify fun m => { m with scopes }
    return .done
  | .assign _, [] => fail (.malformedProgram "assign without a value")
  | .assign n, value :: targets => assign n value targets
  | .apply f, args =>
    let values ← ofExcept (args.mapM Operand.toValue)
    return .value (← keeping (values.filterMap Value.node?) (onStore (f.apply values)))
  | .getField name, [object] =>
    let v ← ofExcept object.toValue
    return .value (← keeping v.node?.toList (onStore (StoreM.getField v name)))
  | .getFieldRef field, [binding] => getFieldRef (← ofExcept binding.toVariable) field
  | .setField _, [] => fail (.malformedProgram "set-field without a value")
  | .setField n, value :: targets => setField n value targets
  | .branch yes no, [test] =>
    let v ← ofExcept test.toValue
    return .items (if ← ofExcept v.toBool then yes else no)
  | .iterate var 0 body, [source] => openCluster var body source
  | .iterate var index body, [result, source] => addResult var index body result source
  | .makeLambda params body free, [label] =>
    makeLambda (← ofExcept label.toVariable) ⟨params, body, free⟩
  | .setDependencies, _ => setDependencies
  | .call _, args => call args
  | .memoize key, [v] => memoize key (← ofExcept v.toValue)
  | _, _ => fail (.malformedProgram "missing operand")

/-- Counts an operation against the limit. -/
def tick : MachineM Unit := do
  modify fun m => { m with steps := m.steps + 1 }
  let m ← get
  match m.config.maxSteps with
  | some limit => if limit < m.steps then fail (.stepBudgetExceeded limit)
  | none => pure ()

def pushOperand (operand : Operand) : MachineM Unit :=
  modify fun m => { m with operands := operand :: m.operands }

/-- Takes the operands of an operation, performs it, and does what it leaves to be done. -/
def runOp (op : Op) : MachineM Unit := do
  let m ← get
  let needed := op.arity
  let args := m.operands.take needed
  if args.length < needed then fail (.stackUnderflow op.name needed args.length)
  set { m with operands := m.operands.drop needed }
  match ← perform op args.reverse with
  | .value v => pushOperand (.value v)
  | .items items => modify fun m => { m with program := items ++ m.program }
  | .done => return ()

/-- Runs one item. A failure gets the line of the operation and the active calls, except that the
step limit does not look at the calls. -/
def runItem : Item → MachineM Unit
  | .value v => pushOperand (.value v)
  | .literal _ type id => pushOperand (.value (.object type id))
  | .var name => pushOperand (.var name)
  | .error failure => do throw (failure.withBacktrace (← get).scopes.backtrace)
  | .op op line => do
    try tick catch failure => throw (failure.atLine line)
    try runOp op
    catch failure => throw ((failure.atLine line).withBacktrace (← get).scopes.backtrace)

end MachineM

namespace Machine

/-- The result of a run that has come to its end, if its scopes are as deep as at the start and
exactly one value is left. -/
def result (m : Machine) (start : Checkpoint) : Except Failure Value :=
  let finish := m.scopes.checkpoint
  if finish.contexts ≠ start.contexts then
    .error { cause := .unbalancedScope "context" start.contexts finish.contexts }
  else if finish.frames ≠ start.frames then
    .error { cause := .unbalancedScope "frame" start.frames finish.frames }
  else if !m.builders.isEmpty then
    .error { cause := .malformedProgram "comprehension left unfinished" }
  else
    match m.operands with
    | [] => .error { cause := .malformedProgram "no result" }
    | [.value v] => .ok v
    | [.var name] =>
      .error { cause := .malformedProgram s!"result is the unresolved variable `{name}`" }
    | operands =>
      let n := operands.length
      .error { cause := .malformedProgram s!"{n} operands left at end of run" }

/-- Drops what a failed run has left. -/
def reset (m : Machine) (start : Checkpoint) : Machine :=
  { m with program := [], operands := [], builders := [], scopes := m.scopes.restore start }

/-- Runs what is left of the program. The nodes in `held` are kept besides what the machine and its
operations hold. It has no result if the program does not end within `fuel` items. -/
def execute (held : List NodeId) : Nat → Machine → Option (Except Failure Unit × Machine)
  | 0, _ => none
  | fuel + 1, m =>
    match m.program with
    | [] => some (.ok (), m)
    | item :: rest =>
      let pins := Pins.of fun _ => held
      match (MachineM.runItem item).run pins |>.run { m with program := rest } with
      | .ok _ m => execute held fuel m
      | .error failure m => some (.error failure, m)

/-- Runs a program to its result. The memo starts empty, and afterwards has what the run has
remembered. The caller has the program, so the nodes in its text are among those in `held`. -/
def run (m : Machine) (held : List NodeId) (fuel : Nat) (program : Program) :
    Option (Except Failure Value × Machine) :=
  let start := m.scopes.checkpoint
  (execute held fuel { m with program, operands := [], builders := [], steps := 0, memo := {} }).map
    fun (ended, m) =>
      match ended.bind fun _ => m.result start with
      | .ok v => (.ok v, { m with operands := [] })
      | .error failure => (.error failure, m.reset start)

end Machine

end Mosaic
