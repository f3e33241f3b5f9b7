import Mosaic.Machine.Basic
import Mosaic.MemoKey
import Mosaic.Store.Copy

/-!
# Calls

A call runs the body of a lambda in a new context that has its closure, its parameters and its
positional names, and nothing else. If results are remembered, a call with a known key is answered
by a copy of the result instead.
-/

namespace Mosaic.MachineM

open Mosaic.Graph (NodeId)

/-- Binds the arguments from the `i`-th on, each to its position and to its parameter. -/
def bindArguments (frame : Frame) : Nat → List (Name × Value) → Frame
  | _, [] => frame
  | i, (param, arg) :: rest =>
    bindArguments ((frame.define (Name.positional i) arg).define param arg) (i + 1) rest

/-- The frame that a body starts with. -/
def calleeFrame (l : Lambda) (args : List Value) : StoreM Frame := do
  let closure ← l.closure.toList.mapM fun (name, d) => return (name, ← StoreM.load d)
  let frame := closure.foldl (fun f (name, v) => f.define name v) {}
  return bindArguments frame 1 (l.params.zip args)

/-- Enters the body of a lambda. -/
def enter (l : Lambda) (args : List Value) (key : Option String) : MachineM Effect := do
  let m ← get
  match m.config.maxCallDepth with
  | some limit => if limit < m.scopes.depth then fail (.stackOverflow limit)
  | none => pure ()
  let frame ← onStore (calleeFrame l args)
  modify fun m =>
    { m with scopes := m.scopes.pushContext { frames := [frame], label := some l.label } }
  let memoize : Program := match key with
    | some key => [.op (.memoize key) none]
    | none => []
  return .items (l.body ++ .op .popContext none :: memoize)

/-- Calls a lambda. A result that is known is copied while the lambda, the arguments and the result
itself are held. -/
def invoke (callee : NodeId) (args : List Value) : MachineM Effect := do
  let l ← onStore (StoreM.fetch Object.lambdas callee)
  if l.arity ≠ args.length then fail (.arityMismatch l.label l.arity args.length)
  let m ← get
  match if m.config.memoize then memoKey? callee args else none with
  | some key =>
    let (known, memo) := m.memo.ask key
    set { m with memo }
    match known with
    | some v =>
      let held := callee :: args.filterMap Value.node? ++ v.node?.toList
      return .value (← keeping held (onStore (StoreM.copy v)))
    | none => enter l args (some key)
  | none => enter l args none

/-- The value of a variable; a lambda without parameters is called. -/
def getVariable (name : Name) : MachineM Effect := do
  let v ← lookup name
  match v with
  | .datum (.object .lambda id) =>
    let l ← onStore (StoreM.fetch Object.lambdas id)
    if l.arity = 0 then invoke id [] else return .value v
  | _ => return .value v

def call (operands : List Operand) : MachineM Effect := do
  match ← ofExcept (operands.mapM Operand.toValue) with
  | [] => fail (.malformedProgram "call without a callee")
  | .datum (.object .lambda id) :: args => invoke id args
  | other :: _ => fail (.notCallable other.typeName)

/-- Remembers the result of a call, and passes it on. -/
def memoize (key : String) (v : Value) : MachineM Effect := do
  modify fun m => { m with memo := m.memo.insert key v }
  return .value v

end Mosaic.MachineM
