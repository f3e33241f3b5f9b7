import Mosaic.Proofs.Balance.Flow
import Mosaic.Proofs.Machine.Actions

/-!
# A direct evaluator

`evaluate` computes the value of an expression by recursion on the expression and on the bodies of the
lambdas it calls. It works on a machine whose program, operands and clusters stay empty: only the store
and the scopes matter. What a computation has in its hands while another one runs, it holds, so that a
collection keeps it; what an action is given, the action itself holds as long as it needs it. The fuel
bounds how deep calls lie inside each other and how many rounds a comprehension has; when it is used up
there is no outcome.
-/

namespace Mosaic

open Mosaic.Graph (NodeId)

/-- A computation that holds some nodes. It has no outcome if the fuel does not suffice. -/
def EvalM (α : Type) : Type :=
  List NodeId → Machine → Option (EStateM.Result Failure Machine α)

namespace EvalM

variable {α β : Type}

protected def pure (a : α) : EvalM α := fun _ m => some (.ok a m)

protected def bind (x : EvalM α) (f : α → EvalM β) : EvalM β := fun held m =>
  match x held m with
  | some (.ok a m') => f a held m'
  | some (.error failure m') => some (.error failure m')
  | none => none

instance : Monad EvalM where
  pure := EvalM.pure
  bind := EvalM.bind

theorem bind_pure (x : EvalM α) : x >>= pure = x := by
  funext held m
  show EvalM.bind x EvalM.pure held m = x held m
  unfold EvalM.bind
  cases x held m with
  | none => rfl
  | some r => cases r <;> rfl

theorem exists_of_bind_ok {x : EvalM α} {f : α → EvalM β} {held : List NodeId} {m m' : Machine} {b : β}
    (h : (x >>= f) held m = some (.ok b m')) :
    ∃ a m₁, x held m = some (.ok a m₁) ∧ f a held m₁ = some (.ok b m') := by
  change EvalM.bind x f held m = _ at h
  unfold EvalM.bind at h
  split at h
  · exact ⟨_, _, by assumption, h⟩
  · cases h
  · cases h

/-- There is no fuel left. -/
def stuck : EvalM α := fun _ _ => none

/-- A computation that holds some more nodes. -/
def holding (ids : List NodeId) (x : EvalM α) : EvalM α := fun held m => x (ids ++ held) m

/-- Fails with the active calls. -/
def fail (failure : Failure) : EvalM α := fun _ m =>
  some (.error (failure.withBacktrace m.scopes.backtrace) m)

/-- An action on the store and the scopes for an operation at a source line, while `ids` are held. A
failure gets the line and the active calls. -/
def act (line : Option Nat) (ids : List NodeId) (x : MachineM α) : EvalM α := fun held m =>
  match x (Pins.of fun _ => ids ++ held) m with
  | .ok a m' => some (.ok a m')
  | .error failure m' =>
    some (.error ((failure.atLine line).withBacktrace m'.scopes.backtrace) m')

end EvalM

/-- The nodes that values hold. -/
def heldBy (vs : List Value) : List NodeId := vs.filterMap Value.node?

/-! ## Actions -/

namespace MachineM

def pushFrame : MachineM Unit := do setScopes (← get).scopes.pushFrame

def popFrame : MachineM Unit := do
  let (_, scopes) ← ofExcept (← get).scopes.popFrame
  modify fun m => { m with scopes }

def popContext : MachineM Unit := do
  let (_, scopes) ← ofExcept (← get).scopes.popContext
  modify fun m => { m with scopes }

/-- A new lambda with a closure of what is in scope. It is set aside if something is missing. -/
def newLambda (label : Name) (t : Template) : MachineM Value := do
  let captured ← capture t.free
  let lambda := { Lambda.ofTemplate label t with closure := .ofList captured compare }
  let id ← keeping (captured.filterMap fun p => p.2.node?) (onStore (StoreM.allocate (.lambda lambda)))
  if !lambda.isComplete then setScopes ((← get).scopes.park id)
  return .object .lambda id

/-- The right to assign a field of the object that a name is bound to. -/
def fieldRef (binding field : Name) : MachineM Value := do
  let target ← lookup binding
  if !target.isObject then fail (.notAFieldTarget target.typeName)
  return .fieldRef binding field

/-- Enters a new context with the closure, the parameters and the positional names of a call, and
returns the lambda that is called. -/
def enterCall (callee : NodeId) (args : List Value) : MachineM Lambda := do
  let l ← onStore (StoreM.fetch Object.lambdas callee)
  if l.arity ≠ args.length then fail (.arityMismatch l.label l.arity args.length)
  else
    let frame ← onStore (calleeFrame l args)
    modify fun m =>
      { m with scopes := m.scopes.pushContext { frames := [frame], label := some l.label } }
    return l

/-- Enters the call of a value. -/
def enterValue (f : Value) (args : List Value) : MachineM Lambda :=
  match f with
  | .datum (.object .lambda id) => enterCall id args
  | other => fail (.notCallable other.typeName)

/-- The value of a variable, or the lambda without parameters that it is bound to, whose call is
entered. -/
def enterVariable (name : Name) : MachineM (Value ⊕ Lambda) := do
  let v ← lookup name
  match v with
  | .datum (.object .lambda id) =>
    let l ← onStore (StoreM.fetch Object.lambdas id)
    if l.arity = 0 then return .inr (← enterCall id []) else return .inl v
  | _ => return .inl v

/-- Adds a value to a cluster that is being made. -/
def append (builder : NodeId) (v : Value) : MachineM Unit := do
  let d ← ofExcept v.toDatum
  onStore <| StoreM.update Object.clusters builder fun c => { c with items := c.items ++ [d] }

end MachineM

/-! ## The evaluator -/

open Classical in
/-- An expression, and the line it stands at, whose code a body is. -/
noncomputable def source? (body : Program) : Option (Option Nat × Expr) :=
  if h : ∃ p : Option Nat × Expr, p.2.Countable ∧ body = p.2.compileAt p.1 then some h.choose
  else none

namespace EvalM

/-- Runs the body of a lambda whose call was entered, and leaves its context. -/
noncomputable def body (run : Option Nat → Expr → EvalM Value) (l : Lambda) : EvalM Value :=
  match source? l.body with
  | none => stuck
  | some (line, e) => do
    let v ← run line e
    act none (heldBy [v]) MachineM.popContext
    return v

/-- The value of a variable; a lambda without parameters is called. -/
noncomputable def var (run : Option Nat → Expr → EvalM Value) (line : Option Nat) (name : Name) :
    EvalM Value := do
  match ← act line [] (MachineM.enterVariable name) with
  | .inl v => return v
  | .inr l => body run l

/-- A round of a comprehension: it binds the element in a frame of its own, runs the body there, and adds
the value to the cluster. -/
def round (eval : EvalM Value) (var : Name) (source : Value) (builder : NodeId) (element : Value)
    (next : EvalM Unit) : EvalM Unit := do
  act none (builder :: heldBy [element, source]) MachineM.pushFrame
  let _ ← act none (builder :: heldBy [source]) (MachineM.assign 1 (.value element) [.var var])
  let v ← holding (builder :: heldBy [source]) eval
  act none (builder :: heldBy [v, source]) MachineM.popFrame
  act none [builder] (MachineM.append builder v)
  next

/-- The rounds of a comprehension from an index on. -/
def rounds (eval : EvalM Value) (var : Name) (source : Value) (builder : NodeId) :
    Nat → Option Nat → Nat → EvalM Unit
  | 0, _, _ => stuck
  | fuel + 1, line, index => do
    match ← act line [builder] (MachineM.element? source index) with
    | none => return ()
    | some element =>
      round eval var source builder element (rounds eval var source builder fuel none (index + 1))

/-- The rights to assign fields, in order. -/
def fieldRefs (line : Option Nat) : List (Name × Name) → EvalM (List Value)
  | [] => return []
  | (binding, field) :: targets => do
    let v ← act line [] (MachineM.fieldRef binding field)
    return v :: (← holding (heldBy [v]) (fieldRefs line targets))

/-- A primitive called by name, once its arguments are there. -/
def primitive (line : Option Nat) (name : Name) (args : List Value) : EvalM Value :=
  match Primitive.ofName? name with
  | some f =>
    if f.arity = args.length then
      act line [] (MachineM.keeping (heldBy args) (MachineM.onStore (f.apply args)))
    else fail (Failure.atLine (Cause.arityMismatch name f.arity args.length) line)
  | none => fail (Failure.atLine (Cause.unknownPrimitive name) line)

end EvalM

open EvalM

mutual

/-- The value of an expression inside a source line. The bodies of the lambdas it calls are run by
`run`, and no comprehension has more than `fuel` rounds. -/
noncomputable def Expr.eval (run : Option Nat → Expr → EvalM Value) (fuel : Nat) (line : Option Nat) :
    Expr → EvalM Value
  | .number n => return .number n
  | .text s => return .text s
  | .bool b => return .bool b
  | .nil => return .nil
  | .var name => var run line name
  | .cluster items => do
    let vs ← evalAll run fuel line items
    act line [] (MachineM.keeping (heldBy vs) (MachineM.onStore (StoreM.makeCluster vs)))
  | .binary op lhs rhs => do
    let a ← lhs.eval run fuel line
    let b ← holding (heldBy [a]) (rhs.eval run fuel line)
    act line [] (MachineM.keeping (heldBy [a, b]) (MachineM.onStore (op.primitive.apply [a, b])))
  | .unary op operand => do
    let a ← operand.eval run fuel line
    act line [] (MachineM.keeping (heldBy [a]) (MachineM.onStore (op.primitive.apply [a])))
  | .primitive name args => do
    let vs ← evalAll run fuel line args
    primitive line name vs
  | .cond test yes no => do
    let v ← test.eval run fuel line
    if ← act line [] (MachineM.ofExcept v.toBool) then yes.eval run fuel line
    else no.eval run fuel line
  | .letIn bindings body => do
    act line [] MachineM.pushFrame
    evalBindings run fuel line bindings
    let _ ← act line [] MachineM.setDependencies
    let v ← body.eval run fuel line
    act line (heldBy [v]) MachineM.popFrame
    return v
  | .lambda label params body =>
    act line [] (MachineM.newLambda label
      (Template.ofReads params (body.compileAt line) body.reads))
  | .call (.var name) [] => var run line name
  | .call callee args => do
    let f ← callee.eval run fuel line
    let vs ← holding (heldBy [f]) (evalAll run fuel line args)
    body run (← act line [] (MachineM.enterValue f vs))
  | .field object name => do
    let v ← object.eval run fuel line
    act line [] (MachineM.keeping (heldBy [v]) (MachineM.onStore (StoreM.getField v name)))
  | .comprehension var source body => do
    let s ← source.eval run fuel line
    let builder ← act line []
      (MachineM.keeping (heldBy [s]) (MachineM.onStore (StoreM.allocate (.cluster {}))))
    rounds (body.eval run fuel line) var s builder fuel line 0
    return .object .cluster builder
  | .located inner e => e.eval run fuel (some inner)

/-- The values of expressions, from left to right. -/
noncomputable def evalAll (run : Option Nat → Expr → EvalM Value) (fuel : Nat) (line : Option Nat) :
    List Expr → EvalM (List Value)
  | [] => return []
  | e :: es => do
    let v ← e.eval run fuel line
    return v :: (← holding (heldBy [v]) (evalAll run fuel line es))

/-- Makes the bindings of a block, in order. -/
noncomputable def evalBindings (run : Option Nat → Expr → EvalM Value) (fuel : Nat)
    (line : Option Nat) : List Binding → EvalM Unit
  | [] => return ()
  | .bind targets value :: bs => do
    let v ← value.eval run fuel line
    let _ ← act line [] (MachineM.assign targets.length (.value v) (targets.map .var))
    evalBindings run fuel line bs
  | .setField targets value :: bs => do
    let v ← value.eval run fuel line
    let refs ← holding (heldBy [v]) (fieldRefs line targets)
    let _ ← act line [] (MachineM.setField targets.length (.value v) (refs.map .value))
    evalBindings run fuel line bs

end

/-- The value of an expression inside a source line, with so much fuel. -/
noncomputable def evaluate : Nat → Option Nat → Expr → EvalM Value
  | 0, _, _ => stuck
  | fuel + 1, line, e => e.eval (evaluate fuel) (fuel + 1) line

/-- The outcome of an expression on a machine between runs: a value or a failure, and the machine
afterwards. -/
noncomputable def Machine.evaluate (m : Machine) (held : List NodeId) (fuel : Nat) (e : Expr) :
    Option (Except Failure Value × Machine) :=
  let start := { m with program := [], operands := [], builders := [], steps := 0, memo := {} }
  match Mosaic.evaluate fuel none e held start with
  | some (.ok v m') => some (.ok v, m')
  | some (.error failure m') => some (.error failure, m'.reset m.scopes.checkpoint)
  | none => none

end Mosaic
