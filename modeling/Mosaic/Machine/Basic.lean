import Mosaic.Memo
import Mosaic.Program.Literal
import Mosaic.Scope
import Mosaic.Store

/-!
# The machine

A machine runs programs on a store. Between runs it keeps the store, the global scope and the memo
of the last run; during a run it also has the rest of the program, the operands, and the clusters of
the comprehensions that are not finished. What a machine mentions, it keeps alive; what an operation has
taken from it, the operation keeps as long as it holds it (`MachineM.keeping`).
-/

namespace Mosaic

open Mosaic.Graph (NodeId)

/-- Limits and habits of a machine. -/
structure Config where
  collectEvery : Nat := Graph.defaultCadence
  /-- How many calls may be active at once. -/
  maxCallDepth : Option Nat := none
  /-- How many operations a run may dispatch. -/
  maxSteps : Option Nat := none
  memoize : Bool := true
deriving DecidableEq, Repr

namespace Config

def limitText : Option Nat → String
  | some n => "Some(" ++ toString n ++ ")"
  | none => "None"

def text (c : Config) : String :=
  "MachineConfig \x7b gc: GcConfig \x7b collect_every: " ++ toString c.collectEvery ++
    " \x7d, max_call_depth: " ++ limitText c.maxCallDepth ++
    ", max_steps: " ++ limitText c.maxSteps ++
    ", memoize: " ++ toString c.memoize ++ " \x7d"

end Config

/-- What waits on the operand stack. -/
inductive Operand where
  | value (v : Value)
  | var (name : Name)
deriving DecidableEq, Repr

namespace Operand

def toValue : Operand → Except Failure Value
  | value v => .ok v
  | var _ => .error { cause := .typeMismatch "value" "variable" }

def toVariable : Operand → Except Failure Name
  | var name => .ok name
  | value v => .error { cause := .typeMismatch "variable" v.typeName }

def node? : Operand → Option NodeId
  | value v => v.node?
  | var _ => none

end Operand

structure Machine where
  config : Config := {}
  store : Store := {}
  scopes : Scopes := {}
  memo : Memo := {}
  /-- What is still to run. -/
  program : Program := []
  /-- The operands, the last one first. -/
  operands : List Operand := []
  /-- The clusters of the comprehensions in progress, the innermost first. -/
  builders : List NodeId := []
  /-- How many operations the last run has dispatched. -/
  steps : Nat := 0

namespace Machine

def ofConfig (config : Config) : Machine :=
  { config, store := { collectEvery := config.collectEvery } }

/-- The nodes on the stacks and in the scopes and the memo, each as often as it is there. -/
def mentions (m : Machine) : List NodeId :=
  programNodes m.program ++ m.operands.filterMap Operand.node? ++ m.scopes.nodes ++ m.builders ++
    m.memo.nodes

/-- The nodes that the machine keeps alive, and those that its objects do. -/
def nodes (m : Machine) : List NodeId := m.mentions ++ m.store.pool.tethers.map Prod.snd

/-- How many handles the machine has on a node. A handle that several objects share is there once. -/
def handleCount (m : Machine) (id : NodeId) : Nat :=
  m.mentions.count id + (m.store.pool.tethers.eraseDups.map Prod.snd).count id

/-- Binds a name in the innermost frame, which between runs is the global one. -/
def define (m : Machine) (name : Name) (v : Value) : Except Failure Machine :=
  (m.scopes.define name v).map fun scopes => { m with scopes }

end Machine

/-- An action of a machine. -/
abbrev MachineM := ReaderT Pins (EStateM Failure Machine)

/-- What an operation leaves to be done. -/
inductive Effect where
  /-- A value for the operand stack. -/
  | value (v : Value)
  /-- Items to run next. -/
  | items (program : Program)
  | done

namespace MachineM

variable {α : Type}

def fail (cause : Cause) : MachineM α := throw { cause }

def ofExcept (x : Except Failure α) : MachineM α :=
  match x with
  | .ok a => pure a
  | .error failure => throw failure

/-- Runs an action that holds some more nodes. -/
def keeping (ids : List NodeId) (x : MachineM α) : MachineM α :=
  fun pins => x.run (pins.also fun _ => ids)

/-- Runs an action on the store of the machine. Besides the pins, what the machine mentions is kept. -/
def onStore (x : StoreM α) : MachineM α := fun pins m =>
  match x.run (pins.also fun _ => m.mentions) |>.run m.store with
  | .ok a store => .ok a { m with store }
  | .error failure store => .error failure { m with store }

/-- Replaces the scopes. -/
def setScopes (x : Except Failure Scopes) : MachineM Unit := do
  let scopes ← ofExcept x
  modify fun m => { m with scopes }

/-- The value of a name in scope. -/
def lookup (name : Name) : MachineM Value := do
  match (← get).scopes.lookup? name with
  | some v => return v
  | none => fail (.undefinedVariable name)

end MachineM

end Mosaic
