import Mosaic.Graph.Node
import Mosaic.Name

/-!
# Failures

Why an evaluation stops. A failure has a cause, and may know the source line of the instruction that
failed and the calls that were active. Causes that are the fault of the program of instructions, not
of the script it was made from, are internal.
-/

namespace Mosaic

inductive Cause where
  | stackUnderflow (op : String) (needed found : Nat)
  | scopeUnderflow (what : String)
  | unbalancedScope (what : String) (expected found : Nat)
  | malformedProgram (detail : String)
  | typeMismatch (expected got : String)
  | graph (fault : Graph.Fault)
  | undefinedVariable (name : Name)
  | undefinedField (field : Name) (typeName : String)
  | arityMismatch (name : Name) (expected got : Nat)
  | notCallable (typeName : String)
  | notAFieldTarget (typeName : String)
  | cannotCopyFieldRef
  | destructureMismatch (expected got : Nat)
  | invalidGeometry (detail : String)
  | divisionByZero
  | outOfDomain (function input : String)
  | unknownPrimitive (name : Name)
  | stackOverflow (depth : Nat)
  | stepBudgetExceeded (limit : Nat)
  | custom (text : String)
deriving DecidableEq, Repr

namespace Cause

/-- Whether no script can cause it by itself. -/
def isInternal : Cause → Bool
  | stackUnderflow .. | scopeUnderflow _ | unbalancedScope .. | malformedProgram _
  | typeMismatch .. | graph _ => true
  | _ => false

/-- One word for the cause. -/
def word : Cause → String
  | stackUnderflow .. => "StackUnderflow"
  | scopeUnderflow _ => "ScopeUnderflow"
  | unbalancedScope .. => "UnbalancedScope"
  | malformedProgram _ => "MalformedProgram"
  | typeMismatch .. => "TypeMismatch"
  | graph _ => "Graph"
  | undefinedVariable _ => "UndefinedVariable"
  | undefinedField .. => "UndefinedField"
  | arityMismatch .. => "ArityMismatch"
  | notCallable _ => "NotCallable"
  | notAFieldTarget _ => "NotAFieldTarget"
  | cannotCopyFieldRef => "CannotCloneFieldRef"
  | destructureMismatch .. => "DestructureMismatch"
  | invalidGeometry _ => "InvalidGeometry"
  | divisionByZero => "DivisionByZero"
  | outOfDomain .. => "OutOfDomain"
  | unknownPrimitive _ => "UnknownPrimitive"
  | stackOverflow _ => "StackOverflow"
  | stepBudgetExceeded _ => "StepBudgetExceeded"
  | custom _ => "Custom"

def message : Cause → String
  | stackUnderflow op needed found =>
    s!"operand stack underflow in `{op}`: needs {needed}, found {found}"
  | scopeUnderflow what => s!"cannot pop {what}: none active"
  | unbalancedScope what expected found =>
    s!"unbalanced scopes at end of run: expected {expected} {what}(s), found {found}"
  | malformedProgram detail => s!"malformed program: {detail}"
  | typeMismatch expected got => s!"type mismatch: expected {expected}, got {got}"
  | graph fault => fault.message
  | undefinedVariable name => s!"undefined variable: {name}"
  | undefinedField field typeName => s!"no field `{field}` on {typeName}"
  | arityMismatch name expected got =>
    let word := if expected = 1 then "argument" else "arguments"
    s!"{name} expects {expected} {word}, got {got}"
  | notCallable typeName => s!"{typeName} is not callable"
  | notAFieldTarget typeName => s!"cannot assign a field of {typeName}"
  | cannotCopyFieldRef => "a field reference cannot be copied"
  | destructureMismatch expected got =>
    s!"cannot destructure {got} value(s) into {expected} target(s)"
  | invalidGeometry detail => s!"invalid geometry: {detail}"
  | divisionByZero => "division by zero"
  | outOfDomain function input => s!"{function} is undefined for {input}"
  | unknownPrimitive name => s!"unknown primitive: {name}"
  | stackOverflow depth => s!"maximum call depth exceeded (limit: {depth})"
  | stepBudgetExceeded limit => s!"evaluation step budget exceeded (limit: {limit})"
  | custom text => text

end Cause

/-- A cause, with what is known about where it arose. -/
structure Failure where
  cause : Cause
  line : Option Nat := none
  /-- The labels of the active calls, outermost first. -/
  backtrace : List Name := []
deriving DecidableEq, Repr

namespace Failure

instance : Coe Cause Failure := ⟨fun cause => { cause }⟩

def message (f : Failure) : String := f.cause.message

/-- Adds the line, unless one is known. -/
def atLine (f : Failure) (line : Option Nat) : Failure :=
  { f with line := f.line.or line }

/-- Adds the active calls, unless some are known. -/
def withBacktrace (f : Failure) (backtrace : List Name) : Failure :=
  { f with backtrace := if f.backtrace.isEmpty then backtrace else f.backtrace }

/-- Same cause at the same line, whatever the calls were. -/
def agrees (f g : Failure) : Bool := f.cause = g.cause && f.line = g.line

/-- The line, the message and the calls in one line of text. -/
def text (f : Failure) : String :=
  let line := match f.line with
    | some n => s!"line {n}: "
    | none => ""
  let calls := match f.backtrace with
    | [] => ""
    | labels => " (in " ++ " -> ".intercalate (labels.map Name.text) ++ ")"
  line ++ f.message ++ calls

end Failure

end Mosaic
