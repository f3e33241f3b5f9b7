import Mosaic.Primitive
import Mosaic.Value

/-!
# Programs

Code for the machine: a list of items, each of which puts a value or a variable on the operand
stack, runs an operation on it, or stops the run. The bodies of branches, comprehensions and lambdas
are programs inside operations.
-/

namespace Mosaic

open Mosaic.Graph (NodeId)

mutual

/-- One step of a program. -/
inductive Item where
  | value (v : Value)
  /-- An object that the text of the program mentions, and holds by a handle of its own. -/
  | literal (handle : Nat) (type : ObjectType) (id : NodeId)
  | var (name : Name)
  /-- Stops the run. -/
  | error (failure : Failure)
  | op (op : Op) (line : Option Nat)

/-- An operation on the operand stack. -/
inductive Op where
  /-- The value of a variable; a lambda without parameters is called. -/
  | getVariable
  | pushContext
  | popContext
  | pushFrame
  | popFrame
  /-- Binds a value to so many variables; if not to one, the value is a cluster of their values. -/
  | assign (targets : Nat)
  | apply (f : Primitive)
  | getField (name : Name)
  /-- The right to assign a field of the object that a variable is bound to. -/
  | getFieldRef (field : Name)
  /-- Assigns so many fields, as `assign` does. -/
  | setField (targets : Nat)
  | branch (yes no : List Item)
  /-- One round of a comprehension. -/
  | iterate (var : Name) (index : Nat) (body : List Item)
  | makeLambda (params : List Name) (body : List Item) (free : List Name)
  /-- Completes the closures of the lambdas that were made before what they mention. -/
  | setDependencies
  | call (args : Nat)
  /-- Remembers the result of a call. -/
  | memoize (key : String)

end

abbrev Program := List Item

namespace Op

/-- How many operands the operation takes. The numbers of targets and arguments are 64-bit words, so
the largest of them leaves no room for the value or the callee. -/
def arity : Op → Nat
  | pushContext | popContext | pushFrame | popFrame | setDependencies => 0
  | getVariable | getField _ | getFieldRef _ | branch .. | makeLambda .. | memoize _ => 1
  | iterate _ index _ => if index = 0 then 1 else 2
  | assign n | setField n | call n => (n + 1) % 1 <<< 64
  | apply f => f.arity

def name : Op → String
  | getVariable => "get-variable"
  | pushContext => "push-context"
  | popContext => "pop-context"
  | pushFrame => "push-frame"
  | popFrame => "pop-frame"
  | assign _ => "assign"
  | apply _ => "pure"
  | getField _ => "get-field"
  | getFieldRef _ => "get-field-ref"
  | setField _ => "set-field"
  | branch .. => "if"
  | iterate .. => "iterate"
  | makeLambda .. => "make-lambda"
  | setDependencies => "set-dependencies"
  | call _ => "call"
  | memoize _ => "memoize"

end Op

/-! ## Literals -/

mutual

/-- The nodes that the literal values of an item name. -/
def Item.nodes : Item → List NodeId
  | .value v => v.node?.toList
  | .literal _ _ id => [id]
  | .op op _ => op.nodes
  | _ => []

def Op.nodes : Op → List NodeId
  | .branch yes no => programNodes yes ++ programNodes no
  | .iterate _ _ body => programNodes body
  | .makeLambda _ body _ => programNodes body
  | _ => []

/-- The nodes that the literal values of a program name. -/
def programNodes : List Item → List NodeId
  | [] => []
  | item :: items => item.nodes ++ programNodes items

end

/-! ## Templates -/

/-- A lambda before it is made. -/
structure Template where
  params : List Name
  body : Program
  /-- The names that the body takes from where the lambda is made, in order. -/
  free : List Name

namespace Template

/-- The template of a body that reads the names in `reads`. Parameters and positional names are
bound by every call, so they are not free. -/
def ofReads (params : List Name) (body : Program) (reads : List Name) : Template where
  params
  body
  free := Name.sorted (reads.filter fun n => !n.isPositional && !params.contains n)

def op (t : Template) : Op := .makeLambda t.params t.body t.free

end Template

end Mosaic
