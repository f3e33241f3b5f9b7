import Mosaic.Expr

/-!
# Compiling expressions

The program of an expression leaves exactly one value on the operand stack. Operations carry the
line of the innermost source position around them. Compiling never fails: a primitive that does not
exist, or has another number of arguments, becomes an item that stops the run when it is reached.
-/

namespace Mosaic

/-- The call of a primitive by name, after its arguments. -/
def callPrimitive (name : Name) (args : Nat) (line : Option Nat) : Item :=
  match Primitive.ofName? name with
  | some f =>
    if f.arity = args then .op (.apply f) line
    else .error (({ cause := .arityMismatch name f.arity args } : Failure).atLine line)
  | none => .error (({ cause := .unknownPrimitive name } : Failure).atLine line)

/-- The rights to assign fields. -/
def fieldTargets (line : Option Nat) : List (Name × Name) → Program
  | [] => []
  | (binding, field) :: targets =>
    .var binding :: .op (.getFieldRef field) line :: fieldTargets line targets

mutual

/-- The program of an expression inside the source line `line`. -/
def Expr.compileAt (line : Option Nat) : Expr → Program
  | .number n => [.value (.number n)]
  | .text s => [.value (.text s)]
  | .bool b => [.value (.bool b)]
  | .nil => [.value .nil]
  | .var name => [.var name, .op .getVariable line]
  | .cluster items => compileAll line items ++ [.op (.apply (.cluster items.length)) line]
  | .binary op lhs rhs =>
    lhs.compileAt line ++ rhs.compileAt line ++ [.op (.apply op.primitive) line]
  | .unary op operand => operand.compileAt line ++ [.op (.apply op.primitive) line]
  | .primitive name args => compileAll line args ++ [callPrimitive name args.length line]
  | .cond test yes no =>
    test.compileAt line ++ [.op (.branch (yes.compileAt line) (no.compileAt line)) line]
  | .letIn bindings body =>
    .op .pushFrame line ::
      (compileBindings line bindings ++
        .op .setDependencies line :: (body.compileAt line ++ [.op .popFrame line]))
  | .lambda label params body =>
    [.var label, .op (Template.ofReads params (body.compileAt line) body.reads).op line]
  -- Looking up a lambda without parameters calls it already.
  | .call (.var name) [] => [.var name, .op .getVariable line]
  | .call callee args =>
    callee.compileAt line ++ compileAll line args ++ [.op (.call args.length) line]
  | .field object name => object.compileAt line ++ [.op (.getField name) line]
  | .comprehension var source body =>
    source.compileAt line ++ [.op (.iterate var 0 (body.compileAt line)) line]
  | .located inner e => e.compileAt (some inner)

def compileAll (line : Option Nat) : List Expr → Program
  | [] => []
  | e :: es => e.compileAt line ++ compileAll line es

def compileBindings (line : Option Nat) : List Binding → Program
  | [] => []
  | .bind targets value :: bs =>
    value.compileAt line ++ targets.map Item.var ++
      .op (.assign targets.length) line :: compileBindings line bs
  | .setField targets value :: bs =>
    value.compileAt line ++ fieldTargets line targets ++
      .op (.setField targets.length) line :: compileBindings line bs

end

/-- The program of an expression. -/
def Expr.compile (e : Expr) : Program := e.compileAt none

end Mosaic
