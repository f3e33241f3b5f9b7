import Mosaic.Program

/-!
# Expressions

The syntax trees of the language.
-/

namespace Mosaic

/-- Infix operators; each is a primitive. -/
inductive BinaryOp where
  | add
  | sub
  | mul
  | div
  | pow
  | eq
  | ne
  | lt
  | le
  | gt
  | ge
  | and
  | or
deriving DecidableEq, Repr

def BinaryOp.primitive : BinaryOp → Primitive
  | add => .add
  | sub => .sub
  | mul => .mul
  | div => .div
  | pow => .pow
  | eq => .eq
  | ne => .ne
  | lt => .lt
  | le => .le
  | gt => .gt
  | ge => .ge
  | and => .and
  | or => .or

/-- The operator whose primitive has the name. -/
def BinaryOp.ofName? (n : Name) : Option BinaryOp :=
  [add, sub, mul, div, pow, eq, ne, lt, le, gt, ge, and, or].find? fun op =>
    op.primitive.name == n.text

/-- Prefix operators; each is a primitive. -/
inductive UnaryOp where
  | neg
  | not
deriving DecidableEq, Repr

def UnaryOp.primitive : UnaryOp → Primitive
  | neg => .neg
  | not => .not

/-- The operator whose primitive has the name. -/
def UnaryOp.ofName? (n : Name) : Option UnaryOp :=
  [neg, not].find? fun op => op.primitive.name == n.text

mutual

inductive Expr where
  | number (n : Number)
  | text (s : String)
  | bool (b : Bool)
  | nil
  | var (name : Name)
  | cluster (items : List Expr)
  | binary (op : BinaryOp) (lhs rhs : Expr)
  | unary (op : UnaryOp) (operand : Expr)
  /-- A primitive called by name. -/
  | primitive (name : Name) (args : List Expr)
  | cond (test yes no : Expr)
  | letIn (bindings : List Binding) (body : Expr)
  | lambda (label : Name) (params : List Name) (body : Expr)
  | call (callee : Expr) (args : List Expr)
  | field (object : Expr) (name : Name)
  /-- The cluster of the values of `body` for each element of `source`. -/
  | comprehension (var : Name) (source body : Expr)
  /-- An expression with its source line. -/
  | located (line : Nat) (e : Expr)

/-- One entry of a block. -/
inductive Binding where
  /-- Binds the value, or the items of the cluster that it is, to names. -/
  | bind (targets : List Name) (value : Expr)
  /-- Assigns it to fields of bound objects instead. -/
  | setField (targets : List (Name × Name)) (value : Expr)

end

instance : Inhabited Expr := ⟨.nil⟩

/-- The names that a block binds. -/
def Binding.targets : Binding → List Name
  | .bind targets _ => targets
  | .setField .. => []

/-! ## Names that are read -/

mutual

/-- The names that an expression reads from where it stands. A block binds its names throughout. -/
def Expr.reads : Expr → List Name
  | .number _ | .text _ | .bool _ | .nil => []
  | .var name => [name]
  | .cluster items => readsAll items
  | .binary _ lhs rhs => lhs.reads ++ rhs.reads
  | .unary _ operand => operand.reads
  | .primitive _ args => readsAll args
  | .cond test yes no => test.reads ++ yes.reads ++ no.reads
  | .letIn bindings body =>
    let bound := bindings.flatMap Binding.targets
    (body.reads ++ bindingReads bindings).filter fun n => !bound.contains n
  | .lambda _ params body => body.reads.filter fun n => !n.isPositional && !params.contains n
  | .call callee args => callee.reads ++ readsAll args
  | .field object _ => object.reads
  | .comprehension var source body => source.reads ++ body.reads.filter fun n => n != var
  | .located _ e => e.reads

def readsAll : List Expr → List Name
  | [] => []
  | e :: es => e.reads ++ readsAll es

def bindingReads : List Binding → List Name
  | [] => []
  | .bind _ value :: bs => value.reads ++ bindingReads bs
  | .setField targets value :: bs => targets.map Prod.fst ++ value.reads ++ bindingReads bs

end

/-- The distinct names that an expression reads, in order. -/
def Expr.dependencies (e : Expr) : List Name := Name.sorted e.reads

end Mosaic
