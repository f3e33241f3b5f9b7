import Mosaic.Name

/-!
# Primitives

The built-in functions of the language, by name and number of arguments. What they compute is in
`Mosaic.Primitive.Apply`.
-/

namespace Mosaic

inductive Primitive where
  | add
  | sub
  | mul
  | div
  | pow
  | neg
  | sin
  | cos
  | sqrt
  | and
  | or
  | not
  | eq
  | ne
  | lt
  | le
  | gt
  | ge
  | len
  | item
  | regular
  | polygon
  | patch
  /-- A cluster of so many items; it has no name to call it by. -/
  | cluster (items : Nat)
deriving DecidableEq, Repr

namespace Primitive

def name : Primitive → String
  | add => "add"
  | sub => "sub"
  | mul => "mul"
  | div => "div"
  | pow => "pow"
  | neg => "neg"
  | sin => "sin"
  | cos => "cos"
  | sqrt => "sqrt"
  | and => "and"
  | or => "or"
  | not => "not"
  | eq => "eq"
  | ne => "ne"
  | lt => "lt"
  | le => "le"
  | gt => "gt"
  | ge => "ge"
  | len => "len"
  | item => "at"
  | regular => "regular"
  | polygon => "polygon"
  | patch => "patch"
  | cluster _ => "cluster"

/-- The primitives that a script can call by name. -/
def named : List Primitive :=
  [add, sub, mul, div, pow, neg, sin, cos, sqrt, and, or, not, eq, ne, lt, le, gt, ge, len, item,
    regular, polygon, patch]

def ofName? (n : Name) : Option Primitive := named.find? fun p => p.name == n.text

def arity : Primitive → Nat
  | neg | sin | cos | sqrt | not | len | regular | polygon | patch => 1
  | add | sub | mul | div | pow | and | or | eq | ne | lt | le | gt | ge | item => 2
  | cluster items => items

/-- Name and number of arguments. -/
def text (p : Primitive) : String := "PureFn(" ++ p.name ++ "/" ++ toString p.arity ++ ")"

end Primitive

end Mosaic
