import Mosaic.Decimal.Layout

/-!
# Doubles

A double by its bit pattern, so that zeros keep their sign and what is not a number keeps its
payload. Arithmetic is that of the reals, rounded once. A result that is not a number comes from the
first operand that is not one; if all operands are numbers, the operation was invalid.
-/

namespace Mosaic

structure Double where
  bits : UInt64
deriving DecidableEq, Repr, Inhabited

namespace Double

def ofFloat (x : Float) : Double := ⟨x.toBits⟩

def toFloat (x : Double) : Float := Float.ofBits x.bits

/-- The double nearest to a whole number. -/
def ofNat (n : Nat) : Double := ⟨Binary64.nearest n 0⟩

def zero : Double := ⟨0⟩

def negativeZero : Double := ⟨Binary64.signBit⟩

def infinity : Double := ⟨0x7ff0000000000000⟩

def decode (x : Double) : Binary64 := Binary64.decode x.bits

def isNaN (x : Double) : Bool := x.decode == .nan

def isFinite (x : Double) : Bool :=
  match x.decode with
  | .finite .. => true
  | _ => false

def isNegative (x : Double) : Bool :=
  match x.decode with
  | .finite negative m _ => negative && m != 0
  | .infinite negative => negative
  | .nan => false

/-- The order of the reals; there is none if either side is not a number. Both zeros are equal. -/
def compare? (x y : Double) : Option Ordering :=
  if x.isNaN || y.isNaN then none
  else if x.toFloat < y.toFloat then some .lt
  else if y.toFloat < x.toFloat then some .gt
  else some .eq

/-! ## What is not a number -/

/-- The bit that tells quiet patterns from signaling ones. -/
def quietBit : UInt64 := 0x0008000000000000

/-- Whether it is a pattern that no operation passes over. -/
def isSignaling (x : Double) : Bool := x.isNaN && x.bits &&& quietBit == 0

/-- The result of an invalid operation. -/
def invalid : Double := ⟨0xfff8000000000000⟩

/-- The pattern as an operation hands it on. -/
def quiet (x : Double) : Double := ⟨x.bits ||| quietBit⟩

/-- The result of an operation that has no number for a result. -/
def ofUndefined (operands : List Double) : Double :=
  match operands.find? isNaN with
  | some x => x.quiet
  | none => invalid

/-- The result `x` of an operation on `operands`. -/
def ofResult (operands : List Double) (x : Float) : Double :=
  let result := ofFloat x
  if result.isNaN then ofUndefined operands else result

/-! ## Arithmetic -/

def add (x y : Double) : Double := ofResult [x, y] (x.toFloat + y.toFloat)

def sub (x y : Double) : Double := ofResult [x, y] (x.toFloat - y.toFloat)

def mul (x y : Double) : Double := ofResult [x, y] (x.toFloat * y.toFloat)

def div (x y : Double) : Double := ofResult [x, y] (x.toFloat / y.toFloat)

/-- A power. The zeroth power of anything and all powers of one are one, unless a side is
signaling. -/
def pow (x y : Double) : Double :=
  if x.isSignaling || y.isSignaling then ofUndefined [x, y]
  else ofResult [x, y] (x.toFloat ^ y.toFloat)

def neg (x : Double) : Double := ⟨x.bits ^^^ Binary64.signBit⟩

def sin (x : Double) : Double := ofResult [x] x.toFloat.sin

def cos (x : Double) : Double := ofResult [x] x.toFloat.cos

def sqrt (x : Double) : Double := ofResult [x] x.toFloat.sqrt

/-! ## Text -/

/-- The digits without an exponent: `1000`, `0.5`, `-0`. -/
def text (x : Double) : String := Layout.plain.write x.bits

/-- The text that tells apart any two doubles that are numbers: `1000.0`, `0.5`, `1e16`. -/
def exactText (x : Double) : String := Layout.scientific.write x.bits

end Double

end Mosaic
