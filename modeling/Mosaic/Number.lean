import Mosaic.Double

/-!
# Numbers

The one numeric type of the language: a double with a single zero. Equality is equality of bit
patterns, so a number always equals itself, while the order is the order of the reals and leaves out
what is not a number.
-/

namespace Mosaic

/-- A real number. Negative zero is not one of them. -/
structure Number where
  value : Double
  oneZero : value ≠ Double.negativeZero
deriving DecidableEq

namespace Number

/-- The number with this value; negative zero becomes zero. -/
def ofDouble (x : Double) : Number :=
  if h : x = Double.negativeZero then ⟨Double.zero, by decide⟩ else ⟨x, h⟩

def ofNat (n : Nat) : Number := ofDouble (Double.ofNat n)

def zero : Number := ofDouble Double.zero

instance : Inhabited Number := ⟨zero⟩

instance : Repr Number := ⟨fun n _ => repr n.value⟩

def isZero (n : Number) : Bool := n.value == Double.zero

def isFinite (n : Number) : Bool := n.value.isFinite

def isNegative (n : Number) : Bool := n.value.isNegative

/-- The whole number that `n` is, if it is one that fits a 64-bit index. The bound `2 ^ 64` itself
counts as the largest index. -/
def toIndex? (n : Number) : Option Nat :=
  n.value.decode.wholeNumber?.bind fun i =>
    if i ≤ 1 <<< 64 then some (min i (1 <<< 64 - 1)) else none

/-! ## Arithmetic -/

def add (a b : Number) : Number := ofDouble (a.value.add b.value)

def sub (a b : Number) : Number := ofDouble (a.value.sub b.value)

def mul (a b : Number) : Number := ofDouble (a.value.mul b.value)

def div (a b : Number) : Number := ofDouble (a.value.div b.value)

def pow (a b : Number) : Number := ofDouble (a.value.pow b.value)

def neg (a : Number) : Number := ofDouble a.value.neg

def sin (a : Number) : Number := ofDouble a.value.sin

def cos (a : Number) : Number := ofDouble a.value.cos

def sqrt (a : Number) : Number := ofDouble a.value.sqrt

/-! ## Order and text -/

/-- The order of the reals; there is none if either side is not a number. -/
def compare? (a b : Number) : Option Ordering := a.value.compare? b.value

/-- The text shown to users. -/
def text (n : Number) : String := n.value.text

/-- The text that tells apart any two numbers, except those that are not numbers. -/
def exactText (n : Number) : String := n.value.exactText

@[simp] theorem value_ofDouble (x : Double) :
    (ofDouble x).value = if x = Double.negativeZero then Double.zero else x := by
  unfold ofDouble
  split <;> rfl

@[simp] theorem ofDouble_value (n : Number) : ofDouble n.value = n := by
  simp [ofDouble, n.oneZero]

end Number

end Mosaic
