/-!
# Double-precision bit patterns

A finite double is `± mantissa * 2 ^ exponent`. `decode` reads a bit pattern that way, and `nearest`
rounds an exact binary fraction to the nearest pattern, a tie going to the even mantissa. Both work
on natural numbers, so what they compute is exact.
-/

namespace Mosaic

/-- What a 64-bit pattern stands for. -/
inductive Binary64 where
  | nan
  | infinite (negative : Bool)
  | finite (negative : Bool) (mantissa : Nat) (exponent : Int)
deriving DecidableEq, Repr

namespace Binary64

/-- The bit that carries the sign. -/
def signBit : UInt64 := 0x8000000000000000

/-- The exponent of the smallest subnormal number, `2 ^ (-1074)`. -/
def leastExponent : Int := -1074

/-- Mantissas of normal numbers start here. -/
def hiddenBit : Nat := 1 <<< 52

def decode (bits : UInt64) : Binary64 :=
  let negative := bits &&& signBit != 0
  let biased := ((bits >>> 52) &&& 0x7ff).toNat
  let fraction := (bits &&& 0xfffffffffffff).toNat
  if biased = 0x7ff then
    if fraction = 0 then infinite negative else nan
  else if biased = 0 then finite negative fraction leastExponent
  else finite negative (hiddenBit + fraction) (leastExponent + (biased - 1 : Nat))

/-- `num / den` rounded to a whole number, a half going to the even neighbour. -/
def roundEven (num den : Nat) : Nat :=
  let whole := num / den
  let twice := 2 * (num % den)
  if twice < den then whole
  else if den < twice then whole + 1
  else if whole % 2 = 0 then whole else whole + 1

/-- The magnitude `m * 2 ^ q` rounded to the nearest double; too large a magnitude is infinite.
The exponent is chosen so that the mantissa has 53 bits, or fewer below the normal range; a mantissa
that rounds up to `2 ^ 53` carries into the exponent field by itself. -/
def nearest (m : Nat) (q : Int) : UInt64 :=
  if m = 0 then 0
  else
    let e := max leastExponent (q + (m.log2 : Int) - 52)
    let shift := q - e
    let mantissa := if 0 ≤ shift then m <<< shift.toNat else roundEven m (1 <<< (-shift).toNat)
    let biased := (e - leastExponent).toNat
    let pattern :=
      if mantissa < hiddenBit then mantissa else mantissa + biased * hiddenBit
    if 0x7ff * hiddenBit ≤ pattern then 0x7ff0000000000000 else pattern.toUInt64

/-- The whole number that a nonnegative finite pattern stands for, if it is one. -/
def wholeNumber? : Binary64 → Option Nat
  | finite negative m q =>
    if negative && m != 0 then none
    else if 0 ≤ q then some (m <<< q.toNat)
    else if m % 1 <<< (-q).toNat = 0 then some (m >>> (-q).toNat)
    else none
  | _ => none

/-- The magnitude rounded to a whole number, a half going away from zero. -/
def roundAway (m : Nat) (q : Int) : Nat :=
  if 0 ≤ q then m <<< q.toNat
  else
    let den := 1 <<< (-q).toNat
    (2 * m + den) / (2 * den)

end Binary64

end Mosaic
