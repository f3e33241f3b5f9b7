import Mosaic.Decimal.Shortest

/-!
# Writing doubles

A `Layout` holds the choices that writing a double leaves open: which numbers are written
positionally, and whether a whole number keeps a fraction. `Layout.write` writes a bit pattern with
the digits of its shortest decimal.
-/

namespace Mosaic

/-- How a double is laid out as text. -/
structure Layout where
  /-- The exponents of the leading digit, from the first and below the second, that are written
  positionally; without bounds all are. -/
  positional : Option (Int × Int)
  /-- Whether a whole number is written with a trailing `.0`. -/
  keepsFraction : Bool
deriving DecidableEq, Repr

namespace Layout

/-- Every number positionally, whole numbers without a point: `1000`, `0.5`, `-0`. -/
def plain : Layout := ⟨none, false⟩

/-- Tells a whole double from a whole number, and very large or small numbers by an exponent:
`1.0`, `1e16`, `1.5e-7`. -/
def scientific : Layout := ⟨some (-4, 16), true⟩

def zeros (n : Nat) : List Char := List.replicate n '0'

/-- The digits `ds` with `exponent` more places after them, without an exponent mark. -/
def writePositional (l : Layout) (ds : List Char) (exponent : Int) : List Char :=
  if 0 ≤ exponent then
    ds ++ zeros exponent.toNat ++ (if l.keepsFraction then ['.', '0'] else [])
  else
    let places := (-exponent).toNat
    if places < ds.length then
      ds.take (ds.length - places) ++ '.' :: ds.drop (ds.length - places)
    else '0' :: '.' :: (zeros (places - ds.length) ++ ds)

/-- One digit before the point and the exponent of that digit after an `e`. -/
def writeScientific (ds : List Char) (leading : Int) : List Char :=
  let fraction := match ds.drop 1 with
    | [] => []
    | rest => '.' :: rest
  ds.take 1 ++ fraction ++ 'e' :: (toString leading).toList

def writeDecimal (l : Layout) (d : Decimal) : List Char :=
  let ds := Nat.toDigits 10 d.digits
  let leading := d.exponent + ds.length - 1
  match l.positional with
  | some (first, last) =>
    if first ≤ leading && leading < last then l.writePositional ds d.exponent
    else writeScientific ds leading
  | none => l.writePositional ds d.exponent

/-- The text of a bit pattern. -/
def write (l : Layout) (bits : UInt64) : String :=
  let signed (negative : Bool) (cs : List Char) :=
    String.ofList (if negative then '-' :: cs else cs)
  match Binary64.decode bits with
  | .nan => "NaN"
  | .infinite negative => signed negative ['i', 'n', 'f']
  | .finite negative m q =>
    signed negative (l.writeDecimal (if m = 0 then ⟨0, 0⟩ else Decimal.shortest m q))

end Layout

end Mosaic
