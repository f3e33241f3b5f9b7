import Mosaic.Binary64

/-!
# Shortest decimals

A positive double stands for every real that rounds to it. `Decimal.shortest` is the decimal of that
neighbourhood on the coarsest power-of-ten grid that meets it: no decimal with fewer digits reads
back as the same double. Of two such decimals the nearer is taken, and the larger if they are
equally near. All arithmetic is on natural numbers.
-/

namespace Mosaic

/-- The number `digits * 10 ^ exponent`. -/
structure Decimal where
  digits : Nat
  exponent : Int
deriving DecidableEq, Repr, Inhabited

/-- The reals between `low / den` and `high / den`, which round to `mid / den`. The ends belong to
it when `closed` holds. -/
structure Neighbourhood where
  low : Nat
  mid : Nat
  high : Nat
  den : Nat
  closed : Bool
deriving DecidableEq, Repr

namespace Neighbourhood

/-- The reals that round to the double `m * 2 ^ q`. The double below a power of two is nearer than
the one above, unless it is subnormal. Ties round to even, so an even mantissa owns its ends. -/
def ofBinary (m : Nat) (q : Int) : Neighbourhood :=
  let scale := Nat.pow 2 (q - 2).toNat
  let below := if m = Binary64.hiddenBit && q != Binary64.leastExponent then 1 else 2
  { low := (4 * m - below) * scale
    mid := 4 * m * scale
    high := (4 * m + 2) * scale
    den := Nat.pow 2 (2 - q).toNat
    closed := m % 2 == 0 }

/-- Whether `n * unit / (den * scale)` lies in the neighbourhood. -/
def contains (r : Neighbourhood) (scale unit n : Nat) : Bool :=
  if r.closed then decide (r.low * scale ≤ n * unit) && decide (n * unit ≤ r.high * scale)
  else decide (r.low * scale < n * unit) && decide (n * unit < r.high * scale)

/-- The positive multiple of `10 ^ k` in the neighbourhood that is nearest to the middle, if one of
the middle's two neighbours on that grid lies inside. -/
def onGrid? (r : Neighbourhood) (k : Int) : Option Nat :=
  let unit := r.den * Nat.pow 10 k.toNat
  let scale := Nat.pow 10 (-k).toNat
  let below := r.mid * scale / unit
  let above := below + 1
  match 0 < below && r.contains scale unit below, r.contains scale unit above with
  | true, true => if 2 * (r.mid * scale) < (below + above) * unit then some below else some above
  | true, false => some below
  | false, true => some above
  | false, false => none

/-- Tries the grids `10 ^ k`, `10 ^ (k - 1)`, … in turn, `n` of them. -/
def coarsest? (r : Neighbourhood) : Nat → Int → Option Decimal
  | 0, _ => none
  | n + 1, k =>
    match r.onGrid? k with
    | some digits => some ⟨digits, k⟩
    | none => r.coarsest? n (k - 1)

end Neighbourhood

namespace Decimal

/-- The shortest decimal that reads back as the positive double `m * 2 ^ q`. The search starts at a
power of ten above the number and ends well below the least subnormal. -/
def shortest (m : Nat) (q : Int) : Decimal :=
  let r := Neighbourhood.ofBinary m q
  let top := (Nat.toDigits 10 (r.high / r.den)).length
  (r.coarsest? (top + 344) top).getD ⟨0, 0⟩

end Decimal

end Mosaic
