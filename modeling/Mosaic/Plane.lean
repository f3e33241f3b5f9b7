import Mosaic.Double

/-!
# The plane

Points, regular polygons, centroids, distances, and the grid on which near points meet.
-/

namespace Mosaic

structure Point where
  x : Double
  y : Double
deriving DecidableEq, Repr, Inhabited

namespace Point

def origin : Point := ⟨.zero, .zero⟩

/-- Whether both coordinates are equal as real numbers. -/
def agrees (p q : Point) : Bool :=
  p.x.compare? q.x == some .eq && p.y.compare? q.y == some .eq

def isFinite (p : Point) : Bool := p.x.isFinite && p.y.isFinite

/-- Both coordinates in brackets. -/
def text (p : Point) : String :=
  "(" ++ p.x.text ++ ", " ++ p.y.text ++ ")"

end Point

namespace Plane

/-- A full turn. -/
def turn : Double := ⟨0x401921fb54442d18⟩

/-- The corners of the regular polygon with `sides` sides of length one. The first side runs from
the origin along the x axis, and the corners go round counter-clockwise. -/
def regularPolygon (sides : Nat) : List Point :=
  let step := turn.div (.ofNat sides)
  let next (at_ : Point) (k : Nat) : Point :=
    let heading := step.mul (.ofNat k)
    ⟨at_.x.add heading.cos, at_.y.add heading.sin⟩
  ((List.range sides).foldl (fun (at_, corners) k => (next at_ k, at_ :: corners))
    (Point.origin, [])).2.reverse

/-- The mean of the points; the origin if there are none. -/
def centroid (points : List Point) : Point :=
  if points.isEmpty then Point.origin
  else
    let n := Double.ofNat points.length
    let sum := points.foldl (fun s p => (⟨s.x.add p.x, s.y.add p.y⟩ : Point)) Point.origin
    ⟨sum.x.div n, sum.y.div n⟩

/-- The largest `r` with `r * r ≤ n` that differs from the accumulator only in its low `bits`
bits. -/
def squareRoot (n : Nat) : Nat → Nat → Nat
  | 0, r => r
  | bit + 1, r =>
    let larger := r + 1 <<< bit
    squareRoot n bit (if larger * larger ≤ n then larger else r)

/-- The root of `s * 2 ^ (2 * q)`, rounded once. The radicand is widened until its root has more
bits than a double, and a last bit records whether the root is exact. -/
def roundedRoot (s : Nat) (q : Int) : Double :=
  let widened := s <<< 128
  let root := squareRoot widened (widened.log2 / 2 + 1) 0
  let inexact := if root * root = widened then 0 else 1
  ⟨Binary64.nearest (2 * root + inexact) (q - 65)⟩

/-- The length of the vector `(x, y)`. An infinite component makes it infinite, whatever the other
one is. -/
def hypotenuse (x y : Double) : Double :=
  match x.decode, y.decode with
  | .infinite _, _ | _, .infinite _ => .infinity
  | .nan, _ | _, .nan => .ofUndefined [x, y]
  | .finite _ m p, .finite _ n q =>
    let e := min p q
    let a := m <<< (p - e).toNat
    let b := n <<< (q - e).toNat
    roundedRoot (a * a + b * b) e

def distance (a b : Point) : Double := hypotenuse (b.x.sub a.x) (b.y.sub a.y)

/-- One millionth: how far apart the grid lines are. -/
def locationSpacing : Double := ⟨0x3eb0c6f7a0b5ed8d⟩

/-- The grid line nearest to a coordinate, a half going away from zero. It is kept within 64 bits,
and what is not a number goes to line zero. -/
def snap (v : Double) : Int :=
  match (v.div locationSpacing).decode with
  | .nan => 0
  | .infinite negative => if negative then -0x8000000000000000 else 0x7fffffffffffffff
  | .finite negative m q =>
    let r := Binary64.roundAway m q
    if negative then max (-0x8000000000000000) (-(r : Int)) else min 0x7fffffffffffffff (r : Int)

/-- Points with one key share a location. -/
def locationKey (p : Point) : Int × Int := (snap p.x, snap p.y)

end Plane

end Mosaic
