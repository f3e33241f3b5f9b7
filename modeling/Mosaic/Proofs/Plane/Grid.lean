import Mosaic.Plane
import Mosaic.Proofs.Plane.Quotient

/-!
# Grid lines

A coordinate goes to the grid line that is nearest to its quotient by the spacing, after the quotient was
rounded to a double. Below `2 ^ 52` lines the rounded quotient has binary places behind the point, so coordinates
of one line are at most one spacing apart, although a quotient may be rounded across the border of its cell.
From there on the quotient is a whole number, and from `2 ^ 53` lines on it may be off by more than a line; the
lines end where 64 bits do. So coordinates of one line are near, relatively near, or both beyond the last line
(`Plane.aligned_of_snap_eq`). Conversely, a coordinate is not much farther from its line than half a spacing
(`Plane.snap_near`).
-/

namespace Mosaic

/-- The number that a double stands for. What is not finite stands for zero here. -/
def Double.value (x : Double) : ℚ :=
  match x.decode with
  | .finite negative m q => if negative then -(m * 2 ^ q) else m * 2 ^ q
  | _ => 0

theorem Double.value_of_decode {x : Double} {negative : Bool} {m : ℕ} {q : ℤ} (h : x.decode = .finite negative m q) :
    x.value = if negative then -(m * 2 ^ q : ℚ) else m * 2 ^ q := by
  rw [Double.value, h]

namespace Binary64

variable {m n : ℕ} {p q : ℤ} {x y : ℚ}

theorem ne_leastExponent (hq : 0 ≤ q) : q ≠ leastExponent := by
  rw [leastExponent]
  omega

theorem two_zpow_le_half (hq : q < 0) : (2 : ℚ) ^ q ≤ 1 / 2 := by
  have : (2 : ℚ) ^ q ≤ 2 ^ (-1 : ℤ) := zpow_le_zpow_right₀ (by norm_num) (by omega)
  norm_num at this
  linarith

theorem roundAway_of_nonneg (hq : 0 ≤ q) : (roundAway m q : ℚ) = m * 2 ^ q := by
  obtain ⟨n, rfl⟩ := Int.eq_ofNat_of_zero_le hq
  rw [roundAway, if_pos hq, Int.toNat_natCast, Nat.shiftLeft_eq, zpow_natCast]
  push_cast
  rfl

/-- With binary places behind the point, a number is at least a unit in the last place below the next border. -/
theorem roundAway_of_neg (hq : q < 0) :
    (roundAway m q : ℚ) - 1 / 2 ≤ m * 2 ^ q ∧ (m : ℚ) * 2 ^ q ≤ roundAway m q + 1 / 2 - 2 ^ q := by
  obtain ⟨n, hn⟩ : ∃ n : ℕ, (-q).toNat = n + 1 := ⟨(-q).toNat - 1, by omega⟩
  have hden : 1 <<< (-q).toNat = 2 * 2 ^ n := by rw [Nat.one_shiftLeft, hn, pow_succ, mul_comm]
  have hunit : (2 : ℚ) ^ q = 1 / (2 * 2 ^ n) := by
    have : q = -((n + 1 : ℕ) : ℤ) := by omega
    rw [this, zpow_neg, zpow_natCast, pow_succ, mul_comm, one_div]
  have hround : roundAway m q = (m + 2 ^ n) / (2 * 2 ^ n) := by
    rw [roundAway, if_neg (by omega)]
    dsimp only
    rw [hden, ← Nat.mul_add, Nat.mul_div_mul_left _ _ (by norm_num)]
  have hpos : (0 : ℚ) < 2 ^ n := by positivity
  have hlow : roundAway m q * (2 * 2 ^ n) ≤ m + 2 ^ n := hround ▸ Nat.div_mul_le_self _ _
  have hhigh : m + 2 ^ n + 1 ≤ (roundAway m q + 1) * (2 * 2 ^ n) := by
    rw [hround, Nat.add_mul, one_mul]
    exact Nat.lt_div_mul_add (by positivity)
  have hlow' : (roundAway m q : ℚ) * (2 * 2 ^ n) ≤ m + 2 ^ n := by exact_mod_cast hlow
  have hhigh' : (m + 2 ^ n + 1 : ℚ) ≤ (roundAway m q + 1) * (2 * 2 ^ n) := by exact_mod_cast hhigh
  rw [hunit, mul_one_div]
  constructor
  · rw [le_div_iff₀ (by positivity)]
    linarith
  · have hsub : (roundAway m q : ℚ) + 1 / 2 - 1 / (2 * 2 ^ n) =
        ((roundAway m q + 1 / 2) * (2 * 2 ^ n) - 1) / (2 * 2 ^ n) := by
      field_simp
    rw [hsub, div_le_div_iff_of_pos_right (by positivity)]
    linarith

namespace Rounds

theorem bounds (h : Rounds x m q) : (m : ℚ) * 2 ^ q - 2 ^ q / 2 ≤ x ∧ x ≤ m * 2 ^ q + 2 ^ q / 2 := by
  have := abs_le.mp h.near
  constructor <;> linarith

theorem hidden_le (h : Rounds x m q) (hq : q ≠ leastExponent) : (2 ^ 52 : ℚ) ≤ m := by
  have : 2 ^ 52 ≤ m := not_lt.mp fun hm => hq (h.normal hm)
  exact_mod_cast this

theorem lt_hidden (h : Rounds x m q) : (m : ℚ) + 1 ≤ 2 ^ 53 := by exact_mod_cast h.lt

theorem lower (h : Rounds x m q) (hq : q ≠ leastExponent) : (2 ^ 52 - 1 / 2) * (2 : ℚ) ^ q ≤ x := by
  have hpos : (0 : ℚ) < 2 ^ q := by positivity
  have := mul_le_mul_of_nonneg_right (h.hidden_le hq) hpos.le
  linarith [h.bounds.1]

theorem exponent_le (h : Rounds x m q) {n : ℕ} (hx : x ≤ 2 ^ n) : q ≤ n - 52 := by
  by_contra hlt
  have hne : q ≠ leastExponent := by
    rw [leastExponent]
    omega
  have hpow : (2 : ℚ) ^ ((n : ℤ) - 51) ≤ 2 ^ q := zpow_le_zpow_right₀ (by norm_num) (by omega)
  have hn : (2 : ℚ) ^ n = 2 ^ ((n : ℤ) - 51) * 2 ^ (51 : ℕ) := by
    rw [← zpow_natCast, ← zpow_natCast, ← zpow_add₀ two_ne_zero]
    congr 1
    push_cast
    ring
  have hpos : (0 : ℚ) < 2 ^ ((n : ℤ) - 51) := by positivity
  have hlow := h.lower hne
  have : (2 ^ 52 - 1 / 2) * (2 : ℚ) ^ ((n : ℤ) - 51) ≤ (2 ^ 52 - 1 / 2) * 2 ^ q :=
    mul_le_mul_of_nonneg_left hpow (by norm_num)
  rw [hn] at hx
  nlinarith

theorem cell (h : Rounds x m q) (hq : q < 0) :
    (roundAway m q : ℚ) - 1 / 2 - 2 ^ q / 2 ≤ x ∧ x ≤ roundAway m q + 1 / 2 - 2 ^ q / 2 := by
  obtain ⟨hlow, hhigh⟩ := @roundAway_of_neg m q hq
  obtain ⟨hl, hh⟩ := h.bounds
  constructor <;> linarith

/-- Two quotients with places behind the point that are rounded to one line are at most one line apart. -/
theorem sub_le_of_places (hx : Rounds x m q) (hy : Rounds y n p) (hq : q < 0) (hp : p < 0)
    (hr : roundAway m q = roundAway n p) : y - x ≤ 1 := by
  have hr' : (roundAway m q : ℚ) = roundAway n p := by exact_mod_cast hr
  rcases le_or_gt q p with hqp | hqp
  · have : (2 : ℚ) ^ q ≤ 2 ^ p := zpow_le_zpow_right₀ (by norm_num) hqp
    linarith [(hx.cell hq).1, (hy.cell hp).2]
  · -- the rounded quotients are in the other order, so they were rounded towards each other
    have hleast := hy.least
    have hstep : (2 : ℚ) ^ (p + 1) ≤ 2 ^ q := zpow_le_zpow_right₀ (by norm_num) (by omega)
    rw [zpow_add_one₀ two_ne_zero] at hstep
    have hm : (2 ^ 52 : ℚ) * 2 ^ q ≤ m * 2 ^ q :=
      mul_le_mul_of_nonneg_right (hx.hidden_le (by omega)) (by positivity)
    have hn : (n : ℚ) * 2 ^ p ≤ 2 ^ 53 * 2 ^ p :=
      mul_le_mul_of_nonneg_right (by linarith [hy.lt_hidden]) (by positivity)
    linarith [hx.bounds.1, hy.bounds.2, two_zpow_le_half hq, two_zpow_le_half hp]

theorem exponent_eq_zero (hx : Rounds x m q) (hy : Rounds y n p) (hq : 0 ≤ q) (hp : p < 0)
    (hr : roundAway m q = roundAway n p) : q = 0 := by
  have hr' : (roundAway m q : ℚ) = roundAway n p := by exact_mod_cast hr
  rw [roundAway_of_nonneg hq] at hr'
  have hm : (2 ^ 52 : ℚ) * 2 ^ q ≤ m * 2 ^ q :=
    mul_le_mul_of_nonneg_right (hx.hidden_le (ne_leastExponent hq)) (by positivity)
  have hn : (n : ℚ) * 2 ^ p ≤ (2 ^ 53 - 1) * (1 / 2) :=
    mul_le_mul (by linarith [hy.lt_hidden]) (two_zpow_le_half hp) (by positivity) (by norm_num)
  by_contra hne
  have : (2 : ℚ) ^ (1 : ℤ) ≤ 2 ^ q := zpow_le_zpow_right₀ (by norm_num) (by omega)
  rw [zpow_one] at this
  linarith [(@roundAway_of_neg n p hp).1]

/-- Whole quotients on one line are the same. -/
theorem exponent_eq (hx : Rounds x m q) (hy : Rounds y n p) (hq : 0 ≤ q) (hp : 0 ≤ p)
    (heq : (m : ℚ) * 2 ^ q = n * 2 ^ p) : q = p := by
  have hle {x y : ℚ} {m n : ℕ} {p q : ℤ} (hx : Rounds x m q) (hy : Rounds y n p) (hp : 0 ≤ p)
      (heq : (m : ℚ) * 2 ^ q = n * 2 ^ p) : p ≤ q := by
    by_contra hlt
    have hstep : (2 : ℚ) ^ (q + 1) ≤ 2 ^ p := zpow_le_zpow_right₀ (by norm_num) (by omega)
    rw [zpow_add_one₀ two_ne_zero] at hstep
    have hn : (2 ^ 52 : ℚ) * 2 ^ p ≤ n * 2 ^ p :=
      mul_le_mul_of_nonneg_right (hy.hidden_le (ne_leastExponent hp)) (by positivity)
    have hm : (m : ℚ) * 2 ^ q ≤ (2 ^ 53 - 1) * 2 ^ q :=
      mul_le_mul_of_nonneg_right (by linarith [hx.lt_hidden]) (by positivity)
    have hunit : (0 : ℚ) < 2 ^ q := by positivity
    linarith
  exact le_antisymm (hle hy hx hq heq.symm) (hle hx hy hp heq)

theorem sub_le_of_whole (hx : Rounds x m q) (hy : Rounds y n p) (hq : 0 ≤ q) (hp : 0 ≤ p)
    (hr : roundAway m q = roundAway n p) : y - x ≤ 1 ∨ 2 ^ 53 < y ∧ y - x ≤ y / 2 ^ 51 := by
  have heq : (m : ℚ) * 2 ^ q = n * 2 ^ p := by
    rw [← roundAway_of_nonneg hq, ← roundAway_of_nonneg hp, hr]
  obtain rfl := hx.exponent_eq hy hq hp heq
  obtain ⟨hxl, -⟩ := hx.bounds
  obtain ⟨-, hyh⟩ := hy.bounds
  have hlow := hy.lower (ne_leastExponent hq)
  by_cases hbig : 2 ^ 53 < y
  · exact .inr ⟨hbig, by linarith⟩
  · left
    have hle := hy.exponent_le (n := 53) (not_lt.mp hbig)
    have hm : (2 ^ 52 : ℚ) * 2 ^ q ≤ m * 2 ^ q :=
      mul_le_mul_of_nonneg_right (hx.hidden_le (ne_leastExponent hq)) (by positivity)
    rcases (show q = 0 ∨ q = 1 by omega) with rfl | rfl
    · rw [zpow_zero] at *
      linarith
    · rw [zpow_one] at *
      linarith

/-- Two quotients that are rounded to one line are at most one line apart; but next to `2 ^ 52`, where the places
behind the point end, and from `2 ^ 53` on. -/
theorem sub_le (hx : Rounds x m q) (hy : Rounds y n p) (hr : roundAway m q = roundAway n p) :
    y - x ≤ 1 ∨ (2 ^ 52 - 3 / 4 ≤ x ∧ y ≤ 2 ^ 52 + 1 / 2) ∨ (2 ^ 53 < y ∧ y - x ≤ y / 2 ^ 51) := by
  have hr' : (roundAway m q : ℚ) = roundAway n p := by exact_mod_cast hr
  rcases lt_or_ge q 0 with hq | hq <;> rcases lt_or_ge p 0 with hp | hp
  · exact .inl (hx.sub_le_of_places hy hq hp hr)
  · obtain rfl := hy.exponent_eq_zero hx hp hq hr.symm
    have hn := hy.hidden_le (ne_leastExponent le_rfl)
    have hm : (m : ℚ) * 2 ^ q ≤ (2 ^ 53 - 1) * (1 / 2) :=
      mul_le_mul (by linarith [hx.lt_hidden]) (two_zpow_le_half hq) (by positivity) (by norm_num)
    have hhalf := two_zpow_le_half hq
    obtain ⟨hlow, -⟩ := @roundAway_of_neg m q hq
    have hyh := hy.bounds.2
    rw [roundAway_of_nonneg le_rfl] at hr'
    rw [zpow_zero] at hr' hyh
    exact .inr (.inl ⟨by linarith [(hx.cell hq).1], by linarith⟩)
  · obtain rfl := hx.exponent_eq_zero hy hq hp hr
    rw [roundAway_of_nonneg le_rfl] at hr'
    have hxl := hx.bounds.1
    rw [zpow_zero] at hr' hxl
    have hunit : (0 : ℚ) < 2 ^ p := by positivity
    exact .inl (by linarith [(hy.cell hp).2])
  · exact (hx.sub_le_of_whole hy hq hp hr).imp_right .inr

theorem le_half (h : Rounds x m q) (hr : roundAway m q = 0) : x ≤ 1 / 2 := by
  have hr' : (roundAway m q : ℚ) = 0 := by exact_mod_cast hr
  have hunit : (0 : ℚ) < 2 ^ q := by positivity
  rcases lt_or_ge q 0 with hq | hq
  · linarith [(h.cell hq).2]
  · rw [roundAway_of_nonneg hq] at hr'
    linarith [mul_le_mul_of_nonneg_right (h.hidden_le (ne_leastExponent hq)) hunit.le]

theorem lower_of_saturated (h : Rounds x m q) (hr : 2 ^ 63 - 1 ≤ roundAway m q) : (2 ^ 63 - 2 ^ 10 : ℚ) ≤ x := by
  have hr' : (2 ^ 63 - 1 : ℚ) ≤ roundAway m q := by
    have : (2 ^ 63 : ℕ) ≤ roundAway m q + 1 := by omega
    have : (2 ^ 63 : ℚ) ≤ roundAway m q + 1 := by exact_mod_cast this
    linarith
  have hm := h.lt_hidden
  rcases lt_or_ge q 0 with hq | hq
  · obtain ⟨hl, -⟩ := @roundAway_of_neg m q hq
    have : (m : ℚ) * 2 ^ q ≤ (2 ^ 53 - 1) * (1 / 2) :=
      mul_le_mul (by linarith) (two_zpow_le_half hq) (by positivity) (by norm_num)
    linarith
  · rw [roundAway_of_nonneg hq] at hr'
    have hle : 11 ≤ q := by
      by_contra hlt
      have hpow : (2 : ℚ) ^ q ≤ 2 ^ (10 : ℤ) := zpow_le_zpow_right₀ (by norm_num) (by omega)
      norm_num at hpow
      have : (m : ℚ) * 2 ^ q ≤ (2 ^ 53 - 1) * 1024 :=
        mul_le_mul (by linarith) hpow (by positivity) (by norm_num)
      linarith
    have hpow : (2 : ℚ) ^ (11 : ℤ) ≤ 2 ^ q := zpow_le_zpow_right₀ (by norm_num) hle
    norm_num at hpow
    have hlow := h.lower (ne_leastExponent hq)
    linarith

end Rounds

end Binary64

namespace Plane

open Binary64

/-- How far apart the grid lines are. -/
def spacing : ℚ := locationSpacing.value

theorem decode_locationSpacing : locationSpacing.decode = .finite false 4722366482869645 (-72) := by decide

theorem spacing_eq : spacing = 4722366482869645 * 2 ^ (-72 : ℤ) := by
  rw [spacing, Double.value_of_decode decode_locationSpacing]
  norm_num

theorem spacing_pos : 0 < spacing := by
  rw [spacing_eq]
  positivity

/-- How far apart two coordinates of one grid line may be: as far as the lines; or, from `2 ^ 53` lines on, as far
as quotients that are rounded to the same double; or any distance, if both are beyond the last line. -/
def Aligned (v w : ℚ) : Prop :=
  |v - w| ≤ spacing ∨
    (2 ^ 53 * spacing < max |v| |w| ∧ |v - w| ≤ max |v| |w| / 2 ^ 51) ∨
    (0 < v * w ∧ (2 ^ 63 - 2 ^ 10) * spacing ≤ min |v| |w|)

namespace Aligned

variable {v w : ℚ}

theorem symm (h : Aligned v w) : Aligned w v := by
  unfold Aligned
  rwa [abs_sub_comm, max_comm, min_comm, mul_comm w v]

theorem neg (h : Aligned v w) : Aligned (-v) (-w) := by
  unfold Aligned
  rwa [neg_sub_neg, abs_sub_comm, abs_neg, abs_neg, neg_mul_neg]

end Aligned

theorem sub_le_spacing {m n : ℕ} {p q : ℤ} (hm : Shape m q) (hn : Shape n p)
    (hlow : (2 ^ 52 - 3 / 4) * spacing ≤ m * 2 ^ q) (hhigh : (n : ℚ) * 2 ^ p ≤ (2 ^ 52 + 1 / 2) * spacing)
    (hle : (m : ℚ) * 2 ^ q ≤ n * 2 ^ p) : (n : ℚ) * 2 ^ p - m * 2 ^ q ≤ spacing := by
  -- all doubles there have the same exponent
  have hexponent {k : ℕ} {e : ℤ} (hk : Shape k e) (hlow : (2 ^ 52 - 3 / 4) * spacing ≤ k * 2 ^ e)
      (hhigh : (k : ℚ) * 2 ^ e ≤ (2 ^ 52 + 1 / 2) * spacing) : e = -20 := by
    rw [spacing_eq] at hlow hhigh
    norm_num at hlow hhigh
    have hlt : (k : ℚ) + 1 ≤ 2 ^ 53 := by exact_mod_cast hk.lt
    have hunit : (0 : ℚ) < 2 ^ e := by positivity
    have hge : -20 ≤ e := by
      by_contra h
      have hpow : (2 : ℚ) ^ e ≤ 2 ^ (-21 : ℤ) := zpow_le_zpow_right₀ (by norm_num) (by omega)
      norm_num at hpow
      nlinarith
    have hhidden : (2 ^ 52 : ℚ) ≤ k := by
      have : 2 ^ 52 ≤ k := not_lt.mp fun h => by
        have := hk.normal h
        rw [leastExponent] at this
        omega
      exact_mod_cast this
    have hle : e ≤ -20 := by
      by_contra h
      have hpow : (2 : ℚ) ^ (-19 : ℤ) ≤ 2 ^ e := zpow_le_zpow_right₀ (by norm_num) (by omega)
      norm_num at hpow
      nlinarith
    omega
  obtain rfl := hexponent hm hlow (hle.trans hhigh)
  obtain rfl := hexponent hn (hlow.trans hle) hhigh
  have hstep : n ≤ m + 1 := by
    by_contra h
    have : (m + 2 : ℚ) ≤ n := by exact_mod_cast (by omega : m + 2 ≤ n)
    rw [spacing_eq] at hlow hhigh
    norm_num at hlow hhigh
    linarith
  have hstep' : (n : ℚ) ≤ m + 1 := by exact_mod_cast hstep
  rw [spacing_eq]
  norm_num
  linarith

theorem aligned_of_roundAway_eq {m n k l : ℕ} {a b q p : ℤ} (hm : Shape m a) (hn : Shape n b)
    (hx : Rounds (m * 2 ^ a / spacing) k q) (hy : Rounds (n * 2 ^ b / spacing) l p)
    (hr : roundAway k q = roundAway l p) : Aligned (m * 2 ^ a) (n * 2 ^ b) := by
  wlog hle : (m : ℚ) * 2 ^ a ≤ n * 2 ^ b generalizing m n k l a b q p
  · exact (this hn hm hy hx hr.symm (le_of_not_ge hle)).symm
  have hε := spacing_pos
  have hsub : (n : ℚ) * 2 ^ b - m * 2 ^ a = (n * 2 ^ b / spacing - m * 2 ^ a / spacing) * spacing := by
    field_simp
  have habs : |(m : ℚ) * 2 ^ a - n * 2 ^ b| = n * 2 ^ b - m * 2 ^ a := by
    rw [abs_sub_comm, abs_of_nonneg (by linarith)]
  have hmax : max |(m : ℚ) * 2 ^ a| |(n : ℚ) * 2 ^ b| = n * 2 ^ b := by
    rw [abs_of_nonneg (by positivity), abs_of_nonneg (by positivity), max_eq_right hle]
  rw [Aligned, habs, hmax]
  rcases hx.sub_le hy hr with h | ⟨hlow, hhigh⟩ | ⟨hbig, h⟩
  · left
    rw [hsub]
    nlinarith
  · left
    rw [le_div_iff₀ hε] at hlow
    rw [div_le_iff₀ hε] at hhigh
    exact sub_le_spacing hm hn hlow hhigh hle
  · right; left
    rw [lt_div_iff₀ hε] at hbig
    refine ⟨hbig, ?_⟩
    rw [← sub_div, div_div, div_le_div_iff₀ hε (by positivity)] at h
    rw [le_div_iff₀ (by norm_num)]
    nlinarith

theorem aligned_of_saturated {m n k l : ℕ} {a b q p : ℤ} (hx : Rounds (m * 2 ^ a / spacing) k q)
    (hy : Rounds (n * 2 ^ b / spacing) l p) (hk : 2 ^ 63 - 1 ≤ roundAway k q) (hl : 2 ^ 63 - 1 ≤ roundAway l p) :
    Aligned (m * 2 ^ a) (n * 2 ^ b) := by
  have hε := spacing_pos
  have hfar {x : ℚ} {k : ℕ} {q : ℤ} (h : Rounds (x / spacing) k q) (hr : 2 ^ 63 - 1 ≤ roundAway k q) :
      (2 ^ 63 - 2 ^ 10) * spacing ≤ x := (le_div_iff₀ hε).mp (h.lower_of_saturated hr)
  have hv := hfar hx hk
  have hw := hfar hy hl
  have hbound : 0 < (2 ^ 63 - 2 ^ 10) * spacing := mul_pos (by norm_num) hε
  right; right
  rw [abs_of_nonneg (by positivity), abs_of_nonneg (by positivity)]
  exact ⟨mul_pos (by linarith) (by linarith), le_min hv hw⟩

theorem aligned_of_zero {m n k l : ℕ} {a b q p : ℤ} (hx : Rounds (m * 2 ^ a / spacing) k q)
    (hy : Rounds (n * 2 ^ b / spacing) l p) (hk : roundAway k q = 0) (hl : roundAway l p = 0) :
    Aligned (m * 2 ^ a) (-(n * 2 ^ b)) := by
  have hε := spacing_pos
  have hv := (div_le_iff₀ hε).mp (hx.le_half hk)
  have hw := (div_le_iff₀ hε).mp (hy.le_half hl)
  left
  rw [sub_neg_eq_add, abs_of_nonneg (by positivity)]
  linarith

/-! ## Coordinates -/

variable {v w : Double}

/-- The line of a coordinate is the rounded quotient, rounded to a whole number and kept within 64 bits. -/
theorem snap_eq {s : Bool} {m : ℕ} {a : ℤ} (h : v.decode = .finite s m a) :
    ∃ k q, Rounds (m * 2 ^ a / spacing) k q ∧
      snap v = if s then max (-2 ^ 63) (-(roundAway k q : ℤ)) else min (2 ^ 63 - 1) (roundAway k q : ℤ) := by
  obtain ⟨k, q, hround, hdiv⟩ := Double.decode_div h decode_locationSpacing (by norm_num)
  rw [show ((4722366482869645 : ℕ) : ℚ) * 2 ^ (-72 : ℤ) = spacing by rw [spacing_eq]; norm_num] at hround
  rw [Bool.bne_false] at hdiv
  refine ⟨k, q, hround, ?_⟩
  unfold snap
  rw [hdiv]
  by_cases hq : q ≤ 971
  · rw [if_pos hq]
    norm_num
  · -- an infinite quotient would be beyond 64 bits in any case
    have hbig : (2 ^ 63 : ℚ) ≤ roundAway k q := by
      have hpow : (2 : ℚ) ^ (11 : ℤ) ≤ 2 ^ q := zpow_le_zpow_right₀ (by norm_num) (by omega)
      norm_num at hpow
      rw [roundAway_of_nonneg (by omega)]
      have := mul_le_mul (hround.hidden_le (ne_leastExponent (by omega))) hpow (by norm_num) (by positivity)
      norm_num at this ⊢
      linarith
    have hbig : 2 ^ 63 ≤ roundAway k q := by exact_mod_cast hbig
    rw [if_neg hq]
    cases s
    · have hle : (2 ^ 63 - 1 : ℤ) ≤ roundAway k q := by omega
      exact (min_eq_left hle).symm
    · have hle : -(roundAway k q : ℤ) ≤ -2 ^ 63 := by omega
      exact (max_eq_left hle).symm

/-- Coordinates of one grid line are as near as its width and the rounding allow, or beyond the last line. -/
theorem aligned_of_snap_eq (hv : v.isFinite = true) (hw : w.isFinite = true) (h : snap v = snap w) :
    Aligned v.value w.value := by
  unfold Double.isFinite at hv hw
  split at hv
  next s m a hdv =>
    split at hw
    next t n b hdw =>
      obtain ⟨k, q, hx, hsv⟩ := snap_eq hdv
      obtain ⟨l, p, hy, hsw⟩ := snap_eq hdw
      rw [hsv, hsw] at h
      have hm := (shape_of_decode hdv).1
      have hn := (shape_of_decode hdw).1
      rw [Double.value_of_decode hdv, Double.value_of_decode hdw]
      cases s <;> cases t <;> simp only [if_true, Bool.false_eq_true, if_false] at h ⊢
      · -- both are positive
        by_cases hr : roundAway k q = roundAway l p
        · exact aligned_of_roundAway_eq hm hn hx hy hr
        · exact aligned_of_saturated hx hy (by omega) (by omega)
      · exact aligned_of_zero hx hy (by omega) (by omega)
      · exact (aligned_of_zero hy hx (by omega) (by omega)).symm
      · -- both are negative
        refine Aligned.neg ?_
        by_cases hr : roundAway k q = roundAway l p
        · exact aligned_of_roundAway_eq hm hn hx hy hr
        · exact aligned_of_saturated hx hy (by omega) (by omega)
    next => cases hw
  next => cases hv

/-- A coordinate is half a spacing from its line, or a little more, as the quotient is rounded. -/
theorem snap_near {n : ℕ} (hn : n ≤ 51) (hv : v.isFinite = true) (hle : |v.value| ≤ 2 ^ n * spacing) :
    |v.value / spacing - snap v| ≤ 1 / 2 + 2 ^ (n - 53 : ℤ) := by
  have hε := spacing_pos
  unfold Double.isFinite at hv
  split at hv
  next s m a hd =>
    obtain ⟨k, q, hx, hs⟩ := snap_eq hd
    have habs : |v.value| = m * 2 ^ a := by
      rw [Double.value_of_decode hd]
      cases s <;> simp [abs_of_nonneg, zpow_nonneg]
    have hxn : (m : ℚ) * 2 ^ a / spacing ≤ 2 ^ n := by rwa [div_le_iff₀ hε, ← habs]
    have hq := hx.exponent_le hxn
    have hcell := hx.cell (by omega)
    have hunit : (2 : ℚ) ^ q / 2 ≤ 2 ^ (n - 53 : ℤ) := by
      have : (2 : ℚ) ^ q ≤ 2 ^ ((n : ℤ) - 53 + 1) := zpow_le_zpow_right₀ (by norm_num) (by omega)
      rw [zpow_add_one₀ two_ne_zero] at this
      linarith
    have hpos : (0 : ℚ) < 2 ^ q := by positivity
    -- the line is far from the last one
    have hfit : roundAway k q < 2 ^ 63 - 1 := by
      have : (2 : ℚ) ^ n ≤ 2 ^ 51 := pow_le_pow_right₀ (by norm_num) hn
      have : (roundAway k q : ℚ) ≤ 2 ^ 52 := by
        have := two_zpow_le_half (q := q) (by omega)
        linarith [hcell.1]
      have : roundAway k q ≤ 2 ^ 52 := by exact_mod_cast this
      omega
    rw [hs, Double.value_of_decode hd]
    cases s
    · simp only [Bool.false_eq_true, if_false]
      rw [min_eq_right (by omega), Int.cast_natCast, abs_le]
      constructor <;> linarith [hcell.1, hcell.2]
    · simp only [if_true]
      rw [max_eq_right (by omega), Int.cast_neg, Int.cast_natCast, neg_div, abs_le]
      constructor <;> linarith [hcell.1, hcell.2]
  next => cases hv

end Plane

end Mosaic
