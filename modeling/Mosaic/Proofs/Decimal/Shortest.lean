import Mathlib.Algebra.Order.Field.Power
import Mathlib.Data.Rat.Floor
import Mathlib.Tactic.Linarith
import Mathlib.Tactic.NormNum
import Mosaic.Proofs.Decimal.Reading

/-!
# Shortest decimals identify doubles

The neighbourhoods of two positive doubles have no real in common: consecutive ones touch in the
middle between the doubles, and of the two only the one with the even mantissa owns that point. The
search for the shortest decimal always ends inside the neighbourhood, because the finest grid it
tries is finer than half the distance of any two doubles. So the decimal determines the double.
-/

namespace Mosaic

namespace Neighbourhood

/-- The rationals of the neighbourhood. -/
def Holds (r : Neighbourhood) (x : ℚ) : Prop :=
  if r.closed then (r.low / r.den : ℚ) ≤ x ∧ x ≤ r.high / r.den
  else (r.low / r.den : ℚ) < x ∧ x < r.high / r.den

variable {r : Neighbourhood} {x : ℚ}

theorem Holds.le (h : r.Holds x) : (r.low / r.den : ℚ) ≤ x ∧ x ≤ r.high / r.den := by
  unfold Holds at h
  split at h
  exacts [h, ⟨h.1.le, h.2.le⟩]

theorem Holds.lt (h : r.Holds x) (ho : r.closed = false) :
    (r.low / r.den : ℚ) < x ∧ x < r.high / r.den := by
  simpa [Holds, ho] using h

theorem holds_of_lt (hl : (r.low / r.den : ℚ) < x) (hh : x < r.high / r.den) :
    r.Holds x := by
  unfold Holds
  split
  exacts [⟨hl.le, hh.le⟩, ⟨hl, hh⟩]

/-! ## The grids -/

theorem pow_eq_div (k : ℤ) : (10 : ℚ) ^ k = (10 ^ k.toNat : ℕ) / (10 ^ (-k).toNat : ℕ) := by
  rcases le_total 0 k with h | h
  · obtain ⟨n, rfl⟩ := Int.eq_ofNat_of_zero_le h
    simp
  · obtain ⟨n, hn⟩ := Int.eq_ofNat_of_zero_le (neg_nonneg.mpr h)
    obtain rfl : k = -(n : ℤ) := by omega
    simp

theorem contains_iff (hden : 0 < r.den) (k : ℤ) (n : ℕ) :
    r.contains (10 ^ (-k).toNat) (r.den * 10 ^ k.toNat) n = true ↔ r.Holds (n * (10 : ℚ) ^ k) := by
  have hd : (0 : ℚ) < r.den := by exact_mod_cast hden
  have hs : (0 : ℚ) < (10 ^ (-k).toNat : ℕ) := by positivity
  have hle (a : ℕ) : a * 10 ^ (-k).toNat ≤ n * (r.den * 10 ^ k.toNat) ↔
      (a / r.den : ℚ) ≤ n * (10 : ℚ) ^ k := by
    rw [pow_eq_div, div_le_iff₀ hd, ← mul_div_assoc, div_mul_eq_mul_div, le_div_iff₀ hs]
    rw [← Nat.cast_le (α := ℚ)]
    push_cast
    constructor <;> intro h <;> linarith
  have hge (a : ℕ) : n * (r.den * 10 ^ k.toNat) ≤ a * 10 ^ (-k).toNat ↔
      n * (10 : ℚ) ^ k ≤ (a / r.den : ℚ) := by
    rw [pow_eq_div, le_div_iff₀ hd, ← mul_div_assoc, div_mul_eq_mul_div, div_le_iff₀ hs]
    rw [← Nat.cast_le (α := ℚ)]
    push_cast
    constructor <;> intro h <;> linarith
  unfold contains Holds
  split
  · rw [Bool.and_eq_true, decide_eq_true_eq, decide_eq_true_eq, hle, hge]
  · rw [Bool.and_eq_true, decide_eq_true_eq, decide_eq_true_eq, ← not_le, hge, ← not_le, hle,
      not_le, not_le]

theorem holds_of_onGrid? (hden : 0 < r.den) {k : ℤ} {n : ℕ} (h : r.onGrid? k = some n) :
    r.Holds (n * (10 : ℚ) ^ k) := by
  rw [← contains_iff hden]
  unfold onGrid? at h
  dsimp only at h
  split at h
  next hb ha =>
    rw [Bool.and_eq_true] at hb
    split at h <;> cases h
    exacts [hb.2, ha]
  next hb ha =>
    rw [Bool.and_eq_true] at hb
    cases h
    exact hb.2
  next hb ha =>
    cases h
    exact ha
  next => cases h

/-- On a grid finer than the way from the middle to the upper end the search succeeds. -/
theorem exists_onGrid? (hden : 0 < r.den) (hmid : (r.low : ℚ) / r.den < r.mid / r.den) {k : ℤ}
    (hfine : (r.mid : ℚ) / r.den + (10 : ℚ) ^ k < r.high / r.den) : ∃ n, r.onGrid? k = some n := by
  have hd : (0 : ℚ) < r.den := by exact_mod_cast hden
  have hs : (0 : ℚ) < (10 ^ (-k).toNat : ℕ) := by positivity
  set unit := r.den * 10 ^ k.toNat with hunit
  set scale := 10 ^ (-k).toNat with hscale
  have hpos : 0 < unit := by positivity
  set below := r.mid * scale / unit with hbelow
  have hgrid : (10 : ℚ) ^ k = unit / (r.den * scale) := by
    rw [pow_eq_div, hunit, ← hscale, Nat.cast_mul, mul_div_mul_left _ _ hd.ne']
  -- the multiple above the middle is at most one step away from it
  have hlo : (below * unit : ℚ) ≤ r.mid * scale := by
    exact_mod_cast Nat.div_mul_le_self (r.mid * scale) unit
  have hhi : (r.mid * scale : ℚ) < (below + 1) * unit := by
    have := Nat.lt_div_mul_add (a := r.mid * scale) hpos
    have : r.mid * scale < (below + 1) * unit := by rw [← hbelow] at this; linarith
    exact_mod_cast this
  have hvalue (n : ℚ) : n * (10 : ℚ) ^ k = n * unit / (r.den * scale) := by
    rw [hgrid, mul_div_assoc]
  have hm : (r.mid / r.den : ℚ) = r.mid * scale / (r.den * scale) := by
    rw [mul_div_mul_right _ _ hs.ne']
  have hds : (0 : ℚ) < r.den * scale := mul_pos hd hs
  have habove : r.Holds ((below + 1 : ℕ) * (10 : ℚ) ^ k) := by
    refine holds_of_lt (hmid.trans ?_) (lt_of_le_of_lt ?_ hfine)
    · rw [hvalue, hm, div_lt_div_iff_of_pos_right hds]
      exact_mod_cast hhi
    · rw [hm, hvalue, hgrid, ← add_div, div_le_div_iff_of_pos_right hds]
      push_cast
      linarith
  have hcontains := (contains_iff hden k (below + 1)).mpr habove
  unfold onGrid?
  dsimp only [Nat.pow_eq]
  rw [← hunit, ← hscale, ← hbelow] at *
  rw [hcontains]
  split
  · split <;> exact ⟨_, rfl⟩
  · exact ⟨_, rfl⟩
  · exact ⟨_, rfl⟩
  · simp_all

theorem holds_of_coarsest? (hden : 0 < r.den) {d : Decimal} {n : ℕ} {k : ℤ}
    (h : r.coarsest? n k = some d) : r.Holds d.value := by
  induction n generalizing k with
  | zero => cases h
  | succ n ih =>
    rw [coarsest?] at h
    split at h
    next digits hg =>
      cases h
      exact holds_of_onGrid? hden hg
    next => exact ih h

theorem exists_coarsest? {n : ℕ} {k : ℤ} {i : ℕ} (hi : i < n)
    (h : ∃ digits, r.onGrid? (k - i) = some digits) : ∃ d, r.coarsest? n k = some d := by
  induction n generalizing k i with
  | zero => omega
  | succ n ih =>
    rw [coarsest?]
    split
    next digits _ => exact ⟨_, rfl⟩
    next hnone =>
      cases i with
      | zero =>
        obtain ⟨digits, hg⟩ := h
        simp [hnone] at hg
      | succ i =>
        refine ih (i := i) (by omega) ?_
        rwa [show k - 1 - (i : ℤ) = k - (i + 1 : ℕ) by omega]

/-! ## The neighbourhood of a double -/

theorem two_pow_div (q : ℤ) :
    ((2 ^ (q - 2).toNat : ℕ) / (2 ^ (2 - q).toNat : ℕ) : ℚ) = (2 : ℚ) ^ q / 4 := by
  have h : (2 : ℚ) ^ q / 4 = (2 : ℚ) ^ (q - 2) := by
    rw [zpow_sub₀ two_ne_zero]
    norm_num
  rw [h]
  rcases le_total 2 q with hq | hq
  · obtain ⟨n, hn⟩ := Int.eq_ofNat_of_zero_le (sub_nonneg.mpr hq)
    rw [hn, show 2 - q = -(n : ℤ) by omega]
    simp
  · obtain ⟨n, hn⟩ := Int.eq_ofNat_of_zero_le (sub_nonneg.mpr hq)
    rw [hn, show q - 2 = -(n : ℤ) by omega]
    simp

section
variable {m : ℕ} {q : ℤ}

theorem ofBinary_den_pos : 0 < (ofBinary m q).den := Nat.two_pow_pos _

theorem scaled (a : ℕ) : ((a * 2 ^ (q - 2).toNat : ℕ) / (ofBinary m q).den : ℚ) =
    a * ((2 : ℚ) ^ q / 4) := by
  rw [← two_pow_div, ← mul_div_assoc]
  simp [ofBinary]

theorem ofBinary_mid : ((ofBinary m q).mid / (ofBinary m q).den : ℚ) = m * (2 : ℚ) ^ q := by
  refine (scaled (m := m) (4 * m)).trans ?_
  push_cast
  ring

theorem ofBinary_high :
    ((ofBinary m q).high / (ofBinary m q).den : ℚ) = (m + 1 / 2) * (2 : ℚ) ^ q := by
  refine (scaled (m := m) (4 * m + 2)).trans ?_
  push_cast
  ring

/-- The lower end is half a step below the double, or a quarter below a power of two. -/
theorem ofBinary_low (hm : 0 < m) :
    ((ofBinary m q).low / (ofBinary m q).den : ℚ) =
      (m - (if m = Binary64.hiddenBit ∧ q ≠ Binary64.leastExponent then 1 / 4 else 1 / 2)) *
        (2 : ℚ) ^ q := by
  refine (scaled (m := m)
    (4 * m - if m = Binary64.hiddenBit && q != Binary64.leastExponent then 1 else 2)).trans ?_
  simp only [Bool.and_eq_true, decide_eq_true_eq, bne_iff_ne]
  split
  · rw [Nat.cast_sub (by omega)]
    push_cast
    ring
  · rw [Nat.cast_sub (by omega)]
    push_cast
    ring

theorem ofBinary_closed : (ofBinary m q).closed = decide (m % 2 = 0) := rfl

end

end Neighbourhood

/-- The mantissas and exponents of positive doubles. -/
structure Binary64.Canonical (m : ℕ) (q : ℤ) : Prop where
  pos : 0 < m
  lt : m < 2 * Binary64.hiddenBit
  least : Binary64.leastExponent ≤ q
  /-- A mantissa without the hidden bit is subnormal. -/
  normal : m < Binary64.hiddenBit → q = Binary64.leastExponent

namespace Neighbourhood
open Binary64 (Canonical)

variable {m n : ℕ} {q p : ℤ} {x y : ℚ}

/-- Neighbourhoods that at most touch have nothing in common unless both own the point. -/
theorem Holds.lt_of_le {r s : Neighbourhood} (hx : r.Holds x) (hy : s.Holds y)
    (hle : (r.high / r.den : ℚ) ≤ s.low / s.den)
    (hopen : r.closed = true → s.closed = true → (r.high / r.den : ℚ) < s.low / s.den) : x < y := by
  cases hr : r.closed with
  | false => exact (hx.lt hr).2.trans_le (hle.trans hy.le.1)
  | true =>
    cases hs : s.closed with
    | false => exact hx.le.2.trans_lt (hle.trans_lt (hy.lt hs).1)
    | true => exact hx.le.2.trans_lt ((hopen hr hs).trans_le hy.le.1)

/-- With the same exponent, the ends of consecutive mantissas meet; one of the two is odd. -/
theorem Holds.lt_of_mantissa (hm : Canonical m q) (hmn : m < n)
    (hx : (ofBinary m q).Holds x) (hy : (ofBinary n q).Holds y) : x < y := by
  have hq : (0 : ℚ) < 2 ^ q := by positivity
  have hstep : (m + 1 : ℚ) ≤ n := by exact_mod_cast hmn
  have hlow : ((ofBinary n q).low / (ofBinary n q).den : ℚ) = (n - 1 / 2) * 2 ^ q := by
    rw [ofBinary_low (by omega), if_neg]
    rintro ⟨rfl, hne⟩
    exact hne (hm.normal hmn)
  refine hx.lt_of_le hy ?_ fun hr hs => ?_
  · rw [ofBinary_high, hlow]
    exact mul_le_mul_of_nonneg_right (by linarith) hq.le
  · rw [ofBinary_closed, decide_eq_true_eq] at hr hs
    have hfar : (m + 2 : ℚ) ≤ n := by exact_mod_cast (by omega : m + 2 ≤ n)
    rw [ofBinary_high, hlow]
    exact mul_lt_mul_of_pos_right (by linarith) hq

/-- With a larger exponent, the ends meet between the largest mantissa, which is odd, and the least
mantissa of the next exponent. -/
theorem Holds.lt_of_exponent (hm : Canonical m q) (hn : Canonical n p) (hqp : q < p)
    (hx : (ofBinary m q).Holds x) (hy : (ofBinary n p).Holds y) : x < y := by
  have hq : (0 : ℚ) < 2 ^ q := by positivity
  have hp : 2 * (2 : ℚ) ^ q ≤ 2 ^ p := by
    have h : (2 : ℚ) ^ (q + 1) ≤ 2 ^ p := zpow_le_zpow_right₀ (by norm_num) (by omega)
    rwa [zpow_add_one₀ two_ne_zero, mul_comm] at h
  have hleast := hm.least
  have hhidden : Binary64.hiddenBit ≤ n := by
    by_contra h
    have := hn.normal (by omega)
    omega
  have hlow : (2 * Binary64.hiddenBit - 1 / 2) * (2 : ℚ) ^ q ≤
      (ofBinary n p).low / (ofBinary n p).den := by
    rw [ofBinary_low hn.pos]
    have hbound : (Binary64.hiddenBit - 1 / 4 : ℚ) ≤
        n - if n = Binary64.hiddenBit ∧ p ≠ Binary64.leastExponent then 1 / 4 else 1 / 2 := by
      split
      next h => rw [h.1]
      next h =>
        have hne : Binary64.hiddenBit ≠ n := fun heq => h ⟨heq.symm, by omega⟩
        have : (Binary64.hiddenBit + 1 : ℚ) ≤ n := by exact_mod_cast (by omega)
        linarith
    have hpos : (0 : ℚ) ≤ Binary64.hiddenBit - 1 / 4 := by
      norm_num [Binary64.hiddenBit, Nat.one_shiftLeft]
    calc (2 * Binary64.hiddenBit - 1 / 2) * (2 : ℚ) ^ q
        = (Binary64.hiddenBit - 1 / 4) * (2 * 2 ^ q) := by ring
      _ ≤ (Binary64.hiddenBit - 1 / 4) * 2 ^ p := mul_le_mul_of_nonneg_left hp hpos
      _ ≤ _ := mul_le_mul_of_nonneg_right hbound (by positivity)
  refine hx.lt_of_le hy (le_trans ?_ hlow) fun hr _ => lt_of_lt_of_le ?_ hlow
  · have h : (m + 1 : ℚ) ≤ 2 * Binary64.hiddenBit := by exact_mod_cast hm.lt
    rw [ofBinary_high]
    exact mul_le_mul_of_nonneg_right (by linarith) hq.le
  · rw [ofBinary_closed, decide_eq_true_eq] at hr
    have hlt := hm.lt
    have h : (m + 2 : ℚ) ≤ 2 * Binary64.hiddenBit := by
      exact_mod_cast (by omega : m + 2 ≤ 2 * Binary64.hiddenBit)
    rw [ofBinary_high]
    exact mul_lt_mul_of_pos_right (by linarith) hq

/-- No rational lies in the neighbourhoods of two doubles. -/
theorem eq_of_holds (hm : Canonical m q) (hn : Canonical n p)
    (hx : (ofBinary m q).Holds x) (hy : (ofBinary n p).Holds x) : m = n ∧ q = p := by
  rcases lt_trichotomy q p with hqp | rfl | hpq
  · exact absurd (hx.lt_of_exponent hm hn hqp hy) (lt_irrefl x)
  · rcases lt_trichotomy m n with hmn | rfl | hnm
    · exact absurd (hx.lt_of_mantissa hm hmn hy) (lt_irrefl x)
    · exact ⟨rfl, rfl⟩
    · exact absurd (hy.lt_of_mantissa hn hnm hx) (lt_irrefl x)
  · exact absurd (hy.lt_of_exponent hn hm hpq hx) (lt_irrefl x)

end Neighbourhood

namespace Decimal
open Binary64 (Canonical)
open Neighbourhood

variable {m n : ℕ} {q p : ℤ}

/-- The search ends inside the neighbourhood: its finest grid, `10 ^ (-343)`, is finer than half the
least subnormal. -/
theorem holds_shortest (hm : 0 < m) (hq : Binary64.leastExponent ≤ q) :
    (ofBinary m q).Holds (shortest m q).value := by
  have hpow : (2 : ℚ) ^ Binary64.leastExponent ≤ 2 ^ q := zpow_le_zpow_right₀ (by norm_num) hq
  have hgrid : (10 : ℚ) ^ (-343 : ℤ) < 1 / 2 * 2 ^ Binary64.leastExponent := by
    have hnat : 2 * 2 ^ 1074 < 10 ^ 343 := by decide +kernel
    have hrat : (2 * 2 ^ 1074 : ℚ) < 10 ^ 343 := by exact_mod_cast hnat
    rw [Binary64.leastExponent, zpow_neg, zpow_neg, one_div, ← mul_inv]
    exact (inv_lt_inv₀ (by positivity) (by positivity)).mpr hrat
  obtain ⟨d, hd⟩ : ∃ d, (ofBinary m q).coarsest?
      ((Nat.toDigits 10 ((ofBinary m q).high / (ofBinary m q).den)).length + 344)
      (Nat.toDigits 10 ((ofBinary m q).high / (ofBinary m q).den)).length = some d := by
    generalize (Nat.toDigits 10 ((ofBinary m q).high / (ofBinary m q).den)).length = top
    refine exists_coarsest? (i := top + 343) (by omega) ?_
    rw [show (top : ℤ) - (top + 343 : ℕ) = -343 by omega]
    refine exists_onGrid? ofBinary_den_pos ?_ ?_
    · rw [ofBinary_low hm, ofBinary_mid]
      refine mul_lt_mul_of_pos_right ?_ (by positivity)
      split <;> linarith
    · rw [ofBinary_mid, ofBinary_high]
      linarith
  have hs : shortest m q = d := by
    rw [shortest]
    simp only [hd, Option.getD_some]
  rw [hs]
  exact holds_of_coarsest? ofBinary_den_pos hd

theorem value_shortest_pos (hm : 0 < m) (hq : Binary64.leastExponent ≤ q) :
    0 < (shortest m q).value := by
  refine lt_of_lt_of_le ?_ (holds_shortest hm hq).le.1
  rw [ofBinary_low hm]
  have : (1 : ℚ) ≤ m := by exact_mod_cast hm
  refine mul_pos ?_ (by positivity)
  split <;> linarith

/-- Different doubles have different shortest decimals. -/
theorem shortest_inj (hm : Canonical m q) (hn : Canonical n p)
    (h : (shortest m q).value = (shortest n p).value) : m = n ∧ q = p :=
  eq_of_holds hm hn (holds_shortest hm.pos hm.least) (h ▸ holds_shortest hn.pos hn.least)

end Decimal

end Mosaic
