import Mathlib.Algebra.Order.Field.Power
import Mathlib.Tactic.FieldSimp
import Mathlib.Tactic.Linarith
import Mathlib.Tactic.NormNum
import Mathlib.Tactic.Ring
import Mosaic.Proofs.Plane.Packing

/-!
# Quotients of doubles

The quotient of two doubles is a double nearest to the exact quotient (`Double.decode_div`). The division
yields a whole quotient and whether the rest is below, at or above a half; more bits may then be shifted
out of it. What is known of the exact quotient all along is `Marks`: on which side of the middle between
two mantissas it lies.
-/

namespace Mosaic

open Float.Model Float.Model.UnpackedFloat

namespace Binary64

/-! ## Rounding -/

/-- What a mantissa and the bits behind it tell of a number. -/
def Marks (em : ExtendedMantissa) (y : ℚ) : Prop :=
  match em.accuracy with
  | .exact => y = em.mantissa
  | .inexact .lt => (em.mantissa : ℚ) < y ∧ y < em.mantissa + 1 / 2
  | .inexact .eq => y = em.mantissa + 1 / 2
  | .inexact .gt => (em.mantissa : ℚ) + 1 / 2 < y ∧ y < em.mantissa + 1

namespace Marks

variable {em : ExtendedMantissa} {y : ℚ}

theorem bounds (h : Marks em y) : (em.mantissa : ℚ) ≤ y ∧ y < em.mantissa + 1 := by
  unfold Marks at h
  split at h <;> constructor <;> linarith

theorem shiftRightOne (h : Marks em y) : Marks em.shiftRightOne (y / 2) := by
  obtain ⟨m, round, sticky⟩ := em
  obtain ⟨k, rfl | rfl⟩ := Nat.even_or_odd' m
  · have hone : ExtendedMantissa.shiftRightOne ⟨2 * k, round, sticky⟩ = ⟨k, false, round || sticky⟩ := by
      simp [ExtendedMantissa.shiftRightOne]
    rw [hone]
    cases round <;> cases sticky <;>
      simp only [Marks, ExtendedMantissa.accuracy, Bool.or_true, Bool.or_false] at h ⊢ <;>
      push_cast at h
    · linarith
    all_goals constructor <;> linarith
  · have hone : ExtendedMantissa.shiftRightOne ⟨2 * k + 1, round, sticky⟩ = ⟨k, true, round || sticky⟩ := by
      simp [ExtendedMantissa.shiftRightOne]
      omega
    rw [hone]
    cases round <;> cases sticky <;>
      simp only [Marks, ExtendedMantissa.accuracy, Bool.or_true, Bool.or_false] at h ⊢ <;>
      push_cast at h
    · linarith
    all_goals constructor <;> linarith

theorem shiftRight (h : Marks em y) (n : ℕ) : Marks (em >>> n) (y / 2 ^ n) := by
  induction n with
  | zero =>
    rw [pow_zero, div_one]
    exact h
  | succ n ih =>
    have := ih.shiftRightOne
    rwa [div_div, ← pow_succ] at this

theorem rounded (h : Marks em y) : |(em.roundedMantissa : ℚ) - y| ≤ 1 / 2 ∧
    em.mantissa ≤ em.roundedMantissa ∧ em.roundedMantissa ≤ em.mantissa + 1 := by
  unfold Marks at h
  unfold ExtendedMantissa.roundedMantissa
  have hmod : em.mantissa % 2 = 0 ∨ em.mantissa % 2 = 1 := Nat.mod_two_eq_zero_or_one _
  split at h
  next ha =>
    rw [ha]
    exact ⟨by simp [Accuracy.roundToNearestEven, h], le_rfl, Nat.le_succ _⟩
  next ha =>
    rw [ha]
    refine ⟨?_, le_rfl, Nat.le_succ _⟩
    rw [Accuracy.roundToNearestEven, abs_le]
    constructor <;> linarith
  next ha =>
    rw [ha]
    rcases hmod with h2 | h2 <;> rw [Accuracy.roundToNearestEven, h2, h]
    · exact ⟨by norm_num, by omega, by omega⟩
    · refine ⟨?_, by omega, by omega⟩
      push_cast
      rw [abs_le]
      constructor <;> linarith
  next ha =>
    rw [ha]
    refine ⟨?_, Nat.le_succ _, le_rfl⟩
    rw [Accuracy.roundToNearestEven, abs_le]
    push_cast
    constructor <;> linarith

end Marks

/-- A double nearest to a magnitude: it is off by at most half of a unit in the last place. -/
structure Rounds (x : ℚ) (m : ℕ) (q : ℤ) : Prop extends Shape m q where
  near : |m * (2 : ℚ) ^ q - x| ≤ 2 ^ q / 2

theorem targetExponent_eq (m : ℕ) (e : ℤ) :
    Format.targetExponent Format.binary64 (totalExponent m e) =
      max ((m.log2 : ℤ) + e - 52) leastExponent := by
  have hmin : Format.minExponent Format.binary64 = leastExponent := rfl
  have hbits : Format.mantissaBits Format.binary64 = 53 := rfl
  rw [Format.targetExponent, totalExponent, hmin, hbits]
  congr 1
  omega

/-- A mantissa of the right width stays as it is. -/
theorem shiftToTargetExponent_of_shape {m : ℕ} {q : ℤ} (h : Shape m q) :
    shiftToTargetExponent Format.binary64 m q .exact = (⟨m, false, false⟩, q) := by
  have hlog : m.log2 ≤ 52 := by
    rcases Nat.eq_zero_or_pos m with rfl | hm
    · decide
    · have := (Nat.log2_lt hm.ne').mpr h.lt
      omega
  have hleast := h.least
  have hshift : (max ((m.log2 : ℤ) + q - 52) leastExponent - q).toNat = 0 := by omega
  unfold shiftToTargetExponent shiftToExponent
  dsimp only
  rw [targetExponent_eq, hshift]
  simp [ExtendedMantissa.ofMantissaAndAccuracy, HShiftRight.hShiftRight, Nat.repeat]

/-- A carry out of the mantissa goes into the exponent. -/
theorem shiftToTargetExponent_of_carry {q : ℤ} (h : leastExponent ≤ q) :
    shiftToTargetExponent Format.binary64 (2 ^ 53) q .exact = (⟨2 ^ 52, false, false⟩, q + 1) := by
  have hshift : (max (((2 ^ 53 : ℕ).log2 : ℤ) + q - 52) leastExponent - q).toNat = 1 := by
    rw [Nat.log2_two_pow]
    omega
  unfold shiftToTargetExponent shiftToExponent
  dsimp only
  rw [targetExponent_eq, hshift]
  rfl

theorem exists_rounds {r : ℕ} {q : ℤ} {x : ℚ} (hr : r ≤ 2 ^ 53) (hleast : leastExponent ≤ q)
    (hnormal : r < 2 ^ 52 → q = leastExponent) (hnear : |r * (2 : ℚ) ^ q - x| ≤ 2 ^ q / 2) :
    ∃ k p, Rounds x k p ∧
      shiftToTargetExponent Format.binary64 r q .exact = (⟨k, false, false⟩, p) := by
  rcases hr.lt_or_eq with hlt | rfl
  · have hshape : Shape r q := ⟨hlt, hleast, hnormal⟩
    exact ⟨r, q, ⟨hshape, hnear⟩, shiftToTargetExponent_of_shape hshape⟩
  · refine ⟨2 ^ 52, q + 1, ⟨⟨by norm_num, by omega, fun h => absurd h (lt_irrefl _)⟩, ?_⟩,
      shiftToTargetExponent_of_carry hleast⟩
    have hpos : (0 : ℚ) < 2 ^ q := by positivity
    have hvalue : ((2 ^ 52 : ℕ) : ℚ) * 2 ^ (q + 1) = ((2 ^ 53 : ℕ) : ℚ) * 2 ^ q := by
      rw [zpow_add_one₀ two_ne_zero]
      push_cast
      ring
    rw [hvalue, zpow_add_one₀ two_ne_zero]
    exact hnear.trans (by linarith)

/-- Rounding a number of which enough bits are known. -/
theorem rounds_roundWithAccuracy (s : Sign) {m : ℕ} {e : ℤ} {a : Accuracy} {y : ℚ}
    (hy : Marks (.ofMantissaAndAccuracy m a) y) (hwide : 2 ^ 52 ≤ m ∨ e ≤ leastExponent) :
    ∃ k q, Rounds (y * 2 ^ e) k q ∧
      ofUnpacked (roundWithAccuracy Format.binary64 s m e a) = finite (isMinus s) k q := by
  have hmantissa : (ExtendedMantissa.ofMantissaAndAccuracy m a).mantissa = m := by
    rcases a with _ | _ | _ | _ <;> rfl
  obtain ⟨hlow, hhigh⟩ := hmantissa ▸ hy.bounds
  set t := max ((m.log2 : ℤ) + e - 52) leastExponent with ht
  set n := (t - e).toNat with hn
  have hlog : 2 ^ 52 ≤ m → 52 ≤ m.log2 := fun h => (Nat.le_log2 (by omega)).mpr h
  have het : e + (n : ℤ) = t := by omega
  have hshift := hy.shiftRight n
  obtain ⟨hfloor, hceil⟩ := hshift.bounds
  obtain ⟨hnear, hge, hle⟩ := hshift.rounded
  set em := ExtendedMantissa.ofMantissaAndAccuracy m a >>> n with hem
  have htwo : (2 : ℚ) ^ t = 2 ^ n * 2 ^ e := by
    rw [← het, zpow_add₀ two_ne_zero, zpow_natCast, mul_comm]
  -- the first shift leaves at most 53 bits, and all of them unless the number is subnormal
  have hfit : em.mantissa < 2 ^ 53 := by
    have hm : (m + 1 : ℚ) ≤ 2 ^ (m.log2 + 1) := by exact_mod_cast Nat.lt_log2_self (n := m)
    have hpow : (2 : ℚ) ^ (m.log2 + 1) ≤ 2 ^ (53 + n) :=
      pow_le_pow_right₀ (by norm_num) (by omega)
    have : (em.mantissa : ℚ) < 2 ^ 53 := by
      refine hfloor.trans_lt ?_
      rw [div_lt_iff₀ (by positivity), ← pow_add]
      linarith
    exact_mod_cast this
  have hnormal : em.mantissa < 2 ^ 52 → t = leastExponent := by
    intro h
    by_contra hne
    have hm : m ≠ 0 := by
      rintro rfl
      rw [Nat.log2_zero] at ht
      omega
    have hbits : (2 : ℚ) ^ (52 + n) ≤ m := by
      have : 52 + n = m.log2 := by omega
      rw [this]
      exact_mod_cast Nat.log2_self_le hm
    have : (2 : ℚ) ^ 52 ≤ y / 2 ^ n := by
      rw [le_div_iff₀ (by positivity), ← pow_add]
      linarith
    have : (em.mantissa + 1 : ℚ) ≤ 2 ^ 52 := by exact_mod_cast h
    linarith
  obtain ⟨k, q, hround, hcarry⟩ := exists_rounds (x := y * 2 ^ e) (r := em.roundedMantissa) (q := t)
    (by omega) (by omega) (fun h => hnormal (by omega)) (by
      have : (em.roundedMantissa : ℚ) * 2 ^ t - y * 2 ^ e =
          (em.roundedMantissa - y / 2 ^ n) * 2 ^ t := by
        rw [htwo]
        field_simp
      rw [this, abs_mul, abs_of_pos (by positivity : (0 : ℚ) < 2 ^ t)]
      nlinarith [(by positivity : (0 : ℚ) < 2 ^ t)])
  refine ⟨k, q, hround, ?_⟩
  have hfirst : shiftToTargetExponent Format.binary64 m e a = (em, t) := by
    unfold shiftToTargetExponent shiftToExponent
    dsimp only
    rw [targetExponent_eq, ← ht, ← hn, ← hem, het]
  unfold roundWithAccuracy
  rw [hfirst]
  dsimp only
  rw [hcarry]
  dsimp only
  by_cases hz : k = 0
  · rw [dif_pos hz, hz, hround.normal (by omega)]
    rfl
  · rw [dif_neg hz]
    rfl

/-! ## Division -/

theorem marks_accuracyOfFraction (n : ℕ) {d : ℕ} (hd : 0 < d) :
    Marks (.ofMantissaAndAccuracy (n / d) (accuracyOfFraction (n % d) d)) (n / d : ℚ) := by
  have hpos : (0 : ℚ) < d := by exact_mod_cast hd
  have hvalue : (n / d : ℚ) = (n / d : ℕ) + (n % d : ℕ) / (d : ℚ) := by
    field_simp
    exact_mod_cast (Nat.div_add_mod n d).symm
  have hlt : ((n % d : ℕ) : ℚ) < d := by exact_mod_cast Nat.mod_lt n hd
  rw [hvalue]
  unfold accuracyOfFraction
  split
  next h => simp [Marks, ExtendedMantissa.ofMantissaAndAccuracy, ExtendedMantissa.accuracy, h]
  next h =>
    have h0 : (0 : ℚ) < (n % d : ℕ) / (d : ℚ) :=
      div_pos (by exact_mod_cast Nat.pos_of_ne_zero h) hpos
    have h1 : ((n % d : ℕ) : ℚ) / d < 1 := (div_lt_one hpos).mpr hlt
    cases hc : compare (2 * (n % d)) d with
    | lt =>
      have : 2 * ((n % d : ℕ) : ℚ) < d := by exact_mod_cast Nat.compare_eq_lt.mp hc
      have : ((n % d : ℕ) : ℚ) / d < 1 / 2 := by rw [div_lt_iff₀ hpos]; linarith
      exact ⟨by simpa [ExtendedMantissa.ofMantissaAndAccuracy] using h0,
        by simpa [ExtendedMantissa.ofMantissaAndAccuracy] using this⟩
    | eq =>
      have : 2 * ((n % d : ℕ) : ℚ) = d := by exact_mod_cast Nat.compare_eq_eq.mp hc
      have : ((n % d : ℕ) : ℚ) / d = 1 / 2 := by rw [div_eq_iff hpos.ne']; linarith
      simp [Marks, ExtendedMantissa.ofMantissaAndAccuracy, ExtendedMantissa.accuracy, this]
    | gt =>
      have : (d : ℚ) < 2 * ((n % d : ℕ) : ℚ) := by exact_mod_cast Nat.compare_eq_gt.mp hc
      have : 1 / 2 < ((n % d : ℕ) : ℚ) / d := by rw [lt_div_iff₀ hpos]; linarith
      exact ⟨by simpa [ExtendedMantissa.ofMantissaAndAccuracy] using this,
        by simpa [ExtendedMantissa.ofMantissaAndAccuracy] using h1⟩

/-- The quotient of two mantissas is known to enough bits. -/
theorem marks_divCore {m n : ℕ} (hm : 0 < m) (hn : 0 < n) (e f : ℤ) :
    ∃ k q a y, divCore Format.binary64 m e n f = (k, q, a) ∧
      Marks (.ofMantissaAndAccuracy k a) y ∧ (2 ^ 52 ≤ k ∨ q ≤ leastExponent) ∧
      y * 2 ^ q = m * 2 ^ e / (n * 2 ^ f) := by
  set q := min (e - f) (max (((m.log2 : ℤ) + e) - (n.log2 + f) - 53) leastExponent) with hq
  set shift := (e - f - q).toNat with hshift
  have hmin : Format.minExponent Format.binary64 = leastExponent := rfl
  have hbits : Format.mantissaBits Format.binary64 = 53 := rfl
  have htarget : min (e - f) (Format.targetExponent Format.binary64
      (totalExponent m e - totalExponent n f)) = q := by
    rw [Format.targetExponent, totalExponent, totalExponent, hmin, hbits, hq]
    congr 2
    omega
  have hcore : divCore Format.binary64 m e n f =
      (m <<< shift / n, q, accuracyOfFraction (m <<< shift % n) n) := by
    unfold divCore
    dsimp only
    rw [htarget]
  refine ⟨_, _, _, _, hcore, marks_accuracyOfFraction _ hn, ?_, ?_⟩
  · by_cases hleast : q ≤ leastExponent
    · exact .inr hleast
    · left
      have hbound : n < 2 ^ (n.log2 + 1) := Nat.lt_log2_self
      rw [Nat.le_div_iff_mul_le hn, Nat.shiftLeft_eq]
      calc 2 ^ 52 * n ≤ 2 ^ 52 * 2 ^ (n.log2 + 1) := Nat.mul_le_mul_left _ hbound.le
        _ = 2 ^ (52 + (n.log2 + 1)) := (pow_add _ _ _).symm
        _ ≤ 2 ^ (m.log2 + shift) := Nat.pow_le_pow_right (by norm_num) (by omega)
        _ = 2 ^ m.log2 * 2 ^ shift := pow_add _ _ _
        _ ≤ m * 2 ^ shift := Nat.mul_le_mul_right _ (Nat.log2_self_le hm.ne')
  · have hpos : (n : ℚ) ≠ 0 := by exact_mod_cast hn.ne'
    have hexp : (2 : ℚ) ^ shift * 2 ^ q * 2 ^ f = 2 ^ e := by
      rw [← zpow_natCast, ← zpow_add₀ two_ne_zero, ← zpow_add₀ two_ne_zero]
      congr 1
      omega
    rw [Nat.shiftLeft_eq, ← hexp]
    push_cast
    field_simp

theorem ofUnpacked_div {u v : UnpackedFloat} {s t : Bool} {m n : ℕ} {e f : ℤ}
    (hu : ofUnpacked u = finite s m e) (hv : ofUnpacked v = finite t n f) (hn : n ≠ 0) :
    ∃ k q, Rounds (m * 2 ^ e / (n * 2 ^ f)) k q ∧
      ofUnpacked (UnpackedFloat.div Format.binary64 u v) = finite (s != t) k q := by
  have hsign (a b : Sign) : isMinus (a / b) = (isMinus a != isMinus b) := by
    cases a <;> cases b <;> rfl
  cases v with
  | finite t' n f hpos =>
    cases hv
    cases u with
    | finite s' m e hm =>
      cases hu
      obtain ⟨k, q, a, y, hcore, hy, hwide, hvalue⟩ := marks_divCore hm hpos e f
      have hdiv : UnpackedFloat.div Format.binary64 (.finite s' m e hm) (.finite t' n f hpos) =
          roundWithAccuracy Format.binary64 (s' / t') k q a := by
        change (let (m, e, accuracy) := divCore Format.binary64 m e n f
          roundWithAccuracy Format.binary64 (s' / t') m e accuracy) = _
        rw [hcore]
      rw [← hsign, ← hvalue, hdiv]
      exact rounds_roundWithAccuracy _ hy hwide
    | zero s' =>
      cases hu
      refine ⟨0, leastExponent, ⟨⟨by norm_num, le_rfl, fun _ => rfl⟩, ?_⟩, ?_⟩
      · norm_num
        positivity
      · rw [← hsign]
        rfl
    | notANumber => cases hu
    | infinity => cases hu
  | zero => cases hv; exact absurd rfl hn
  | notANumber => cases hv
  | infinity => cases hv

end Binary64

namespace Double

open Binary64

/-- The quotient of two doubles is the double nearest to the quotient of the numbers they stand for;
where that is too large it is infinite. -/
theorem decode_div {x y : Double} {s t : Bool} {m n : ℕ} {e f : ℤ}
    (hx : x.decode = .finite s m e) (hy : y.decode = .finite t n f) (hn : n ≠ 0) :
    ∃ k q, Rounds (m * 2 ^ e / (n * 2 ^ f)) k q ∧
      (x.div y).decode = if q ≤ 971 then .finite (s != t) k q else .infinite (s != t) := by
  obtain ⟨k, q, hround, hdiv⟩ := ofUnpacked_div ((ofUnpacked_ofBits x.bits).trans hx)
    ((ofUnpacked_ofBits y.bits).trans hy) hn
  refine ⟨k, q, hround, ?_⟩
  have hpack : (ofFloat (x.toFloat / y.toFloat)).decode =
      if q ≤ 971 then .finite (s != t) k q else .infinite (s != t) := by
    exact decode_pack hdiv hround.toShape
  have hnumber : (ofFloat (x.toFloat / y.toFloat)).isNaN = false := by
    rw [isNaN, hpack]
    split <;> rfl
  rw [div, ofResult, hnumber]
  exact hpack

end Double

end Mosaic
