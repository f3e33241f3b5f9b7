import Mosaic.Proofs.Decimal.Exact

/-!
# Patterns and the logical model of the arithmetic

Arithmetic unpacks its operands, computes with signs, mantissas and exponents, and packs the result.
What is unpacked is what `Binary64.decode` reads (`ofUnpacked_unpack`), and what is packed is read back
as it was, if it has the shape of a double (`decode_pack`). So the arithmetic can be described by what
its operands and its result decode to.
-/

namespace Mosaic

open Float.Model Float.Model.UnpackedFloat

namespace Binary64

/-- Whether a sign is the negative one. -/
def isMinus : Sign → Bool
  | .negative => true
  | .positive => false

/-- What a number in the logical model of the arithmetic stands for. -/
def ofUnpacked : UnpackedFloat → Binary64
  | .notANumber => nan
  | .infinity s => infinite (isMinus s)
  | .zero s => finite (isMinus s) 0 leastExponent
  | .finite s m e _ => finite (isMinus s) m e

theorem toNat_unpackMantissa (b : BitVec 64) :
    (@unpackMantissa Format.binary64 b).toNat = b.toNat % 2 ^ 52 := by
  simp [unpackMantissa]

theorem toNat_unpackExponent (b : BitVec 64) :
    (@unpackExponent Format.binary64 b).toNat = b.toNat / 2 ^ 52 % 2 ^ 11 := by
  simp [unpackExponent, Nat.shiftRight_eq_div_pow]

theorem isMinus_unpackSign (b : BitVec 64) :
    isMinus (Sign.ofBitVec (@unpackSign Format.binary64 b)) =
      decide (2 ^ 63 ≤ b.toNat) := by
  have hlt := b.isLt
  have hsign : (@unpackSign Format.binary64 b).toNat = b.toNat / 2 ^ 63 := by
    change (b.extractLsb 63 63).toNat = b.toNat / 2 ^ 63
    simp [Nat.shiftRight_eq_div_pow]
    omega
  have hpositive : @unpackSign Format.binary64 b = 0#1 ↔ b.toNat / 2 ^ 63 = 0 := by
    rw [← BitVec.toNat_inj, hsign]
    rfl
  unfold Sign.ofBitVec
  split
  next h =>
    have := hpositive.mp h
    exact (decide_eq_false (by omega)).symm
  next h =>
    have := mt hpositive.mpr h
    exact (decide_eq_true (by omega)).symm

theorem ofUnpacked_unpack (bits : UInt64) :
    ofUnpacked (UnpackedFloat.unpack Format.binary64 bits.toBitVec) = decode bits := by
  have hm : (@unpackMantissa Format.binary64 bits.toBitVec).toNat = bits.toNat % 2 ^ 52 :=
    toNat_unpackMantissa _
  have he : (@unpackExponent Format.binary64 bits.toBitVec).toNat =
      bits.toNat / 2 ^ 52 % 2 ^ 11 := toNat_unpackExponent _
  have hs : isMinus (Sign.ofBitVec (@unpackSign Format.binary64 bits.toBitVec)) =
      decide (2 ^ 63 ≤ bits.toNat) := isMinus_unpackSign _
  have hhidden : (1#1 ++ @unpackMantissa Format.binary64 bits.toBitVec).toNat =
      hiddenBit + (@unpackMantissa Format.binary64 bits.toBitVec).toNat := by
    rw [BitVec.toNat_append, ← Nat.shiftLeft_add_eq_or_of_lt (BitVec.isLt _)]
    rfl
  rw [decode_eq_ofFields, ← hs, ← hm, ← he]
  unfold UnpackedFloat.unpack ofFields
  have hall (v : BitVec 11) : v = -1#11 ↔ v.toNat = 0x7ff := BitVec.toNat_inj.symm
  have hnone (v : BitVec 11) : v = 0#11 ↔ v.toNat = 0 := BitVec.toNat_inj.symm
  have hzero (v : BitVec 52) : v = 0#52 ↔ v.toNat = 0 := BitVec.toNat_inj.symm
  have hbias : ((Format.exponentBias Format.binary64 : ℕ) : ℤ) + (52 : ℕ) = 1075 := rfl
  dsimp only
  by_cases hlast : @unpackExponent Format.binary64 bits.toBitVec = -1#11
  · rw [if_pos hlast, if_pos ((hall _).mp hlast)]
    by_cases hz : @unpackMantissa Format.binary64 bits.toBitVec = 0#52
    · rw [if_pos hz, if_pos ((hzero _).mp hz)]
      rfl
    · rw [if_neg hz, if_neg (mt (hzero _).mpr hz)]
      rfl
  rw [if_neg hlast, if_neg (mt (hall _).mpr hlast)]
  by_cases hfirst : @unpackExponent Format.binary64 bits.toBitVec = 0#11
  · rw [if_pos hfirst, if_pos ((hnone _).mp hfirst)]
    by_cases hz : @unpackMantissa Format.binary64 bits.toBitVec = 0#52
    · rw [dif_pos hz, (hzero _).mp hz]
      rfl
    · rw [dif_neg hz]
      change finite _ _ _ = finite _ _ _
      rw [(hnone _).mp hfirst]
      rfl
  · have hne := mt (hnone _).mpr hfirst
    rw [if_neg hfirst, if_neg hne]
    change finite _ _ _ = finite _ _ _
    rw [hhidden, leastExponent, hbias]
    congr 1
    omega

/-! ## Packing -/

/-- A mantissa and an exponent in the form of the doubles, zero and overflow included. -/
structure Shape (m : ℕ) (q : ℤ) : Prop where
  lt : m < 2 ^ 53
  least : leastExponent ≤ q
  normal : m < 2 ^ 52 → q = leastExponent

theorem toNat_packComponents (s : Sign) (e : BitVec 11) (m : BitVec 52) :
    (packComponents Format.binary64 s e m).toNat =
      ((isMinus s).toNat * 2 ^ 11 + e.toNat) * 2 ^ 52 + m.toNat := by
  have hs : s.toBitVec.toNat = (isMinus s).toNat := by cases s <;> rfl
  unfold packComponents
  rw [BitVec.toNat_append, ← Nat.shiftLeft_add_eq_or_of_lt (BitVec.isLt _), BitVec.toNat_append,
    ← Nat.shiftLeft_add_eq_or_of_lt (BitVec.isLt _), Nat.shiftLeft_eq, Nat.shiftLeft_eq, hs]

theorem decode_packComponents (s : Sign) (e : BitVec 11) (m : BitVec 52) :
    decode (UInt64.ofBitVec (packComponents Format.binary64 s e m)) =
      ofFields (isMinus s) e.toNat m.toNat := by
  have hm := m.isLt
  have he := e.isLt
  rw [decode_eq_ofFields]
  change ofFields (decide (2 ^ 63 ≤ (packComponents Format.binary64 s e m).toNat))
    ((packComponents Format.binary64 s e m).toNat / 2 ^ 52 % 2 ^ 11)
    ((packComponents Format.binary64 s e m).toNat % 2 ^ 52) = _
  rw [toNat_packComponents]
  cases s <;> simp only [isMinus, Bool.toNat_true, Bool.toNat_false] <;> congr 1 <;>
    simp <;> omega

theorem decode_pack_finite (s : Sign) {m : ℕ} {q : ℤ} (hm : 0 < m) (h : Shape m q) :
    decode (UInt64.ofBitVec (UnpackedFloat.pack Format.binary64 (.finite s m q hm))) =
      if q ≤ 971 then finite (isMinus s) m q else infinite (isMinus s) := by
  have hleast := h.least
  have hlt := h.lt
  have hlog : m.log2 + 1 = Format.mantissaBits Format.binary64 ↔ 2 ^ 52 ≤ m := by
    rw [show Format.mantissaBits Format.binary64 = 53 from rfl]
    rw [← Nat.le_log2 hm.ne']
    have := (Nat.log2_lt hm.ne').mpr hlt
    omega
  have hbias : q + (Format.exponentBias Format.binary64 : ℕ) + (52 : ℕ) = q + 1075 := by
    rw [show Format.exponentBias Format.binary64 = 1023 from rfl]
    omega
  rw [leastExponent] at hleast
  unfold UnpackedFloat.pack
  dsimp only
  rw [hbias]
  have hover : 2 ^ 11 ≤ (q + 1075).toNat + 1 ↔ ¬ q ≤ 971 := by omega
  by_cases hq : q ≤ 971
  · rw [if_neg (by rw [hover]; exact not_not_intro hq), if_pos hq]
    by_cases hnormal : 2 ^ 52 ≤ m
    · rw [if_pos (hlog.mpr hnormal), decode_packComponents, ofFields]
      simp only [BitVec.toNat_ofNat]
      rw [if_neg (by omega), if_neg (by omega), hiddenBit, leastExponent]
      congr 1 <;> omega
    · have := h.normal (by omega)
      rw [if_neg (mt hlog.mp hnormal), decode_packComponents, ofFields]
      simp only [BitVec.toNat_ofNat]
      rw [if_neg (by omega), if_pos trivial, this]
      congr 1
      omega
  · rw [if_pos (hover.mpr hq), if_neg hq, packedInfinity, decode_packComponents]
    rfl

/-- Packing keeps what a number of the right shape stands for, unless it is too large. -/
theorem decode_pack {u : UnpackedFloat} {negative : Bool} {m : ℕ} {q : ℤ}
    (hu : ofUnpacked u = finite negative m q) (h : Shape m q) :
    decode (UInt64.ofBitVec (UnpackedFloat.pack Format.binary64 u)) =
      if q ≤ 971 then finite negative m q else infinite negative := by
  cases u with
  | finite s m q hm =>
    cases hu
    exact decode_pack_finite s hm h
  | zero s =>
    cases hu
    rw [if_pos (by decide)]
    cases s <;> decide
  | notANumber => cases hu
  | infinity => cases hu

theorem shape_of_decode {bits : UInt64} {negative : Bool} {m : ℕ} {q : ℤ}
    (h : decode bits = finite negative m q) : Shape m q ∧ q ≤ 971 := by
  have hf : bits.toNat % 2 ^ 52 < 2 ^ 52 := Nat.mod_lt _ (by decide)
  have he : bits.toNat / 2 ^ 52 % 2 ^ 11 < 2 ^ 11 := Nat.mod_lt _ (by decide)
  rw [decode_eq_ofFields] at h
  unfold ofFields at h
  split at h
  · split at h <;> cases h
  · split at h <;> cases h
    · exact ⟨⟨by omega, le_rfl, fun _ => rfl⟩, by decide⟩
    · rw [hiddenBit, leastExponent]
      exact ⟨⟨by omega, by rw [leastExponent]; omega, by omega⟩, by omega⟩

theorem ofUnpacked_ofBits (bits : UInt64) :
    ofUnpacked (Float.ofBits bits).toModel.unpack = decode bits := by
  have hpattern := ofUnpacked_unpack bits
  change ofUnpacked (UnpackedFloat.unpack Format.binary64
    (UInt64.ofBitVec (UnpackedFloat.pack Format.binary64
      (UnpackedFloat.unpack Format.binary64 bits.toBitVec))).toBitVec) = _
  rw [ofUnpacked_unpack]
  cases hu : UnpackedFloat.unpack Format.binary64 bits.toBitVec with
  | notANumber =>
    rw [hu] at hpattern
    exact (by decide : _ = nan).trans hpattern
  | infinity s =>
    rw [hu] at hpattern
    rw [← hpattern]
    cases s <;> decide
  | zero s =>
    rw [hu] at hpattern
    rw [← hpattern]
    cases s <;> decide
  | finite s m q hm =>
    rw [hu] at hpattern
    obtain ⟨hshape, hq⟩ := shape_of_decode hpattern.symm
    rw [decode_pack_finite s hm hshape, if_pos hq, ← hpattern]
    rfl

end Binary64

end Mosaic
