import Mathlib.Data.Nat.Bitwise
import Mosaic.Number
import Mosaic.Proofs.Decimal.Shortest

/-!
# Texts identify numbers

A bit pattern that is a number is determined by its sign, mantissa and exponent, and these by the
text, in every layout. So no two numbers are written alike, while whatever is not a number is
written `NaN`.
-/

namespace Mosaic

namespace Binary64

/-! ## The fields of a pattern -/

theorem fraction_eq (bits : UInt64) :
    (bits &&& 0xfffffffffffff).toNat = bits.toNat % 2 ^ 52 := by
  rw [UInt64.toNat_and]
  exact Nat.and_two_pow_sub_one_eq_mod _ 52

theorem biased_eq (bits : UInt64) :
    ((bits >>> 52) &&& 0x7ff).toNat = bits.toNat / 2 ^ 52 % 2 ^ 11 := by
  rw [UInt64.toNat_and, UInt64.toNat_shiftRight]
  refine (Nat.and_two_pow_sub_one_eq_mod _ 11).trans ?_
  rw [Nat.shiftRight_eq_div_pow]
  rfl

theorem negative_eq (bits : UInt64) :
    (bits &&& signBit != 0) = decide (2 ^ 63 ≤ bits.toNat) := by
  have hand : (bits &&& signBit).toNat = (bits.toNat.testBit 63).toNat * 2 ^ 63 := by
    rw [UInt64.toNat_and]
    exact Nat.and_two_pow _ 63
  have hlt := bits.toNat_lt
  have hbit : bits.toNat.testBit 63 = decide (2 ^ 63 ≤ bits.toNat) := by
    rw [Nat.testBit_eq_decide_div_mod_eq]
    exact decide_eq_decide.mpr (by omega)
  rw [hbit] at hand
  rw [Bool.eq_iff_iff, bne_iff_ne, decide_eq_true_eq, ne_eq, ← UInt64.toNat_inj, hand]
  simp

/-- What the three fields of a pattern stand for. -/
def ofFields (negative : Bool) (biased fraction : ℕ) : Binary64 :=
  if biased = 0x7ff then if fraction = 0 then infinite negative else nan
  else if biased = 0 then finite negative fraction leastExponent
  else finite negative (hiddenBit + fraction) (leastExponent + (biased - 1 : ℕ))

theorem decode_eq_ofFields (bits : UInt64) :
    decode bits = ofFields (decide (2 ^ 63 ≤ bits.toNat)) (bits.toNat / 2 ^ 52 % 2 ^ 11)
      (bits.toNat % 2 ^ 52) := by
  simp only [decode, fraction_eq, biased_eq, negative_eq, ofFields]

section
variable {negative negative' : Bool} {biased biased' fraction fraction' m : ℕ} {q : ℤ}

theorem canonical_of_ofFields (hf : fraction < 2 ^ 52)
    (h : ofFields negative' biased fraction = finite negative m q) :
    Canonical m q ∨ m = 0 ∧ q = leastExponent := by
  have hhidden : hiddenBit = 2 ^ 52 := rfl
  unfold ofFields at h
  split at h
  · split at h <;> cases h
  · split at h <;> cases h
    · rcases Nat.eq_zero_or_pos fraction with rfl | hpos
      · exact .inr ⟨rfl, rfl⟩
      · exact .inl ⟨hpos, by omega, le_rfl, fun _ => rfl⟩
    · exact .inl ⟨by omega, by omega, by omega, fun h => by omega⟩

/-- Only what is not a number has several patterns. -/
theorem ofFields_inj (hf : fraction < 2 ^ 52) (hf' : fraction' < 2 ^ 52)
    (hn : ofFields negative biased fraction ≠ nan)
    (h : ofFields negative biased fraction = ofFields negative' biased' fraction') :
    negative = negative' ∧ biased = biased' ∧ fraction = fraction' := by
  have hhidden : hiddenBit = 2 ^ 52 := rfl
  unfold ofFields at h hn
  by_cases hb : biased = 0x7ff
  · rw [if_pos hb] at h hn
    have hz : fraction = 0 := by
      by_contra hz
      exact hn (if_neg hz)
    rw [if_pos hz] at h
    split at h
    · split at h <;> cases h
      exact ⟨rfl, by omega, by omega⟩
    · split at h <;> cases h
  · rw [if_neg hb] at h
    by_cases hb' : biased' = 0x7ff
    · rw [if_pos hb'] at h
      split at h <;> split at h <;> cases h
    · rw [if_neg hb'] at h
      split at h <;> split at h <;> injection h <;> refine ⟨‹_›, ?_, ?_⟩ <;> omega

end

theorem canonical_of_decode {bits : UInt64} {negative : Bool} {m : ℕ} {q : ℤ}
    (h : decode bits = finite negative m q) : Canonical m q ∨ m = 0 ∧ q = leastExponent :=
  canonical_of_ofFields (Nat.mod_lt _ (by decide)) (decode_eq_ofFields bits ▸ h)

theorem eq_of_decode {a b : UInt64} (h : decode a = decode b) (hn : decode a ≠ nan) : a = b := by
  have ha := a.toNat_lt
  have hb := b.toNat_lt
  rw [decode_eq_ofFields a, decode_eq_ofFields b] at h
  rw [decode_eq_ofFields a] at hn
  obtain ⟨hs, he, hf⟩ :=
    ofFields_inj (Nat.mod_lt _ (by decide)) (Nat.mod_lt _ (by decide)) hn h
  rw [decide_eq_decide] at hs
  rw [← UInt64.toNat_inj]
  omega

end Binary64

/-! ## The text of a pattern -/

namespace Layout
open Binary64

variable {l : Layout}

/-- The characters that numbers are written with. -/
def Numeral (c : Char) : Prop := c.isDigit = true ∨ c = '.' ∨ c = '-' ∨ c = 'e'

instance : DecidablePred Numeral := fun _ => inferInstanceAs (Decidable (_ ∨ _ ∨ _ ∨ _))

theorem Digits.numeral {cs : List Char} (h : Digits cs) : ∀ c ∈ cs, Numeral c :=
  fun c hc => .inl (h c hc)

theorem numeral_toString (i : ℤ) : ∀ c ∈ (toString i).toList, Numeral c := by
  intro c hc
  rw [Int.toString_eq_repr] at hc
  cases i with
  | ofNat n =>
    rw [Int.repr, Nat.toList_repr] at hc
    exact .inl (digits_toDigits n c hc)
  | negSucc n =>
    rw [Int.repr, String.toList_append, Nat.toList_repr] at hc
    rcases List.mem_append.mp hc with hc | hc
    · exact .inr (.inr (.inl (by simpa using hc)))
    · exact .inl (digits_toDigits _ c hc)

theorem numeral_writePositional {ds : List Char} (h : Digits ds) (exponent : ℤ) :
    ∀ c ∈ l.writePositional ds exponent, Numeral c := by
  have hpoint : Numeral '.' := .inr (.inl rfl)
  have hzero : Numeral '0' := .inl rfl
  intro c hc
  unfold writePositional at hc
  dsimp only at hc
  split at hc
  · rcases List.mem_append.mp hc with hc | hc
    · exact (h.append (digits_zeros _)).numeral c hc
    · split at hc <;> simp only [List.mem_cons, List.not_mem_nil, or_false] at hc
      rcases hc with rfl | rfl
      exacts [hpoint, hzero]
  · split at hc
    · simp only [List.mem_append, List.mem_cons] at hc
      rcases hc with hc | rfl | hc
      exacts [(h.take _).numeral c hc, hpoint, (h.drop _).numeral c hc]
    · simp only [List.mem_cons] at hc
      rcases hc with rfl | rfl | hc
      exacts [hzero, hpoint, ((digits_zeros _).append h).numeral c hc]

theorem numeral_writeScientific {ds : List Char} (h : Digits ds) (leading : ℤ) :
    ∀ c ∈ writeScientific ds leading, Numeral c := by
  intro c hc
  unfold writeScientific at hc
  simp only [List.mem_append, List.mem_cons] at hc
  rcases hc with (hc | hc) | rfl | hc
  · exact (h.take 1).numeral c hc
  · split at hc
    · cases hc
    next hrest =>
      rcases List.mem_cons.mp hc with rfl | hc
      · exact .inr (.inl rfl)
      · exact (h.drop 1).numeral c hc
  · exact .inr (.inr (.inr rfl))
  · exact numeral_toString leading c hc

theorem numeral_writeDecimal (d : Decimal) : ∀ c ∈ l.writeDecimal d, Numeral c := by
  have hd := digits_toDigits d.digits
  unfold writeDecimal
  dsimp only
  split
  · split
    · exact numeral_writePositional hd _
    · exact numeral_writeScientific hd _
  · exact numeral_writePositional hd _

/-- A text that starts with a digit. -/
def Leads (cs : List Char) : Prop := ∃ c rest, cs = c :: rest ∧ c.isDigit = true

theorem Digits.leads {ds : List Char} (h : Digits ds) (hne : ds ≠ []) (rest : List Char) :
    Leads (ds ++ rest) := by
  obtain ⟨c, cs, rfl⟩ := List.exists_cons_of_ne_nil hne
  exact ⟨c, cs ++ rest, rfl, h c (by simp)⟩

theorem leads_writeDecimal (d : Decimal) : Leads (l.writeDecimal d) := by
  have hd := digits_toDigits d.digits
  have hlen : 0 < (Nat.toDigits 10 d.digits).length := Nat.length_toDigits_pos
  have htake {n : ℕ} (hn : 0 < n) (rest : List Char) :
      Leads ((Nat.toDigits 10 d.digits).take n ++ rest) := by
    refine (hd.take n).leads (List.ne_nil_of_length_pos ?_) rest
    rw [List.length_take]
    omega
  have hpositional : Leads (l.writePositional (Nat.toDigits 10 d.digits) d.exponent) := by
    unfold writePositional
    dsimp only
    split
    · rw [List.append_assoc]
      exact hd.leads Nat.toDigits_ne_nil _
    · split
      · exact htake (by omega) _
      · exact ⟨'0', _, rfl, rfl⟩
  unfold writeDecimal
  dsimp only
  split
  · split
    · exact hpositional
    · unfold writeScientific
      rw [List.append_assoc]
      exact htake one_pos _
  · exact hpositional

/-! ## The sign and what follows it -/

/-- The text without its sign. -/
def body (l : Layout) : Binary64 → List Char
  | nan => ['N', 'a', 'N']
  | infinite _ => ['i', 'n', 'f']
  | finite _ m q => l.writeDecimal (if m = 0 then ⟨0, 0⟩ else Decimal.shortest m q)

def signed : Binary64 → Bool
  | nan => false
  | infinite negative => negative
  | finite negative _ _ => negative

theorem toList_write (bits : UInt64) :
    (l.write bits).toList =
      if signed (decode bits) then '-' :: l.body (decode bits) else l.body (decode bits) := by
  unfold write
  cases decode bits with
  | nan => simp [signed, body]
  | infinite negative => cases negative <;> exact String.toList_ofList
  | finite negative m q => cases negative <;> exact String.toList_ofList

theorem body_ne_sign (x : Binary64) (rest : List Char) : l.body x ≠ '-' :: rest := by
  cases x with
  | nan => simp [body]
  | infinite negative => simp [body]
  | finite negative m q =>
    obtain ⟨c, cs, heq, hc⟩ := leads_writeDecimal (l := l)
      (if m = 0 then ⟨0, 0⟩ else Decimal.shortest m q)
    rw [body, heq]
    intro h
    rw [(List.cons.inj h).1] at hc
    cases hc

theorem body_ne_finite {c : Char} {rest : List Char} (hc : c.isDigit = false) (negative : Bool)
    (m : ℕ) (q : ℤ) : c :: rest ≠ l.body (finite negative m q) := by
  obtain ⟨d, cs, heq, hd⟩ := leads_writeDecimal (l := l)
    (if m = 0 then ⟨0, 0⟩ else Decimal.shortest m q)
  rw [body, heq]
  intro h
  rw [(List.cons.inj h).1, hd] at hc
  cases hc

/-- The magnitude can be read from the text. -/
theorem finite_inj {m n : ℕ} {q p : ℤ} {s t : Bool}
    (hm : Canonical m q ∨ m = 0 ∧ q = leastExponent)
    (hn : Canonical n p ∨ n = 0 ∧ p = leastExponent)
    (h : l.body (finite s m q) = l.body (finite t n p)) : m = n ∧ q = p := by
  have hvalue := congrArg read h
  simp only [body, read_writeDecimal] at hvalue
  have hzero : (⟨0, 0⟩ : Decimal).value = 0 := by simp [Decimal.value]
  rcases hm with hm | ⟨rfl, rfl⟩ <;> rcases hn with hn | ⟨rfl, rfl⟩
  · rw [if_neg hm.pos.ne', if_neg hn.pos.ne'] at hvalue
    exact Decimal.shortest_inj hm hn hvalue
  · rw [if_neg hm.pos.ne', if_pos rfl, hzero] at hvalue
    exact absurd hvalue (Decimal.value_shortest_pos hm.pos hm.least).ne'
  · rw [if_pos rfl, if_neg hn.pos.ne', hzero] at hvalue
    exact absurd hvalue (Decimal.value_shortest_pos hn.pos hn.least).ne
  · exact ⟨rfl, rfl⟩

/-- The text determines what the pattern stands for. -/
theorem decode_eq_of_write {a b : UInt64} (h : l.write a = l.write b) : decode a = decode b := by
  have hlist := congrArg String.toList h
  rw [toList_write, toList_write] at hlist
  obtain ⟨hsign, hbody⟩ :
      signed (decode a) = signed (decode b) ∧ l.body (decode a) = l.body (decode b) := by
    cases ha : signed (decode a) <;> cases hb : signed (decode b) <;> simp only [ha, hb] at hlist
    · exact ⟨rfl, hlist⟩
    · exact absurd hlist (body_ne_sign _ _)
    · exact absurd hlist.symm (body_ne_sign _ _)
    · exact ⟨rfl, (List.cons.inj hlist).2⟩
  cases ha : decode a <;> cases hb : decode b <;> rw [ha, hb] at hsign hbody
  case infinite.infinite => exact congrArg infinite hsign
  case finite.finite s m q t n p =>
    obtain ⟨rfl, rfl⟩ := finite_inj (canonical_of_decode ha) (canonical_of_decode hb) hbody
    exact congrArg (finite · m q) hsign
  case nan.finite => exact absurd hbody (body_ne_finite rfl _ _ _)
  case infinite.finite => exact absurd hbody (body_ne_finite rfl _ _ _)
  case finite.nan => exact absurd hbody.symm (body_ne_finite rfl _ _ _)
  case finite.infinite => exact absurd hbody.symm (body_ne_finite rfl _ _ _)
  all_goals simp [body] at hbody

theorem write_cases (bits : UInt64) :
    l.write bits = "NaN" ∨ l.write bits = "inf" ∨ l.write bits = "-inf" ∨
      (∀ c ∈ (l.write bits).toList, Numeral c) ∧ l.write bits ≠ "" := by
  have hlist := toList_write (l := l) bits
  cases hd : decode bits with
  | nan => exact .inl (by simp [write, hd])
  | infinite negative =>
    cases negative
    · exact .inr (.inl (String.toList_inj.mp (by simp [hlist, hd, signed, body])))
    · exact .inr (.inr (.inl (String.toList_inj.mp (by simp [hlist, hd, signed, body]))))
  | finite negative m q =>
    refine .inr (.inr (.inr ?_))
    rw [hd] at hlist
    have hnumeral := numeral_writeDecimal (l := l) (if m = 0 then ⟨0, 0⟩ else Decimal.shortest m q)
    obtain ⟨c, cs, hcons, -⟩ := leads_writeDecimal (l := l)
      (if m = 0 then ⟨0, 0⟩ else Decimal.shortest m q)
    have hne : (l.write bits).toList ≠ [] := by
      rw [hlist]
      split
      · simp
      · simp [body, hcons]
    refine ⟨fun c hc => ?_, fun h => hne (by simp [h])⟩
    rw [hlist] at hc
    split at hc
    · rcases List.mem_cons.mp hc with rfl | hc
      exacts [.inr (.inr (.inl rfl)), hnumeral c hc]
    · exact hnumeral c hc

end Layout

namespace Number

/-- The texts of numbers tell them apart; only what is not a number is written alike. -/
theorem exactText_eq_iff (a b : Number) :
    a.exactText = b.exactText ↔ a = b ∨ a.value.isNaN ∧ b.value.isNaN := by
  constructor
  · intro h
    have hd : a.value.decode = b.value.decode := Layout.decode_eq_of_write h
    by_cases hn : a.value.decode = .nan
    · exact .inr ⟨by simp [Double.isNaN, hn], by simp [Double.isNaN, ← hd, hn]⟩
    · have hbits := Binary64.eq_of_decode hd hn
      refine .inl ?_
      cases a with | mk x hx =>
      cases b with | mk y hy =>
      cases x
      cases y
      simp_all
  · rintro (rfl | ⟨ha, hb⟩)
    · rfl
    · simp only [Double.isNaN, beq_iff_eq] at ha hb
      change Layout.scientific.write a.value.bits = Layout.scientific.write b.value.bits
      unfold Layout.write
      rw [show Binary64.decode a.value.bits = .nan from ha,
        show Binary64.decode b.value.bits = .nan from hb]

theorem exactText_ne_empty (n : Number) : n.exactText ≠ "" := by
  intro h
  rcases Layout.write_cases (l := .scientific) n.value.bits with hw | hw | hw | hw
  · exact absurd (h.symm.trans hw) (by decide)
  · exact absurd (h.symm.trans hw) (by decide)
  · exact absurd (h.symm.trans hw) (by decide)
  · exact hw.2 h

theorem mem_exactText {n : Number} {c : Char} (h : c ∈ n.exactText.toList) :
    Layout.Numeral c ∨ c ∈ ['N', 'a', 'i', 'n', 'f'] := by
  have hword {w : String} (hw : Layout.scientific.write n.value.bits = w) : c ∈ w.toList := hw ▸ h
  rcases Layout.write_cases (l := .scientific) n.value.bits with hw | hw | hw | hw
  · have := hword hw
    simp only [String.reduceToList, List.mem_cons, List.not_mem_nil, or_false] at this
    rcases this with rfl | rfl | rfl <;> decide
  · have := hword hw
    simp only [String.reduceToList, List.mem_cons, List.not_mem_nil, or_false] at this
    rcases this with rfl | rfl | rfl <;> decide
  · have := hword hw
    simp only [String.reduceToList, List.mem_cons, List.not_mem_nil, or_false] at this
    rcases this with rfl | rfl | rfl | rfl <;> decide
  · exact .inl (hw.1 c h)

end Number

end Mosaic
