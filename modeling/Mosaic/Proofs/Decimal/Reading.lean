import Mathlib.Algebra.Order.Field.Rat
import Mathlib.Data.Rat.Cast.Defs
import Mathlib.Tactic.FieldSimp
import Mathlib.Tactic.Ring
import Mosaic.Decimal.Layout

/-!
# Reading decimals

The text of a decimal determines the number it stands for, in every layout: `Layout.read` reads back
what `Layout.writeDecimal` writes. Reading takes the digits on both sides of the point as one whole
number and scales it by the exponent mark, less one place for each digit after the point.
-/

namespace Mosaic

/-- The number that a decimal stands for. -/
def Decimal.value (d : Decimal) : ℚ := d.digits * (10 : ℚ) ^ d.exponent

namespace Layout

/-- A text of decimal digits. -/
def Digits (cs : List Char) : Prop := ∀ c ∈ cs, c.isDigit = true

/-- The exponent that a mark such as `e-7` stands for; none is zero. -/
def readExponent : List Char → ℤ
  | 'e' :: '-' :: cs => -(Nat.ofDigitChars 10 cs 0 : ℕ)
  | 'e' :: cs => (Nat.ofDigitChars 10 cs 0 : ℕ)
  | _ => 0

/-- The number that a text stands for: digits, perhaps with a point, perhaps with an exponent. -/
def read (cs : List Char) : ℚ :=
  let mantissa := cs.takeWhile (· != 'e')
  let whole := mantissa.takeWhile (· != '.')
  let fraction := (mantissa.dropWhile (· != '.')).drop 1
  let exponent := readExponent (cs.dropWhile (· != 'e'))
  (Nat.ofDigitChars 10 (whole ++ fraction) 0 : ℕ) * (10 : ℚ) ^ (exponent - fraction.length)

/-- What may follow the digits: nothing, or an exponent mark. -/
def Mark (cs : List Char) : Prop := cs = [] ∨ ∃ rest, cs = 'e' :: rest

namespace Digits
variable {cs ds : List Char}

theorem append (hc : Digits cs) (hd : Digits ds) : Digits (cs ++ ds) := by
  intro c h
  rcases List.mem_append.mp h with h | h
  exacts [hc c h, hd c h]

theorem take (h : Digits cs) (n : Nat) : Digits (cs.take n) :=
  fun c hc => h c (List.mem_of_mem_take hc)

theorem drop (h : Digits cs) (n : Nat) : Digits (cs.drop n) :=
  fun c hc => h c (List.mem_of_mem_drop hc)

theorem ne_of_mem {c d : Char} (h : Digits cs) (hd : d.isDigit = false) (hc : c ∈ cs) : c ≠ d := by
  rintro rfl
  simp [h c hc] at hd

/-- A scan for a character that is no digit passes over the digits. -/
theorem takeWhile (h : Digits cs) (d : Char) (hd : d.isDigit = false) (rest : List Char) :
    (cs ++ rest).takeWhile (· != d) = cs ++ rest.takeWhile (· != d) :=
  List.takeWhile_append_of_pos fun c hc => by simpa using h.ne_of_mem hd hc

theorem dropWhile (h : Digits cs) (d : Char) (hd : d.isDigit = false) (rest : List Char) :
    (cs ++ rest).dropWhile (· != d) = rest.dropWhile (· != d) :=
  List.dropWhile_append_of_pos fun c hc => by simpa using h.ne_of_mem hd hc

end Digits

theorem digits_toDigits (n : Nat) : Digits (Nat.toDigits 10 n) :=
  fun _ h => Nat.isDigit_of_mem_toDigits (by decide) (by decide) h

theorem digits_zeros (n : Nat) : Digits (zeros n) := by
  intro c h
  rw [zeros, List.mem_replicate] at h
  rw [h.2]
  rfl

/-! ## What is read -/

theorem Mark.takeWhile {cs : List Char} (h : Mark cs) : cs.takeWhile (· != 'e') = [] := by
  rcases h with rfl | ⟨rest, rfl⟩ <;> simp

theorem Mark.dropWhile {cs : List Char} (h : Mark cs) : cs.dropWhile (· != 'e') = cs := by
  rcases h with rfl | ⟨rest, rfl⟩ <;> simp

section
variable {whole fraction mark : List Char}

theorem read_whole (hw : Digits whole) (hm : Mark mark) :
    read (whole ++ mark) = (Nat.ofDigitChars 10 whole 0 : ℕ) * (10 : ℚ) ^ readExponent mark := by
  have hp : whole.takeWhile (· != '.') = whole := by simpa using hw.takeWhile '.' rfl []
  have hf : whole.dropWhile (· != '.') = [] := by simpa using hw.dropWhile '.' rfl []
  simp only [read, hw.takeWhile 'e' rfl, hw.dropWhile 'e' rfl, hm.takeWhile, hm.dropWhile,
    List.append_nil, hp, hf, List.drop_nil, List.length_nil, Nat.cast_zero, sub_zero]

/-- Each digit after the point takes one place off the exponent. -/
theorem read_point (hw : Digits whole) (hf : Digits fraction) (hm : Mark mark) :
    read (whole ++ '.' :: (fraction ++ mark)) =
      (Nat.ofDigitChars 10 (whole ++ fraction) 0 : ℕ) *
        (10 : ℚ) ^ (readExponent mark - fraction.length) := by
  have ht : (whole ++ '.' :: (fraction ++ mark)).takeWhile (· != 'e') = whole ++ '.' :: fraction := by
    rw [hw.takeWhile 'e' rfl, List.takeWhile_cons_of_pos (by decide), hf.takeWhile 'e' rfl,
      hm.takeWhile, List.append_nil]
  have hd : (whole ++ '.' :: (fraction ++ mark)).dropWhile (· != 'e') = mark := by
    rw [hw.dropWhile 'e' rfl, List.dropWhile_cons_of_pos (by decide), hf.dropWhile 'e' rfl,
      hm.dropWhile]
  have hp : (whole ++ '.' :: fraction).takeWhile (· != '.') = whole := by
    simp [hw.takeWhile '.' rfl]
  have hq : (whole ++ '.' :: fraction).dropWhile (· != '.') = '.' :: fraction := by
    simp [hw.dropWhile '.' rfl]
  simp only [read, ht, hd, hp, hq, List.drop_succ_cons, List.drop_zero]

end

theorem ofDigitChars_zeros (n init : Nat) :
    Nat.ofDigitChars 10 (zeros n) init = init * 10 ^ n := by
  induction n generalizing init with
  | zero => simp [zeros, Nat.ofDigitChars]
  | succ n ih =>
    have h : zeros (n + 1) = '0' :: zeros n := rfl
    rw [h]
    simp only [Nat.ofDigitChars, List.foldl_cons] at ih ⊢
    rw [ih]
    simp [pow_succ]
    ring

theorem ofDigitChars_toDigits (n : ℕ) : Nat.ofDigitChars 10 (Nat.toDigits 10 n) 0 = n :=
  Nat.ofDigitChars_toDigits (by decide) (by decide)

theorem readExponent_toString (i : ℤ) : readExponent ('e' :: (toString i).toList) = i := by
  rw [Int.toString_eq_repr]
  cases i with
  | ofNat n =>
    simp only [Int.repr, Nat.toList_repr]
    cases h : Nat.toDigits 10 n with
    | nil => exact absurd h Nat.toDigits_ne_nil
    | cons c cs =>
      -- a digit is no sign, so the text is read as it stands
      have hc : c ≠ '-' := (digits_toDigits n).ne_of_mem rfl (by simp [h])
      rw [readExponent, ← h, ofDigitChars_toDigits]
      · rfl
      · intro cs' heq
        exact hc (List.cons.inj heq).1
  | negSucc n =>
    simp only [Int.repr, String.toList_append, Nat.toList_repr]
    change -((Nat.ofDigitChars 10 (Nat.toDigits 10 (n + 1)) 0 : ℕ) : ℤ) = _
    rw [ofDigitChars_toDigits]
    rfl

/-! ## What is written -/

section
variable {ds : List Char}

theorem mark_nil : Mark [] := .inl rfl

/-- Zeros after the digits, with or without a fraction of its own. -/
theorem read_trailing (h : Digits ds) (n : ℕ) (keeps : Bool) :
    read (ds ++ zeros n ++ (if keeps then ['.', '0'] else [])) =
      (Nat.ofDigitChars 10 ds 0 : ℕ) * (10 : ℚ) ^ (n : ℤ) := by
  have hall := h.append (digits_zeros n)
  have hvalue : Nat.ofDigitChars 10 (ds ++ zeros n) 0 = Nat.ofDigitChars 10 ds 0 * 10 ^ n := by
    rw [Nat.ofDigitChars_append, ofDigitChars_zeros]
  cases keeps with
  | true =>
    have hread := read_point hall (digits_zeros 1) mark_nil
    rw [Nat.ofDigitChars_append, hvalue, ofDigitChars_zeros, List.append_nil] at hread
    change read (ds ++ zeros n ++ '.' :: zeros 1) = _
    rw [hread]
    simp [readExponent, zeros]
  | false =>
    have hread := read_whole hall mark_nil
    rw [hvalue] at hread
    change read (ds ++ zeros n ++ []) = _
    rw [hread]
    simp [readExponent]

theorem read_among (h : Digits ds) {places : ℕ} (hp : places ≤ ds.length) :
    read (ds.take (ds.length - places) ++ '.' :: ds.drop (ds.length - places)) =
      (Nat.ofDigitChars 10 ds 0 : ℕ) * (10 : ℚ) ^ (-places : ℤ) := by
  have hread := read_point (h.take (ds.length - places)) (h.drop (ds.length - places)) mark_nil
  rw [List.take_append_drop, List.append_nil, List.length_drop] at hread
  rw [hread]
  congr 2
  simp only [readExponent]
  omega

theorem read_leading (h : Digits ds) (n : ℕ) :
    read ('0' :: '.' :: (zeros n ++ ds)) =
      (Nat.ofDigitChars 10 ds 0 : ℕ) * (10 : ℚ) ^ (-(n + ds.length : ℕ) : ℤ) := by
  have hone : Digits ['0'] := digits_zeros 1
  have hread := read_point hone ((digits_zeros n).append h) mark_nil
  have hvalue : Nat.ofDigitChars 10 (['0'] ++ (zeros n ++ ds)) 0 = Nat.ofDigitChars 10 ds 0 := by
    rw [Nat.ofDigitChars_append, Nat.ofDigitChars_append, ofDigitChars_zeros]
    simp [Nat.ofDigitChars]
  rw [hvalue, List.append_nil, List.length_append, zeros, List.length_replicate] at hread
  change read (['0'] ++ '.' :: (List.replicate n '0' ++ ds)) = _
  rw [hread]
  congr 2
  simp only [readExponent]
  omega

end

theorem read_writePositional (l : Layout) (d : Decimal) :
    read (l.writePositional (Nat.toDigits 10 d.digits) d.exponent) = d.value := by
  have hd := digits_toDigits d.digits
  have hvalue := ofDigitChars_toDigits d.digits
  unfold Decimal.value writePositional
  generalize Nat.toDigits 10 d.digits = ds at hd hvalue ⊢
  dsimp only
  split
  next h => rw [read_trailing hd, hvalue, Int.toNat_of_nonneg h]
  next h =>
    split
    next hp =>
      rw [read_among hd hp.le, hvalue, Int.toNat_of_nonneg (by omega), neg_neg]
    next hp =>
      rw [read_leading hd, hvalue]
      congr 2
      omega

theorem read_writeScientific (d : Decimal) :
    read (writeScientific (Nat.toDigits 10 d.digits)
      (d.exponent + (Nat.toDigits 10 d.digits).length - 1)) = d.value := by
  have hd := digits_toDigits d.digits
  unfold writeScientific Decimal.value
  have hval := ofDigitChars_toDigits d.digits
  have hmark (i : ℤ) : Mark ('e' :: (toString i).toList) := .inr ⟨_, rfl⟩
  have hlen : 0 < (Nat.toDigits 10 d.digits).length := Nat.length_toDigits_pos
  generalize Nat.toDigits 10 d.digits = ds at hd hval hlen ⊢
  have hall := List.take_append_drop 1 ds
  cases hrest : ds.drop 1 with
  | nil =>
    have hone : ds.length = 1 := by
      have := List.drop_eq_nil_iff.mp hrest
      omega
    rw [hrest, List.append_nil] at hall
    simp only [hall, List.append_nil]
    rw [read_whole hd (hmark _), readExponent_toString, hval, hone]
    congr 2
    omega
  | cons c cs =>
    have hlength : (c :: cs).length = ds.length - 1 := by rw [← hrest, List.length_drop]
    rw [hrest] at hall
    simp only [List.append_assoc, List.cons_append]
    rw [show ds.take 1 ++ '.' :: c :: (cs ++ 'e' :: (toString (d.exponent + ds.length - 1)).toList)
        = ds.take 1 ++ '.' :: ((c :: cs) ++ 'e' :: (toString (d.exponent + ds.length - 1)).toList)
        from rfl,
      read_point (hd.take 1) (hrest ▸ hd.drop 1) (hmark _), readExponent_toString, hall, hval,
      hlength]
    congr 2
    omega

/-- Every layout of a decimal is read as the number it stands for. -/
theorem read_writeDecimal (l : Layout) (d : Decimal) : read (l.writeDecimal d) = d.value := by
  unfold writeDecimal
  cases l.positional with
  | none => exact read_writePositional l d
  | some bounds =>
    obtain ⟨first, last⟩ := bounds
    simp only []
    split
    · exact read_writePositional l d
    · exact read_writeScientific d

end Layout

end Mosaic
