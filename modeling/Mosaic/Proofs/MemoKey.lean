import Mathlib.Data.List.Forall2
import Mosaic.MemoKey
import Mosaic.Proofs.Decimal.Exact

/-!
# Memo keys identify calls

A key can be read from left to right: the callee's digits end at the parenthesis, a quoted text ends
at its own quote, whatever stands in it, and every other argument ends at the next comma or
parenthesis. What an argument is written as shows its kind, and within a kind the text determines the
value. So equal keys mean the same callee and the same arguments, except that numbers that are not
numbers are all one argument.
-/

namespace Mosaic

namespace Text

/-! ## Quoted texts -/

/-- The digit that a hexadecimal character stands for. -/
def hexDigit (c : Char) : ℕ := if c.isDigit then c.toNat - 48 else c.toNat - 87

def hexValue (cs : List Char) : ℕ := cs.foldl (fun n c => 16 * n + hexDigit c) 0

theorem hexDigit_digitChar : ∀ n < 16, hexDigit (Nat.digitChar n) = n := by decide

theorem digitChar_ne_close : ∀ n < 16, Nat.digitChar n ≠ '\x7d' := by decide

theorem hexValue_toDigits (n : ℕ) : hexValue (Nat.toDigits 16 n) = n := by
  induction n using Nat.strong_induction_on with
  | _ n ih =>
    have hd := hexDigit_digitChar (n % 16) (Nat.mod_lt _ (by decide))
    rw [Nat.toDigits_eq_if (by decide)]
    split
    next h => simpa [hexValue, Nat.mod_eq_of_lt h] using hd
    next h =>
      have hrest := ih (n / 16) (by omega)
      rw [hexValue] at hrest
      rw [hexValue, List.foldl_append, hrest]
      simp only [List.foldl_cons, List.foldl_nil, hd]
      omega

theorem ne_close_of_mem (n : ℕ) : ∀ c ∈ Nat.toDigits 16 n, c ≠ '\x7d' := by
  induction n using Nat.strong_induction_on with
  | _ n ih =>
    intro c hc
    rw [Nat.toDigits_eq_if (by decide)] at hc
    split at hc
    next h =>
      rw [List.mem_singleton.mp hc]
      exact digitChar_ne_close n h
    next h =>
      rcases List.mem_append.mp hc with hc | hc
      · exact ih (n / 16) (by omega) c hc
      · rw [List.mem_singleton.mp hc]
        exact digitChar_ne_close _ (Nat.mod_lt _ (by decide))

/-- The first character of a text between quotes, and what comes after it. -/
def unescape : List Char → Char × List Char
  | '\\' :: 'u' :: '\x7b' :: rest =>
    (Char.ofNat (hexValue (rest.takeWhile (· != '\x7d'))), (rest.dropWhile (· != '\x7d')).drop 1)
  | '\\' :: 'n' :: rest => ('\n', rest)
  | '\\' :: 'r' :: rest => ('\r', rest)
  | '\\' :: 't' :: rest => ('\t', rest)
  | '\\' :: '0' :: rest => (Char.ofNat 0, rest)
  | '\\' :: c :: rest => (c, rest)
  | c :: rest => (c, rest)
  | [] => (default, [])

theorem unescape_plain {c : Char} (hc : c ≠ '\\') (rest : List Char) :
    unescape (c :: rest) = (c, rest) := by
  unfold unescape
  split <;> simp_all

theorem unescape_code (n : ℕ) (rest : List Char) :
    unescape ('\\' :: 'u' :: '\x7b' :: (Nat.toDigits 16 n ++ '\x7d' :: rest)) =
      (Char.ofNat n, rest) := by
  have hmem : ∀ c ∈ Nat.toDigits 16 n, (c != '\x7d') = true := fun c hc => by
    simpa using ne_close_of_mem n c hc
  simp only [unescape, List.takeWhile_append_of_pos hmem, List.dropWhile_append_of_pos hmem]
  simp [hexValue_toDigits]

theorem unescape_escape (c : Char) (rest : List Char) : unescape (escape c ++ rest) = (c, rest) := by
  unfold escape
  split
  · rfl
  · rfl
  · rfl
  · rfl
  · rfl
  next hquote hback hn hr ht =>
    split
    next h0 =>
      have : c = Char.ofNat 0 := by rw [← h0, Char.ofNat_toNat]
      rw [this]
      rfl
    next =>
      split
      · exact unescape_plain hback rest
      · have := unescape_code c.toNat rest
        rw [Char.ofNat_toNat] at this
        simpa using this

theorem escape_ne_quote (c : Char) (x y : List Char) : escape c ++ x ≠ '"' :: y := by
  intro h
  have hc := congrArg unescape h
  rw [unescape_escape, unescape_plain (by decide)] at hc
  obtain ⟨rfl, -⟩ := Prod.mk.inj hc
  simp [escape] at h

/-- A quoted text ends where it ends, whatever comes after it. -/
theorem flatMap_escape_inj {s t x y : List Char}
    (h : s.flatMap escape ++ '"' :: x = t.flatMap escape ++ '"' :: y) : s = t ∧ x = y := by
  induction s generalizing t with
  | nil =>
    cases t with
    | nil => simpa using h
    | cons d t =>
      rw [List.flatMap_cons, List.append_assoc] at h
      exact absurd h.symm (escape_ne_quote d _ _)
  | cons c s ih =>
    cases t with
    | nil =>
      rw [List.flatMap_cons, List.append_assoc] at h
      exact absurd h (escape_ne_quote c _ _)
    | cons d t =>
      rw [List.flatMap_cons, List.flatMap_cons, List.append_assoc, List.append_assoc] at h
      have hboth := congrArg unescape h
      rw [unescape_escape, unescape_escape] at hboth
      obtain ⟨rfl, hrest⟩ := Prod.mk.inj hboth
      obtain ⟨rfl, hxy⟩ := ih hrest
      exact ⟨rfl, hxy⟩

theorem toList_quoted (s : String) :
    (quoted s).toList = '"' :: (s.toList.flatMap escape ++ ['"']) := String.toList_ofList

theorem quoted_append_inj {s t : String} {x y : List Char}
    (h : (quoted s).toList ++ x = (quoted t).toList ++ y) : s = t ∧ x = y := by
  simp only [toList_quoted, List.cons_append, List.append_assoc, List.nil_append] at h
  obtain ⟨hst, hxy⟩ := flatMap_escape_inj (List.cons.inj h).2
  exact ⟨String.toList_inj.mp hst, hxy⟩

end Text

open Mosaic.Graph (NodeId)

namespace Value

/-- Equality of arguments: all numbers that are not numbers are one. -/
def Same (v w : Value) : Prop :=
  v = w ∨ ∃ a b, v = number a ∧ w = number b ∧ a.value.isNaN = true ∧ b.value.isNaN = true

/-! ## The text of one argument -/

/-- The kinds of argument that texts can tell apart. -/
inductive Shape where
  | nil
  | bool
  | number
  | text
  | object
deriving DecidableEq

def shape : Value → Shape
  | datum .nil => .nil
  | datum (.bool _) => .bool
  | datum (.number _) => .number
  | datum (.text _) => .text
  | datum (.object ..) => .object
  | fieldRef .. => .nil

/-- The kind that a text shows: only objects are written with a `#`, and only texts with a quote in
front. -/
def shapeOf (t : String) : Shape :=
  if t.toList.head? = some '"' then .text
  else if '#' ∈ t.toList then .object
  else if t = "nil" then .nil
  else if t = "true" ∨ t = "false" then .bool
  else .number

/-- The text of an object: letters, a `#`, and the digits of the address. -/
theorem toList_address (id : NodeId) : id.text.toList = '#' :: Nat.toDigits 10 id := by
  simp [NodeId.text, Nat.toString_eq_repr, Nat.toList_repr]

theorem mem_name {t : ObjectType} {c : Char} (h : c ∈ t.name.toList) :
    c ∈ ['t', 'i', 'l', 'e', 'v', 'r', 'x', 'd', 'g', 'p', 'a', 'c', 'h', 'u', 's', 'm', 'b'] := by
  cases t <;> simp only [ObjectType.name, String.reduceToList, List.mem_cons, List.not_mem_nil,
    or_false] at h ⊢ <;> tauto

theorem shapeOf_memoText {v : Value} {t : String} (h : v.memoText? = some t) :
    shapeOf t = v.shape := by
  unfold memoText? at h
  split at h
  case h_1 => cases h; rfl
  case h_2 b => cases h; cases b <;> rfl
  case h_3 n =>
    cases h
    have hmem {c : Char} (hc : ¬(Layout.Numeral c ∨ c ∈ ['N', 'a', 'i', 'n', 'f'])) :
        c ∉ n.exactText.toList := fun h => hc (Number.mem_exactText h)
    have hne {w : String} {c : Char} (hw : c ∈ w.toList)
        (hc : ¬(Layout.Numeral c ∨ c ∈ ['N', 'a', 'i', 'n', 'f'])) : n.exactText ≠ w :=
      fun h => hmem hc (h ▸ hw)
    unfold shapeOf
    rw [if_neg fun h => hmem (by decide) (List.mem_of_head? h), if_neg (hmem (by decide)),
      if_neg (hne (c := 'l') (by decide) (by decide)), if_neg]
    · rfl
    · rintro (h | h)
      exacts [hne (c := 't') (by decide) (by decide) h, hne (c := 'l') (by decide) (by decide) h]
  case h_4 s => cases h; simp [shapeOf, Text.toList_quoted, shape]
  case h_5 => cases h
  case h_6 t id _ =>
    cases h
    unfold shapeOf
    rw [if_neg, if_pos]
    · rfl
    · simp [toList_address]
    · cases t <;> simp [ObjectType.name, String.toList_append]
  case h_7 => cases h

theorem name_inj {t u : ObjectType} (h : t.name = u.name) : t = u := by
  cases t <;> cases u <;> first | rfl | exact absurd h (by decide)

theorem object_inj {t u : ObjectType} {i j : NodeId}
    (h : t.name ++ i.text = u.name ++ j.text) : t = u ∧ i = j := by
  have hno (t : ObjectType) : ∀ c ∈ t.name.toList, (c != '#') = true := fun c hc => by
    have := mem_name hc
    rw [bne_iff_ne]
    rintro rfl
    simp at this
  have hlist := congrArg String.toList h
  simp only [String.toList_append, toList_address] at hlist
  have hname := congrArg (List.takeWhile (· != '#')) hlist
  rw [List.takeWhile_append_of_pos (hno t), List.takeWhile_append_of_pos (hno u)] at hname
  simp only [bne_self_eq_false, Bool.false_eq_true, not_false_eq_true, List.takeWhile_cons_of_neg,
    List.append_nil] at hname
  have htu := name_inj (String.toList_inj.mp hname)
  rw [htu] at hlist
  have hdigits := congrArg (Nat.ofDigitChars 10 · 0) (List.cons.inj (List.append_cancel_left hlist)).2
  simp only [Layout.ofDigitChars_toDigits] at hdigits
  exact ⟨htu, hdigits⟩

theorem object_text {t : ObjectType} {id : NodeId} {s : String}
    (h : (object t id).memoText? = some s) : s = t.name ++ id.text := by
  cases t <;> first | exact (Option.some.inj h).symm | cases h

theorem bool_inj : ∀ {b c : Bool}, toString b = toString c → b = c := by decide

/-- The text of an argument determines it. -/
theorem same_of_memoText {v w : Value} {t : String} (hv : v.memoText? = some t)
    (hw : w.memoText? = some t) : v.Same w := by
  have hshape : v.shape = w.shape := (shapeOf_memoText hv).symm.trans (shapeOf_memoText hw)
  cases v with
  | fieldRef => cases hv
  | datum d =>
  cases w with
  | fieldRef => cases hw
  | datum e =>
  cases d <;> cases e <;> cases hshape
  next => exact .inl rfl
  next a b =>
    rcases (Number.exactText_eq_iff a b).mp (Option.some.inj (hv.trans hw.symm)) with rfl | ⟨ha, hb⟩
    · exact .inl rfl
    · exact .inr ⟨a, b, rfl, rfl, ha, hb⟩
  next s u =>
    have h : Text.quoted s = Text.quoted u := Option.some.inj (hv.trans hw.symm)
    exact .inl (congrArg text (Text.quoted_append_inj (x := []) (y := []) (by rw [h])).1)
  next b c => exact .inl (congrArg bool (bool_inj (Option.some.inj (hv.trans hw.symm))))
  next t i u j =>
    obtain ⟨rfl, rfl⟩ := object_inj ((object_text hv).symm.trans (object_text hw))
    exact .inl rfl

theorem memoText_congr {v w : Value} (h : v.Same w) : v.memoText? = w.memoText? := by
  rcases h with rfl | ⟨a, b, rfl, rfl, ha, hb⟩
  · rfl
  · exact congrArg some ((Number.exactText_eq_iff a b).mpr (.inr ⟨ha, hb⟩))

/-- The arguments that have no text are the lambdas and the references to fields. -/
theorem memoText?_eq_none {v : Value} :
    v.memoText? = none ↔ (∃ id, v = object .lambda id) ∨ ∃ binding field, v = fieldRef binding field := by
  unfold memoText?
  split <;> simp_all

/-! ## Where the text of an argument ends -/

/-- A character that ends no argument and starts no quoted text. -/
def Plain (c : Char) : Prop := c ≠ ',' ∧ c ≠ ')' ∧ c ≠ '"'

instance : DecidablePred Plain := fun _ => inferInstanceAs (Decidable (_ ∧ _ ∧ _))

theorem plain_of_isDigit {c : Char} (h : c.isDigit = true) : Plain c := by
  refine ⟨?_, ?_, ?_⟩ <;> rintro rfl <;> cases h

theorem plain_name (t : ObjectType) : ∀ c ∈ t.name.toList, Plain c := by
  cases t <;> simp [ObjectType.name, Plain]

theorem plain_of_memoText {v : Value} {t : String} (h : v.memoText? = some t)
    (hv : v.shape ≠ .text) : ∀ c ∈ t.toList, Plain c := by
  unfold memoText? at h
  split at h
  case h_1 => cases h; simp [Plain]
  case h_2 b => cases h; cases b <;> simp [Plain, toString]
  case h_3 n =>
    cases h
    intro c hc
    rcases Number.mem_exactText hc with (hd | rfl | rfl | rfl) | hword
    · exact plain_of_isDigit hd
    · decide
    · decide
    · decide
    · simp only [List.mem_cons, List.not_mem_nil, or_false] at hword
      rcases hword with rfl | rfl | rfl | rfl | rfl <;> decide
  case h_4 => exact absurd rfl hv
  case h_5 => cases h
  case h_6 t id _ =>
    cases h
    intro c hc
    rw [String.toList_append, toList_address] at hc
    rcases List.mem_append.mp hc with hc | hc
    · exact plain_name t c hc
    · rcases List.mem_cons.mp hc with rfl | hc
      · decide
      · exact plain_of_isDigit (Layout.digits_toDigits id c hc)
  case h_7 => cases h

theorem memoText_ne_empty {v : Value} (h : v.memoText? = some "") : False := by
  unfold memoText? at h
  split at h
  case h_2 b => cases b <;> exact absurd h (by decide)
  case h_3 n => exact n.exactText_ne_empty (Option.some.inj h)
  case h_4 s =>
    have := congrArg String.toList (Option.some.inj h)
    simp [Text.toList_quoted] at this
  case h_6 t id _ =>
    have := congrArg String.toList (Option.some.inj h)
    simp [toList_address] at this
  all_goals exact absurd h (by decide)

theorem text_of_shape {v : Value} {t : String} (hv : v.memoText? = some t) (hs : v.shape = .text) :
    ∃ s, t = Text.quoted s := by
  cases v with
  | fieldRef => cases hs
  | datum d =>
    cases d <;> cases hs
    exact ⟨_, (Option.some.inj hv).symm⟩

/-- No argument starts like the end of the call. -/
theorem head_memoText {v : Value} {t : String} (hv : v.memoText? = some t) :
    ∃ c cs, t.toList = c :: cs ∧ c ≠ ')' := by
  have hne : t.toList ≠ [] := fun h => memoText_ne_empty (String.toList_eq_nil_iff.mp h ▸ hv)
  obtain ⟨c, cs, heq⟩ := List.exists_cons_of_ne_nil hne
  refine ⟨c, cs, heq, ?_⟩
  by_cases hs : v.shape = .text
  · obtain ⟨s, rfl⟩ := text_of_shape hv hs
    rw [Text.toList_quoted] at heq
    rw [← (List.cons.inj heq).1]
    decide
  · exact (plain_of_memoText hv hs c (by simp [heq])).2.1

/-- What comes after an argument. -/
def Closes (cs : List Char) : Prop := ∃ c rest, cs = c :: rest ∧ (c = ',' ∨ c = ')')

/-- A quoted text is not written like the other arguments, whatever follows these. -/
theorem quoted_ne_plain {s : String} {t : List Char} {x y : List Char} (ht : ∀ c ∈ t, Plain c)
    (hy : Closes y) : (Text.quoted s).toList ++ x ≠ t ++ y := by
  rw [Text.toList_quoted]
  intro h
  cases t with
  | nil =>
    obtain ⟨c, rest, rfl, hc⟩ := hy
    obtain ⟨rfl, -⟩ := List.cons.inj h
    simp at hc
  | cons c t =>
    obtain ⟨rfl, -⟩ := List.cons.inj h
    exact (ht _ (by simp)).2.2 rfl

theorem plain_append_inj {t u x y : List Char} (ht : ∀ c ∈ t, Plain c) (hu : ∀ c ∈ u, Plain c)
    (hx : Closes x) (hy : Closes y) (h : t ++ x = u ++ y) : t = u ∧ x = y := by
  have hstop {cs : List Char} (hc : Closes cs) :
      cs.takeWhile (fun c => c != ',' && c != ')') = [] := by
    obtain ⟨c, rest, rfl, rfl | rfl⟩ := hc <;> simp
  have hpass {cs : List Char} (hp : ∀ c ∈ cs, Plain c) :
      ∀ c ∈ cs, (c != ',' && c != ')') = true := fun c hc => by
    simp [(hp c hc).1, (hp c hc).2.1]
  have htake := congrArg (List.takeWhile fun c => c != ',' && c != ')') h
  rw [List.takeWhile_append_of_pos (hpass ht), List.takeWhile_append_of_pos (hpass hu), hstop hx,
    hstop hy, List.append_nil, List.append_nil] at htake
  subst htake
  exact ⟨rfl, List.append_cancel_left h⟩

/-- An argument can be told from what comes after it. -/
theorem memoText_append_inj {v w : Value} {t u : String} {x y : List Char}
    (hv : v.memoText? = some t) (hw : w.memoText? = some u) (hx : Closes x) (hy : Closes y)
    (h : t.toList ++ x = u.toList ++ y) : t = u ∧ x = y := by
  by_cases hs : v.shape = .text
  · obtain ⟨s, rfl⟩ := text_of_shape hv hs
    by_cases hs' : w.shape = .text
    · obtain ⟨s', rfl⟩ := text_of_shape hw hs'
      obtain ⟨rfl, hxy⟩ := Text.quoted_append_inj h
      exact ⟨rfl, hxy⟩
    · exact absurd h (quoted_ne_plain (plain_of_memoText hw hs') hy)
  · by_cases hs' : w.shape = .text
    · obtain ⟨s', rfl⟩ := text_of_shape hw hs'
      exact absurd h.symm (quoted_ne_plain (plain_of_memoText hv hs) hx)
    · obtain ⟨htu, hxy⟩ :=
        plain_append_inj (plain_of_memoText hv hs) (plain_of_memoText hw hs') hx hy h
      exact ⟨String.toList_inj.mp htu, hxy⟩

end Value

/-! ## The text of a call -/

/-- The arguments after the first, with their commas, and the closing parenthesis. -/
def restText : List String → List Char
  | [] => [')']
  | t :: ts => ',' :: (t.toList ++ restText ts)

/-- The arguments and the closing parenthesis. -/
def argsText : List String → List Char
  | [] => [')']
  | t :: ts => t.toList ++ restText ts

theorem intercalate_eq (ts : List String) :
    (",".intercalate ts).toList ++ [')'] = argsText ts := by
  rw [String.toList_intercalate]
  cases ts with
  | nil => rfl
  | cons t ts =>
    induction ts generalizing t with
    | nil => simp [argsText, restText]
    | cons u ts ih =>
      have := ih u
      simp only [List.map_cons] at this ⊢
      rw [List.intercalate_cons_cons, List.append_assoc, this]
      simp [argsText, restText]

theorem closes_restText (ts : List String) : Value.Closes (restText ts) := by
  cases ts with
  | nil => exact ⟨_, _, rfl, .inr rfl⟩
  | cons t ts => exact ⟨_, _, rfl, .inl rfl⟩

/-- The texts of a list of arguments. -/
def Texts (args : List Value) (ts : List String) : Prop :=
  List.Forall₂ (fun v t => v.memoText? = some t) args ts

section
variable {as bs : List Value} {ts us : List String}

theorem Texts.of_restText (ha : Texts as ts) (hb : Texts bs us) (h : restText ts = restText us) :
    List.Forall₂ Value.Same as bs := by
  induction ha generalizing bs us with
  | nil =>
    cases hb with
    | nil => exact .nil
    | cons => simp [restText] at h
  | cons hv _ ih =>
    cases hb with
    | nil => simp [restText] at h
    | cons hw hb =>
      obtain ⟨rfl, hrest⟩ := Value.memoText_append_inj hv hw (closes_restText _) (closes_restText _)
        (List.cons.inj h).2
      exact .cons (Value.same_of_memoText hv hw) (ih hb hrest)

theorem Texts.of_argsText (ha : Texts as ts) (hb : Texts bs us) (h : argsText ts = argsText us) :
    List.Forall₂ Value.Same as bs := by
  have hend {v : Value} {t : String} (hv : v.memoText? = some t) (rest : List Char) :
      t.toList ++ rest ≠ [')'] := by
    obtain ⟨c, cs, heq, hc⟩ := Value.head_memoText hv
    rw [heq]
    exact fun h => hc (List.cons.inj h).1
  cases ha with
  | nil =>
    cases hb with
    | nil => exact .nil
    | cons hw _ => exact absurd h.symm (hend hw _)
  | cons hv ha =>
    cases hb with
    | nil => exact absurd h (hend hv _)
    | cons hw hb =>
      obtain ⟨rfl, hrest⟩ :=
        Value.memoText_append_inj hv hw (closes_restText _) (closes_restText _) h
      exact .cons (Value.same_of_memoText hv hw) (Texts.of_restText ha hb hrest)

theorem mapM_eq_some : as.mapM Value.memoText? = some ts ↔ Texts as ts := by
  induction as generalizing ts with
  | nil => simp [Texts, eq_comm]
  | cons v as ih =>
    rw [Texts, List.forall₂_cons_left_iff, List.mapM_cons]
    simp only [Option.bind_eq_bind, Option.bind_eq_some_iff, ih, Option.pure_def, Option.some.injEq]
    constructor
    · rintro ⟨t, hv, ts', hts, rfl⟩
      exact ⟨t, ts', hv, hts, rfl⟩
    · rintro ⟨t, ts', hv, hts, rfl⟩
      exact ⟨t, hv, ts', hts, rfl⟩

theorem mapM_eq_none : as.mapM Value.memoText? = none ↔ ∃ v ∈ as, v.memoText? = none := by
  induction as with
  | nil => simp
  | cons v as ih =>
    rw [List.mapM_cons]
    cases hv : v.memoText? with
    | none => simp [hv]
    | some t =>
      cases has : as.mapM Value.memoText? with
      | none => simpa [hv, has] using ih.mp has
      | some ts =>
        have hno : ¬∃ v ∈ as, v.memoText? = none := fun h => by simp [ih.mpr h] at has
        simpa [hv] using hno

theorem mapM_congr (h : List.Forall₂ Value.Same as bs) :
    as.mapM Value.memoText? = bs.mapM Value.memoText? := by
  induction h with
  | nil => rfl
  | cons hv _ ih => rw [List.mapM_cons, List.mapM_cons, Value.memoText_congr hv, ih]

end

/-! ## Keys -/

section
variable {f g : NodeId} {as bs : List Value} {k l : String}

theorem toList_key (f : NodeId) (ts : List String) :
    ("lambda" ++ f.text ++ "(" ++ ",".intercalate ts ++ ")").toList =
      "lambda#".toList ++ (Nat.toDigits 10 f ++ '(' :: argsText ts) := by
  simp only [String.toList_append, Value.toList_address, ← intercalate_eq]
  simp

/-- The digits of the callee end at the parenthesis. -/
theorem digits_append_inj {x y : List Char}
    (h : Nat.toDigits 10 f ++ '(' :: x = Nat.toDigits 10 g ++ '(' :: y) : f = g ∧ x = y := by
  have htake := congrArg (List.takeWhile (· != '(')) h
  have hdrop := congrArg (List.dropWhile (· != '(')) h
  rw [(Layout.digits_toDigits f).takeWhile '(' rfl, (Layout.digits_toDigits g).takeWhile '(' rfl]
    at htake
  rw [(Layout.digits_toDigits f).dropWhile '(' rfl, (Layout.digits_toDigits g).dropWhile '(' rfl]
    at hdrop
  simp only [bne_self_eq_false, Bool.false_eq_true, not_false_eq_true, List.takeWhile_cons_of_neg,
    List.dropWhile_cons_of_neg, List.append_nil] at htake hdrop
  have hdigits := congrArg (Nat.ofDigitChars 10 · 0) htake
  simp only [Layout.ofDigitChars_toDigits] at hdigits
  exact ⟨hdigits, (List.cons.inj hdrop).2⟩

theorem memoKey?_eq_some : memoKey? f as = some k ↔
    ∃ ts, Texts as ts ∧ k = "lambda" ++ f.text ++ "(" ++ ",".intercalate ts ++ ")" := by
  unfold memoKey?
  simp only [Option.bind_eq_bind, Option.bind_eq_some_iff, mapM_eq_some, Option.pure_def,
    Option.some.injEq, eq_comm (b := k)]

theorem eq_of_memoKey? (hf : memoKey? f as = some k) (hg : memoKey? g bs = some k) :
    f = g ∧ List.Forall₂ Value.Same as bs := by
  obtain ⟨ts, hts, hk⟩ := memoKey?_eq_some.mp hf
  obtain ⟨us, hus, hl⟩ := memoKey?_eq_some.mp hg
  have hlist := congrArg String.toList (hk.symm.trans hl)
  rw [toList_key, toList_key] at hlist
  obtain ⟨rfl, hargs⟩ := digits_append_inj (List.append_cancel_left hlist)
  exact ⟨rfl, hts.of_argsText hus hargs⟩

end

/-- A call has a key exactly when no argument is a lambda or a reference to a field. Two calls that
have keys have the same one exactly when the callee is the same node and the arguments are equal one
by one. -/
theorem memoKey?_identifies (f g : NodeId) (as bs : List Value) :
    (memoKey? f as = none ↔ ∃ v ∈ as,
      (∃ id, v = .object .lambda id) ∨ ∃ binding field, v = .fieldRef binding field) ∧
    ∀ k l, memoKey? f as = some k → memoKey? g bs = some l →
      (k = l ↔ f = g ∧ as.length = bs.length ∧ List.Forall₂ Value.Same as bs) := by
  refine ⟨?_, fun k l hk hl => ⟨?_, ?_⟩⟩
  · simp only [← Value.memoText?_eq_none, ← mapM_eq_none]
    unfold memoKey?
    cases as.mapM Value.memoText? <;> simp
  · rintro rfl
    obtain ⟨hfg, hargs⟩ := eq_of_memoKey? hk hl
    exact ⟨hfg, hargs.length_eq, hargs⟩
  · rintro ⟨rfl, -, hargs⟩
    unfold memoKey? at hk hl
    rw [mapM_congr hargs, hl] at hk
    exact (Option.some.inj hk).symm

/-- Texts that look like other arguments do not lead to the same key. -/
theorem memoKey?_identifies_comma :
    memoKey? 0 [.text "a\",\"b"] ≠ memoKey? 0 [.text "a", .text "b"] := by
  intro h
  have hkey := (memoKey?_identifies 0 0 [.text "a\",\"b"] [.text "a", .text "b"]).2 _ _ rfl rfl
  have hlength := (hkey.mp (Option.some.inj h)).2.1
  cases hlength

end Mosaic
