import Mathlib.Logic.Function.Basic
import Mosaic.Proofs.Scope.Edits

/-!
# Scopes as lexical environments

A binding stands at a position: in some context, in some frame there, under a name (`Scopes.bound?`). What a
name stands for is its innermost binding in the current context (`Scopes.lookup?_eq_some_iff`), so it is told
by the bindings alone what another binding does to it. Rebinding a name changes the innermost one and nothing
else (`Scopes.rebinds_of_assign`); the loop that does it in place leaves the frames alone if it finds no binding
(`Scopes.rebind_eq`).

Pushes and pops that match as brackets do, with definitions in between, cancel out
(`Scopes.Balanced.edits_eq`). Along such edits the scopes that are left when all that is open is popped are
always the same ones (`Scopes.edits_pop_edit`): it does not matter what was defined in a scope that is popped.
-/

namespace Mosaic

/-! ## Rebinding in place -/

namespace Context

variable {name : Name} {v : Value}

/-- Rebinds a name in the innermost frame that binds it, going over the frames and changing them in place:
whether one of them binds the name, and the frames that are left. -/
def rebind (name : Name) (v : Value) : List Frame → Bool × List Frame
  | [] => (false, [])
  | f :: fs =>
    if f.bindings.contains name then (true, f.define name v :: fs)
    else
      let (found, rest) := rebind name v fs
      (found, f :: rest)

theorem rebind_eq (name : Name) (v : Value) (fs : List Frame) :
    rebind name v fs = ((assign? name v fs).isSome, (assign? name v fs).getD fs) := by
  induction fs with
  | nil => rfl
  | cons f fs ih =>
    unfold rebind assign?
    split
    · rfl
    · rw [ih]
      cases assign? name v fs <;> rfl

end Context

namespace Scopes

/-- Rebinds a name in place. The scopes that this has got to are returned also if it fails. -/
def rebind (s : Scopes) (name : Name) (v : Value) : Except Failure Unit × Scopes :=
  match s.contexts with
  | [] => (.error noContext, s)
  | c :: cs =>
    match Context.rebind name v c.frames with
    | (true, frames) => (.ok (), ⟨{ c with frames } :: cs⟩)
    | (false, frames) => (.error { cause := .undefinedVariable name }, ⟨{ c with frames } :: cs⟩)

theorem rebind_eq (s : Scopes) (name : Name) (v : Value) :
    s.rebind name v = ((s.assign name v).map fun _ => (), s.edit (.assign name v)) := by
  obtain ⟨contexts⟩ := s
  cases contexts with
  | nil => rfl
  | cons c C =>
    simp only [rebind, edit, Edit.apply, assign, Context.rebind_eq]
    cases Context.assign? name v c.frames <;> rfl

theorem assign_fails_iff {s : Scopes} {name : Name} {v : Value} :
    (∃ failure, s.assign name v = .error failure) ↔ s.lookup? name = none := by
  obtain ⟨contexts⟩ := s
  cases contexts with
  | nil => exact ⟨fun _ => rfl, fun _ => ⟨_, rfl⟩⟩
  | cons c C =>
    have hlookup : lookup? ⟨c :: C⟩ name = none ↔ Context.assign? name v c.frames = none :=
      List.findSome?_eq_none_iff.trans Context.assign?_eq_none_iff.symm
    rw [hlookup]
    simp only [assign]
    cases Context.assign? name v c.frames <;> simp

/-! ## Bindings and their positions -/

/-- Where a binding stands: how many contexts are on top of its own, how many frames are on top of its own
there, and the name that it binds. -/
structure Position where
  context : Nat
  frame : Nat
  name : Name
deriving DecidableEq

/-- What is bound at a position. -/
def bound? (s : Scopes) (p : Position) : Option Value :=
  s.contexts[p.context]?.bind fun c => c.frames[p.frame]?.bind fun f => f.lookup? p.name

/-- The frame `k` is the innermost one of the current context that binds the name. -/
structure Innermost (s : Scopes) (name : Name) (k : Nat) : Prop where
  bound : s.bound? ⟨0, k, name⟩ ≠ none
  above : ∀ j < k, s.bound? ⟨0, j, name⟩ = none

section

variable {s s' : Scopes} {c : Context} {C : List Context} {name m : Name} {v w : Value} {j k : Nat}

theorem bound?_of_contexts (hs : s.contexts = c :: C) (k : Nat) (name : Name) :
    s.bound? ⟨0, k, name⟩ = c.frames[k]?.bind fun f => f.lookup? name := by
  simp [bound?, hs]

theorem Innermost.unique (hk : s.Innermost name k) (hj : s.Innermost name j) : k = j := by
  rcases Nat.lt_trichotomy k j with h | h | h
  · exact absurd (hj.above k h) hk.bound
  · exact h
  · exact absurd (hk.above j h) hj.bound

theorem Innermost.lt (hk : s.Innermost name k) (hs : s.contexts = c :: C) : k < c.frames.length := by
  by_contra h
  have hnone := hk.bound
  rw [bound?_of_contexts hs, List.getElem?_eq_none (Nat.le_of_not_lt h)] at hnone
  exact hnone rfl

theorem Innermost.congr (hk : s.Innermost name k) (h : ∀ j, s'.bound? ⟨0, j, name⟩ = s.bound? ⟨0, j, name⟩) :
    s'.Innermost name k where
  bound := by
    rw [h]
    exact hk.bound
  above j hj := (h j).trans (hk.above j hj)

theorem innermost_of_frames {inner outer : List Frame} {f : Frame} (hs : s.contexts = c :: C)
    (hfs : c.frames = inner ++ f :: outer) (hinner : Context.Unbound inner name) (hf : f.lookup? name = some w) :
    s.Innermost name inner.length ∧ s.bound? ⟨0, inner.length, name⟩ = some w := by
  have hbound : s.bound? ⟨0, inner.length, name⟩ = some w := by
    rw [bound?_of_contexts hs, hfs]
    simpa using hf
  refine ⟨⟨by simp [hbound], fun j hj => ?_⟩, hbound⟩
  rw [bound?_of_contexts hs, hfs, List.getElem?_append_left hj, List.getElem?_eq_getElem hj]
  exact hinner _ (List.getElem_mem hj)

/-- A name that is not resolved is bound in no frame of the current context. -/
theorem bound?_of_lookup?_eq_none (h : s.lookup? name = none) (k : Nat) : s.bound? ⟨0, k, name⟩ = none := by
  obtain ⟨contexts⟩ := s
  cases contexts with
  | nil => rfl
  | cons c C =>
    have hunbound : Context.Unbound c.frames name := List.findSome?_eq_none_iff.1 h
    rw [bound?_of_contexts (c := c) rfl]
    cases hk : c.frames[k]? with
    | none => rfl
    | some f => exact hunbound f (List.mem_of_getElem? hk)

theorem exists_innermost (h : s.lookup? name = some w) :
    ∃ k, s.Innermost name k ∧ s.bound? ⟨0, k, name⟩ = some w := by
  obtain ⟨contexts⟩ := s
  cases contexts with
  | nil => cases h
  | cons c C =>
    obtain ⟨inner, f, outer, hfs, hf, hinner⟩ := List.findSome?_eq_some_iff.1 h
    exact ⟨inner.length, innermost_of_frames rfl hfs hinner hf⟩

/-- A name stands for its innermost binding in the current context. -/
theorem lookup?_eq_some_iff :
    s.lookup? name = some w ↔ ∃ k, s.Innermost name k ∧ s.bound? ⟨0, k, name⟩ = some w := by
  refine ⟨exists_innermost, ?_⟩
  rintro ⟨k, hk, hw⟩
  cases hlookup : s.lookup? name with
  | none => exact absurd (bound?_of_lookup?_eq_none hlookup k) hk.bound
  | some u =>
    obtain ⟨j, hj, hu⟩ := exists_innermost hlookup
    rw [← hk.unique hj, hw] at hu
    exact hu.symm

/-! ### One binding is changed -/

section

variable (hbound : s'.bound? = Function.update s.bound? ⟨0, k, name⟩ (some v))

include hbound

theorem lookup?_of_update (habove : ∀ j < k, s.bound? ⟨0, j, name⟩ = none) : s'.lookup? name = some v := by
  have hv : s'.bound? ⟨0, k, name⟩ = some v := by rw [hbound, Function.update_self]
  refine lookup?_eq_some_iff.2 ⟨k, ⟨by simp [hv], fun j hj => ?_⟩, hv⟩
  rw [hbound, Function.update_of_ne (by simp [Nat.ne_of_lt hj]), habove j hj]

theorem lookup?_of_update_of_ne (hm : m ≠ name) : s'.lookup? m = s.lookup? m := by
  have hsame : ∀ j, s'.bound? ⟨0, j, m⟩ = s.bound? ⟨0, j, m⟩ := fun j => by
    rw [hbound, Function.update_of_ne (by simp [hm])]
  have hinnermost : ∀ j, s'.Innermost m j ↔ s.Innermost m j := fun j =>
    ⟨fun hj => hj.congr fun i => (hsame i).symm, fun hj => hj.congr hsame⟩
  ext w
  simp only [lookup?_eq_some_iff, hinnermost, hsame]

end

theorem bound?_modify (hs : s.contexts = c :: C)
    (hs' : s'.contexts = { c with frames := c.frames.modify k fun f => f.define name v } :: C)
    (hk : k < c.frames.length) : s'.bound? = Function.update s.bound? ⟨0, k, name⟩ (some v) := by
  funext ⟨i, j, m⟩
  rw [Function.update_apply]
  cases i with
  | succ i => simp [bound?, hs, hs']
  | zero =>
    rw [bound?_of_contexts hs, bound?_of_contexts hs', List.getElem?_modify]
    by_cases hj : k = j
    · subst hj
      simp [List.getElem?_eq_getElem hk, Frame.lookup?_define, eq_comm]
    · simp [hj, Ne.symm hj]

theorem bound?_define (h : s.define name v = .ok s') :
    s'.bound? = Function.update s.bound? ⟨0, 0, name⟩ (some v) := by
  obtain ⟨c, C, f, fs, hs, hfs, hs'⟩ := modifyFrame_ok h
  have hframes : s'.contexts = { c with frames := c.frames.modify 0 fun f => f.define name v } :: C := by
    rw [hs', hfs]
    rfl
  exact bound?_modify hs hframes (by simp [hfs])

theorem open_of_frames {f : Frame} {fs : List Frame} (hs : s.contexts = c :: C)
    (hfs : c.frames = f :: fs) : s.Open :=
  ⟨fs.length, depths ⟨C⟩, by simp [depths, hs, hfs]⟩

theorem define_ok_iff : (∃ s', s.define name v = .ok s') ↔ s.Open := by
  constructor
  · rintro ⟨s', h⟩
    obtain ⟨c, C, f, fs, hs, hfs, -⟩ := modifyFrame_ok h
    exact open_of_frames hs hfs
  · intro h
    exact h.modifyFrame _

theorem isOpen_of_define (h : s.define name v = .ok s') : s'.Open := by
  obtain ⟨c, C, f, fs, -, -, hs'⟩ := modifyFrame_ok h
  exact open_of_frames hs' rfl

theorem edits_popFrame (hs : s.contexts = c :: C) (n : Nat) :
    s.edits (.replicate n .popFrame) = ⟨{ c with frames := c.frames.drop n } :: C⟩ := by
  induction n generalizing s c with
  | zero => exact congrArg Scopes.mk hs
  | succ n ih =>
    have hpop : (s.edit .popFrame).contexts = { c with frames := c.frames.tail } :: C := by
      obtain ⟨frames, label⟩ := c
      simp only [edit, Edit.apply, popFrame, hs]
      cases frames with
      | nil => exact hs
      | cons f fs => rfl
    exact (ih hpop).trans (by simp)

/-! ### A name is rebound -/

/-- What has happened to the scopes when a name is rebound in the frame `k` of the current context. -/
structure Rebinds (s s' : Scopes) (name : Name) (v : Value) (k : Nat) : Prop where
  innermost : s.Innermost name k
  lookup : s'.lookup? name = some v
  others : ∀ m, m ≠ name → s'.lookup? m = s.lookup? m
  /-- No other binding is changed. -/
  bound : s'.bound? = Function.update s.bound? ⟨0, k, name⟩ (some v)
  /-- Nothing else is changed, either: not the other contexts, and not what is set aside. -/
  contexts : s'.contexts = s.contexts.modifyHead fun c =>
    { c with frames := c.frames.modify k fun f => f.define name v }
  /-- Nothing is left of it when the frame is popped. -/
  popped : s'.edits (.replicate (k + 1) .popFrame) = s.edits (.replicate (k + 1) .popFrame)
  /-- What was bound below the frame reads as before. -/
  shadowed : ∀ j m, (s'.edits (.replicate (k + 1) .popFrame)).bound? ⟨0, j, m⟩ = s.bound? ⟨0, k + 1 + j, m⟩

theorem Innermost.rebinds (hk : s.Innermost name k) (hs : s.contexts = c :: C)
    (hs' : s'.contexts = { c with frames := c.frames.modify k fun f => f.define name v } :: C) :
    s.Rebinds s' name v k := by
  have hbound := bound?_modify hs hs' (hk.lt hs)
  have hpopped : s'.edits (.replicate (k + 1) .popFrame) = s.edits (.replicate (k + 1) .popFrame) := by
    rw [edits_popFrame hs, edits_popFrame hs', List.drop_modify_of_lt _ _ _ _ (Nat.lt_succ_self k)]
  exact
    { innermost := hk
      lookup := lookup?_of_update hbound hk.above
      others := fun m hm => lookup?_of_update_of_ne hbound hm
      bound := hbound
      contexts := by rw [hs, hs', List.modifyHead_cons]
      popped := hpopped
      shadowed := fun j m => by
        rw [hpopped, edits_popFrame hs, bound?_of_contexts rfl, bound?_of_contexts hs, List.getElem?_drop] }

theorem rebinds_of_assign (h : s.assign name v = .ok s') : ∃ k, s.Rebinds s' name v k := by
  obtain ⟨c, C, fs, hs, hfs, hs'⟩ := assign_ok h
  obtain ⟨inner, f, outer, hframes, hinner, hf, rfl⟩ := Context.exists_of_assign? hfs
  obtain ⟨w, hw⟩ := Option.ne_none_iff_exists'.1 hf
  have hinnermost := (innermost_of_frames hs hframes hinner hw).1
  refine ⟨inner.length, hinnermost.rebinds hs ?_⟩
  rw [hs', hframes, List.modify_eq_take_cons_drop (by simp)]
  simp

end

/-! ## Balanced edits -/

/-- A scope that an edit pushes. -/
inductive Pushed where
  | frame
  | context
deriving DecidableEq

/-- The edit that pops it. -/
def Pushed.pop : Pushed → Edit
  | frame => .popFrame
  | context => .popContext

/-- The pushed scopes that are open after an edit, the last one first. Only the last one may be popped, and
names are defined in pushed scopes only. -/
def Edit.opens? : List Pushed → Edit → Option (List Pushed)
  | ps, pushFrame => some (.frame :: ps)
  | ps, pushContext _ => some (.context :: ps)
  | .frame :: ps, popFrame => some ps
  | .context :: ps, popContext => some ps
  | p :: ps, define _ _ => some (p :: ps)
  | _, _ => none

/-- What is pushed is popped again, in the order of brackets, and names are defined only in between. -/
def Balanced (es : List Edit) : Prop := es.foldlM Edit.opens? [] = some []

instance (es : List Edit) : Decidable (Balanced es) := inferInstanceAs (Decidable (_ = _))

section

variable {s s' : Scopes} {ps ps' : List Pushed} {e : Edit} {es : List Edit}

theorem Edit.cases_of_opens? (h : e.opens? ps = some ps') :
    e = .pushFrame ∧ ps' = .frame :: ps ∨ (∃ c, e = .pushContext c ∧ ps' = .context :: ps) ∨
      (∃ p, e = p.pop ∧ ps = p :: ps') ∨
      ∃ p qs name v, e = .define name v ∧ ps = p :: qs ∧ ps' = p :: qs := by
  unfold Edit.opens? at h
  split at h
  · cases h
    exact .inl ⟨rfl, rfl⟩
  · rename_i c
    cases h
    exact .inr (.inl ⟨c, rfl, rfl⟩)
  · cases h
    exact .inr (.inr (.inl ⟨.frame, rfl, rfl⟩))
  · cases h
    exact .inr (.inr (.inl ⟨.context, rfl, rfl⟩))
  · rename_i p qs name v
    cases h
    exact .inr (.inr (.inr ⟨p, qs, name, v, rfl, rfl, rfl⟩))
  · cases h

theorem edit_pushFrame_popFrame (s : Scopes) : (s.edit .pushFrame).edit .popFrame = s := by
  obtain ⟨contexts⟩ := s
  cases contexts <;> rfl

theorem edit_define_pop (s : Scopes) (name : Name) (v : Value) (p : Pushed) :
    (s.edit (.define name v)).edit p.pop = s.edit p.pop := by
  obtain ⟨contexts⟩ := s
  rcases contexts with _ | ⟨⟨_ | ⟨f, fs⟩, label⟩, C⟩ <;> cases p <;> rfl

/-- An edit does not change what the scopes come to when all that is open is popped. -/
theorem edits_pop_edit (h : e.opens? ps = some ps') :
    (s.edit e).edits (ps'.map Pushed.pop) = s.edits (ps.map Pushed.pop) := by
  obtain ⟨rfl, rfl⟩ | ⟨c, rfl, rfl⟩ | ⟨p, rfl, rfl⟩ | ⟨p, qs, name, v, rfl, rfl, rfl⟩ := Edit.cases_of_opens? h
  · exact congrArg (edits · (ps.map Pushed.pop)) s.edit_pushFrame_popFrame
  · rfl
  · rfl
  · -- The first pop takes the definition along.
    exact congrArg (edits · (qs.map Pushed.pop)) (s.edit_define_pop name v p)

theorem edits_pop_edits (h : es.foldlM Edit.opens? ps = some ps') :
    (s.edits es).edits (ps'.map Pushed.pop) = s.edits (ps.map Pushed.pop) := by
  induction es generalizing s ps with
  | nil =>
    cases h
    rfl
  | cons e es ih =>
    rw [List.foldlM_cons] at h
    obtain ⟨qs, he, hes⟩ := Option.bind_eq_some_iff.1 h
    exact (ih hes).trans (edits_pop_edit he)

theorem Balanced.edits_eq (h : Balanced es) (s : Scopes) : s.edits es = s := edits_pop_edits h

/-! ### Balanced edits do not fail -/

/-- There is an innermost frame, and there will be one whenever one of the open scopes is popped. -/
def Ready : List Pushed → Scopes → Prop
  | [], s => s.Open
  | p :: ps, s => s.Open ∧ Ready ps (s.edit p.pop)

theorem Ready.isOpen (h : Ready ps s) : s.Open := by
  cases ps with
  | nil => exact h
  | cons p ps => exact h.1

theorem Ready.step (h : Ready ps s) (he : e.opens? ps = some ps') (hc : ∀ c, e = .pushContext c → c.frames ≠ []) :
    e.apply s = .ok (s.edit e) ∧ Ready ps' (s.edit e) := by
  obtain ⟨contexts⟩ := s
  obtain ⟨⟨frames, label⟩, C, f, fs, hs, hfs⟩ := h.isOpen.exists_frame
  obtain rfl : frames = f :: fs := hfs
  obtain rfl : contexts = _ := hs
  obtain ⟨rfl, rfl⟩ | ⟨c, rfl, rfl⟩ | ⟨p, rfl, rfl⟩ | ⟨p, qs, name, v, rfl, rfl, rfl⟩ := Edit.cases_of_opens? he
  · exact ⟨rfl, open_of_frames rfl rfl, h⟩
  · obtain ⟨g, gs, hframes⟩ := List.exists_cons_of_ne_nil (hc c rfl)
    exact ⟨rfl, open_of_frames rfl hframes, h⟩
  · refine ⟨?_, h.2⟩
    cases p <;> rfl
  · refine ⟨rfl, open_of_frames rfl rfl, ?_⟩
    rw [edit_define_pop]
    exact h.2

theorem Ready.steps (h : Ready ps s) (hes : es.foldlM Edit.opens? ps = some ps')
    (hc : ∀ c, .pushContext c ∈ es → c.frames ≠ []) : es.foldlM Edit.apply s = .ok (s.edits es) := by
  induction es generalizing s ps with
  | nil => rfl
  | cons e es ih =>
    rw [List.foldlM_cons] at hes
    obtain ⟨qs, he, hes⟩ := Option.bind_eq_some_iff.1 hes
    obtain ⟨happly, hready⟩ := h.step he fun c hce => hc c (by simp [hce])
    rw [List.foldlM_cons, happly]
    exact ih hready hes fun c hce => hc c (List.mem_cons_of_mem _ hce)

end

/-! ## Lexical environments -/

/-- The scopes are lexical environments, whatever has been done to them. A name stands for its innermost binding
in the current context. It can be rebound if it has one; this changes that binding and nothing else, and if it
fails, nothing has been changed in place. A name that is defined stands for its value again after any balanced
edits: they leave all scopes as they were, and none of them fails if all contexts that they push have frames. -/
theorem binds_lexically (s : Scopes) (name : Name) (v : Value) :
    (∀ w, s.lookup? name = some w ↔ ∃ k, s.Innermost name k ∧ s.bound? ⟨0, k, name⟩ = some w) ∧
    (∀ s', s.assign name v = .ok s' → s.rebind name v = (.ok (), s') ∧ ∃ k, s.Rebinds s' name v k) ∧
    ((∃ failure, s.assign name v = .error failure) ↔ s.lookup? name = none) ∧
    (∀ failure, s.assign name v = .error failure → s.rebind name v = (.error failure, s)) ∧
    ((∃ s', s.define name v = .ok s') ↔ s.Open) ∧
    ∀ s' es, s.define name v = .ok s' → Balanced es →
      (s'.edits es).lookup? name = some v ∧
      (s'.edits es).bound? = Function.update s.bound? ⟨0, 0, name⟩ (some v) ∧
      s'.edits es = s' ∧
      ((∀ c, .pushContext c ∈ es → c.frames ≠ []) → es.foldlM Edit.apply s' = .ok s') := by
  refine ⟨fun w => lookup?_eq_some_iff, fun s' h => ⟨?_, rebinds_of_assign h⟩, assign_fails_iff, fun failure h => ?_,
    define_ok_iff, fun s' es h hes => ?_⟩
  · rw [rebind_eq, edit, Edit.apply, h]
    rfl
  · rw [rebind_eq, edit, Edit.apply, h]
    rfl
  · have hbound := bound?_define h
    have hsame : s'.edits es = s' := hes.edits_eq s'
    have hready : Ready [] s' := isOpen_of_define h
    refine ⟨?_, ?_, hsame, fun hc => ?_⟩
    · rw [hsame]
      exact lookup?_of_update hbound fun j hj => absurd hj (Nat.not_lt_zero j)
    · rw [hsame, hbound]
    · exact (hready.steps hes hc).trans (congrArg Except.ok hsame)

/-- A name that is bound in two frames is rebound in the inner one, and the outer one reads as before. What is
pushed on top of a definition and popped again does not show. -/
theorem binds_lexically_shadowed :
    let s : Scopes := ({} : Scopes).edits [.define "x" .nil, .pushFrame, .define "x" (.bool true), .pushFrame]
    let es : List Edit := [.pushFrame, .define "x" .nil, .pushContext {}, .define "y" (.bool true), .pushFrame,
      .popFrame, .popContext, .popFrame]
    (∃ s', s.assign "x" (.bool false) = .ok s' ∧ s.Rebinds s' "x" (.bool false) 1 ∧
        (s'.edits [.popFrame, .popFrame]).lookup? "x" = some .nil) ∧
      (∃ failure, s.assign "y" .nil = .error failure ∧ s.rebind "y" .nil = (.error failure, s)) ∧
      Balanced es ∧ (∀ c, .pushContext c ∈ es → c.frames ≠ []) ∧
      ∃ s', s.define "x" .nil = .ok s' ∧ s'.edits es = s' ∧ (s'.edits es).lookup? "x" = some .nil ∧
        es.foldlM Edit.apply s' = .ok s' := by
  intro s es
  obtain ⟨-, hassign, hfails, -, -, -⟩ := binds_lexically s "x" (.bool false)
  obtain ⟨-, -, hfails', hinplace, -, -⟩ := binds_lexically s "y" .nil
  obtain ⟨-, -, -, -, hdefine, hbalanced⟩ := binds_lexically s "x" .nil
  have hes : Balanced es := by decide
  have hframes : ∀ c, .pushContext c ∈ es → c.frames ≠ [] := by simp [es]
  refine ⟨?_, ?_, hes, hframes, ?_⟩
  · cases hs' : s.assign "x" (.bool false) with
    | error failure =>
      have hnone : s.lookup? "x" ≠ none := by decide +kernel
      exact absurd (hfails.1 ⟨failure, hs'⟩) hnone
    | ok s' =>
      obtain ⟨-, k, hk⟩ := hassign s' hs'
      have hinnermost : s.Innermost "x" 1 := ⟨by decide +kernel, by decide +kernel⟩
      obtain rfl := hk.innermost.unique hinnermost
      refine ⟨s', rfl, hk, ?_⟩
      have hshadowed : (s.edits (.replicate 2 .popFrame)).lookup? "x" = some .nil := by decide +kernel
      rwa [← hk.popped] at hshadowed
  · obtain ⟨failure, hfailure⟩ := hfails'.2 (by decide +kernel)
    exact ⟨failure, hfailure, hinplace failure hfailure⟩
  · obtain ⟨s', hs'⟩ := hdefine.2 ⟨2, [], by decide +kernel⟩
    obtain ⟨hlookup, -, hsame, hsucceeds⟩ := hbalanced s' es hs' hes
    exact ⟨s', hs', hsame, hlookup, hsucceeds hframes⟩

end Scopes

end Mosaic
