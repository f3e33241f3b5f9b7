import Mathlib.Data.List.Forall2
import Mosaic.Proofs.Globals.Tame
import Mosaic.Proofs.Machine.Step
import Mosaic.Proofs.Scope.Restore

/-!
# The surface of a run

A run is at its surface while it is in none of the calls that it makes. There the innermost context of the
start has `d` frames more, the frames that it had bind the same names, and only names in `W` are bound to
other values (`Scopes.Extends`). A step of tame code keeps this, unless it enters the body of a call
(`Surface.step`); if it fails, the scopes are as it says, too (`Surface.failed`).
-/

namespace Mosaic

open Mosaic.Graph (NodeId)

/-! ## Scopes with more frames -/

/-- There are `d` more frames in the innermost context, and the frames below bind the same names, and to the
same values but for the names in `W`. -/
def Scopes.Extends (W : Name → Prop) (d : Nat) (s s' : Scopes) : Prop :=
  (s.contexts = [] ∧ s'.contexts = [] ∧ d = 0) ∨
    ∃ c C own fs, s.contexts = c :: C ∧ s'.contexts = { c with frames := own ++ fs } :: C ∧
      own.length = d ∧ List.Forall₂ (Frame.Agrees W) c.frames fs

namespace Context.Changes

variable {W : Name → Prop} {I : Prop} {fs gs fs' : List Frame}

theorem forall₂_append (h : List.Forall₂ (Frame.Agrees W) (fs ++ gs) fs') :
    ∃ fs₁ gs₁, fs' = fs₁ ++ gs₁ ∧ fs₁.length = fs.length ∧ List.Forall₂ (Frame.Agrees W) gs gs₁ := by
  induction fs generalizing fs' with
  | nil => exact ⟨[], fs', rfl, rfl, h⟩
  | cons f fs ih =>
    cases h with
    | cons _ hs =>
      obtain ⟨fs₁, gs₁, rfl, hlen, hgs⟩ := ih hs
      exact ⟨_ :: fs₁, gs₁, rfl, congrArg Nat.succ hlen, hgs⟩

theorem append (h : Context.Changes I W (fs ++ gs) fs') (hI : I → fs ≠ []) :
    ∃ fs₁ gs₁, fs' = fs₁ ++ gs₁ ∧ fs₁.length = fs.length ∧ List.Forall₂ (Frame.Agrees W) gs gs₁ := by
  cases fs with
  | nil =>
    refine ⟨[], fs', rfl, rfl, ?_⟩
    cases gs <;> cases fs'
    · exact .nil
    · exact h.elim
    · exact h.elim
    · exact .cons (h.1.resolve_left fun hi => hI hi rfl) h.2
  | cons f fs =>
    cases fs' with
    | nil => exact h.elim
    | cons f' fs' =>
      obtain ⟨fs₁, gs₁, rfl, hlen, hgs⟩ := forall₂_append h.2
      exact ⟨f' :: fs₁, gs₁, rfl, congrArg Nat.succ hlen, hgs⟩

theorem lookup? (h : List.Forall₂ (Frame.Agrees W) fs gs) (name : Name) :
    (gs.findSome? (·.lookup? name)).isSome = (fs.findSome? (·.lookup? name)).isSome ∧
      (¬ W name → gs.findSome? (·.lookup? name) = fs.findSome? (·.lookup? name)) := by
  induction h with
  | nil => exact ⟨rfl, fun _ => rfl⟩
  | @cons f g fs gs hf _ ih =>
    have hbound := hf.bound name
    rw [List.findSome?_cons, List.findSome?_cons]
    cases hv : f.lookup? name with
    | none =>
      rw [hv, Option.isSome_none, Option.isSome_eq_false_iff, Option.isNone_iff_eq_none] at hbound
      rw [hbound]
      exact ih
    | some v =>
      obtain ⟨w, hw⟩ := Option.isSome_iff_exists.1 (hbound.trans (by rw [hv]; rfl))
      rw [hw]
      refine ⟨rfl, fun hname => ?_⟩
      rw [← hw, hf.value name hname, hv]

end Context.Changes

namespace Scopes.Extends

variable {W : Name → Prop} {I : Prop} {d : Nat} {s s₁ s₂ : Scopes}

theorem refl (s : Scopes) : s.Extends W 0 s := by
  cases hs : s.contexts with
  | nil => exact .inl ⟨hs, hs, rfl⟩
  | cons c C => exact .inr ⟨c, C, [], c.frames, hs, hs, rfl, Context.Changes.agrees_refl _⟩

theorem of_eq (h : s.Extends W d s₁) (heq : s₂.contexts = s₁.contexts) : s.Extends W d s₂ := by
  unfold Extends at h ⊢
  rwa [heq]

theorem changes (h : s.Extends W d s₁) (h₁ : s₁.Changes I W s₂) (hI : I → d ≠ 0) : s.Extends W d s₂ := by
  rcases h₁ with rfl | ⟨c₁, C₁, fs₂, hs₁, hs₂, hfs⟩
  · exact h
  · rcases h with ⟨-, hnil, -⟩ | ⟨c, C, own, fs, hs, hs₁', hlen, hagrees⟩
    · simp [hnil] at hs₁
    · obtain ⟨rfl, rfl⟩ := List.cons.inj (hs₁'.symm.trans hs₁)
      obtain ⟨own', fs', rfl, hlen', hagrees'⟩ := hfs.append fun hi hnil => hI hi (by rw [← hlen, hnil]; rfl)
      exact .inr ⟨c, C, own', fs', hs, hs₂, hlen'.trans hlen, Context.Changes.agrees_trans hagrees hagrees'⟩

theorem pushFrame (h : s.Extends W d s₁) {c : Context} {C : List Context} (hs₁ : s₁.contexts = c :: C)
    (hs₂ : s₂.contexts = { c with frames := {} :: c.frames } :: C) : s.Extends W (d + 1) s₂ := by
  rcases h with ⟨-, hnil, -⟩ | ⟨c₀, C₀, own, fs, hs, hs₁', hlen, hagrees⟩
  · simp [hnil] at hs₁
  · rw [hs₁'] at hs₁
    cases hs₁
    exact .inr ⟨c₀, C, {} :: own, fs, hs, hs₂, congrArg Nat.succ hlen, hagrees⟩

theorem popFrame (h : s.Extends W (d + 1) s₁) {c : Context} {C : List Context} {f : Frame} {fs : List Frame}
    (hs₁ : s₁.contexts = c :: C) (hf : c.frames = f :: fs)
    (hs₂ : s₂.contexts = { c with frames := fs } :: C) : s.Extends W d s₂ := by
  rcases h with ⟨-, -, hd⟩ | ⟨c₀, C₀, own, gs, hs, hs₁', hlen, hagrees⟩
  · cases hd
  · obtain ⟨rfl, rfl⟩ := List.cons.inj (hs₁'.symm.trans hs₁)
    obtain ⟨f', own, rfl⟩ := List.exists_cons_of_length_eq_add_one hlen
    cases hf
    exact .inr ⟨c₀, C₀, own, gs, hs, hs₂, Nat.succ.inj hlen, hagrees⟩

theorem length (h : s.Extends W d s₁) : s₁.contexts.length = s.contexts.length := by
  rcases h with ⟨hs, hs₁, -⟩ | ⟨c, C, own, fs, hs, hs₁, -⟩
  · rw [hs, hs₁]
  · rw [hs, hs₁]
    rfl

theorem depths (h : s.Extends W 0 s₁) : s₁.depths = s.depths := by
  rcases h with ⟨hs, hs₁, -⟩ | ⟨c, C, own, fs, hs, hs₁, hlen, hagrees⟩
  · rw [Scopes.depths, Scopes.depths, hs, hs₁]
  · obtain rfl := List.eq_nil_of_length_eq_zero hlen
    simp [Scopes.depths, hs, hs₁, hagrees.length_eq]

theorem lookup? (h : s.Extends W 0 s₁) (name : Name) :
    (s₁.lookup? name).isSome = (s.lookup? name).isSome ∧ (¬ W name → s₁.lookup? name = s.lookup? name) := by
  rcases h with ⟨hs, hs₁, -⟩ | ⟨c, C, own, fs, hs, hs₁, hlen, hagrees⟩
  · simp [Scopes.lookup?, hs, hs₁]
  · obtain rfl := List.eq_nil_of_length_eq_zero hlen
    simp only [Scopes.lookup?, hs, hs₁, List.head?_cons, Option.bind_some]
    exact Context.Changes.lookup? hagrees name

end Scopes.Extends

namespace Scopes

/-- Whatever is on top, the scopes below are restored but for the names in `W`. -/
theorem Extends.restore {W : Name → Prop} {d : Nat} {s s' : Scopes} {own C : List Context}
    (h : s.Extends W d ⟨C⟩) (hs' : s'.contexts = own ++ C) : s.Extends W 0 (s'.restore s.checkpoint) := by
  have hfit : fitLast {} s.checkpoint.contexts s'.contexts = C := by
    rw [hs']
    exact fitLast_append h.length
  rw [Scopes.restore, hfit]
  rcases h with ⟨hs, rfl, -⟩ | ⟨c, C, own', fs, hs, rfl, -, hagrees⟩
  · exact .inl ⟨hs, rfl, rfl⟩
  · refine .inr ⟨c, C, [], fs, hs, ?_, rfl, hagrees⟩
    have hframes : s.checkpoint.frames = fs.length := by
      simp [checkpoint, hs, hagrees.length_eq]
    simp only [List.nil_append, hframes, fitLast_append rfl]

end Scopes

/-! ## Steps -/

/-- The machine is in no call of its run. Its program is tame, with `d` frames more than at the start and
with the operands `K` on top of the stack. -/
structure Surface (W : Name → Prop) (start : Scopes) (d : Nat) (K : List Operand) (m : Machine) : Prop where
  tame : Tame W d K m.program
  known : ∃ rest, m.operands = K ++ rest
  scopes : start.Extends W d m.scopes

/-- The machine `m` has entered the body of a lambda, which leads to `m'`. -/
structure Machine.Entered (m m' : Machine) (R : Program) (callee : NodeId) (l : Lambda) (memoize : Program) :
    Prop where
  called : ∃ op line, m.program = .op op line :: R ∧ op.Calls ∧ m.Calls op (m.arguments op) callee
  stored : m.store.pool.get Object.lambdas callee = .ok l
  memo : IsMemoize memoize
  program : m'.program = (l.body ++ .op .popContext none :: memoize) ++ R
  scopes : ∃ frame, m'.scopes = m.scopes.pushContext { frames := [frame], label := some l.label }

namespace Surface

open Machine

variable {W : Name → Prop} {start : Scopes} {d : Nat} {K : List Operand} {m m' : Machine} {op : Op}
  {line : Option Nat} {R : Program} {held : List NodeId} {f : Failure}

/-- What kinds of operations there are in tame code, with what is known of their operands. -/
theorem kinds (h : Surface W start d K m) (hp : m.program = .op op line :: R) :
    op.Calls ∨ op = .pushFrame ∨ op = .popFrame ∨
      ¬ op.Shifts ∧ op.Spares W (m.arguments op) ∧ (op.Binds → d ≠ 0) := by
  have htame := h.tame
  rw [hp] at htame
  cases htame with
  | fieldRef line rest => exact .inr (.inr (.inr ⟨id, trivial, False.elim⟩))
  | @setField _ n _ _ line known spares rest =>
    refine .inr (.inr (.inr ⟨id, fun binding field hmem => spares binding field ?_, False.elim⟩))
    -- The operands of an assignment are its value and, on top of it, the rights that are known.
    obtain ⟨rest, hrest⟩ := h.known
    have hle : (Op.setField n).arity - 1 ≤ n := Nat.sub_le_of_le_add (Nat.mod_le _ _)
    rw [arguments, List.tail_reverse, List.mem_reverse, List.dropLast_eq_take, List.take_take] at hmem
    have hmem : _ ∈ m.operands.take n := List.take_subset_take_left _ (by simp; omega) hmem
    rwa [hrest, List.take_append_of_le_length known] at hmem
  | assign line own rest => exact .inr (.inr (.inr ⟨id, trivial, fun _ => own⟩))
  | pushFrame line rest => exact .inr (.inl rfl)
  | popFrame line rest => exact .inr (.inr (.inl rfl))
  | branch line taken other => exact .inr (.inr (.inr ⟨id, trivial, False.elim⟩))
  | iterate line inner e spares rest => exact .inr (.inr (.inr ⟨id, trivial, False.elim⟩))
  | mild line hmild rest =>
    cases op with
    | getVariable | call => exact .inl trivial
    | apply | getField | makeLambda | setDependencies | memoize =>
      exact .inr (.inr (.inr ⟨id, trivial, False.elim⟩))
    | _ => exact hmild.elim

theorem failed (h : Surface W start d K m) (hn : m.next? held = some (.error f m')) :
    start.Extends W d m'.scopes := by
  cases stopped_of_next? hn with
  | error | overdrawn | underflow => exact h.scopes
  | @perform op line rest failure _ program within operands performed =>
    have hends : ∀ {E Q}, MachineM.Ends (MachineM.perform op (m.arguments op)) (m.taking op rest) E Q →
        E m' := fun h => h.error performed
    rcases h.kinds program with hcalls | rfl | rfl | ⟨hshifts, hspares, hbinds⟩
    · exact h.scopes.of_eq (congrArg Scopes.contexts (hends (MachineM.Ends.performCall hcalls)).scopes)
    · exact h.scopes.of_eq (congrArg Scopes.contexts (hends MachineM.Ends.pushFrame).scopes)
    · exact h.scopes.of_eq (congrArg Scopes.contexts (hends MachineM.Ends.popFrame).scopes)
    · exact h.scopes.changes (hends (MachineM.Moving.perform hshifts hspares)).scopes hbinds

theorem fieldRef {field : Name} {e : Effect} {m₁ : Machine} (h : Surface W start d K m)
    (hp : m.program = .op (.getFieldRef field) line :: R)
    (hperform : MachineM.perform (.getFieldRef field) (m.arguments (.getFieldRef field))
      (Pins.of fun _ => held) (m.taking (.getFieldRef field) R) = .ok e m₁) :
    ∃ K, Surface W start d K (e.settle m₁) := by
  have htame := h.tame
  obtain ⟨below, hbelow⟩ := h.known
  rw [hp] at htame
  cases htame with
  | @fieldRef _ K _ binding _ line htame =>
    have hargs : m.arguments (.getFieldRef field) = [.var binding] := by
      rw [arguments, hbelow]
      rfl
    rw [hargs] at hperform
    have hends : MachineM.Ends (MachineM.perform (.getFieldRef field) [.var binding])
        (m.taking (.getFieldRef field) R) _ _ := .getFieldRef
    have heffect := hends (Pins.of fun _ => held)
    rw [hperform] at heffect
    obtain ⟨rfl, stays⟩ := heffect
    have hprogram : m₁.program = R := stays.program
    refine ⟨_, hprogram.symm ▸ htame, ⟨below, ?_⟩, h.scopes.of_eq (congrArg _ stays.scopes)⟩
    have hbelow' : m₁.operands = K ++ below := by
      rw [stays.operands, taking, hbelow]
      rfl
    exact congrArg _ hbelow'
  | mild line hmild => exact hmild.elim

/-- A call is answered at once, or it enters the body of a lambda. -/
theorem called {e : Effect} {m₁ : Machine} (h : Surface W start d K m) (hp : m.program = .op op line :: R)
    (hcalls : op.Calls)
    (hcalled : Called ((m.taking op R).Calls op (m.arguments op)) (m.taking op R) e m₁) :
    (∃ K, Surface W start d K (e.settle m₁)) ∨
      ∃ callee l memoize, m.Entered (e.settle m₁) R callee l memoize ∧ Tame W d [] R := by
  have htame := h.tame
  rw [hp] at htame
  have hrest : Tame W d [] R := by
    cases htame with
    | mild line hmild htame => exact htame
    | _ => exact hcalls.elim
  cases hcalled with
  | answered v stays =>
    have hscopes := h.scopes.of_eq (congrArg Scopes.contexts stays.scopes)
    exact .inl ⟨[], stays.program.symm ▸ hrest, ⟨_, rfl⟩, hscopes⟩
  | entered callee l frame memoize called stored memo kept scopes limit =>
    exact .inr ⟨callee, l, memoize, ⟨⟨op, line, hp, hcalls, called⟩, stored, memo,
      congrArg (_ ++ ·) kept.program, frame, scopes⟩, hrest⟩

theorem moved {e : Effect} {m₁ : Machine} (h : Surface W start d K m) (hp : m.program = .op op line :: R)
    (hright : ∀ field, op ≠ .getFieldRef field) (hshifts : ¬ op.Shifts) (hspares : op.Spares W (m.arguments op))
    (hbinds : op.Binds → d ≠ 0)
    (hperform : MachineM.perform op (m.arguments op) (Pins.of fun _ => held) (m.taking op R) =
      .ok e m₁) :
    Surface W start d [] (e.settle m₁) := by
  have hcalls : ¬ op.Calls := fun hcalls => hshifts (by cases op <;> trivial)
  have hmoves := MachineM.Moving.perform (m := m.taking op R) hshifts hspares (Pins.of fun _ => held)
  rw [hperform] at hmoves
  refine ⟨?_, ⟨_, rfl⟩, ?_⟩
  · rw [Effect.program_settle, hmoves.program]
    exact (hp ▸ h.tame).unfold hshifts hright (MachineM.Unfolding.perform hcalls _ _ _ _ _ hperform)
  · rw [Effect.scopes_settle]
    exact h.scopes.changes hmoves.scopes hbinds

/-- A step stays at the surface, or it enters the body of a lambda. -/
theorem step (h : Surface W start d K m) (hn : m.next? held = some (.ok () m')) :
    (∃ d K, Surface W start d K m') ∨
      ∃ R callee l memoize, m.Entered m' R callee l memoize ∧ Tame W d [] R := by
  have htame := h.tame
  obtain ⟨below, hbelow⟩ := h.known
  cases stepped_of_next? hn with
  | @push item rest o program operand =>
    rw [program] at htame
    cases htame with
    | value v htame => exact .inl ⟨d, [], htame, ⟨_, rfl⟩, h.scopes⟩
    | var name htame =>
      cases operand
      exact .inl ⟨d, .var name :: K, htame, ⟨below, congrArg _ hbelow⟩, h.scopes⟩
    | _ => cases operand
  | @perform op line rest e m₁ program within operands performed =>
    have hends : ∀ {E Q}, MachineM.Ends (MachineM.perform op (m.arguments op)) (m.taking op rest) E Q →
        Q e m₁ := fun h => h.ok performed
    by_cases hright : ∃ field, op = .getFieldRef field
    · obtain ⟨field, rfl⟩ := hright
      exact .inl ⟨d, h.fieldRef program performed⟩
    rcases h.kinds program with hcalls | rfl | rfl | ⟨hshifts, hspares, hbinds⟩
    · rcases h.called program hcalls (hends (MachineM.Ends.performCall hcalls)) with h' | ⟨callee, l, memoize, h'⟩
      · exact .inl ⟨d, h'⟩
      · exact .inr ⟨rest, callee, l, memoize, h'⟩
    · rw [program] at htame
      obtain ⟨rfl, hkept, c, C, hc, hc'⟩ := hends MachineM.Ends.pushFrame
      cases htame with
      | pushFrame line htame =>
        exact .inl ⟨d + 1, [], hkept.program.symm ▸ htame, ⟨_, rfl⟩, h.scopes.pushFrame hc hc'⟩
      | mild line hmild => exact hmild.elim
    · rw [program] at htame
      obtain ⟨rfl, hkept, c, C, f, fs, hc, hf, hc'⟩ := hends MachineM.Ends.popFrame
      cases htame with
      | popFrame line htame =>
        exact .inl ⟨_, [], hkept.program.symm ▸ htame, ⟨_, rfl⟩, h.scopes.popFrame hc hf hc'⟩
      | mild line hmild => exact hmild.elim
    · exact .inl ⟨d, [], h.moved program (not_exists.1 hright) hshifts hspares hbinds performed⟩

end Surface

end Mosaic
