import Mosaic.Proofs.Globals.Surface

/-!
# Names that are shaded

The fields of a name are assigned by rebinding it where it is bound first. Of the frames of a context, let
`own` be those on top and `fs` those below. If an assignment changes a frame of `fs`, then at a name that no
frame of `own` binds: the names that are bound on top shade those below (`Context.Shades`). An assignment to
several targets rebinds one name after the other, and what is bound on top stays so
(`MachineM.shades_setField`).
-/

namespace Mosaic

theorem Frame.Agrees.imp {V W : Name → Prop} {f f' : Frame} (h : f.Agrees V f')
    (hVW : ∀ name, V name → W name) : f.Agrees W f' :=
  ⟨h.bound, fun name hname => h.value name fun hV => hname (hVW name hV)⟩

/-- At most names in `W` are rebound, and in the frames below only those that are not bound on top. -/
structure Context.Shades (W : Name → Prop) (own fs own' fs' : List Frame) : Prop where
  top : List.Forall₂ (Frame.Agrees W) own own'
  below : List.Forall₂ (Frame.Agrees fun name => W name ∧ Context.Unbound own name) fs fs'

namespace Context.Shades

variable {V W : Name → Prop} {own own₁ own₂ fs fs₁ fs₂ : List Frame}

theorem refl (own fs : List Frame) : Context.Shades W own fs own fs :=
  ⟨Context.Changes.agrees_refl own, Context.Changes.agrees_refl fs⟩

theorem unbound_iff (h : List.Forall₂ (Frame.Agrees W) own own₁) (name : Name) :
    Context.Unbound own₁ name ↔ Context.Unbound own name := by
  induction h with
  | nil => rfl
  | cons hf _ ih =>
    have hhead := Bool.eq_iff_iff.1 (hf.bound name)
    rw [Context.unbound_cons, Context.unbound_cons, ih, ← Option.not_isSome_iff_eq_none, hhead,
      Option.not_isSome_iff_eq_none]

theorem trans (h : Context.Shades W own fs own₁ fs₁) (h' : Context.Shades W own₁ fs₁ own₂ fs₂) :
    Context.Shades W own fs own₂ fs₂ where
  top := Context.Changes.agrees_trans h.top h'.top
  below := by
    refine Context.Changes.agrees_trans h.below (h'.below.imp fun _ _ hf => hf.imp fun name => ?_)
    exact And.imp_right (unbound_iff h.top name).1

theorem imp (h : Context.Shades V own fs own₁ fs₁) (hVW : ∀ name, V name → W name) :
    Context.Shades W own fs own₁ fs₁ :=
  ⟨h.top.imp fun _ _ hf => hf.imp hVW, h.below.imp fun _ _ hf => hf.imp fun name => And.imp_left (hVW name)⟩

theorem assign {name : Name} {v : Value} {gs : List Frame}
    (h : Context.assign? name v (own ++ fs) = some gs) :
    ∃ own' fs', gs = own' ++ fs' ∧ Context.Shades (· = name) own fs own' fs' := by
  by_cases hown : Context.Unbound own name
  · rw [Context.assign?_append_of_unbound hown] at h
    obtain ⟨fs', hfs, rfl⟩ := Option.map_eq_some_iff.1 h
    refine ⟨own, fs', rfl, Context.Changes.agrees_refl own, ?_⟩
    refine (Context.Changes.assign (W := (· = name)) rfl hfs).imp fun _ _ hf => hf.imp fun n hn => ⟨hn, ?_⟩
    rwa [hn]
  · obtain ⟨own', -, hown', happend⟩ := Context.assign?_append_of_not_unbound v fs hown
    obtain rfl := Option.some.inj (h.symm.trans happend)
    exact ⟨own', fs, rfl, Context.Changes.assign rfl hown', Context.Changes.agrees_refl fs⟩

end Context.Shades

/-! ## Assignments -/

/-- The innermost context is `c`, with frames that shade those that it had, above the contexts `C`. -/
def Machine.Shaded (W : Name → Prop) (c : Context) (C : List Context) (own fs : List Frame) (m : Machine) :
    Prop :=
  ∃ own' fs', m.scopes.contexts = { c with frames := own' ++ fs' } :: C ∧ Context.Shades W own fs own' fs'

namespace MachineM

variable {W : Name → Prop} {c : Context} {C : List Context} {own fs : List Frame} {m : Machine}

theorem scopes_onStore {α : Type} {x : StoreM α} :
    Ends (MachineM.onStore x) m (fun _ => True) fun _ m' => m'.scopes = m.scopes := by
  intro pins
  rw [onStore_apply]
  cases x (pins.also fun _ => m.mentions) m.store with
  | ok a s => rfl
  | error failure s => trivial

theorem scopes_destructure (v : Value) (n : Nat) :
    Ends (MachineM.destructure v n) m (fun _ => True) fun _ m' => m'.scopes = m.scopes := by
  unfold MachineM.destructure
  split
  · exact Ends.ret rfl
  · split
    · exact scopes_onStore
    · exact Ends.fail trivial

theorem shades_writeField {binding : Name} (hbinding : W binding) (field : Name) (v : Value)
    (hm : m.scopes.contexts = { c with frames := own ++ fs } :: C) :
    Ends (MachineM.writeField binding field v) m (fun _ => True) fun _ => Machine.Shaded W c C own fs := by
  refine Ends.bind (Q := fun _ m' => m'.scopes = m.scopes) (fun pins => ?_) fun target m' hm' => ?_
  · rw [lookup_apply]
    cases m.scopes.lookup? binding with
    | some v => rfl
    | none => trivial
  · refine Ends.okThen trivial fun d _ => ?_
    split
    · refine Ends.bind (.keeping scopes_onStore) fun copy m₁ hm₁ =>
        Ends.getThen (Ends.setScopes trivial fun s hs => ?_)
      obtain ⟨c', C', gs, hc', hgs, hs⟩ := Scopes.assign_ok hs
      rw [hm₁, hm', hm] at hc'
      cases hc'
      obtain ⟨own', fs', rfl, hshades⟩ := Context.Shades.assign hgs
      exact ⟨own', fs', hs, hshades.imp fun _ hname => hname ▸ hbinding⟩
    · exact Ends.fail trivial

theorem shades_writeAll {ps : List (Operand × Value)}
    (hps : ∀ p ∈ ps, ∀ binding field, p.1 = .value (.fieldRef binding field) → W binding)
    (hm : m.scopes.contexts = { c with frames := own ++ fs } :: C) :
    Ends (MachineM.writeAll ps) m (fun _ => True) fun _ => Machine.Shaded W c C own fs := by
  induction ps generalizing m own fs with
  | nil => exact Ends.ret ⟨own, fs, hm, .refl own fs⟩
  | cons p ps ih =>
    obtain ⟨target, v⟩ := p
    refine Ends.okThen trivial fun w hw => ?_
    split
    · rename_i binding field
      have htarget : target = .value (.fieldRef binding field) := by
        cases target <;> cases hw
        rfl
      have hbinding := hps (target, v) (List.mem_cons_self ..) binding field htarget
      refine Ends.bind (.keeping (shades_writeField hbinding field v hm)) fun _ m₁ ⟨own₁, fs₁, hm₁, h₁⟩ => ?_
      refine (ih (fun q hq => hps q (List.mem_cons_of_mem _ hq)) hm₁).imp (fun _ h => h) fun _ m₂ h => ?_
      obtain ⟨own₂, fs₂, hm₂, h₂⟩ := h
      exact ⟨own₂, fs₂, hm₂, h₁.trans h₂⟩
    · exact fun _ => trivial

/-- An assignment of fields changes the frames below at names only that are not bound on top. -/
theorem shades_setField {n : Nat} {args : List Operand}
    (hargs : ∀ binding field, .value (.fieldRef binding field) ∈ args.tail → W binding)
    (hm : m.scopes.contexts = { c with frames := own ++ fs } :: C) :
    Ends (MachineM.perform (.setField n) args) m (fun _ => True) fun _ => Machine.Shaded W c C own fs := by
  rcases args with _ | ⟨v, targets⟩
  · exact Ends.fail trivial
  · refine Ends.okThen trivial fun w _ => Ends.bind (scopes_destructure w n) fun vs m₁ hm₁ => ?_
    refine Ends.bind (shades_writeAll ?_ ((congrArg Scopes.contexts hm₁).trans hm)) fun _ _ h => Ends.ret h
    exact fun p hp binding field h => hargs binding field (h ▸ (List.of_mem_zip hp).1)

end MachineM

end Mosaic
