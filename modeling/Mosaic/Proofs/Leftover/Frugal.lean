import Mosaic.Proofs.Machine.Logic

/-!
# What a machine holds on to

The lambdas that are set aside in the outermost frame stay there: that frame is never popped, and no block
ends in it. While a run is frugal, it takes no handles, remembers no results, and sets a lambda aside in the
outermost frame at most where it is known to (`Machine.Frugal`). Every action keeps that, also if it fails.
-/

namespace Mosaic

open Mosaic.Graph (NodeId)

/-! ## The outermost frame -/

namespace Scopes

variable {s s' : Scopes}

/-- The lambdas that are set aside in the outermost frame. -/
def aside (s : Scopes) : List NodeId :=
  (s.contexts.getLast?.bind fun c => (c.frames.map Frame.parked).getLast?).getD []

/-- Only the outermost context has a part in it. -/
theorem aside_cons {c : Context} {C : List Context} (hC : C ≠ []) : aside ⟨c :: C⟩ = aside ⟨C⟩ := by
  obtain ⟨d, D, rfl⟩ := List.exists_cons_of_ne_nil hC
  rw [aside, aside, List.getLast?_cons_cons]

theorem aside_cons_frame {c : Context} {C : List Context} {f : Frame} {fs : List Frame} (hfs : fs ≠ []) :
    aside ⟨{ c with frames := f :: fs } :: C⟩ = aside ⟨{ c with frames := fs } :: C⟩ := by
  by_cases hC : C = []
  · subst hC
    obtain ⟨f', fs, rfl⟩ := List.exists_cons_of_ne_nil hfs
    exact congrArg (fun parked => parked.getD []) (List.getLast?_cons_cons (l := fs.map Frame.parked))
  · exact (aside_cons hC).trans (aside_cons hC).symm

/-- The innermost frame is the outermost one only if there is no other. -/
theorem aside_modifyFrame {g : Frame → Frame} (h : s.modifyFrame g = .ok s') :
    s'.aside = s.aside ∨ s.depths = [1] ∧ ∃ f, s.aside = f.parked ∧ s'.aside = (g f).parked := by
  obtain ⟨contexts⟩ := s
  obtain ⟨contexts'⟩ := s'
  obtain ⟨⟨frames, label⟩, C, f, fs, rfl, rfl, rfl⟩ := modifyFrame_ok h
  by_cases hC : C = []
  · subst hC
    cases fs with
    | nil => exact .inr ⟨rfl, f, rfl, rfl⟩
    | cons f' fs => exact .inl rfl
  · exact .inl ((aside_cons hC).trans (aside_cons hC).symm)

theorem aside_assign {name : Name} {v : Value} (h : s.assign name v = .ok s') : s'.aside = s.aside := by
  have hparked : ∀ {fs fs' : List Frame}, Context.assign? name v fs = some fs' →
      fs'.map Frame.parked = fs.map Frame.parked := by
    intro fs fs' h
    obtain ⟨inner, f, outer, rfl, -, -, rfl⟩ := Context.exists_of_assign? h
    simp [Frame.define]
  obtain ⟨contexts⟩ := s
  obtain ⟨contexts'⟩ := s'
  obtain ⟨c, C, fs, rfl, hfs, rfl⟩ := assign_ok h
  by_cases hC : C = []
  · subst hC
    exact congrArg (fun parked => parked.getLast?.getD []) (hparked hfs)
  · exact (aside_cons hC).trans (aside_cons hC).symm

/-- There is a context. If `S` holds, nothing is set aside in the outermost frame, and if `J` does, too, the
innermost one is another. -/
structure Tidy (S J : Prop) (s : Scopes) : Prop where
  some_context : s.contexts ≠ []
  aside : S → s.aside = []
  inner : S → J → s.depths ≠ [1]

namespace Tidy

variable {S J : Prop}

theorem modifyFrame (h : s.Tidy S J) {g : Frame → Frame} (hs : s.modifyFrame g = .ok s')
    (hg : S → J ∨ ∀ f, f.parked = [] → (g f).parked = []) : s'.Tidy S J where
  some_context := by
    obtain ⟨c, C, f, fs, hc, hf, hc'⟩ := modifyFrame_ok hs
    exact hc' ▸ List.cons_ne_nil _ _
  aside hS := by
    rcases aside_modifyFrame hs with heq | ⟨hdepths, f, hf, hf'⟩
    · exact heq.trans (h.aside hS)
    · rcases hg hS with hJ | hg
      · exact (h.inner hS hJ hdepths).elim
      · exact hf'.trans (hg f (hf.symm.trans (h.aside hS)))
  inner hS hJ := depths_modifyFrame hs ▸ h.inner hS hJ

theorem assign (h : s.Tidy S J) {name : Name} {v : Value} (hs : s.assign name v = .ok s') : s'.Tidy S J where
  some_context := by
    obtain ⟨c, C, fs, hc, hf, hc'⟩ := assign_ok hs
    exact hc' ▸ List.cons_ne_nil _ _
  aside hS := (aside_assign hs).trans (h.aside hS)
  inner hS hJ := depths_assign hs ▸ h.inner hS hJ

theorem pushContext (h : s.Tidy S J) (c : Context) : (s.pushContext c).Tidy S J where
  some_context := List.cons_ne_nil _ _
  aside hS := (aside_cons h.some_context).trans (h.aside hS)
  inner _ _ heq := h.some_context (List.map_eq_nil_iff.1 (List.cons.inj heq).2)

theorem popContext (h : s.Tidy S J) {c : Context} (hs : s.popContext = .ok (c, s')) {n k : Nat} {ns : List Nat}
    (hdepths : s.depths = n :: k :: ns) : s'.Tidy S False ∧ s'.depths = k :: ns := by
  obtain rfl : s = ⟨c :: s'.contexts⟩ := congrArg Scopes.mk (popContext_ok hs)
  have hdepths' : s'.depths = k :: ns := (List.cons.inj hdepths).2
  have hne : s'.contexts ≠ [] := fun hnil => by simp [depths, hnil] at hdepths'
  exact ⟨⟨hne, fun hS => (aside_cons hne).symm.trans (h.aside hS), fun _ hF => hF.elim⟩, hdepths'⟩

theorem pushFrame (h : s.Tidy S J) (hs : s.pushFrame = .ok s') {n : Nat} {ns : List Nat}
    (hdepths : s.depths = (n + 1) :: ns) : s'.Tidy S False ∧ s'.depths = (n + 2) :: ns := by
  obtain ⟨c, C, hc, hc'⟩ := pushFrame_ok hs
  obtain rfl : s = ⟨c :: C⟩ := congrArg Scopes.mk hc
  obtain rfl : s' = ⟨{ c with frames := {} :: c.frames } :: C⟩ := congrArg Scopes.mk hc'
  obtain ⟨hlength, htail⟩ := List.cons.inj hdepths
  have hne : c.frames ≠ [] := fun hnil => by simp [hnil] at hlength
  refine ⟨⟨List.cons_ne_nil _ _, fun hS => (aside_cons_frame hne).trans (h.aside hS), fun _ hF => hF.elim⟩, ?_⟩
  exact congrArg₂ List.cons (congrArg Nat.succ hlength) htail

theorem popFrame (h : s.Tidy S J) {f : Frame} (hs : s.popFrame = .ok (f, s')) {n : Nat} {ns : List Nat}
    (hdepths : s.depths = (n + 2) :: ns) : s'.Tidy S False ∧ s'.depths = (n + 1) :: ns := by
  obtain ⟨⟨frames, label⟩, C, fs, hc, rfl, hc'⟩ := popFrame_ok hs
  obtain rfl : s = ⟨⟨f :: fs, label⟩ :: C⟩ := congrArg Scopes.mk hc
  obtain rfl : s' = ⟨⟨fs, label⟩ :: C⟩ := congrArg Scopes.mk hc'
  obtain ⟨hlength, htail⟩ := List.cons.inj hdepths
  have hlength' : fs.length = n + 1 := Nat.succ.inj hlength
  have hne : fs ≠ [] := fun hnil => by simp [hnil] at hlength'
  refine ⟨⟨List.cons_ne_nil _ _, fun hS => ?_, fun _ hF => hF.elim⟩, congrArg₂ List.cons hlength' htail⟩
  exact (aside_cons_frame (c := ⟨[], label⟩) hne).symm.trans (h.aside hS)

end Tidy

end Scopes

/-! ## Actions -/

/-- No action on the store takes a handle. -/
def StoreM.keepsHandles : StoreM.Logic where
  toRules := .ensuring (fun s => s.pool.handles = {}) (fun _ s => s.pool.handles = {}) fun _ _ _ hs => hs
  getThen hf := .getThen fun s _ => hf s
  allocate _ := by
    refine .allocate (fun pins s id s' hs ha => ?_) fun _ _ hs => hs
    obtain ⟨g, hc, rfl, rfl⟩ := Graph.Heap.allocate_eq_ok ha
    exact (Graph.Heap.collectIfDue_sub hc).2.1.trans hs
  update _ _ _ := by
    refine .update (fun s pool hs hu => ?_) fun _ _ hs => hs
    obtain ⟨e, a, -, -, rfl⟩ := Graph.Pool.update_eq_ok hu
    exact hs

/-- Results are not remembered, there are no handles, and the scopes are tidy. -/
structure Machine.Frugal (S J : Prop) (m : Machine) : Prop where
  forgets : m.config.memoize = false
  handles : m.store.pool.handles = {}
  memo : m.memo.entries = {}
  scopes : m.scopes.Tidy S J

namespace MachineM

variable {S J : Prop}

/-- However an action ends, a frugal machine is frugal afterwards. If a lambda may be set aside, the innermost frame
is not the outermost one. -/
def frugal (S J : Prop) : MachineM.Logic (S → J) where
  toRules := .ensuring (Machine.Frugal S J) (fun _ => Machine.Frugal S J) fun _ _ _ hm => hm
  store := StoreM.keepsHandles.interface
  Proper := Scopes.Tidy S J
  onStore hx := hx.onStore (fun _ hm => hm.handles) (fun _ _ hm hs => ⟨hm.forgets, hs, hm.memo, hm.scopes⟩)
    fun _ _ _ hm hs => ⟨hm.forgets, hs, hm.memo, hm.scopes⟩
  scopes hm := hm.scopes
  withScopes hm hs := ⟨hm.forgets, hm.handles, hm.memo, hs⟩
  withBuilders _ hm := ⟨hm.forgets, hm.handles, hm.memo, hm.scopes⟩
  ask {m} key hm := by
    refine ⟨hm.forgets, hm.handles, ?_, hm.scopes⟩
    show (m.memo.ask key).2.entries = {}
    unfold Memo.ask
    split <;> exact hm.memo
  define hs h := hs.modifyFrame h fun _ => .inr fun _ hf => hf
  assign hs h := hs.assign h
  park hJ _ _ _ hs h := hs.modifyFrame h fun hS => .inl (hJ hS)
  takeParked hs h := hs.modifyFrame (Scopes.takeParked_ok h).2 fun _ => .inr fun _ _ => rfl
  pushContext c hs := hs.pushContext c

end MachineM

end Mosaic
