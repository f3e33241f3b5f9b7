import Mosaic.Proofs.Globals.Shaded
import Mosaic.Proofs.Published.Completed

/-!
# A frame that keeps a binding

`Scopes.Houses x v ids d s` says that below `d` frames of the innermost context there is a frame that binds `x`
to `v` and has the lambdas in `ids` set aside. What is done to the frames above it does not matter to it, and in the
frame itself other names may be bound and rebound, and more lambdas be set aside. Only the end of its block takes the
lambdas out of it.
-/

namespace Mosaic

open Mosaic.Graph (NodeId)

theorem Scopes.mem_nodes_of_lookup? {s : Scopes} {name : Name} {v : Value} {id : NodeId}
    (h : s.lookup? name = some v) (hid : v.node? = some id) : id ∈ s.nodes := by
  have hall : s.All (fun v => ∀ id, v.node? = some id → id ∈ s.nodes) (· ∈ s.nodes) :=
    (all_iff fun _ => Iff.rfl).2 fun _ hid => hid
  exact hall.lookup? h id hid

/-- The frame binds the name to the value, and these lambdas are set aside in it. -/
structure Frame.Houses (x : Name) (v : Value) (ids : List NodeId) (f : Frame) : Prop where
  bound : f.lookup? x = some v
  parked : ids ⊆ f.parked

theorem Frame.Houses.define {x name : Name} {v w : Value} {ids : List NodeId} {f : Frame} (h : f.Houses x v ids)
    (hname : name ≠ x) : (f.define name w).Houses x v ids :=
  ⟨(Frame.lookup?_define f name x w).trans ((if_neg hname).trans h.bound), h.parked⟩

/-- Such a frame lies below `d` frames of the innermost context. -/
def Scopes.Houses (x : Name) (v : Value) (ids : List NodeId) (d : Nat) (s : Scopes) : Prop :=
  ∃ c C f, s.contexts = c :: C ∧ c.frames[d]? = some f ∧ f.Houses x v ids

namespace Scopes.Houses

variable {x name : Name} {v w : Value} {ids : List NodeId} {d : Nat} {s s' : Scopes} {id : NodeId}

theorem of_eq (h : s.Houses x v ids d) (heq : s'.contexts = s.contexts) : s'.Houses x v ids d := by
  unfold Houses at h ⊢
  rwa [heq]

theorem mem_nodes (h : s.Houses x v ids d) (hid : v.node? = some id) : id ∈ s.nodes := by
  obtain ⟨c, C, f, hs, hd, hf⟩ := h
  have hv : v ∈ f.bindings.values := mem_values.2 ⟨x, hf.bound⟩
  rw [Scopes.nodes, hs, List.flatMap_cons]
  refine List.mem_append_left _ (List.mem_flatMap.2 ⟨f, List.mem_of_getElem? hd, ?_⟩)
  exact List.mem_append_left _ (List.mem_filterMap.2 ⟨v, hv, hid⟩)

theorem lookup? (h : s.Houses x v ids 0) : s.lookup? x = some v := by
  obtain ⟨c, C, f, hs, hd, hf⟩ := h
  obtain ⟨fs, hfs⟩ := List.head?_eq_some_iff.1 (List.head?_eq_getElem? ▸ hd)
  rw [Scopes.lookup?, hs, List.head?_cons, Option.bind_some, Context.lookup?, hfs, List.findSome?_cons, hf.bound]

theorem parked (h : s.Houses x v ids 0) : ids ⊆ s.parked := by
  obtain ⟨c, C, f, hs, hd, hf⟩ := h
  rw [← List.head?_eq_getElem?] at hd
  rw [Scopes.parked, hs, List.head?_cons, Option.bind_some, hd]
  exact hf.parked

theorem of_define (hs : s.define x v = .ok s') : s'.Houses x v s.parked 0 := by
  obtain ⟨c, C, f, fs, hc, hframes, hs'⟩ := modifyFrame_ok hs
  have hparked : s.parked = f.parked := by
    rw [Scopes.parked, hc, List.head?_cons, Option.bind_some, hframes]
    rfl
  refine ⟨_, C, f.define x v, hs', rfl, ?_, hparked ▸ List.Subset.refl _⟩
  exact (Frame.lookup?_define f x x v).trans (if_pos rfl)

/-! ## Changes -/

theorem modifyFrame {g : Frame → Frame} (h : s.Houses x v ids d) (hs : s.modifyFrame g = .ok s')
    (hg : d = 0 → ∀ f : Frame, f.Houses x v ids → (g f).Houses x v ids) : s'.Houses x v ids d := by
  obtain ⟨c, C, f, hc, hd, hf⟩ := h
  obtain ⟨c₁, C₁, f₁, fs, hc₁, hframes, hs'⟩ := modifyFrame_ok hs
  obtain ⟨rfl, rfl⟩ := List.cons.inj (hc.symm.trans hc₁)
  rw [hframes] at hd
  cases d with
  | zero =>
    cases hd
    exact ⟨_, C, g f, hs', rfl, hg rfl f hf⟩
  | succ d => exact ⟨_, C, f, hs', hd, hf⟩

theorem define (h : s.Houses x v ids d) (hname : d = 0 → name ≠ x) (hs : s.define name w = .ok s') :
    s'.Houses x v ids d :=
  h.modifyFrame hs fun hd _ hf => hf.define (hname hd)

theorem park (h : s.Houses x v ids d) (hs : s.park id = .ok s') : s'.Houses x v ids d :=
  h.modifyFrame hs fun _ _ hf => ⟨hf.bound, List.subset_append_of_subset_left _ hf.parked⟩

/-- The end of a block above takes nothing out of the frame. -/
theorem takeParked {taken : List NodeId} (h : s.Houses x v ids d) (hd : d ≠ 0) (hs : s.takeParked = .ok (taken, s')) :
    s'.Houses x v ids d :=
  h.modifyFrame (takeParked_ok hs).2 fun h0 => (hd h0).elim

theorem assign (h : s.Houses x v ids d) (hname : name ≠ x) (hs : s.assign name w = .ok s') :
    s'.Houses x v ids d := by
  obtain ⟨c, C, f, hc, hd, hf⟩ := h
  obtain ⟨c₁, C₁, gs, hc₁, hgs, hs'⟩ := assign_ok hs
  obtain ⟨rfl, rfl⟩ := List.cons.inj (hc.symm.trans hc₁)
  obtain ⟨inner, f₁, outer, hframes, -, -, rfl⟩ := Context.exists_of_assign? hgs
  have hset : inner ++ f₁.define name w :: outer = c.frames.set inner.length (f₁.define name w) := by
    simp [hframes]
  rw [hset] at hs'
  by_cases hi : inner.length = d
  · have hf₁ : f₁ = f := by simpa [hframes, ← hi] using hd
    refine ⟨_, C, f.define name w, hs', ?_, hf.define hname⟩
    simp [hf₁, hframes, ← hi]
  · exact ⟨_, C, f, hs', (List.getElem?_set_ne hi).trans hd, hf⟩

theorem pushFrame (h : s.Houses x v ids d) (hs : s.pushFrame = .ok s') : s'.Houses x v ids (d + 1) := by
  obtain ⟨c, C, f, hc, hd, hf⟩ := h
  obtain ⟨c₁, C₁, hc₁, hs'⟩ := pushFrame_ok hs
  obtain ⟨rfl, rfl⟩ := List.cons.inj (hc.symm.trans hc₁)
  exact ⟨_, C, f, hs', hd, hf⟩

theorem popFrame {top : Frame} (h : s.Houses x v ids (d + 1)) (hs : s.popFrame = .ok (top, s')) :
    s'.Houses x v ids d := by
  obtain ⟨c, C, f, hc, hd, hf⟩ := h
  obtain ⟨c₁, C₁, fs, hc₁, hframes, hs'⟩ := popFrame_ok hs
  obtain ⟨rfl, rfl⟩ := List.cons.inj (hc.symm.trans hc₁)
  rw [hframes] at hd
  exact ⟨_, C, f, hs', hd, hf⟩

end Scopes.Houses

/-! ## Operations -/

namespace MachineM

open Scopes (Houses)

variable {x : Name} {v : Value} {ids : List NodeId} {d : Nat} {m : Machine}

/-- The frame is still there after the action. -/
abbrev Housing {α : Type} (x : Name) (v : Value) (ids : List NodeId) (d : Nat) (m : Machine) (y : MachineM α) : Prop :=
  Ends y m (fun _ => True) fun _ m' => m'.scopes.Houses x v ids d

theorem houses_assign : Ends (MachineM.assign 1 (.value v) [.var x]) m (fun _ => True) fun e m' =>
    e = .done ∧ m'.program = m.program ∧ m'.store = m.store ∧ m'.scopes.Houses x v m.scopes.parked 0 := by
  have hbind : Ends (MachineM.bindAll [(.var x, v)]) m (fun _ => True) fun _ m' =>
      m'.program = m.program ∧ m'.store = m.store ∧ m'.scopes.Houses x v m.scopes.parked 0 :=
    Ends.okThen trivial fun name hname => Ends.getThen (Ends.bind (Ends.setScopes trivial fun s hs =>
      ⟨rfl, rfl, .of_define (Except.ok.inj hname ▸ hs)⟩) fun _ _ h => Ends.ret h)
  refine Ends.okThen trivial fun w hw => ?_
  obtain rfl : v = w := Except.ok.inj hw
  -- With one target the value is not taken apart.
  have hone : Ends (destructure v 1) m (fun _ => True) fun vs m' => vs = [v] ∧ m' = m := Ends.ret ⟨rfl, rfl⟩
  refine Ends.bind hone fun vs m' h => ?_
  obtain ⟨rfl, rfl⟩ := h
  exact Ends.bind hbind fun _ _ h => Ends.ret ⟨rfl, h⟩

namespace Housing

theorem of_scopes {α : Type} {y : MachineM α} (h : m.scopes.Houses x v ids d)
    (hy : Ends y m (fun _ => True) fun _ m' => m'.scopes = m.scopes) : Housing x v ids d m y :=
  hy.imp (fun _ _ => trivial) fun _ _ heq => heq ▸ h

theorem bindAll {names : List Name} {vs : List Value} (h : m.scopes.Houses x v ids d) (hnames : d = 0 → x ∉ names) :
    Housing x v ids d m (MachineM.bindAll ((names.map Operand.var).zip vs)) := by
  induction names generalizing m vs with
  | nil => exact Ends.ret h
  | cons name names ih =>
    cases vs with
    | nil => exact Ends.ret h
    | cons w vs =>
      refine Ends.okThen trivial fun n hn => Ends.getThen (Ends.bind (Ends.setScopes trivial fun s hs => ?_)
        fun _ m' h' => ih h' fun hd hmem => hnames hd (List.mem_cons_of_mem _ hmem))
      obtain rfl : name = n := Except.ok.inj hn
      exact h.define (fun hd heq => hnames hd (heq ▸ List.mem_cons_self ..)) hs

theorem assign {n : Nat} {names : List Name} {value : Operand} (h : m.scopes.Houses x v ids d)
    (hnames : d = 0 → x ∉ names) : Housing x v ids d m (MachineM.assign n value (names.map .var)) :=
  Ends.okThen trivial fun w _ => Ends.bind (scopes_destructure w n) fun _ _ hm₁ =>
    Ends.bind (bindAll (hm₁ ▸ h) hnames) fun _ _ h => Ends.ret h

theorem writeField {binding field : Name} {w : Value} (h : m.scopes.Houses x v ids d) (hbinding : binding ≠ x) :
    Housing x v ids d m (MachineM.writeField binding field w) := by
  refine Ends.bind (Q := fun _ m' => m'.scopes = m.scopes) (fun pins => ?_) fun target m' hm' => ?_
  · rw [lookup_apply]
    cases m.scopes.lookup? binding with
    | some v => rfl
    | none => trivial
  · refine Ends.okThen trivial fun d _ => ?_
    split
    · refine Ends.bind (.keeping scopes_onStore) fun copy m₁ hm₁ =>
        Ends.getThen (Ends.setScopes trivial fun s hs => ?_)
      rw [hm₁, hm'] at hs
      exact h.assign hbinding hs
    · exact Ends.fail trivial

theorem writeAll {ps : List (Operand × Value)} (h : m.scopes.Houses x v ids d)
    (hps : ∀ p ∈ ps, ∀ binding field, p.1 = .value (.fieldRef binding field) → binding ≠ x) :
    Housing x v ids d m (MachineM.writeAll ps) := by
  induction ps generalizing m with
  | nil => exact Ends.ret h
  | cons p ps ih =>
    obtain ⟨target, w⟩ := p
    refine Ends.okThen trivial fun u hu => ?_
    split
    · rename_i binding field
      have htarget : target = .value (.fieldRef binding field) := by
        cases target <;> cases hu
        rfl
      have hbinding := hps (target, w) (List.mem_cons_self ..) binding field htarget
      exact Ends.bind (.keeping (writeField h hbinding)) fun _ m₁ h₁ =>
        ih h₁ fun q hq => hps q (List.mem_cons_of_mem _ hq)
    · exact fun _ => trivial

theorem setField {n : Nat} {value : Operand} {targets : List Operand} (h : m.scopes.Houses x v ids d)
    (htargets : ∀ binding field, .value (.fieldRef binding field) ∈ targets → binding ≠ x) :
    Housing x v ids d m (MachineM.setField n value targets) :=
  Ends.okThen trivial fun w _ => Ends.bind (scopes_destructure w n) fun _ _ hm₁ =>
    Ends.bind (writeAll (hm₁ ▸ h) fun _ hp binding field heq =>
      htargets binding field (heq ▸ (List.of_mem_zip hp).1)) fun _ _ h => Ends.ret h

theorem makeLambda {label : Name} {t : Template} (h : m.scopes.Houses x v ids d) :
    Housing x v ids d m (MachineM.makeLambda label t) := by
  rw [MachineM.makeLambda, capture_eq, bind_assoc]
  refine Ends.getThen (Ends.okThen trivial fun ps _ => Ends.bind (.keeping scopes_onStore) fun id m₁ hm₁ => ?_)
  split
  · refine Ends.getThen (Ends.bind (Ends.setScopes (R := fun _ m' => m'.scopes.Houses x v ids d) trivial
      fun s hs => ?_) fun _ _ h => Ends.ret h)
    exact (hm₁ ▸ h).park hs
  · exact Ends.ret (hm₁ ▸ h)

theorem setDependencies (h : m.scopes.Houses x v ids d) (hd : d ≠ 0) :
    Housing x v ids d m MachineM.setDependencies := by
  refine Ends.getThen (Ends.okThen trivial fun r hr => Ends.modifyThen ?_)
  obtain ⟨taken, s⟩ := r
  have hs : s.Houses x v ids d := h.takeParked hd hr
  refine Ends.bind Ends.completeAll_covers fun _ m₁ h₁ => Ends.ret ?_
  exact hs.of_eq (congrArg Scopes.contexts h₁.1)

end Housing

end MachineM

end Mosaic
