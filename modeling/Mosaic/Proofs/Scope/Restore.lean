import Mosaic.Proofs.Machine.Scopes

/-!
# Restoring a checkpoint

`Scopes.restore` fits the contexts to a length, and then the frames of the innermost one. What is on top of
that length is dropped (`Scopes.restore_append`, `Scopes.restore_of_frames`), so it does not matter whether
a deeper checkpoint was restored before (`Scopes.restore_restore`).
-/

namespace Mosaic

/-! ## Names in several frames -/

namespace Context

variable {name : Name} {v : Value} {own fs : List Frame}

/-- None of the frames binds the name. -/
def Unbound (fs : List Frame) (name : Name) : Prop := ∀ f ∈ fs, f.lookup? name = none

instance (fs : List Frame) (name : Name) : Decidable (Unbound fs name) :=
  inferInstanceAs (Decidable (∀ f ∈ fs, f.lookup? name = none))

theorem unbound_cons {f : Frame} : Unbound (f :: fs) name ↔ f.lookup? name = none ∧ Unbound fs name :=
  List.forall_mem_cons

theorem assign?_cons_of_none {f : Frame} (hf : f.lookup? name = none) :
    assign? name v (f :: fs) = (assign? name v fs).map (f :: ·) := by
  have hbound : ¬ f.bindings.contains name = true := by
    rw [Std.ExtTreeMap.contains_eq_isSome_getElem?]
    exact Option.not_isSome_iff_eq_none.2 hf
  rw [assign?, if_neg hbound]

theorem assign?_cons_of_ne_none {f : Frame} (hf : f.lookup? name ≠ none) :
    assign? name v (f :: fs) = some (f.define name v :: fs) := by
  have hbound : f.bindings.contains name = true := by
    rw [Std.ExtTreeMap.contains_eq_isSome_getElem?]
    exact Option.isSome_iff_ne_none.2 hf
  rw [assign?, if_pos hbound]

theorem assign?_append_of_unbound (h : Unbound own name) :
    assign? name v (own ++ fs) = (assign? name v fs).map (own ++ ·) := by
  induction own with
  | nil => exact (Option.map_id' ..).symm
  | cons f own ih =>
    obtain ⟨hf, hown⟩ := unbound_cons.1 h
    rw [List.cons_append, assign?_cons_of_none hf, ih hown, Option.map_map]
    rfl

theorem assign?_append_of_not_unbound (v : Value) (fs : List Frame) (h : ¬ Unbound own name) :
    ∃ own', own'.length = own.length ∧ assign? name v own = some own' ∧
      assign? name v (own ++ fs) = some (own' ++ fs) := by
  induction own with
  | nil => exact absurd (fun _ hf => absurd hf List.not_mem_nil) h
  | cons f own ih =>
    by_cases hf : f.lookup? name = none
    · obtain ⟨own', hlen, hown, happend⟩ := ih fun hown => h (unbound_cons.2 ⟨hf, hown⟩)
      refine ⟨f :: own', congrArg Nat.succ hlen, ?_, ?_⟩
      · rw [assign?_cons_of_none hf, hown]
        rfl
      · rw [List.cons_append, assign?_cons_of_none hf, happend]
        rfl
    · exact ⟨f.define name v :: own, rfl, assign?_cons_of_ne_none hf, assign?_cons_of_ne_none hf⟩

theorem assign?_eq_none_iff : assign? name v fs = none ↔ Unbound fs name := by
  induction fs with
  | nil => exact iff_of_true rfl fun _ hf => absurd hf List.not_mem_nil
  | cons f fs ih =>
    rw [unbound_cons]
    by_cases hf : f.lookup? name = none
    · rw [assign?_cons_of_none hf, Option.map_eq_none_iff, ih, and_iff_right hf]
    · rw [assign?_cons_of_ne_none hf]
      exact iff_of_false (Option.some_ne_none _) fun h => hf h.1

theorem assign?_of_findSome? {w : Value} (h : (fs.findSome? fun f => f.lookup? name) = some w) :
    ∃ inner frame outer, fs = inner ++ frame :: outer ∧ Unbound inner name ∧
      frame.lookup? name = some w ∧
      assign? name v fs = some (inner ++ frame.define name v :: outer) := by
  obtain ⟨inner, frame, outer, rfl, hframe, hinner⟩ := List.findSome?_eq_some_iff.1 h
  refine ⟨inner, frame, outer, rfl, hinner, hframe, ?_⟩
  rw [assign?_append_of_unbound hinner, assign?_cons_of_ne_none (by simp [hframe])]
  rfl

end Context

/-! ## Lists that are fitted to a length -/

namespace Scopes

section

variable {α : Type} {fresh x : α} {n k : Nat} {xs ys : List α}

@[simp] theorem length_fitLast : (fitLast fresh n xs).length = n := by
  simp only [fitLast, List.length_append, List.length_replicate, List.length_drop]
  omega

theorem fitLast_append (h : ys.length = n) : fitLast fresh n (xs ++ ys) = ys := by
  subst h
  simp [fitLast]

theorem fitLast_of_length (h : xs.length = n) : fitLast fresh n xs = xs := by
  subst h
  simp [fitLast]

/-- What is on top of the length is dropped. -/
theorem fitLast_append_of_le (h : n ≤ ys.length) : fitLast fresh n (xs ++ ys) = fitLast fresh n ys := by
  have hle : n ≤ (xs ++ ys).length := by simp; omega
  have hdrop : (xs ++ ys).length - n = xs.length + (ys.length - n) := by simp; omega
  simp only [fitLast, Nat.sub_eq_zero_of_le h, Nat.sub_eq_zero_of_le hle, hdrop, List.drop_length_add_append]

theorem fitLast_fitLast (h : n ≤ k) : fitLast fresh n (fitLast fresh k xs) = fitLast fresh n xs := by
  rcases Nat.le_total xs.length k with hk | hk
  · have hfit : fitLast fresh k xs = List.replicate (k - xs.length) fresh ++ xs := by
      simp [fitLast, Nat.sub_eq_zero_of_le hk]
    rw [hfit]
    rcases Nat.le_total n xs.length with hn | hn
    · exact fitLast_append_of_le hn
    · -- Some of what was filled in stays.
      have hsplit : k - xs.length = (k - n) + (n - xs.length) := by omega
      rw [hsplit, ← List.replicate_append_replicate, List.append_assoc]
      have hfit' : List.replicate (n - xs.length) fresh ++ xs = fitLast fresh n xs := by
        simp [fitLast, Nat.sub_eq_zero_of_le hn]
      rw [hfit']
      exact fitLast_append length_fitLast
  · have hfit : fitLast fresh k xs = xs.drop (xs.length - k) := by
      simp [fitLast, Nat.sub_eq_zero_of_le hk]
    rw [hfit]
    conv => rhs; rw [← List.take_append_drop (xs.length - k) xs]
    refine (fitLast_append_of_le ?_).symm
    simp only [List.length_drop]
    omega

end

/-! ## Scopes that are restored -/

/-- The frames of the innermost context that were pushed since the checkpoint. -/
def since (s : Scopes) (cp : Checkpoint) : List Frame :=
  (s.contexts.head?.map fun c => c.frames.take (c.frames.length - cp.frames)).getD []

variable {s t : Scopes} {c : Context} {own fs : List Frame} {upper C : List Context} {cp low : Checkpoint}

theorem restore_append (hs : s.contexts = upper ++ C) (hC : C.length = cp.contexts) :
    s.restore cp = (⟨C⟩ : Scopes).restore cp := by
  rw [restore, restore, hs, fitLast_append hC, fitLast_of_length hC]

theorem restore_of_frames (hs : s.contexts = { c with frames := own ++ fs } :: C)
    (hC : cp.contexts = C.length + 1) (hfs : cp.frames = fs.length) :
    s.restore cp = ⟨{ c with frames := fs } :: C⟩ := by
  have hfit : fitLast {} cp.contexts s.contexts = s.contexts :=
    fitLast_of_length ((congrArg List.length hs).trans hC.symm)
  rw [restore, hfit, hs]
  simp only [fitLast_append hfs.symm]

theorem since_of_frames (hs : s.contexts = { c with frames := own ++ fs } :: C) (hfs : cp.frames = fs.length) :
    s.since cp = own := by
  simp [since, hs, hfs]

theorem checkpoint_of_frames (hs : s.contexts = c :: C) : s.checkpoint = ⟨C.length + 1, c.frames.length⟩ := by
  simp [checkpoint, hs]

theorem restore_checkpoint (s : Scopes) : s.restore s.checkpoint = s := by
  obtain ⟨contexts⟩ := s
  cases contexts with
  | nil => rfl
  | cons c C =>
    have hframes : (c :: C) = { c with frames := [] ++ c.frames } :: C := rfl
    exact restore_of_frames hframes (by simp [checkpoint]) (by simp [checkpoint])

/-- Restored scopes are as deep as the checkpoint says, and a checkpoint without contexts has no frames. -/
theorem checkpoint_restore (h : cp.contexts = 0 → cp.frames = 0) : (s.restore cp).checkpoint = cp := by
  obtain ⟨contexts, frames⟩ := cp
  have hlength : (fitLast {} contexts s.contexts).length = contexts := length_fitLast
  unfold restore
  dsimp only
  split
  · rename_i hfit
    rw [hfit] at hlength
    obtain rfl : contexts = 0 := hlength.symm
    obtain rfl : frames = 0 := h rfl
    rfl
  · rename_i innermost C hfit
    rw [hfit] at hlength
    simp [checkpoint, ← hlength]

end Scopes

/-! ## Checkpoints and their order -/

namespace Checkpoint

/-- The checkpoint is not deeper: it has fewer contexts, or as many and no more frames. -/
def Le (low cp : Checkpoint) : Prop :=
  low.contexts < cp.contexts ∨ low.contexts = cp.contexts ∧ low.frames ≤ cp.frames

instance (low cp : Checkpoint) : Decidable (low.Le cp) :=
  inferInstanceAs (Decidable (_ ∨ _))

theorem Le.refl (cp : Checkpoint) : cp.Le cp := .inr ⟨rfl, Nat.le_refl _⟩

theorem Le.trans {a b c : Checkpoint} (h : a.Le b) (h' : b.Le c) : a.Le c := by
  unfold Le at *
  omega

theorem Le.of_not {a b : Checkpoint} (h : ¬ a.Le b) : b.Le a := by
  unfold Le at *
  omega

end Checkpoint

namespace Scopes

variable {s : Scopes} {cp low : Checkpoint}

/-- It does not matter whether a deeper checkpoint was restored before. -/
theorem restore_restore (h : low.Le cp) : (s.restore cp).restore low = s.restore low := by
  have hle : low.contexts ≤ cp.contexts := by
    rcases h with h | h <;> omega
  have hlength : (fitLast {} cp.contexts s.contexts).length = cp.contexts := length_fitLast
  have hfit : fitLast {} low.contexts (fitLast {} cp.contexts s.contexts) = fitLast {} low.contexts s.contexts :=
    fitLast_fitLast hle
  cases hcp : fitLast {} cp.contexts s.contexts with
  | nil =>
    have hrestore : s.restore cp = ⟨[]⟩ := by rw [restore, hcp]
    rw [hcp] at hfit
    rw [hrestore, restore, restore, hfit]
  | cons c C =>
    have hrestore : s.restore cp = ⟨{ c with frames := fitLast {} cp.frames c.frames } :: C⟩ := by
      rw [restore, hcp]
    rw [hcp] at hfit hlength
    rw [hrestore]
    rcases h with hlt | ⟨heq, hframes⟩
    · -- The context whose frames were fitted is dropped.
      have hC : low.contexts ≤ C.length := by
        rw [List.length_cons] at hlength
        omega
      have hdrop : ∀ c : Context, fitLast {} low.contexts (c :: C) = fitLast {} low.contexts C := fun c =>
        @fitLast_append_of_le Context {} low.contexts [c] C hC
      rw [hdrop c] at hfit
      rw [restore, restore, hdrop, hfit]
    · have hC : low.contexts = C.length + 1 := heq.trans hlength.symm
      rw [fitLast_of_length (by rw [hC]; rfl)] at hfit
      rw [restore, restore, ← hfit, fitLast_of_length (by rw [hC]; rfl)]
      simp only [fitLast_fitLast hframes]

theorem cases_of_le (h : low.Le s.checkpoint) :
    (∃ c upper C, s.contexts = c :: (upper ++ C) ∧ C.length = low.contexts) ∨
    (∃ (c : Context) (own fs : List Frame) (C : List Context), s.contexts = { c with frames := own ++ fs } :: C ∧
        low.contexts = C.length + 1 ∧ low.frames = fs.length) ∨
    s.contexts = [] ∧ low = ⟨0, 0⟩ := by
  cases hs : s.contexts with
  | nil =>
    have hcp : s.checkpoint = ⟨0, 0⟩ := by simp [checkpoint, hs]
    rw [hcp] at h
    obtain ⟨contexts, frames⟩ := low
    simp only [Checkpoint.Le, Nat.not_lt_zero, false_or, Nat.le_zero] at h
    exact .inr (.inr ⟨rfl, by rw [h.1, h.2]⟩)
  | cons c C =>
    rw [checkpoint_of_frames hs] at h
    rcases h with hlt | ⟨heq, hle⟩
    · dsimp only at hlt
      refine .inl ⟨c, C.take (C.length - low.contexts), C.drop (C.length - low.contexts), ?_, ?_⟩
      · rw [List.take_append_drop]
      · rw [List.length_drop]
        omega
    · dsimp only at heq hle
      refine .inr (.inl ⟨c, c.frames.take (c.frames.length - low.frames),
        c.frames.drop (c.frames.length - low.frames), C, ?_, heq, ?_⟩)
      · rw [List.take_append_drop]
      · rw [List.length_drop]
        omega

end Scopes

end Mosaic
