import Mosaic.Proofs.Scope.Restore

/-!
# What is left when a checkpoint is restored

A checkpoint tells how deep the scopes are, and not which scopes they are. Let `low` be the least depth that
the scopes have in a sequence of edits (`Scopes.lowest`). Up to that depth they are the scopes of the start
all along, and of the edits they are changed by those only that nothing on top keeps from them
(`Scopes.Edit.Reaches`). So if no scope of the checkpoint is popped, all that was pushed is gone after the
checkpoint is restored, with what was bound there (`Scopes.restore_edits`). Above `low` that is not so: what
was pushed in the place of scopes that were popped stays.
-/

namespace Mosaic

open Mosaic.Graph (NodeId)

namespace Scopes

/-- What can be done to scopes. -/
inductive Edit where
  | pushContext (c : Context)
  | popContext
  | pushFrame
  | popFrame
  | define (name : Name) (v : Value)
  | assign (name : Name) (v : Value)
  | park (lambda : NodeId)

def Edit.apply (s : Scopes) : Edit → Except Failure Scopes
  | pushContext c => .ok (s.pushContext c)
  | popContext => s.popContext.map Prod.snd
  | pushFrame => s.pushFrame
  | popFrame => s.popFrame.map Prod.snd
  | define name v => s.define name v
  | assign name v => s.assign name v
  | park lambda => s.park lambda

/-- The scopes that an operation leads to. If it fails it changes nothing. -/
def attempt (s : Scopes) : Except Failure Scopes → Scopes
  | .ok s' => s'
  | .error _ => s

def edit (s : Scopes) (e : Edit) : Scopes := s.attempt (e.apply s)

def edits (s : Scopes) (es : List Edit) : Scopes := es.foldl edit s

/-- The least depth of the scopes along the edits. -/
def lowest (s : Scopes) : List Edit → Checkpoint
  | [] => s.checkpoint
  | e :: es => if (lowest (s.edit e) es).Le s.checkpoint then lowest (s.edit e) es else s.checkpoint

/-- The edit changes the scopes up to the depth `low`. A definition goes to the innermost frame, and a name
is rebound there if nothing on top binds it. -/
def Edit.Reaches (low : Checkpoint) (s : Scopes) : Edit → Prop
  | define _ _ | park _ => s.checkpoint = low
  | assign name _ => s.depth = low.contexts ∧ Context.Unbound (s.since low) name
  | pushContext _ | popContext | pushFrame | popFrame => False

instance (low : Checkpoint) (s : Scopes) (e : Edit) : Decidable (e.Reaches low s) := by
  cases e <;> unfold Edit.Reaches <;> infer_instance

/-- Those of the edits that change the scopes up to the depth `low`. -/
def reaching (low : Checkpoint) (s : Scopes) : List Edit → List Edit
  | [] => []
  | e :: es => if e.Reaches low s then e :: reaching low (s.edit e) es else reaching low (s.edit e) es

/-! ## One edit -/

section

variable {s : Scopes} {c : Context} {own fs : List Frame} {C : List Context} {low : Checkpoint} {e : Edit}
  {g : Frame → Frame}

theorem exists_contexts_edit (hs : s.contexts = c :: C) (e : Edit) :
    ∃ upper, (s.edit e).contexts = upper ++ C := by
  have hmodify : ∀ g : Frame → Frame, ∃ upper, (s.attempt (s.modifyFrame g)).contexts = upper ++ C := by
    intro g
    cases hg : s.modifyFrame g with
    | error failure => exact ⟨[c], hs⟩
    | ok s' =>
      obtain ⟨c', C', f, fs, hc, -, hs'⟩ := modifyFrame_ok hg
      obtain ⟨rfl, rfl⟩ := List.cons.inj (hs.symm.trans hc)
      exact ⟨[_], hs'⟩
  cases e with
  | pushContext d => exact ⟨[d, c], congrArg (d :: ·) hs⟩
  | popContext =>
    simp only [edit, Edit.apply, popContext, hs]
    exact ⟨[], rfl⟩
  | pushFrame =>
    simp only [edit, Edit.apply, pushFrame, hs]
    exact ⟨[{ c with frames := {} :: c.frames }], rfl⟩
  | popFrame =>
    simp only [edit, Edit.apply, popFrame, hs]
    cases c.frames with
    | nil => exact ⟨[c], hs⟩
    | cons f fs => exact ⟨[{ c with frames := fs }], rfl⟩
  | define name v => exact hmodify _
  | assign name v =>
    simp only [edit, Edit.apply, assign, hs]
    cases Context.assign? name v c.frames with
    | none => exact ⟨[c], hs⟩
    | some frames => exact ⟨[{ c with frames }], rfl⟩
  | park lambda => exact hmodify _

section

variable (hs : s.contexts = { c with frames := own ++ fs } :: C) (hC : low.contexts = C.length + 1)
  (hfs : low.frames = fs.length)

include hs hC hfs

theorem restore_modifyFrame (g : Frame → Frame) :
    (s.attempt (s.modifyFrame g)).restore low =
      if s.checkpoint = low then (s.restore low).attempt ((s.restore low).modifyFrame g)
      else s.restore low := by
  have hcheckpoint : s.checkpoint = ⟨C.length + 1, own.length + fs.length⟩ := by
    rw [checkpoint_of_frames hs, List.length_append]
  cases own with
  | nil =>
    have hlow : s.checkpoint = low := by
      rw [hcheckpoint, List.length_nil, Nat.zero_add, ← hC, ← hfs]
    rw [if_pos hlow, ← hlow, restore_checkpoint]
    cases hg : s.modifyFrame g with
    | error failure => exact restore_checkpoint s
    | ok s' =>
      have hdepth : s'.checkpoint = s.checkpoint := checkpoint_eq_of_depths (depths_modifyFrame hg)
      rw [← hdepth]
      exact restore_checkpoint s'
  | cons f own =>
    have hlow : s.checkpoint ≠ low := by
      intro h
      have hframes : own.length + 1 + fs.length = low.frames :=
        congrArg Checkpoint.frames (hcheckpoint.symm.trans h)
      omega
    have hmodify : s.modifyFrame g = .ok ⟨{ c with frames := (g f :: own) ++ fs } :: C⟩ := by
      rw [modifyFrame, hs]
      rfl
    rw [if_neg hlow, hmodify, restore_of_frames hs hC hfs]
    exact restore_of_frames rfl hC hfs

/-- A name is rebound up to the depth `low` if nothing on top binds it. -/
theorem restore_assign (name : Name) (v : Value) :
    (s.attempt (s.assign name v)).restore low =
      if Context.Unbound own name then (s.restore low).attempt ((s.restore low).assign name v)
      else s.restore low := by
  have hrestore := restore_of_frames hs hC hfs
  split
  · rename_i hown
    simp only [hrestore, assign, hs, Context.assign?_append_of_unbound hown]
    cases hfs' : Context.assign? name v fs with
    | none => exact hrestore
    | some fs' => exact restore_of_frames rfl hC (hfs.trans (Context.length_assign? hfs').symm)
  · rename_i hown
    obtain ⟨own', -, -, happend⟩ := Context.assign?_append_of_not_unbound v fs hown
    have hassign : s.assign name v = .ok ⟨{ c with frames := own' ++ fs } :: C⟩ := by
      simp only [assign, hs, happend]
    rw [hassign, hrestore]
    exact restore_of_frames rfl hC hfs

theorem restore_edit_of_frames (h : low.Le (s.edit e).checkpoint) :
    (s.edit e).restore low = if e.Reaches low s then (s.restore low).edit e else s.restore low := by
  have hrestore := restore_of_frames hs hC hfs
  cases e with
  | pushContext d =>
    have hreaches : ¬ Edit.Reaches low s (.pushContext d) := id
    have hs' : (s.edit (.pushContext d)).contexts = [d] ++ s.contexts := rfl
    rw [if_neg hreaches]
    exact restore_append hs' (by rw [hs, hC]; rfl)
  | popContext =>
    -- That would be less deep.
    have hpop : s.edit .popContext = ⟨C⟩ := by
      simp only [edit, Edit.apply, popContext, hs]
      rfl
    rw [hpop] at h
    rcases h with h | h <;> simp only [checkpoint, hC] at h <;> omega
  | pushFrame =>
    have hreaches : ¬ Edit.Reaches low s .pushFrame := id
    have hs' : (s.edit .pushFrame).contexts = { c with frames := ({} :: own) ++ fs } :: C := by
      simp only [edit, Edit.apply, pushFrame, hs]
      rfl
    rw [if_neg hreaches, hrestore]
    exact restore_of_frames hs' hC hfs
  | popFrame =>
    have hreaches : ¬ Edit.Reaches low s .popFrame := id
    rw [if_neg hreaches]
    cases own with
    | cons f own =>
      have hs' : (s.edit .popFrame).contexts = { c with frames := own ++ fs } :: C := by
        simp only [edit, Edit.apply, popFrame, hs]
        rfl
      rw [hrestore]
      exact restore_of_frames hs' hC hfs
    | nil =>
      cases fs with
      | nil =>
        have hs' : s.edit .popFrame = s := by
          simp only [edit, Edit.apply, popFrame, hs]
          rfl
        rw [hs']
      | cons f fs =>
        -- That would be less deep, too.
        have hpop : s.edit .popFrame = ⟨{ c with frames := fs } :: C⟩ := by
          simp only [edit, Edit.apply, popFrame, hs]
          rfl
        rw [hpop] at h
        rcases h with h | h <;> simp only [checkpoint_of_frames rfl, hC, hfs, List.length_cons] at h <;> omega
  | define name v => exact restore_modifyFrame hs hC hfs _
  | assign name v =>
    have hreaches : Edit.Reaches low s (.assign name v) ↔ Context.Unbound own name := by
      rw [Edit.Reaches, since_of_frames hs hfs, depth, hs, hC]
      exact and_iff_right rfl
    simp only [hreaches]
    exact restore_assign hs hC hfs name v
  | park lambda => exact restore_modifyFrame hs hC hfs _

end

/-- The scopes up to the depth `low` are changed by an edit that reaches them. -/
theorem restore_edit (h : low.Le s.checkpoint) (h' : low.Le (s.edit e).checkpoint) :
    (s.edit e).restore low = if e.Reaches low s then (s.restore low).edit e else s.restore low := by
  obtain ⟨c, upper, C, hs, hC⟩ | ⟨c, own, fs, C, hs, hC, hfs⟩ | ⟨hs, rfl⟩ := cases_of_le h
  · -- There is a context on top.
    have hdepth : s.depth ≠ low.contexts := by
      rw [depth, hs, List.length_cons, List.length_append, hC]
      omega
    have hreaches : ¬ e.Reaches low s := by
      cases e with
      | define | park => exact fun heq => hdepth (congrArg Checkpoint.contexts heq)
      | assign => exact fun heq => hdepth heq.1
      | _ => exact id
    obtain ⟨upper', hs'⟩ := exists_contexts_edit hs e
    rw [← List.append_assoc] at hs'
    rw [if_neg hreaches, restore_append hs' hC, restore_append (show s.contexts = (c :: upper) ++ C from hs) hC]
  · exact restore_edit_of_frames hs hC hfs h'
  · -- Without contexts nothing is restored, and nothing can be bound.
    have hnone : ∀ s : Scopes, s.restore ⟨0, 0⟩ = ⟨[]⟩ := fun s => by simp [restore, fitLast]
    rw [hnone, hnone]
    split
    · cases e with
      | define | assign | park => rfl
      | _ => contradiction
    · rfl

end

/-! ## Sequences of edits -/

variable {low : Checkpoint}

theorem lowest_le (s : Scopes) (es : List Edit) : (s.lowest es).Le s.checkpoint := by
  cases es with
  | nil => exact .refl _
  | cons e es =>
    unfold lowest
    split
    · assumption
    · exact .refl _

theorem lowest_cons_le (s : Scopes) (e : Edit) (es : List Edit) :
    (s.lowest (e :: es)).Le ((s.edit e).lowest es) := by
  rw [lowest]
  split
  · exact .refl _
  · rename_i h
    exact .of_not h

/-- The scopes up to a depth that is never left are changed by those edits only that reach them. -/
theorem restore_edits_of_le {s : Scopes} {es : List Edit} (h : low.Le (s.lowest es)) :
    (s.edits es).restore low = (s.restore low).edits (s.reaching low es) := by
  induction es generalizing s with
  | nil => rfl
  | cons e es ih =>
    have hrest := h.trans (s.lowest_cons_le e es)
    have hstep := restore_edit (h.trans (s.lowest_le (e :: es))) (hrest.trans ((s.edit e).lowest_le es))
    calc
      ((s.edit e).edits es).restore low = ((s.edit e).restore low).edits ((s.edit e).reaching low es) := ih hrest
      _ = (s.restore low).edits (s.reaching low (e :: es)) := by
        rw [hstep, reaching]
        split <;> rfl

/-- A checkpoint is restored up to the least depth that the scopes had since. However the scopes are edited,
after the checkpoint is restored they are as deep as it says, and up to the least depth they are those of the
checkpoint, with the bindings only that got to them. So if no scope of the checkpoint was popped, all that was
pushed is gone, and if nothing is left on top of the least depth, all that was popped is replaced by empty
scopes. -/
theorem restore_edits (s : Scopes) (es : List Edit) :
    let restored := (s.edits es).restore s.checkpoint
    let low := s.lowest es
    let kept := (s.restore low).edits (s.reaching low es)
    restored.checkpoint = s.checkpoint ∧ restored.restore low = kept ∧
      (low = s.checkpoint → restored = s.edits (s.reaching s.checkpoint es)) ∧
      ((s.edits es).checkpoint = low → restored = kept.restore s.checkpoint) := by
  intro restored low kept
  have hkept : (s.edits es).restore low = kept := restore_edits_of_le (.refl _)
  refine ⟨checkpoint_restore fun h => ?_, ?_, fun hlow => ?_, fun hlow => ?_⟩
  · obtain ⟨contexts⟩ := s
    cases contexts with
    | nil => rfl
    | cons => cases h
  · exact (restore_restore (s.lowest_le es)).trans hkept
  · have hall := hkept
    dsimp only [kept] at hall
    rwa [hlow, restore_checkpoint] at hall
  · rw [← hkept, ← hlow, restore_checkpoint]

/-- Of the edits of a global and of a local name, only those of the global one are left. -/
theorem restore_edits_pushed :
    let s : Scopes := {}
    let es : List Edit := [.define "x" .nil, .pushFrame, .define "y" .nil, .assign "x" (.bool true),
      .pushContext { label := some "f" }, .define "x" (.bool false)]
    s.lowest es = s.checkpoint ∧
      (s.edits es).restore s.checkpoint = s.edits [.define "x" .nil, .assign "x" (.bool true)] := by
  intro s es
  have hlow : s.lowest es = s.checkpoint := by decide +kernel
  exact ⟨hlow, (restore_edits s es).2.2.1 hlow⟩

/-- A frame that is pushed after the one of the checkpoint was popped is not told from that one. -/
example : ((({} : Scopes).edits [.popFrame, .pushFrame, .define "x" .nil]).restore
    ({} : Scopes).checkpoint).lookup? "x" = some .nil := by decide +kernel

end Scopes

end Mosaic
