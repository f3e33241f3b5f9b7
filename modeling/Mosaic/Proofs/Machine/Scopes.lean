import Mosaic.Proofs.Maps

/-!
# What scopes contain

`Scopes.All V L` says that every bound value satisfies `V` and every lambda that is set aside satisfies
`L`. There is a lemma for each operation on scopes, which also says how many frames the contexts have
afterwards. Operations on the innermost frame fail only if there is none.
-/

namespace Mosaic

open Mosaic.Graph (NodeId)

/-! ## Frames -/

/-- Every value of the frame satisfies `V`, and every lambda set aside satisfies `L`. -/
structure Frame.All (V : Value → Prop) (L : NodeId → Prop) (f : Frame) : Prop where
  values : ∀ name v, f.lookup? name = some v → V v
  parked : ∀ id ∈ f.parked, L id

namespace Frame.All

variable {V W : Value → Prop} {L M : NodeId → Prop} {f : Frame}

theorem empty : Frame.All V L {} := ⟨fun _ _ h => by simp at h, fun _ h => by simp at h⟩

theorem imp (h : f.All V L) (hV : ∀ v, V v → W v) (hL : ∀ id, L id → M id) : f.All W M :=
  ⟨fun name v hv => hV v (h.values name v hv), fun id hid => hL id (h.parked id hid)⟩

theorem define (h : f.All V L) {name : Name} {v : Value} (hv : V v) : (f.define name v).All V L := by
  refine ⟨fun n w hw => ?_, h.parked⟩
  rw [lookup?_define] at hw
  split at hw
  · cases hw; exact hv
  · exact h.values n w hw

end Frame.All

theorem Frame.all_iff {V : Value → Prop} {L : NodeId → Prop} {f : Frame}
    (hV : ∀ v, V v ↔ ∀ id, v.node? = some id → L id) : f.All V L ↔ ∀ id ∈ f.nodes, L id := by
  simp only [Frame.mem_nodes]
  constructor
  · rintro h id (⟨name, v, hv, hid⟩ | hid)
    · exact (hV v).1 (h.values name v hv) id hid
    · exact h.parked id hid
  · intro h
    exact ⟨fun name v hv => (hV v).2 fun id hid => h id (.inl ⟨name, v, hv, hid⟩),
      fun id hid => h id (.inr hid)⟩

/-- A name is rebound in the innermost frame that binds it, and the other frames stay. -/
theorem Context.exists_of_assign? {name : Name} {v : Value} {fs fs' : List Frame}
    (h : Context.assign? name v fs = some fs') :
    ∃ inner f outer, fs = inner ++ f :: outer ∧ (∀ g ∈ inner, g.lookup? name = none) ∧
      f.lookup? name ≠ none ∧ fs' = inner ++ f.define name v :: outer := by
  induction fs generalizing fs' with
  | nil => cases h
  | cons f fs ih =>
    unfold Context.assign? at h
    split at h
    · rename_i hf
      rw [Std.ExtTreeMap.contains_eq_isSome_getElem?] at hf
      cases h
      exact ⟨[], f, fs, rfl, by simp, Option.isSome_iff_ne_none.1 hf, rfl⟩
    · rename_i hf
      rw [Std.ExtTreeMap.contains_eq_isSome_getElem?] at hf
      obtain ⟨gs, hgs, rfl⟩ := Option.map_eq_some_iff.1 h
      obtain ⟨inner, f', outer, rfl, hinner, hf', rfl⟩ := ih hgs
      exact ⟨f :: inner, f', outer, rfl, List.forall_mem_cons.2 ⟨Option.not_isSome_iff_eq_none.1 hf, hinner⟩,
        hf', rfl⟩

/-! ## Scopes -/

namespace Scopes

variable {V W : Value → Prop} {L M : NodeId → Prop} {s s' : Scopes}

def All (V : Value → Prop) (L : NodeId → Prop) (s : Scopes) : Prop :=
  ∀ c ∈ s.contexts, ∀ f ∈ c.frames, f.All V L

/-- How many frames each context has. -/
def depths (s : Scopes) : List Nat := s.contexts.map fun c => c.frames.length

theorem checkpoint_eq (s : Scopes) : s.checkpoint = ⟨s.depths.length, s.depths.head?.getD 0⟩ := by
  cases hs : s.contexts <;> simp [checkpoint, depths, hs]

theorem checkpoint_eq_of_depths (h : s'.depths = s.depths) : s'.checkpoint = s.checkpoint := by
  rw [checkpoint_eq, checkpoint_eq, h]

theorem All.imp (h : s.All V L) (hV : ∀ v, V v → W v) (hL : ∀ id, L id → M id) : s.All W M :=
  fun c hc f hf => (h c hc f hf).imp hV hL

theorem all_iff (hV : ∀ v, V v ↔ ∀ id, v.node? = some id → L id) :
    s.All V L ↔ ∀ id ∈ s.nodes, L id := by
  simp only [All, Frame.all_iff hV, nodes, Context.nodes, List.mem_flatMap]
  exact ⟨fun h id ⟨c, hc, f, hf, hid⟩ => h c hc f hf id hid,
    fun h c hc f hf id hid => h id ⟨c, hc, f, hf, hid⟩⟩

theorem All.cons {c : Context} {cs : List Context} :
    All V L ⟨c :: cs⟩ ↔ (∀ f ∈ c.frames, f.All V L) ∧ All V L ⟨cs⟩ := by
  simp [All]

theorem All.lookup? (h : s.All V L) {name : Name} {v : Value} (hv : s.lookup? name = some v) :
    V v := by
  obtain ⟨c, hc, hv⟩ := Option.bind_eq_some_iff.1 hv
  obtain ⟨f, hf, hv⟩ := List.exists_of_findSome?_eq_some hv
  exact (h c (List.mem_of_mem_head? hc) f hf).values name v hv

theorem All.pushContext (h : s.All V L) {c : Context} (hc : ∀ f ∈ c.frames, f.All V L) :
    (s.pushContext c).All V L :=
  All.cons.2 ⟨hc, h⟩

theorem popContext_ok {c : Context} (h : s.popContext = .ok (c, s')) :
    s.contexts = c :: s'.contexts := by
  unfold popContext at h
  split at h
  · cases h
  · rename_i hs; cases h; exact hs

theorem All.popContext (h : s.All V L) {c : Context} (hs : s.popContext = .ok (c, s')) : s'.All V L :=
  fun c' hc' => h c' (by simp [popContext_ok hs, hc'])

theorem pushFrame_ok (h : s.pushFrame = .ok s') :
    ∃ c cs, s.contexts = c :: cs ∧ s'.contexts = { c with frames := {} :: c.frames } :: cs := by
  unfold pushFrame at h
  split at h
  · cases h
  · rename_i c cs hs; cases h; exact ⟨c, cs, hs, rfl⟩

theorem All.pushFrame (h : s.All V L) (hs : s.pushFrame = .ok s') : s'.All V L := by
  obtain ⟨c, cs, hc, hc'⟩ := pushFrame_ok hs
  intro c₁ hc₁ f hf
  rw [hc'] at hc₁
  rcases List.mem_cons.1 hc₁ with rfl | hc₁
  · rcases List.mem_cons.1 hf with rfl | hf
    · exact .empty
    · exact h c (by simp [hc]) f hf
  · exact h c₁ (by simp [hc, hc₁]) f hf

theorem popFrame_ok {f : Frame} (h : s.popFrame = .ok (f, s')) :
    ∃ c cs fs, s.contexts = c :: cs ∧ c.frames = f :: fs ∧
      s'.contexts = { c with frames := fs } :: cs := by
  unfold popFrame at h
  split at h
  · cases h
  · rename_i c cs hs
    split at h
    · cases h
    · rename_i f fs hf; cases h; exact ⟨c, cs, fs, hs, hf, rfl⟩

theorem All.popFrame (h : s.All V L) {f : Frame} (hs : s.popFrame = .ok (f, s')) : s'.All V L := by
  obtain ⟨c, cs, fs, hc, hf, hc'⟩ := popFrame_ok hs
  intro c₁ hc₁ f₁ hf₁
  rw [hc'] at hc₁
  rcases List.mem_cons.1 hc₁ with rfl | hc₁
  · exact h c (by simp [hc]) f₁ (by rw [hf]; exact List.mem_cons_of_mem _ hf₁)
  · exact h c₁ (by simp [hc, hc₁]) f₁ hf₁

theorem modifyFrame_ok {g : Frame → Frame} (h : s.modifyFrame g = .ok s') :
    ∃ c cs f fs, s.contexts = c :: cs ∧ c.frames = f :: fs ∧
      s'.contexts = { c with frames := g f :: fs } :: cs := by
  unfold modifyFrame at h
  split at h
  · cases h
  · rename_i c cs hs
    split at h
    · cases h
    · rename_i f fs hf; cases h; exact ⟨c, cs, f, fs, hs, hf, rfl⟩

/-- There is an innermost frame. -/
def Open (s : Scopes) : Prop := ∃ n ns, s.depths = (n + 1) :: ns

theorem Open.exists_frame (h : s.Open) :
    ∃ c cs f fs, s.contexts = c :: cs ∧ c.frames = f :: fs := by
  obtain ⟨n, ns, h⟩ := h
  cases hs : s.contexts with
  | nil => simp [depths, hs] at h
  | cons c cs =>
    cases hf : c.frames with
    | nil => simp [depths, hs, hf] at h
    | cons f fs => exact ⟨c, cs, f, fs, rfl, hf⟩

theorem Open.modifyFrame (h : s.Open) (g : Frame → Frame) : ∃ s', s.modifyFrame g = .ok s' := by
  obtain ⟨c, cs, f, fs, hs, hf⟩ := h.exists_frame
  refine ⟨⟨{ c with frames := g f :: fs } :: cs⟩, ?_⟩
  simp only [Scopes.modifyFrame, hs, hf]

theorem depths_modifyFrame {g : Frame → Frame} (h : s.modifyFrame g = .ok s') :
    s'.depths = s.depths := by
  obtain ⟨c, cs, f, fs, hs, hf, hs'⟩ := modifyFrame_ok h
  simp [depths, hs, hf, hs']

theorem All.modifyFrame (h : s.All V L) {g : Frame → Frame} (hs : s.modifyFrame g = .ok s')
    (hg : ∀ f, f.All V L → (g f).All V L) : s'.All V L := by
  obtain ⟨c, cs, f, fs, hc, hf, hs'⟩ := modifyFrame_ok hs
  intro c' hc' f' hf'
  rw [hs'] at hc'
  rcases List.mem_cons.1 hc' with rfl | hc'
  · rcases List.mem_cons.1 hf' with rfl | hf'
    · exact hg f (h c (by simp [hc]) f (by simp [hf]))
    · exact h c (by simp [hc]) f' (by simp [hf, hf'])
  · exact h c' (by simp [hc, hc']) f' hf'

theorem All.define (h : s.All V L) {name : Name} {v : Value} (hv : V v)
    (hs : s.define name v = .ok s') : s'.All V L :=
  h.modifyFrame hs fun _ hf => hf.define hv

theorem All.park (h : s.All V L) {id : NodeId} (hid : L id) (hs : s.park id = .ok s') :
    s'.All V L := by
  refine h.modifyFrame hs fun f hf => ⟨hf.values, fun i hi => ?_⟩
  rcases List.mem_append.1 hi with hi | hi
  · exact hf.parked i hi
  · rw [List.mem_singleton.1 hi]; exact hid

theorem takeParked_ok {ids : List NodeId} (h : s.takeParked = .ok (ids, s')) :
    ids = s.parked ∧ s.modifyFrame (fun f => { f with parked := [] }) = .ok s' := by
  unfold takeParked at h
  cases hm : s.modifyFrame fun f => { f with parked := [] } with
  | error failure => simp [hm, Except.map] at h
  | ok s'' =>
    simp only [hm, Except.map, Except.ok.injEq, Prod.mk.injEq] at h
    exact ⟨h.1.symm, by rw [h.2]⟩

theorem All.parked (h : s.All V L) : ∀ id ∈ s.parked, L id := by
  intro id hid
  unfold Scopes.parked at hid
  cases hs : s.contexts with
  | nil => simp [hs] at hid
  | cons c cs =>
    cases hf : c.frames with
    | nil => simp [hs, hf] at hid
    | cons f fs => exact (h c (by simp [hs]) f (by simp [hf])).parked id (by simpa [hs, hf] using hid)

theorem All.takeParked (h : s.All V L) {ids : List NodeId} (hs : s.takeParked = .ok (ids, s')) :
    (∀ id ∈ ids, L id) ∧ s'.All V L := by
  obtain ⟨rfl, hm⟩ := takeParked_ok hs
  exact ⟨h.parked, h.modifyFrame hm fun f hf => ⟨hf.values, fun _ hi => by simp at hi⟩⟩

theorem Context.length_assign? {name : Name} {v : Value} {fs fs' : List Frame}
    (h : Context.assign? name v fs = some fs') : fs'.length = fs.length := by
  obtain ⟨inner, f, outer, rfl, -, -, rfl⟩ := Context.exists_of_assign? h
  simp

theorem Context.all_assign? {name : Name} {v : Value} {fs fs' : List Frame} (hv : V v)
    (hall : ∀ f ∈ fs, f.All V L) (h : Context.assign? name v fs = some fs') :
    ∀ f ∈ fs', f.All V L := by
  obtain ⟨inner, f, outer, rfl, -, -, rfl⟩ := Context.exists_of_assign? h
  intro g hg
  rcases List.mem_append.1 hg with hg | hg
  · exact hall g (by simp [hg])
  · rcases List.mem_cons.1 hg with rfl | hg
    · exact (hall f (by simp)).define hv
    · exact hall g (by simp [hg])

theorem assign_ok {name : Name} {v : Value} (h : s.assign name v = .ok s') :
    ∃ c cs fs, s.contexts = c :: cs ∧ Context.assign? name v c.frames = some fs ∧
      s'.contexts = { c with frames := fs } :: cs := by
  unfold assign at h
  split at h
  · cases h
  · rename_i c cs hs
    split at h
    · rename_i fs hf; cases h; exact ⟨c, cs, fs, hs, hf, rfl⟩
    · cases h

theorem depths_assign {name : Name} {v : Value} (h : s.assign name v = .ok s') :
    s'.depths = s.depths := by
  obtain ⟨c, cs, fs, hs, hf, hs'⟩ := assign_ok h
  simp [depths, hs, hs', Context.length_assign? hf]

theorem All.assign (h : s.All V L) {name : Name} {v : Value} (hv : V v)
    (hs : s.assign name v = .ok s') : s'.All V L := by
  obtain ⟨c, cs, fs, hc, hf, hs'⟩ := assign_ok hs
  intro c' hc' f' hf'
  rw [hs'] at hc'
  rcases List.mem_cons.1 hc' with rfl | hc'
  · exact Context.all_assign? hv (h c (by simp [hc])) hf f' hf'
  · exact h c' (by simp [hc, hc']) f' hf'

end Scopes

end Mosaic
