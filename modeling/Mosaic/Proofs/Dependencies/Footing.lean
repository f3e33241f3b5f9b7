import Mosaic.Proofs.Dependencies.Sighted
import Mosaic.Proofs.Scope.Restore

/-!
# Two footings

Code pushes its frames on top of others, which it did not make: its footing. Two footings are alike for the
names in `D` if these resolve to the same values (`Footing.Alike`). Apart from that they may bind what they
like, as long as the nodes in `X` are kept alive anyway: what else they keep alive is then the same, since of
the bindings that are not in `X` each is what a name in `D` resolves to. This stays so when such a name is
rebound, and when a lambda is set aside (`Footing.Alike.assign`, `Footing.Alike.park`).
-/

namespace Mosaic

open Mosaic.Graph (NodeId)

/-! ## What is hidden in frames -/

namespace Context

variable {D D' : Name → Prop} {X : List NodeId} {f : Frame} {fs gs : List Frame} {name n : Name} {v : Value}
  {id : NodeId}

/-- The nodes of the bindings are in `X`, except for those that a name in `D` resolves to. -/
def Hidden (X : List NodeId) : (Name → Prop) → List Frame → Prop
  | _, [] => True
  | D, f :: fs => (∀ n v, f.lookup? n = some v → ¬ D n → ∀ id, v.node? = some id → id ∈ X) ∧
      Hidden X (fun n => D n ∧ f.lookup? n = none) fs

theorem Hidden.imp (h : Hidden X D fs) (hD : ∀ n, D n → D' n) : Hidden X D' fs := by
  induction fs generalizing D D' with
  | nil => trivial
  | cons f fs ih =>
    exact ⟨fun n v hv hn => h.1 n v hv fun hd => hn (hD n hd), ih h.2 fun n hn => ⟨hD n hn.1, hn.2⟩⟩

theorem hidden_of_nodes (h : ∀ f ∈ fs, ∀ id ∈ f.nodes, id ∈ X) : Hidden X D fs := by
  induction fs generalizing D with
  | nil => trivial
  | cons f fs ih =>
    obtain ⟨hf, hfs⟩ := List.forall_mem_cons.1 h
    exact ⟨fun n v hv _ id hid => hf id (Frame.mem_nodes.2 (.inl ⟨n, v, hv, hid⟩)), ih hfs⟩

theorem Hidden.assign (h : Hidden X D fs) (hname : D name) (hgs : assign? name v fs = some gs) :
    Hidden X D gs := by
  induction fs generalizing D gs with
  | nil => cases hgs
  | cons f fs ih =>
    by_cases hf : f.lookup? name = none
    · rw [assign?_cons_of_none hf] at hgs
      obtain ⟨fs', hfs', rfl⟩ := Option.map_eq_some_iff.1 hgs
      exact ⟨h.1, ih h.2 ⟨hname, hf⟩ hfs'⟩
    · rw [assign?_cons_of_ne_none hf] at hgs
      cases hgs
      refine ⟨fun n w hw hn => ?_, h.2.imp fun n hn => ⟨hn.1, ?_⟩⟩
      · have hne : name ≠ n := fun heq => hn (heq ▸ hname)
        rw [Frame.lookup?_define, if_neg hne] at hw
        exact h.1 n w hw hn
      · have hne : name ≠ n := fun heq => hf (heq ▸ hn.2)
        rw [Frame.lookup?_define, if_neg hne, hn.2]

/-- Every node of the bindings is in `X`, or some name in `D` resolves to it. -/
theorem Hidden.mem (h : Hidden X D fs) (hf : f ∈ fs) (hv : f.lookup? n = some v) (hid : v.node? = some id) :
    id ∈ X ∨ ∃ n w, D n ∧ (fs.findSome? fun f => f.lookup? n) = some w ∧ w.node? = some id := by
  induction fs generalizing D with
  | nil => cases hf
  | cons g fs ih =>
    rcases List.mem_cons.1 hf with rfl | hf
    · by_cases hD : D n
      · exact .inr ⟨n, v, hD, by rw [List.findSome?_cons, hv], hid⟩
      · exact .inl (h.1 n v hv hD id hid)
    · rcases ih h.2 hf with hX | ⟨k, w, ⟨hk, hg⟩, hw, hid⟩
      · exact .inl hX
      · exact .inr ⟨k, w, hk, by rw [List.findSome?_cons, hg, hw], hid⟩

theorem findSome?_assign? (h : assign? name v fs = some gs) (n : Name) :
    (gs.findSome? fun f => f.lookup? n) =
      if name = n then some v else fs.findSome? fun f => f.lookup? n := by
  obtain ⟨inner, f, outer, rfl, hinner, hf, rfl⟩ := exists_of_assign? h
  simp only [List.findSome?_append, List.findSome?_cons, Frame.lookup?_define]
  by_cases hn : name = n
  · subst hn
    rw [List.findSome?_eq_none_iff.2 hinner]
    simp
  · simp only [if_neg hn]

theorem flatMap_parked_assign? (h : assign? name v fs = some gs) :
    gs.flatMap Frame.parked = fs.flatMap Frame.parked := by
  obtain ⟨inner, f, outer, rfl, -, -, rfl⟩ := exists_of_assign? h
  simp [Frame.define]

theorem mem_flatMap_nodes : id ∈ fs.flatMap Frame.nodes ↔
    (∃ f ∈ fs, ∃ (n : Name) (v : Value), f.lookup? n = some v ∧ v.node? = some id) ∨
      id ∈ fs.flatMap Frame.parked := by
  simp only [List.mem_flatMap, Frame.mem_nodes]
  grind

end Context

/-! ## Footings -/

/-- What the frames of code stand on: the other frames of their context, with its label, and the contexts
below. -/
structure Footing where
  frames : List Frame
  label : Option Name
  contexts : List Context

namespace Footing

variable {D : Name → Prop} {X : List NodeId} {B B' : Footing} {own : List Frame} {name n : Name} {v : Value}
  {id : NodeId}

/-- The scopes with the frames on top. -/
def bear (B : Footing) (own : List Frame) : Scopes :=
  ⟨{ frames := own ++ B.frames, label := B.label } :: B.contexts⟩

/-- What a name resolves to. -/
def lookup? (B : Footing) (n : Name) : Option Value := B.frames.findSome? fun f => f.lookup? n

theorem lookup?_bear (B : Footing) (own : List Frame) (n : Name) :
    (B.bear own).lookup? n = (own.findSome? fun f => f.lookup? n).or (B.lookup? n) := by
  simp only [Scopes.lookup?, bear, List.head?_cons, Option.bind_some, Context.lookup?,
    List.findSome?_append, lookup?]

theorem assign_bear_of_some {fs : List Frame} (h : Context.assign? name v (own ++ B.frames) = some fs) :
    (B.bear own).assign name v = .ok ⟨{ frames := fs, label := B.label } :: B.contexts⟩ := by
  simp only [Scopes.assign, bear, h]

theorem assign_bear_of_none (h : Context.assign? name v (own ++ B.frames) = none) :
    (B.bear own).assign name v = .error { cause := .undefinedVariable name } := by
  simp only [Scopes.assign, bear, h]

theorem mem_nodes_bear : id ∈ (B.bear own).nodes ↔
    id ∈ own.flatMap Frame.nodes ∨ id ∈ B.frames.flatMap Frame.nodes ∨
      id ∈ B.contexts.flatMap Context.nodes := by
  simp only [bear, Scopes.nodes, Context.nodes, List.flatMap_cons, List.flatMap_append, List.mem_append, or_assoc]

/-- There is a frame, and what only this footing binds is in `X`. -/
structure Rests (D : Name → Prop) (X : List NodeId) (B : Footing) : Prop where
  frames : B.frames ≠ []
  hidden : Context.Hidden X D B.frames
  contexts : ∀ id ∈ B.contexts.flatMap Context.nodes, id ∈ X

/-- The names in `D` resolve to the same values, and what else the footings keep alive is the same but for the
nodes in `X`. -/
structure Alike (D : Name → Prop) (X : List NodeId) (B B' : Footing) : Prop where
  left : B.Rests D X
  right : B'.Rests D X
  depth : B'.contexts.length = B.contexts.length
  lookup? : ∀ n, D n → B'.lookup? n = B.lookup? n
  parked : ∀ id, id ∈ X ∨ id ∈ B'.frames.flatMap Frame.parked ↔ id ∈ X ∨ id ∈ B.frames.flatMap Frame.parked

namespace Alike

theorem symm (h : B.Alike D X B') : B'.Alike D X B :=
  ⟨h.right, h.left, h.depth.symm, fun n hn => (h.lookup? n hn).symm, fun id => (h.parked id).symm⟩

theorem mem_of_mem_nodes (h : B.Alike D X B') (hid : id ∈ (B.bear own).nodes) :
    id ∈ X ∨ id ∈ (B'.bear own).nodes := by
  rcases mem_nodes_bear.1 hid with hown | hframes | hcontexts
  · exact .inr (mem_nodes_bear.2 (.inl hown))
  · rcases Context.mem_flatMap_nodes.1 hframes with ⟨f, hf, n, v, hv, hnode⟩ | hparked
    · rcases h.left.hidden.mem hf hv hnode with hX | ⟨k, w, hk, hw, hnode⟩
      · exact .inl hX
      · -- The name resolves to the same value on the other footing.
        obtain ⟨g, hg, hgw⟩ := List.exists_of_findSome?_eq_some ((h.lookup? k hk).trans hw)
        exact .inr (mem_nodes_bear.2 (.inr (.inl (Context.mem_flatMap_nodes.2 (.inl ⟨g, hg, k, w, hgw, hnode⟩)))))
    · refine ((h.parked id).2 (.inr hparked)).imp_right fun hparked => ?_
      exact mem_nodes_bear.2 (.inr (.inl (Context.mem_flatMap_nodes.2 (.inr hparked))))
  · exact .inl (h.left.contexts id hcontexts)

/-- What the scopes keep alive is the same but for the nodes in `X`. -/
theorem mem_nodes (h : B.Alike D X B') (own : List Frame) (id : NodeId) :
    id ∈ X ∨ id ∈ (B'.bear own).nodes ↔ id ∈ X ∨ id ∈ (B.bear own).nodes :=
  ⟨fun hid => hid.elim .inl h.symm.mem_of_mem_nodes, fun hid => hid.elim .inl h.mem_of_mem_nodes⟩

theorem rests_assign (h : B.Rests D X) (hname : D name) {fs : List Frame}
    (hfs : Context.assign? name v B.frames = some fs) : Rests D X { B with frames := fs } where
  frames hnil := by
    obtain ⟨inner, f, outer, -, -, -, rfl⟩ := Context.exists_of_assign? hfs
    simp at hnil
  hidden := h.hidden.assign hname hfs
  contexts := h.contexts

theorem assign (h : B.Alike D X B') (hname : D name) (v : Value) :
    (Context.assign? name v B.frames = none ∧ Context.assign? name v B'.frames = none) ∨
      ∃ fs fs', Context.assign? name v B.frames = some fs ∧ Context.assign? name v B'.frames = some fs' ∧
        Alike D X { B with frames := fs } { B' with frames := fs' } := by
  have hlookup : (B'.frames.findSome? fun f => f.lookup? name) = B.frames.findSome? fun f => f.lookup? name :=
    h.lookup? name hname
  cases hfs : Context.assign? name v B.frames with
  | none =>
    have hnone := List.findSome?_eq_none_iff.2 (Context.assign?_eq_none_iff.1 hfs)
    rw [hnone] at hlookup
    exact .inl ⟨rfl, Context.assign?_eq_none_iff.2 (List.findSome?_eq_none_iff.1 hlookup)⟩
  | some fs =>
    cases hfs' : Context.assign? name v B'.frames with
    | none =>
      have hnone := List.findSome?_eq_none_iff.2 (Context.assign?_eq_none_iff.1 hfs')
      rw [hnone] at hlookup
      rw [Context.assign?_eq_none_iff.2 (List.findSome?_eq_none_iff.1 hlookup.symm)] at hfs
      cases hfs
    | some fs' =>
      refine .inr ⟨fs, fs', rfl, rfl, rests_assign h.left hname hfs, rests_assign h.right hname hfs', h.depth,
        fun n hn => ?_, fun id => ?_⟩
      · rw [Footing.lookup?, Footing.lookup?, Context.findSome?_assign? hfs, Context.findSome?_assign? hfs']
        exact ite_congr rfl (fun _ => rfl) fun _ => h.lookup? n hn
      · rw [Context.flatMap_parked_assign? hfs, Context.flatMap_parked_assign? hfs']
        exact h.parked id

theorem park (h : B.Alike D X B') (id : NodeId) : ∃ f fs f' fs', B.frames = f :: fs ∧ B'.frames = f' :: fs' ∧
    Alike D X { B with frames := { f with parked := f.parked ++ [id] } :: fs }
      { B' with frames := { f' with parked := f'.parked ++ [id] } :: fs' } := by
  obtain ⟨⟨hne, hhidden, hcontexts⟩, ⟨hne', hhidden', hcontexts'⟩, depth, hlookup, parked⟩ := h
  obtain ⟨frames, label, C⟩ := B
  obtain ⟨frames', label', C'⟩ := B'
  obtain ⟨f, fs, rfl⟩ := List.exists_cons_of_ne_nil hne
  obtain ⟨f', fs', rfl⟩ := List.exists_cons_of_ne_nil hne'
  refine ⟨f, fs, f', fs', rfl, rfl, ⟨by simp, hhidden, hcontexts⟩, ⟨by simp, hhidden', hcontexts'⟩, depth,
    hlookup, fun i => ?_⟩
  have hparked := parked i
  simp only [List.flatMap_cons, List.mem_append, List.mem_singleton] at hparked ⊢
  grind

end Alike

end Footing

end Mosaic
