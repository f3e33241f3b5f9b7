import Mosaic.Proofs.Store.Confined

/-!
# Copies stay inside a region

While a node is copied, its copy is a blank object under construction. The nodes that are copied are
older than the copies, so none of them is under construction, and every copy ends with the body of a
node that was copied.
-/

namespace Mosaic

open Mosaic.Graph (NodeId Node Kind Pool)

/-- The store while copies of nodes below `b` are made. -/
structure Copying (P : Program → Prop) (A : NodeId → Prop) (b : Nat) (U : NodeId → Prop) (s : Store) :
    Prop extends Confined P A U s where
  le : b ≤ s.pool.next
  young : ∀ i, U i → b ≤ i
  old : ∀ (id : NodeId) e, A id → id < b → s.pool.entries[id]? = some e →
    Within A b (Node.pointers e.node)

namespace Copying

variable {P : Program → Prop} {A U V : NodeId → Prop} {b : Nat} {s s' : Store} {id : NodeId}

theorem of_confined (h : Closed P A s) :
    Copying P A s.pool.next (fun _ => False) s :=
  { h with le := Nat.le_refl _, young := fun _ hi => hi.elim, old := fun id e hid _ => h.pointers id e hid }

theorem allocate (h : Copying P A b U s) {pins : Pins} {o : Object} {l : Nat}
    (ha : s.allocate pins o = .ok (l, s')) (hp : o.pointers = []) :
    Copying P A b (fun i => U i ∨ i = l) s' ∧ l = s.pool.next ∧ s'.pool.next = s.pool.next + 1 := by
  obtain ⟨hs', hl, hn⟩ := h.toConfined.allocate (V := fun i => U i ∨ i = l) ha (by simp [hp])
    (fun hv => absurd (.inr rfl) hv) fun _ _ hu => .inl hu
  refine ⟨{ hs' with le := ?_, young := ?_, old := ?_ }, hl, hn⟩
  · rw [hn]; exact Nat.le_succ_of_le h.le
  · rintro i (hu | rfl)
    · exact h.young i hu
    · rw [hl]; exact h.le
  · intro id e hid hlt he
    obtain ⟨g, hc, rfl, rfl⟩ := Graph.Heap.allocate_eq_ok ha
    obtain ⟨hn', -, -, hsub⟩ := Graph.Heap.collectIfDue_sub hc
    have hne : ¬ compare g.pool.next id = .eq := fun heq => by
      rw [← Std.LawfulEqCmp.eq_of_compare heq, hn'] at hlt
      exact Nat.lt_irrefl _ (Nat.lt_of_lt_of_le hlt h.le)
    simp only [Pool.allocate, Std.ExtTreeMap.getElem?_insert, if_neg hne] at he
    exact h.old id e hid hlt (hsub id e he)

theorem finish (h : Copying P A b (fun i => U i ∨ i = id) s) {e : Graph.Entry Object}
    (hb : b ≤ id) (hlt : id < s.pool.next) (hp : Within A s.pool.next (Node.pointers e.node))
    (hl : ∀ l, e.node = .lambda l → P l.body) (hU : ∀ i, U i → b ≤ i) :
    Copying P A b U
      { s with pool := { s.pool with entries := s.pool.entries.insert id e } } := by
  refine { h.toConfined.insert hlt hp (fun _ => hl) fun i hne hi => hi.resolve_right hne with
    le := h.le, young := hU, old := ?_ }
  intro i e' hi hib he'
  have hne : ¬ compare id i = .eq := fun heq => by
    rw [← Std.LawfulEqCmp.eq_of_compare heq] at hib
    exact Nat.lt_irrefl _ (Nat.lt_of_lt_of_le hib hb)
  simp only [Std.ExtTreeMap.getElem?_insert, if_neg hne] at he'
  exact h.old i e' hi hib he'

end Copying

/-- The copies that were made lie in the region. -/
def CopiesWithin (A : NodeId → Prop) (n : Nat) (copies : Copies) : Prop :=
  ∀ i j : NodeId, copies[i]? = some j → A j ∧ j < n

namespace CopiesWithin

variable {A : NodeId → Prop} {n n' : Nat} {c : Copies}

theorem empty : CopiesWithin A n {} := fun i j h => by simp at h

theorem mono (h : CopiesWithin A n c) (hn : n ≤ n') : CopiesWithin A n' c :=
  fun i j hj => ⟨(h i j hj).1, Nat.lt_of_lt_of_le (h i j hj).2 hn⟩

theorem insert (h : CopiesWithin A n c) {i j : NodeId} (hj : A j ∧ j < n) :
    CopiesWithin A n (c.insert i j) := by
  intro i' j' h'
  rcases getElem?_insert_cases h' with ⟨_, rfl⟩ | ⟨_, h'⟩
  · exact hj
  · exact h i' j' h'

end CopiesWithin

/-- An action that copies keeps the property `J` of the store and the copies in the region. -/
def CopyM.Keeps {α : Type} (J : Store → Prop) (A : NodeId → Prop) (n : Nat) (x : CopyM α)
    (Q : Nat → α → Prop) : Prop :=
  ∀ c, CopiesWithin A n c →
    StoreM.Keeps J n (x.run c) fun n' r => CopiesWithin A n' r.2 ∧ Q n' r.1

namespace CopyM.Keeps

variable {J : Store → Prop} {A : NodeId → Prop} {n : Nat} {α β : Type} {x : CopyM α}
  {Q R : Nat → α → Prop}

theorem ret {a : α} (h : ∀ n' ≥ n, Q n' a) : Keeps J A n (pure a) Q :=
  fun _ hc => StoreM.Keeps.ret fun n' hn => ⟨hc.mono hn, h n' hn⟩

theorem bind {f : α → CopyM β} {R : Nat → β → Prop} (hx : Keeps J A n x Q)
    (hf : ∀ n' ≥ n, ∀ a, Q n' a → Keeps J A n' (f a) R) : Keeps J A n (x >>= f) R := by
  intro c hc
  rw [StateT.run_bind]
  exact StoreM.Keeps.bind (hx c hc) fun n' hn r hr => hf n' hn r.1 hr.2 r.2 hr.1

theorem imp (hx : Keeps J A n x Q) (h : ∀ n' ≥ n, ∀ a, Q n' a → R n' a) : Keeps J A n x R :=
  fun c hc => (hx c hc).imp fun n' hn _ hr => ⟨hr.1, h n' hn _ hr.2⟩

theorem mapM {f : β → CopyM α} {l : List β} (hR : ∀ n n' b, n ≤ n' → R n b → R n' b)
    (hf : ∀ y ∈ l, ∀ n' ≥ n, Keeps J A n' (f y) R) :
    Keeps J A n (l.mapM f) fun n' as => ∀ a ∈ as, R n' a := by
  induction l generalizing n with
  | nil =>
    rw [List.mapM_nil]
    exact ret fun _ _ => by simp
  | cons y l ih =>
    rw [List.mapM_cons]
    refine bind (hf y (by simp) n (Nat.le_refl _)) fun n₁ h₁ a ha => ?_
    refine bind (ih fun y' hy' n' hn' => hf y' (by simp [hy']) n' (Nat.le_trans h₁ hn'))
      fun n₂ h₂ as has => ret fun n₃ h₃ => ?_
    rintro a' (_ | ⟨_, ha'⟩)
    · exact hR _ _ _ (Nat.le_trans h₂ h₃) ha
    · exact hR _ _ _ h₃ (has a' ha')

/-! ## Renaming -/

section Rename

variable {f : ObjectType → NodeId → CopyM NodeId}

/-- The action returns addresses of the region for the given addresses. -/
def Renames (J : Store → Prop) (A : NodeId → Prop) (n : Nat)
    (f : ObjectType → NodeId → CopyM NodeId) (ids : List NodeId) : Prop :=
  ∀ t, ∀ id ∈ ids, ∀ n' ≥ n, Keeps J A n' (f t id) fun n' j => A j ∧ j < n'

theorem Renames.of_subset {ids ids' : List NodeId} {n' : Nat} (h : Renames J A n f ids)
    (hs : ids' ⊆ ids) (hn : n ≤ n') : Renames J A n' f ids' :=
  fun t id hid _ hn' => h t id (hs hid) _ (Nat.le_trans hn hn')

theorem renameIds {t : ObjectType} {ids : List NodeId} (h : Renames J A n f ids) :
    Keeps J A n (ids.mapM (f t)) fun n' ids' => Within A n' ids' :=
  mapM (fun _ _ _ hn hj => ⟨hj.1, Nat.lt_of_lt_of_le hj.2 hn⟩) fun id hid => h t id hid

theorem renameOption {t : ObjectType} {id? : Option NodeId} (h : Renames J A n f id?.toList) :
    Keeps J A n (id?.mapM (f t)) fun n' id?' => Within A n' id?'.toList := by
  cases id? with
  | none => exact ret fun _ _ => by simp
  | some id =>
    refine bind (h t id (by simp) n (Nat.le_refl _)) fun n₁ _ j hj => ret fun n₂ h₂ => ?_
    simpa using ⟨hj.1, Nat.lt_of_lt_of_le hj.2 h₂⟩

theorem renameDatum {d : Datum} (h : Renames J A n f d.node?.toList) :
    Keeps J A n (d.renameNodes f) fun n' d' => Within A n' d'.node?.toList := by
  cases d with
  | object t id =>
    refine bind (h t id (by simp [Datum.node?]) n (Nat.le_refl _)) fun n₁ _ j hj =>
      ret fun n₂ h₂ => ?_
    simpa [Datum.node?] using ⟨hj.1, Nat.lt_of_lt_of_le hj.2 h₂⟩
  | _ => exact ret fun _ _ => by simp [Datum.node?]

theorem renameData {ds : List Datum} (h : Renames J A n f (ds.filterMap Datum.node?)) :
    Keeps J A n (ds.mapM (Datum.renameNodes f)) fun n' ds' =>
      Within A n' (ds'.filterMap Datum.node?) := by
  have hR : ∀ n n' (d : Datum), n ≤ n' → Within A n d.node?.toList → Within A n' d.node?.toList :=
    fun _ _ _ hn hd => hd.mono hn
  refine imp (mapM hR
    fun d hd n' hn => renameDatum (h.of_subset (fun id hid => ?_) hn)) fun n' _ ds' hds => ?_
  · exact List.mem_filterMap.2 ⟨d, hd, by simpa using hid⟩
  · intro id hid
    obtain ⟨d, hd, hid⟩ := List.mem_filterMap.1 hid
    exact hds d hd id (by simpa using hid)

theorem renameFields {fs : Fields} (h : Renames J A n f fs.pointers) :
    Keeps J A n (fs.renameNodes f) fun n' fs' => Within A n' fs'.pointers := by
  have hR : ∀ n n' (p : Name × Datum), n ≤ n' → Within A n p.2.node?.toList →
      Within A n' p.2.node?.toList := fun _ _ _ hn hp => hp.mono hn
  refine bind (mapM hR
    fun p hp n' hn => bind (renameDatum (d := p.2) (h.of_subset (fun id hid => ?_) hn))
      fun n₁ _ d hd => ret fun n₂ h₂ => hd.mono h₂) fun n₁ _ ps hps => ret fun n₂ h₂ => ?_
  · have hp := Std.ExtTreeMap.mem_toList_iff_getElem?_eq_some.1 hp
    exact Fields.mem_pointers.2 ⟨p.1, p.2, hp, by simpa using hid⟩
  · refine Within.fields.2 fun name d hd => ?_
    exact (hps (name, d) (mem_of_getElem?_ofList hd)).mono h₂

theorem renameNodes {o : Object} (h : Renames J A n f o.pointers) :
    Keeps J A n (o.renameNodes f) fun n' o' => o'.type = o.type ∧ Within A n' o'.pointers ∧
      ∀ l', o' = .lambda l' → ∃ l, o = .lambda l ∧ l'.body = l.body := by
  have hle := Nat.le_refl n
  cases o with
  | tile t =>
    refine bind (renameIds (h.of_subset ?_ hle)) fun n₁ h₁ vertices hv => ?_
    · intro id hid; simp [Object.pointers, hid]
    refine bind (renameIds (h.of_subset ?_ h₁)) fun n₂ h₂ edges he => ?_
    · intro id hid; simp [Object.pointers, hid]
    refine bind (renameOption (h.of_subset ?_ (Nat.le_trans h₁ h₂))) fun n₃ h₃ parent hp => ?_
    · intro id hid; simp [Object.pointers, Option.mem_toList.1 hid]
    have h₁₃ := Nat.le_trans h₁ (Nat.le_trans h₂ h₃)
    refine bind (renameFields (h.of_subset ?_ h₁₃)) fun n₄ h₄ fields hf => ret fun n₅ h₅ => ?_
    · intro id hid; simp [Object.pointers, hid]
    refine ⟨rfl, ?_, by rintro _ ⟨⟩⟩
    have h₃₅ := Nat.le_trans h₄ h₅
    have h₂₅ := Nat.le_trans h₃ h₃₅
    simp only [Object.pointers, Within.append]
    exact ⟨⟨⟨hv.mono (Nat.le_trans h₂ h₂₅), he.mono h₂₅⟩, hp.mono h₃₅⟩, hf.mono h₅⟩
  | vertex v =>
    refine bind (renameOption (h.of_subset ?_ hle)) fun n₁ h₁ tile ht => ?_
    · intro id hid; simp [Object.pointers, Option.mem_toList.1 hid]
    refine bind (renameFields (h.of_subset ?_ h₁)) fun n₂ h₂ fields hf => ret fun n₃ h₃ => ?_
    · intro id hid; simp [Object.pointers, hid]
    refine ⟨rfl, ?_, by rintro _ ⟨⟩⟩
    simp only [Object.pointers, Within.append]
    exact ⟨ht.mono (Nat.le_trans h₂ h₃), hf.mono h₃⟩
  | edge e =>
    refine bind (renameOption (h.of_subset ?_ hle)) fun n₁ h₁ tile ht => ?_
    · intro id hid; simp [Object.pointers, Option.mem_toList.1 hid]
    refine bind (renameFields (h.of_subset ?_ h₁)) fun n₂ h₂ fields hf => ret fun n₃ h₃ => ?_
    · intro id hid; simp [Object.pointers, hid]
    refine ⟨rfl, ?_, by rintro _ ⟨⟩⟩
    simp only [Object.pointers, Within.append]
    exact ⟨ht.mono (Nat.le_trans h₂ h₃), hf.mono h₃⟩
  | patch p =>
    refine bind (renameIds (h.of_subset ?_ hle)) fun n₁ h₁ tiles ht => ?_
    · intro id hid; simp [Object.pointers, hid]
    refine bind (renameFields (h.of_subset ?_ h₁)) fun n₂ h₂ fields hf => ret fun n₃ h₃ => ?_
    · intro id hid; simp [Object.pointers, hid]
    refine ⟨rfl, ?_, by rintro _ ⟨⟩⟩
    simp only [Object.pointers, Within.append]
    exact ⟨ht.mono (Nat.le_trans h₂ h₃), hf.mono h₃⟩
  | cluster c =>
    refine bind (renameData (h.of_subset ?_ hle)) fun n₁ h₁ items hi => ?_
    · intro id hid; exact List.mem_append_left _ hid
    refine bind (renameFields (h.of_subset ?_ h₁)) fun n₂ h₂ fields hf => ret fun n₃ h₃ => ?_
    · intro id hid; exact List.mem_append_right _ hid
    refine ⟨rfl, ?_, by rintro _ ⟨⟩⟩
    simp only [Object.pointers, Within.append]
    exact ⟨hi.mono (Nat.le_trans h₂ h₃), hf.mono h₃⟩
  | lambda l =>
    refine bind (renameFields (h.of_subset ?_ hle)) fun n₁ h₁ closure hc => ?_
    · intro id hid; simp [Object.pointers, hid]
    refine bind (renameFields (h.of_subset ?_ h₁)) fun n₂ h₂ fields hf => ret fun n₃ h₃ => ?_
    · intro id hid; simp [Object.pointers, hid]
    refine ⟨rfl, ?_, fun l' hl' => ⟨l, rfl, ?_⟩⟩
    · simp only [Object.pointers, Within.append]
      exact ⟨hc.mono (Nat.le_trans h₂ h₃), hf.mono h₃⟩
    · cases hl'; rfl

end Rename

/-! ## Copying -/

variable {P : Program → Prop} {U : NodeId → Prop} {b : Nat} {t : ObjectType} {id : NodeId}

/-- A node that is copied is not under construction, and points at nodes that can be copied. -/
theorem fetchSource (hid : A id) (hlt : id < b) :
    StoreM.Keeps (Copying P A b U) n (StoreM.fetchObject t id) fun _ o =>
      o.type = t ∧ Within A b o.pointers ∧ ∀ l, o = .lambda l → P l.body := by
  intro pins s hs hn
  rw [StoreM.fetchObject_apply]
  cases hg : s.pool.get (Object.ofType t) id with
  | error fault => rfl
  | ok o =>
    obtain ⟨e, he, hn⟩ := Pool.get_eq_ok_iff.1 hg
    have hu : ¬ U id := fun hu => absurd (hs.young id hu) (Nat.not_le.2 hlt)
    refine ⟨hs, Nat.le_refl _, o.property, ?_, fun l hl => ?_⟩
    · have := hs.old id e hid hlt he
      rwa [hn] at this
    · exact hs.body id e l hid hu he (hn.trans hl)

theorem copyParts {depth : Nat} {c : Copies} (hid : A id) (hlt : id < b) (hc : CopiesWithin A n c)
    (ih : ∀ {n t id}, A id → id < b →
      Keeps (Copying P A b U) A n (CopyM.copyNode depth t id) fun n' j => A j ∧ j < n') :
    StoreM.Keeps (Copying P A b U) n (CopyM.copyParts depth t id c) fun n' r =>
      CopiesWithin A n' r.2 ∧ r.1.type = t ∧ Within A n' r.1.pointers ∧
        ∀ l, r.1 = .lambda l → P l.body := by
  refine StoreM.Keeps.bind (fetchSource hid hlt) fun n₁ h₁ source ⟨htype, hp, hb⟩ => ?_
  have hr : Renames (Copying P A b U) A n₁ (CopyM.copyNode depth) source.pointers :=
    fun t' id' hid' _ _ => ih (hp id' hid').1 (hp id' hid').2
  refine StoreM.Keeps.imp (renameNodes hr c (hc.mono h₁)) fun n₂ _ r ⟨hc', ht', hp', hb'⟩ => ?_
  refine ⟨hc', ht'.trans htype, hp', fun l hl => ?_⟩
  obtain ⟨l', hl', hbody⟩ := hb' l hl
  exact hbody ▸ hb l' hl'

theorem fill {o : Object} {s : Store} {U : NodeId → Prop} (pins : Pins)
    (h : Copying P A b (fun i => U i ∨ i = id) s) (hU : ∀ i, U i → b ≤ i) (hb : b ≤ id)
    (hlt : id < s.pool.next) (ht : o.type = t) (hp : Within A s.pool.next o.pointers)
    (hl : ∀ l, o = .lambda l → P l.body) :
    Outcome (StoreM.update (Object.ofType t) id (CopyM.fill o) pins s)
      (fun failure _ => failure.cause.isStructural = false)
      fun _ s' => Copying P A b U s' ∧ s'.pool.next = s.pool.next := by
  rw [StoreM.update_apply]
  cases hu : s.pool.update (Object.ofType t) id (CopyM.fill o) with
  | error fault => rfl
  | ok p' =>
    obtain ⟨e, a, he, ha, rfl⟩ := Pool.update_eq_ok hu
    have hnode : (Object.ofType t).wrap (CopyM.fill o a) = o := by
      rw [CopyM.fill, dif_pos ht]; rfl
    refine ⟨h.finish hb hlt ?_ (fun l => ?_) hU, rfl⟩
    · rw [Graph.Entry.node_renew, hnode]; exact hp
    · rw [Graph.Entry.node_renew, hnode]; exact hl l

theorem copyNode (depth : Nat) (hid : A id) (hlt : id < b) :
    Keeps (Copying P A b U) A n (CopyM.copyNode depth t id) fun n' j => A j ∧ j < n' := by
  induction depth generalizing U n t id with
  | zero => exact fun cs hc => StoreM.Keeps.fail rfl
  | succ depth ih =>
    intro cs hc
    cases hci : cs[id]? with
    | some copy =>
      rw [copyNode_run_of_some hci]
      refine StoreM.Keeps.bind StoreM.Keeps.fetchAny fun n₁ h₁ _ _ => StoreM.Keeps.ret fun n₂ h₂ => ?_
      have hc₂ := hc.mono (Nat.le_trans h₁ h₂)
      exact ⟨hc₂, hc₂ id copy hci⟩
    | none =>
      rw [copyNode_run_of_none hci]
      intro pins s hs hn
      rw [StoreM.bind_apply, StoreM.keeping_apply, StoreM.allocate_apply]
      cases ha : s.allocate (StoreM.pinsFor (.blank t) s (pins.also fun _ => cs.values)) (.blank t) with
      | error fault => rfl
      | ok r =>
        obtain ⟨copy, s₁⟩ := r
        obtain ⟨hs₁, rfl, hn₁⟩ := hs.allocate ha (by cases t <;> rfl)
        have hcopy : A s.pool.next ∧ s.pool.next < s₁.pool.next :=
          ⟨hs.fresh _ (Nat.le_refl _), hn₁ ▸ Nat.lt_succ_self _⟩
        have hc₁ : CopiesWithin A s₁.pool.next (cs.insert id s.pool.next) :=
          (hc.mono (Nat.le_trans hn (Nat.le_of_lt hcopy.2))).insert hcopy
        -- Until it is filled, the copy is under construction.
        have hparts := copyParts (t := t) hid hlt hc₁ (fun hi hl => ih hi hl) pins s₁ hs₁ (Nat.le_refl _)
        refine Outcome.bind hparts fun r s₂ ⟨hs₂, hn₂, hc₂, ht, hp, hb⟩ => ?_
        have hlt₂ := Nat.lt_of_lt_of_le hcopy.2 hn₂
        refine Outcome.bind (fill pins hs₂ hs.young hs.le hlt₂ ht hp hb) fun _ s₃ ⟨hs₃, hn₃⟩ => .ret ?_
        rw [hn₃]
        exact ⟨hs₃, Nat.le_trans (Nat.le_of_lt hcopy.2) hn₂, hc₂, hcopy.1, hlt₂⟩

end CopyM.Keeps

namespace StoreM.Keeps

variable {P : Program → Prop} {A : NodeId → Prop} {n : Nat} {t : ObjectType} {id : NodeId}

theorem copyObject (h : Within A n [id]) :
    Keeps (Closed P A) n (StoreM.copyObject t id) fun n' j => Within A n' [j] := by
  intro pins s hs hn
  obtain ⟨hid, hlt⟩ := (Within.cons.1 h).1
  have hcopy := CopyM.Keeps.copyNode (t := t) (s.pool.size + 1) hid (Nat.lt_of_lt_of_le hlt hn) {}
    CopiesWithin.empty pins s (Copying.of_confined hs) (Nat.le_refl _)
  rw [copyObject_apply]
  exact hcopy.bind fun r s' ⟨hs', hn', _, hj⟩ => .ret ⟨hs'.toConfined, hn', by simpa using hj⟩

theorem copy {v : Value} (h : Within A n v.node?.toList) :
    Keeps (Closed P A) n (StoreM.copy v) fun n' w => Within A n' w.node?.toList := by
  cases v with
  | fieldRef binding field => exact fail rfl
  | datum d =>
    cases d with
    | object t id =>
      rw [copy_object]
      exact bind (copyObject h) fun n₁ _ j hj => load (d := .object t j) hj
    | _ => exact ret fun _ _ => by simp [Value.node?, Datum.node?]

theorem copyWithField {field : Name} {d : Datum} (h : Within A n [id])
    (hd : Within A n d.node?.toList) :
    Keeps (Closed P A) n (StoreM.copyWithField t id field d) fun n' j =>
      Within A n' [j] := by
  refine bind (copyObject h) fun n₁ h₁ j hj => ?_
  refine bind (update (Within.cons.1 hj).1.1 (fun n' h' o ho => ?_) fun o l hl => ?_)
    fun n₂ h₂ _ _ => ret fun _ h₃ => hj.mono (Nat.le_trans h₂ h₃)
  · exact Within.withField ho (hd.mono (Nat.le_trans h₁ h'))
  · obtain ⟨o, ho⟩ := o
    cases o with
    | lambda l' => cases hl; exact ⟨l', rfl, rfl⟩
    | _ => cases hl

end StoreM.Keeps

end Mosaic
