import Mosaic.Proofs.Composed
import Mosaic.Proofs.Store.ConfinedFields
import Mosaic.Proofs.Store.Reads

/-!
# Actions spare what was there before

The nodes that were given out before an action began keep their payload as long as it lasts, whether or
not it fails in the end: it updates only what it has allocated itself (`StoreM.Spares`). Meanwhile no
node points out of a region `A`. What lies out of the region may be in the store, but nothing refers to
it.
-/

namespace Mosaic

open Mosaic.Graph (NodeId Node Kind Pool)

/-- No node points out of the region, and the bodies of lambdas satisfy `P`. -/
structure Veiled (P : Program → Prop) (A : NodeId → Prop) (s : Store) : Prop where
  below : ∀ (id : NodeId) e, s.pool.entries[id]? = some e → id < s.pool.next
  fresh : ∀ id, s.pool.next ≤ id → A id
  pointers : ∀ (id : NodeId) e, s.pool.entries[id]? = some e →
    Within A s.pool.next (Node.pointers e.node)
  body : ∀ (id : NodeId) e l, s.pool.entries[id]? = some e → e.node = .lambda l → P l.body

namespace Veiled

variable {P Q : Program → Prop} {A A' : NodeId → Prop} {s s' : Store} {id : NodeId}

theorem closed (h : Veiled P A s) : Closed P A s :=
  ⟨h.below, h.fresh, fun id e _ he => h.pointers id e he, fun id e l _ _ he hl => h.body id e l he hl⟩

/-- Lifting the veil: a larger region. -/
theorem imp (h : Veiled P A s) (hP : ∀ p, P p → Q p) (hA : ∀ id, A id → A' id) : Veiled Q A' s :=
  ⟨h.below, fun id hid => hA id (h.fresh id hid),
    fun id e he i hi => ⟨hA i (h.pointers id e he i hi).1, (h.pointers id e he i hi).2⟩,
    fun id e l he hl => hP _ (h.body id e l he hl)⟩

theorem insert (h : Veiled P A s) {e : Graph.Entry Object} (hlt : id < s.pool.next)
    (hp : Within A s.pool.next (Node.pointers e.node)) (hb : ∀ l, e.node = .lambda l → P l.body) :
    Veiled P A { s with pool := { s.pool with entries := s.pool.entries.insert id e } } := by
  refine ⟨fun i e' he' => ?_, h.fresh, fun i e' he' => ?_, fun i e' l he' hl => ?_⟩
  · rcases getElem?_insert_cases he' with ⟨rfl, _⟩ | ⟨_, he'⟩
    · exact hlt
    · exact h.below i e' he'
  · rcases getElem?_insert_cases he' with ⟨rfl, rfl⟩ | ⟨_, he'⟩
    · exact hp
    · exact h.pointers i e' he'
  · rcases getElem?_insert_cases he' with ⟨rfl, rfl⟩ | ⟨_, he'⟩
    · exact hb l hl
    · exact h.body i e' l he' hl

/-- After an allocation there are no other nodes than before, apart from the new one, which may be left
out of the region then. -/
theorem allocate (h : Veiled P A s) {pins : Pins} {o : Object} (ha : s.allocate pins o = .ok (id, s'))
    (hA : ∀ i, i ≠ id → A i → A' i)
    (hp : Within A s.pool.next o.pointers) (hb : ∀ l, o = .lambda l → P l.body) :
    Veiled P A' s' ∧ id = s.pool.next ∧ s'.pool.next = s.pool.next + 1 ∧
      ∀ (i : NodeId) e, i ≠ id → s'.pool.entries[i]? = some e → s.pool.entries[i]? = some e := by
  obtain ⟨g, hc, rfl, rfl⟩ := Graph.Heap.allocate_eq_ok ha
  obtain ⟨hn, -, -, hs⟩ := Graph.Heap.collectIfDue_sub hc
  have hin : ∀ {ids}, Within A s.pool.next ids → Within A' (g.pool.next + 1) ids := fun hids i hi =>
    have hlt := hn ▸ (hids i hi).2
    ⟨hA i (Nat.ne_of_lt hlt) (hids i hi).1, Nat.lt_succ_of_lt hlt⟩
  have hroom : Veiled P A' { g with pool := { g.pool with next := g.pool.next + 1 } } :=
    ⟨fun i e he => Nat.lt_succ_of_lt (hn ▸ h.below i e (hs i e he)),
      fun i hi => hA i (Nat.ne_of_gt hi) (h.fresh i (hn ▸ Nat.le_of_succ_le hi)),
      fun i e he => hin (h.pointers i e (hs i e he)),
      fun i e l he hl => h.body i e l (hs i e he) hl⟩
  have hins := hroom.insert (e := ⟨o, Graph.Edges.addAll {} (Node.pointers o)⟩) (Nat.lt_succ_self _)
    (hin hp) hb
  refine ⟨⟨hins.below, hins.fresh, hins.pointers, hins.body⟩, hn, by rw [← hn]; rfl, fun i e hi he => ?_⟩
  rcases getElem?_insert_cases he with ⟨rfl, _⟩ | ⟨_, he⟩
  · exact absurd rfl hi
  · exact hs i e he

end Veiled

/-- The store has what is left of the nodes of `s₀`, unchanged, and nodes that are newer. -/
structure Untouched (P : Program → Prop) (A : NodeId → Prop) (s₀ s : Store) : Prop
    extends Veiled P A s where
  start : Veiled P A s₀
  le : s₀.pool.next ≤ s.pool.next
  old : ∀ (id : NodeId) e, id < s₀.pool.next → s.pool.entries[id]? = some e →
    s₀.pool.entries[id]? = some e

/-- The addresses of the region that were given out since. -/
abbrev Since (A : NodeId → Prop) (b : Nat) (id : NodeId) : Prop := A id ∧ b ≤ id

theorem Within.imp {A A' : NodeId → Prop} {n : Nat} {ids : List NodeId} (h : Within A n ids)
    (hA : ∀ id, A id → A' id) : Within A' n ids :=
  fun id hid => ⟨hA id (h id hid).1, (h id hid).2⟩

namespace Untouched

variable {P : Program → Prop} {A : NodeId → Prop} {s₀ s : Store}

theorem refl (h : Veiled P A s) : Untouched P A s s :=
  { h with start := h, le := Nat.le_refl _, old := fun _ _ _ he => he }

theorem trans {s' : Store} (h : Untouched P A s₀ s) (h' : Untouched P A s s') : Untouched P A s₀ s' :=
  { h'.toVeiled with
    start := h.start
    le := Nat.le_trans h.le h'.le
    old := fun id e hlt he => h.old id e hlt (h'.old id e (Nat.lt_of_lt_of_le hlt h.le) he) }

theorem closed (h : Untouched P A s₀ s) : Closed P A s := h.toVeiled.closed

theorem copying (h : Untouched P A s₀ s) : Copying P A s₀.pool.next (fun _ => False) s :=
  { h.closed with
    le := h.le
    young := fun _ hi => hi.elim
    old := fun id e _ hlt he => h.start.pointers id e (h.old id e hlt he) }

end Untouched

namespace StoreM

/-! ## Actions that spare the nodes of a store -/

/-- The store is one since `s₀`, also after a failure. -/
def sparing (P : Program → Prop) (A : NodeId → Prop) (s₀ : Store) : StoreM.Growth where
  Holds := Untouched P A s₀
  Fails n _ s := Untouched P A s₀ s ∧ n ≤ s.pool.next
  mono hle h := ⟨h.1, Nat.le_trans hle h.2⟩

/-- From a store since `s₀`, the action leads to one since `s₀`, also if it fails; if it does not, the
result has the property `Q`, which may depend on the next address. -/
abbrev Spares {α : Type} (P : Program → Prop) (A : NodeId → Prop) (s₀ : Store) (n : Nat) (x : StoreM α)
    (Q : Nat → α → Prop) : Prop :=
  (sparing P A s₀).Leads n x Q

namespace Spares

export StoreM.Growth.Leads (ret bind keeping)

section

variable {P : Program → Prop} {A : NodeId → Prop} {s₀ : Store} {n : Nat} {α β : Type} {x : StoreM α}
  {Q R : Nat → α → Prop}

theorem imp (hx : Spares P A s₀ n x Q) (h : ∀ n' ≥ n, ∀ a, Q n' a → R n' a) : Spares P A s₀ n x R :=
  Growth.Leads.imp hx h

theorem fail {cause : Cause} : Spares P A s₀ n (StoreM.fail cause : StoreM α) Q :=
  Growth.Leads.fail fun _ hs => ⟨hs, Nat.le_refl _⟩

theorem failThen {f : α → StoreM β} {R : Nat → β → Prop} {cause : Cause} :
    Spares P A s₀ n (StoreM.fail cause >>= f) R :=
  fun _ _ hs _ => ⟨hs, Nat.le_refl _⟩

/-- What is known of the result of the action in a region holds besides. -/
theorem also {J : Store → Prop} (hx : Spares P A s₀ n x Q) (hJ : ∀ s, Untouched P A s₀ s → J s)
    (hk : Keeps J n x R) : Spares P A s₀ n x fun n' a => Q n' a ∧ R n' a := by
  intro pins s hs hn
  exact ((hx pins s hs hn).and (hk pins s (hJ s hs) hn)).imp (fun _ _ h => h.1)
    fun _ _ h => ⟨h.1.1, h.1.2.1, h.1.2.2, h.2.2.2⟩

/-- An action that only reads returns what it returns in a region. -/
theorem reads (hr : Reads x) (hk : Keeps (Closed P A) n x Q) : Spares P A s₀ n x Q := by
  obtain ⟨g, hg⟩ := hr
  have hx : Spares P A s₀ n x fun _ _ => True := by
    intro pins s hs hn
    rw [hg]
    cases g s with
    | ok a => exact ⟨hs, Nat.le_refl _, trivial⟩
    | error failure => exact ⟨hs, Nat.le_refl _⟩
  exact (hx.also (fun _ => Untouched.closed) hk).imp fun _ _ _ h => h.2

end

/-! ## The basic actions -/

variable {P : Program → Prop} {A : NodeId → Prop} {s₀ : Store} {n : Nat} {α : Type} {id : NodeId}

theorem allocate {o : Object} (hp : Within A n o.pointers) (hb : ∀ l, o = .lambda l → P l.body) :
    Spares P A s₀ n (StoreM.allocate o) fun n' id => Within (Since A s₀.pool.next) n' [id] := by
  intro pins s hs hn
  rw [allocate_apply]
  cases ha : s.allocate (pinsFor o s pins) o with
  | error fault => exact ⟨hs, Nat.le_refl _⟩
  | ok r =>
    obtain ⟨id, s'⟩ := r
    obtain ⟨hs', rfl, hn', hold⟩ := hs.allocate ha (fun _ _ h => h) (hp.mono hn) hb
    have hlt : s.pool.next < s'.pool.next := hn' ▸ Nat.lt_succ_self _
    refine ⟨{ hs' with start := hs.start, le := ?_, old := fun i e hi he => ?_ }, Nat.le_of_lt hlt, ?_⟩
    · exact Nat.le_trans hs.le (Nat.le_of_lt hlt)
    · exact hs.old i e hi (hold i e (Nat.ne_of_lt (Nat.lt_of_lt_of_le hi hs.le)) he)
    · simpa using ⟨⟨hs.fresh _ (Nat.le_refl _), hs.le⟩, hlt⟩

theorem update {k : Kind Object α} {f : α → α} (hid : s₀.pool.next ≤ id)
    (hp : ∀ n' ≥ n, ∀ a, Within A n' (Node.pointers (k.wrap a)) →
      Within A n' (Node.pointers (k.wrap (f a))))
    (hb : ∀ a l, k.wrap (f a) = .lambda l → P l.body ∨ ∃ l', k.wrap a = .lambda l' ∧ l.body = l'.body) :
    Spares P A s₀ n (StoreM.update k id f) fun _ _ => True := by
  intro pins s hs hn
  rw [update_apply]
  cases hu : s.pool.update k id f with
  | error fault => exact ⟨hs, Nat.le_refl _⟩
  | ok p' =>
    obtain ⟨e, a, he, ha, rfl⟩ := Pool.update_eq_ok hu
    have hs' := hs.insert (e := e.renew (k.wrap (f a))) (hs.below id e he)
      (hp _ hn a (ha ▸ hs.pointers id e he)) fun l hl => by
        rcases hb a l hl with hl | ⟨l', hl', hbody⟩
        · exact hl
        · exact hbody ▸ hs.body id e l' he (ha.trans hl')
    refine ⟨{ hs' with start := hs.start, le := hs.le, old := fun i e' hi he' => ?_ }, Nat.le_refl _, trivial⟩
    rcases getElem?_insert_cases he' with ⟨rfl, _⟩ | ⟨_, he'⟩
    · exact absurd hid (Nat.not_le.2 hi)
    · exact hs.old i e' hi he'

end Spares

end StoreM

/-! ## Copies -/

/-- An action that copies spares the nodes of `s₀`, and the copies it has made are newer. -/
def CopyM.Spares {α : Type} (P : Program → Prop) (A : NodeId → Prop) (s₀ : Store) (n : Nat)
    (x : CopyM α) : Prop :=
  ∀ c, CopiesWithin (Since A s₀.pool.next) n c →
    StoreM.Spares P A s₀ n (x.run c) fun n' r => CopiesWithin (Since A s₀.pool.next) n' r.2

namespace CopyM.Spares

variable {P : Program → Prop} {A : NodeId → Prop} {s₀ : Store} {n : Nat} {α β : Type} {x : CopyM α}

theorem ret {a : α} : CopyM.Spares P A s₀ n (pure a) :=
  fun _ hc => StoreM.Spares.ret fun _ hn => hc.mono hn

theorem bind {f : α → CopyM β} (hx : CopyM.Spares P A s₀ n x)
    (hf : ∀ n' ≥ n, ∀ a, CopyM.Spares P A s₀ n' (f a)) : CopyM.Spares P A s₀ n (x >>= f) := by
  intro c hc
  rw [StateT.run_bind]
  exact StoreM.Spares.bind (hx c hc) fun n' hn r hr => hf n' hn r.1 r.2 hr

theorem renameNodes {f : ObjectType → NodeId → CopyM NodeId} {o : Object}
    (h : ∀ t, ∀ id ∈ o.pointers, ∀ n, CopyM.Spares P A s₀ n (f t id)) : CopyM.Spares P A s₀ n (o.renameNodes f) :=
  Composable.renameNodes (C := ⟨fun x => ∀ n, CopyM.Spares P A s₀ n x, fun _ => ret,
    fun hx hf n => bind (hx n) fun n' _ a => hf a n'⟩) h n

end CopyM.Spares

namespace StoreM.Spares

variable {P : Program → Prop} {A : NodeId → Prop} {s₀ : Store} {n : Nat} {t : ObjectType} {id : NodeId}

/-- A copy of a node that was there. The blank object that it begins with has the empty body. -/
theorem copyNode (depth : Nat) {cs : Copies} (hP : P []) (hid : A id) (hlt : id < s₀.pool.next)
    (hc : CopiesWithin (Since A s₀.pool.next) n cs) :
    Spares P A s₀ n ((CopyM.copyNode depth t id).run cs) fun n' r =>
      CopiesWithin (Since A s₀.pool.next) n' r.2 ∧ Within (Since A s₀.pool.next) n' [r.1] := by
  induction depth generalizing n t id cs with
  | zero => exact fail
  | succ depth ih =>
    cases hci : cs[id]? with
    | some copy =>
      rw [CopyM.copyNode_run_of_some hci]
      refine bind (reads Reads.fetchObject Keeps.fetchAny) fun n₁ h₁ _ _ => ret fun n₂ h₂ => ?_
      have hc₂ := hc.mono (Nat.le_trans h₁ h₂)
      exact ⟨hc₂, by simpa using hc₂ id copy hci⟩
    | none =>
      have hblank : ∀ l, Object.blank t = .lambda l → P l.body := by
        intro l hl
        cases t <;> cases hl
        exact hP
      have hnil : (Object.blank t).pointers = [] := by cases t <;> simp [Object.blank, Object.pointers]
      rw [CopyM.copyNode_run_of_none hci]
      refine bind (keeping (allocate (by simp [hnil]) hblank)) fun n₁ h₁ copy hcopy => ?_
      have hc₁ := (hc.mono h₁).insert (i := id) (Within.cons.1 hcopy).1
      have hA : CopiesWithin A n₁ (cs.insert id copy) := fun i j hj => ⟨(hc₁ i j hj).1.1, (hc₁ i j hj).2⟩
      have hfetch : Spares P A s₀ n₁ (StoreM.fetchObject t id) fun _ _ => True :=
        reads Reads.fetchObject Keeps.fetchAny
      have hsource := hfetch.also (fun _ => Untouched.copying)
        (CopyM.Keeps.fetchSource (t := t) (P := P) (U := fun _ => False) hid hlt)
      have hparts : Spares P A s₀ n₁ (CopyM.copyParts depth t id (cs.insert id copy)) fun n' r =>
          CopiesWithin (Since A s₀.pool.next) n' r.2 := by
        refine bind hsource fun n₂ h₂ source hsource => ?_
        obtain ⟨-, -, hp, -⟩ := hsource
        refine CopyM.Spares.renameNodes (fun t' id' hid' n' cs' hc' => ?_) _ (hc₁.mono h₂)
        exact (ih (hp id' hid').1 (hp id' hid').2 hc').imp fun _ _ _ h => h.1
      refine bind (hparts.also (fun _ => Untouched.copying) (CopyM.Keeps.copyParts hid hlt hA
        fun hid hlt => CopyM.Keeps.copyNode depth hid hlt)) fun n₂ h₂ r hr => ?_
      obtain ⟨hc₂, -, ht, hp, hb⟩ := hr
      have hfill : ∀ o, (Object.ofType t).wrap (CopyM.fill r.1 o) = r.1 := fun o => by
        rw [CopyM.fill, dif_pos ht]; rfl
      refine bind (update (Within.cons.1 hcopy).1.1.2 (fun n' h' o _ => ?_) fun o l hl => .inl ?_)
        fun n₃ h₃ _ _ => ret fun n₄ h₄ => ?_
      · rw [hfill]
        exact hp.mono h'
      · exact hb l ((hfill o).symm.trans hl)
      · exact ⟨hc₂.mono (Nat.le_trans h₃ h₄), hcopy.mono (by omega)⟩

/-- A node that is copied can be newer than `s₀`: the copies are newer still. -/
theorem copyObject (hP : P []) (h : Within A n [id]) :
    Spares P A s₀ n (StoreM.copyObject t id) fun n' j => Within (Since A s₀.pool.next) n' [j] := by
  obtain ⟨hid, hlt⟩ := (Within.cons.1 h).1
  intro pins s hs hn
  have hcopy := copyNode (t := t) (s.pool.size + 1) hP hid (Nat.lt_of_lt_of_le hlt hn)
    CopiesWithin.empty pins s (.refl hs.toVeiled) (Nat.le_refl _)
  rw [copyObject_apply]
  refine (hcopy.imp (fun _ _ h => ⟨hs.trans h.1, h.2⟩) fun _ _ h => h).bind fun r s' ⟨hs', hle, _, hj⟩ => .ret ?_
  exact ⟨hs.trans hs', hle, hj.imp fun _ hi => ⟨hi.1, Nat.le_trans hs.le hi.2⟩⟩

theorem copy {v : Value} (hP : P []) (h : Valid A n v) :
    Spares P A s₀ n (StoreM.copy v) fun n' w => Valid A n' w := by
  cases v with
  | fieldRef binding field => exact fail
  | datum d =>
    cases d with
    | object t id =>
      rw [copy_object]
      exact bind (copyObject hP h) fun n₁ _ j hj =>
        reads Reads.load (Keeps.load (d := .object t j) (hj.imp fun _ hi => hi.1))
    | _ => exact ret fun _ hn => h.mono hn

theorem copyWithField {field : Name} {d : Datum} (hP : P []) (h : Within A n [id])
    (hd : Within A n d.node?.toList) :
    Spares P A s₀ n (StoreM.copyWithField t id field d) fun n' j => Within A n' [j] := by
  refine bind (copyObject hP h) fun n₁ h₁ j hj => ?_
  refine bind (update (Within.cons.1 hj).1.1.2 (fun n' h' o ho => ?_) fun o l hl => .inr ?_)
    fun n₂ h₂ _ _ => ret fun _ h₃ => (hj.imp fun _ hi => hi.1).mono (Nat.le_trans h₂ h₃)
  · exact Within.withField ho (hd.mono (Nat.le_trans h₁ h'))
  · obtain ⟨o, ho⟩ := o
    cases o with
    | lambda l' => cases hl; exact ⟨l', rfl, rfl⟩
    | _ => cases hl

end StoreM.Spares

end Mosaic
