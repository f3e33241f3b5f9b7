import Mosaic.Primitive.Apply
import Mosaic.Proofs.Graph.Walk
import Mosaic.Proofs.Maps
import Mosaic.Proofs.Store.Actions

/-!
# Actions stay inside a region

A region `A` of addresses is closed if its nodes point only into it, and its lambdas have bodies that
satisfy `P`. An action that is given addresses of the region returns addresses of the region, leaves
it closed, and does not fail for a structural cause (`Keeps`); there is one lemma for each action.
Addresses that were not given out yet belong to the region, so what an action allocates does too. The
nodes in `U` are under construction: for them nothing is said about bodies.
-/

namespace Mosaic

open Mosaic.Graph (NodeId Node Kind Pool)

/-- Whether only code that makes no sense can cause it: code that takes operands that are not there,
takes a variable for a value or the reverse, or leaves scopes and stacks as they should not be. -/
def Cause.isStructural : Cause → Bool
  | stackUnderflow .. | scopeUnderflow _ | unbalancedScope .. | malformedProgram _ => true
  | typeMismatch expected _ => expected == "value" || expected == "variable"
  | _ => false

/-- The addresses lie in the region and below the limit. -/
def Within (A : NodeId → Prop) (n : Nat) (ids : List NodeId) : Prop := ∀ id ∈ ids, A id ∧ id < n

namespace Within

variable {A : NodeId → Prop} {n n' : Nat} {ids ids' : List NodeId} {id : NodeId}

@[simp] theorem nil : Within A n [] := by simp [Within]

@[simp] theorem cons : Within A n (id :: ids) ↔ (A id ∧ id < n) ∧ Within A n ids := by
  simp [Within]

@[simp] theorem append : Within A n (ids ++ ids') ↔ Within A n ids ∧ Within A n ids' := by
  simp only [Within, List.mem_append]
  exact ⟨fun h => ⟨fun i hi => h i (.inl hi), fun i hi => h i (.inr hi)⟩,
    fun h i hi => hi.elim (h.1 i) (h.2 i)⟩

theorem mono (h : Within A n ids) (hn : n ≤ n') : Within A n' ids :=
  fun id hid => ⟨(h id hid).1, Nat.lt_of_lt_of_le (h id hid).2 hn⟩

theorem of_subset (h : Within A n ids) (hs : ids' ⊆ ids) : Within A n ids' :=
  fun id hid => h id (hs hid)

theorem fields {fs : Fields} :
    Within A n fs.pointers ↔
      ∀ (name : Name) (d : Datum), fs[name]? = some d → Within A n d.node?.toList := by
  simp only [Within, Fields.mem_pointers, Option.mem_toList]
  exact ⟨fun h name d hd id hid => h id ⟨name, d, hd, hid⟩,
    fun h id ⟨name, d, hd, hid⟩ => h name d hd id hid⟩

theorem withFields {o : Object} {fs : Fields} :
    Within A n (o.withFields fs).pointers ↔
      Within A n (o.withFields {}).pointers ∧ Within A n fs.pointers := by
  cases o <;> simp [Object.withFields, Object.pointers, and_assoc]

theorem withField {o : Object} {field : Name} {d : Datum} (h : Within A n o.pointers)
    (hd : Within A n d.node?.toList) :
    Within A n (o.withFields (o.fields.insert field d)).pointers := by
  have ho : o.withFields o.fields = o := by cases o <;> rfl
  rw [← ho, withFields] at h
  refine withFields.2 ⟨h.1, fields.2 fun name d' hd' => ?_⟩
  rcases getElem?_insert_cases hd' with ⟨_, rfl⟩ | ⟨_, hd'⟩
  · exact hd
  · exact fields.1 h.2 name d' hd'

end Within

section Valid

variable {A : NodeId → Prop} {n : Nat} {id : NodeId}

/-- The value is a scalar, or its node lies in the region. -/
abbrev Valid (A : NodeId → Prop) (n : Nat) (v : Value) : Prop := Within A n v.node?.toList

theorem valid_object {t : ObjectType} : Valid A n (.object t id) ↔ A id ∧ id < n := by
  simp [Valid, Value.node?, Datum.node?]

theorem within_data {ds : List Datum} :
    Within A n (ds.filterMap Datum.node?) ↔ ∀ d ∈ ds, Valid A n (.datum d) := by
  simp only [Valid, Value.node?, Within, List.mem_filterMap, Option.mem_toList]
  exact ⟨fun h v hv id hid => h id ⟨v, hv, hid⟩, fun h id ⟨v, hv, hid⟩ => h v hv id hid⟩

end Valid

/-- The region is closed in the store, apart from what is under construction. -/
structure Confined (P : Program → Prop) (A U : NodeId → Prop) (s : Store) : Prop where
  below : ∀ (id : NodeId) e, s.pool.entries[id]? = some e → id < s.pool.next
  fresh : ∀ id, s.pool.next ≤ id → A id
  pointers : ∀ (id : NodeId) e, A id → s.pool.entries[id]? = some e →
    Within A s.pool.next (Node.pointers e.node)
  body : ∀ (id : NodeId) e l, A id → ¬ U id → s.pool.entries[id]? = some e →
    e.node = .lambda l → P l.body

/-- The region is closed. -/
abbrev Closed (P : Program → Prop) (A : NodeId → Prop) : Store → Prop := Confined P A fun _ => False

namespace Confined

variable {P : Program → Prop} {A U V : NodeId → Prop} {s s' : Store} {id : NodeId} {α : Type}
  {k : Kind Object α} {a : α}

theorem get (h : Confined P A U s) (hid : A id) (ha : s.pool.get k id = .ok a) :
    Within A s.pool.next (Node.pointers (k.wrap a)) ∧
      (¬ U id → ∀ l, k.wrap a = .lambda l → P l.body) := by
  obtain ⟨e, he, hn⟩ := Pool.get_eq_ok_iff.1 ha
  exact ⟨hn ▸ h.pointers id e hid he, fun hu l hl => h.body id e l hid hu he (hn.trans hl)⟩

theorem of_sub (h : Confined P A U s) (hn : s'.pool.next = s.pool.next)
    (hs : ∀ (id : NodeId) e, s'.pool.entries[id]? = some e → s.pool.entries[id]? = some e) :
    Confined P A U s' where
  below id e he := hn ▸ h.below id e (hs id e he)
  fresh id hid := h.fresh id (hn ▸ hid)
  pointers id e hid he := hn ▸ h.pointers id e hid (hs id e he)
  body id e l hid hu he := h.body id e l hid hu (hs id e he)

/-- Storing a node at an address that was given out. What is under construction may change there. -/
theorem insert (h : Confined P A U s) {e : Graph.Entry Object} (hlt : id < s.pool.next)
    (hp : Within A s.pool.next (Node.pointers e.node))
    (hb : ¬ V id → ∀ l, e.node = .lambda l → P l.body) (hV : ∀ i, i ≠ id → U i → V i) :
    Confined P A V { s with pool := { s.pool with entries := s.pool.entries.insert id e } } := by
  refine ⟨fun i e' he' => ?_, h.fresh, fun i e' hi he' => ?_, fun i e' l hi hv he' hl => ?_⟩
  · rcases getElem?_insert_cases he' with ⟨rfl, _⟩ | ⟨_, he'⟩
    · exact hlt
    · exact h.below i e' he'
  · rcases getElem?_insert_cases he' with ⟨rfl, rfl⟩ | ⟨_, he'⟩
    · exact hp
    · exact h.pointers i e' hi he'
  · rcases getElem?_insert_cases he' with ⟨rfl, rfl⟩ | ⟨hne, he'⟩
    · exact hb hv l hl
    · exact h.body i e' l hi (fun hu => hv (hV i hne hu)) he' hl

/-- An allocation, after which the new node may count as under construction. -/
theorem allocate (h : Confined P A U s) {pins : Pins} {o : Object}
    (ha : s.allocate pins o = .ok (id, s')) (hp : Within A s.pool.next o.pointers)
    (hb : ¬ V id → ∀ l, o = .lambda l → P l.body) (hV : ∀ i, i ≠ id → U i → V i) :
    Confined P A V s' ∧ id = s.pool.next ∧ s'.pool.next = s.pool.next + 1 := by
  obtain ⟨g, hc, rfl, rfl⟩ := Graph.Heap.allocate_eq_ok ha
  obtain ⟨hn, -, -, hs⟩ := Graph.Heap.collectIfDue_sub hc
  have hg := h.of_sub hn hs
  have hroom : Confined P A U { g with pool := { g.pool with next := g.pool.next + 1 } } :=
    ⟨fun i e he => Nat.lt_succ_of_lt (hg.below i e he),
      fun i hi => hg.fresh i (Nat.le_of_succ_le hi),
      fun i e hi he => (hg.pointers i e hi he).mono (Nat.le_succ _), hg.body⟩
  have hins := hroom.insert (V := V)
    (e := ⟨o, Graph.Edges.addAll {} (Node.pointers o)⟩) (Nat.lt_succ_self _)
    ((hn ▸ hp : Within A g.pool.next o.pointers).mono (Nat.le_succ _)) hb hV
  exact ⟨⟨hins.below, hins.fresh, hins.pointers, hins.body⟩, hn, by rw [← hn]; rfl⟩

end Confined

/-! ## Actions that give out addresses -/

/-- What holds of a store before and after an action, and what holds of a failure and of the store that it
leaves if the next address was `n` before. -/
structure StoreM.Growth where
  Holds : Store → Prop
  Fails : Nat → Failure → Store → Prop
  mono : ∀ {n n' : Nat} {failure : Failure} {s : Store}, n ≤ n' → Fails n' failure s → Fails n failure s

/-- From a store for which the addresses below `n` were given out, the action leads to a later store and to a
result with the property `Q`, which may depend on the next address; or it fails. -/
def StoreM.Growth.Leads {α : Type} (G : Growth) (n : Nat) (x : StoreM α) (Q : Nat → α → Prop) : Prop :=
  ∀ pins s, G.Holds s → n ≤ s.pool.next → Outcome (x pins s) (G.Fails s.pool.next) fun a s' =>
    G.Holds s' ∧ s.pool.next ≤ s'.pool.next ∧ Q s'.pool.next a

namespace StoreM.Growth.Leads

variable {G : Growth} {n : Nat} {α β : Type} {x : StoreM α} {Q R : Nat → α → Prop}

theorem ret {a : α} (h : ∀ n' ≥ n, Q n' a) : G.Leads n (pure a) Q :=
  fun _ s hs hn => ⟨hs, Nat.le_refl _, h s.pool.next hn⟩

theorem fail {cause : Cause} (h : ∀ s, G.Holds s → G.Fails s.pool.next { cause } s) :
    G.Leads n (StoreM.fail cause : StoreM α) Q :=
  fun _ s hs _ => h s hs

theorem bind {f : α → StoreM β} {R : Nat → β → Prop} (hx : G.Leads n x Q)
    (hf : ∀ n' ≥ n, ∀ a, Q n' a → G.Leads n' (f a) R) : G.Leads n (x >>= f) R := by
  intro pins s hs hn
  -- What the second action fails with is a failure of the whole, too.
  have hle : Outcome (x pins s) (G.Fails s.pool.next) fun a s' =>
      Outcome (f a pins s') (G.Fails s.pool.next) fun b s'' =>
        G.Holds s'' ∧ s.pool.next ≤ s''.pool.next ∧ R s''.pool.next b := by
    refine (hx pins s hs hn).imp (fun _ _ h => h) fun a s' ⟨hs', hle, hq⟩ => ?_
    exact (hf _ (Nat.le_trans hn hle) a hq pins s' hs' (Nat.le_refl _)).imp (fun _ _ => G.mono hle)
      fun _ _ h => ⟨h.1, Nat.le_trans hle h.2.1, h.2.2⟩
  exact hle.bind fun _ _ h => h

theorem imp (hx : G.Leads n x Q) (h : ∀ n' ≥ n, ∀ a, Q n' a → R n' a) : G.Leads n x R :=
  fun pins s hs hn => (hx pins s hs hn).imp (fun _ _ hf => hf) fun a _ ha =>
    ⟨ha.1, ha.2.1, h _ (Nat.le_trans hn ha.2.1) a ha.2.2⟩

theorem keeping {ids : List NodeId} (hx : G.Leads n x Q) : G.Leads n (StoreM.keeping ids x) Q :=
  fun pins s hs hn => hx (pins.also fun _ => ids) s hs hn

theorem mapM {f : β → StoreM α} {l : List β} (hR : ∀ n n' b, n ≤ n' → R n b → R n' b)
    (hf : ∀ b ∈ l, ∀ n' ≥ n, G.Leads n' (f b) R) :
    G.Leads n (l.mapM f) fun n' as => ∀ a ∈ as, R n' a := by
  induction l generalizing n with
  | nil =>
    rw [List.mapM_nil]
    exact ret fun _ _ => by simp
  | cons b l ih =>
    rw [List.mapM_cons]
    refine bind (hf b (by simp) n (Nat.le_refl _)) fun n₁ h₁ a ha => ?_
    refine bind (ih fun b' hb' n' hn' => hf b' (by simp [hb']) n' (Nat.le_trans h₁ hn'))
      fun n₂ h₂ as has => ret fun n₃ h₃ => ?_
    rintro a' (_ | ⟨_, ha'⟩)
    · exact hR _ _ _ (Nat.le_trans h₂ h₃) ha
    · exact hR _ _ _ h₃ (has a' ha')

end StoreM.Growth.Leads

/-! ## Actions stay inside -/

/-- The property is kept, and no failure has a structural cause. -/
def StoreM.growth (J : Store → Prop) : StoreM.Growth where
  Holds := J
  Fails _ failure _ := failure.cause.isStructural = false
  mono _ h := h

/-- From a store with the property `J`, the action leads to one with the property and to a result
with the property `Q`, which may depend on the next address; or it fails, but not for a structural
cause. -/
abbrev StoreM.Keeps {α : Type} (J : Store → Prop) (n : Nat) (x : StoreM α) (Q : Nat → α → Prop) : Prop :=
  (StoreM.growth J).Leads n x Q

namespace StoreM.Keeps

export StoreM.Growth.Leads (ret bind keeping mapM)

section

variable {J : Store → Prop} {n : Nat} {α β : Type} {x : StoreM α} {Q R : Nat → α → Prop}

theorem imp (hx : Keeps J n x Q) (h : ∀ n' ≥ n, ∀ a, Q n' a → R n' a) : Keeps J n x R := Growth.Leads.imp hx h

theorem fail {cause : Cause} (h : cause.isStructural = false) :
    Keeps J n (StoreM.fail cause : StoreM α) Q :=
  Growth.Leads.fail fun _ _ => h

theorem failThen {f : α → StoreM β} {R : Nat → β → Prop} {cause : Cause}
    (h : cause.isStructural = false) : Keeps J n (StoreM.fail cause >>= f) R :=
  fun _ _ _ _ => h

theorem ofExcept {y : Except Failure α} (ok : ∀ a, y = .ok a → ∀ n' ≥ n, Q n' a)
    (error : ∀ failure, y = .error failure → failure.cause.isStructural = false) :
    Keeps J n (StoreM.ofExcept y) Q := by
  intro pins s hs hn
  rw [ofExcept_apply]
  cases y with
  | ok a => exact ⟨hs, Nat.le_refl _, ok a rfl _ hn⟩
  | error failure => exact error failure rfl

theorem fetchAny {t : ObjectType} {id : NodeId} :
    Keeps J n (StoreM.fetchObject t id) fun _ _ => True := by
  intro pins s hs hn
  rw [fetchObject_apply]
  cases s.pool.get (Object.ofType t) id with
  | error fault => rfl
  | ok o => exact ⟨hs, Nat.le_refl _, trivial⟩

end

/-! ## The basic actions -/

variable {P : Program → Prop} {A U : NodeId → Prop} {n : Nat} {α : Type} {id : NodeId}

theorem fetch {k : Kind Object α} (hid : A id) :
    Keeps (Confined P A U) n (StoreM.fetch k id) fun n' a =>
      Within A n' (Node.pointers (k.wrap a)) ∧ (¬ U id → ∀ l, k.wrap a = .lambda l → P l.body) := by
  intro pins s hs hn
  rw [fetch_apply]
  cases hg : s.pool.get k id with
  | error fault => rfl
  | ok a => exact ⟨hs, Nat.le_refl _, hs.get hid hg⟩

theorem fetchObject {t : ObjectType} (hid : A id) :
    Keeps (Confined P A U) n (StoreM.fetchObject t id) fun n' o => Within A n' o.pointers :=
  bind (fetch hid) fun _ _ _ ho => ret fun _ hn => ho.1.mono hn

theorem load {d : Datum} (h : Within A n d.node?.toList) :
    Keeps (Confined P A U) n (StoreM.load d) fun n' v => Within A n' v.node?.toList := by
  cases d with
  | object t id =>
    have hid : A id := (h id (by simp [Datum.node?])).1
    exact bind (fetchObject hid) fun _ h₁ _ _ => ret fun _ h₂ => h.mono (Nat.le_trans h₁ h₂)
  | _ => exact ret fun _ hn => h.mono hn

theorem allocate {o : Object} (hp : Within A n o.pointers) (hb : ∀ l, o = .lambda l → P l.body) :
    Keeps (Confined P A U) n (StoreM.allocate o) fun n' id => Within A n' [id] := by
  intro pins s hs hn
  rw [allocate_apply]
  cases ha : s.allocate (pinsFor o s pins) o with
  | error fault => rfl
  | ok r =>
    obtain ⟨id, s'⟩ := r
    obtain ⟨hs', rfl, hn'⟩ := hs.allocate ha (hp.mono hn) (fun _ => hb) fun _ _ h => h
    have hlt : s.pool.next < s'.pool.next := hn' ▸ Nat.lt_succ_self _
    refine ⟨hs', Nat.le_of_lt hlt, ?_⟩
    simp only [Within.cons, Within.nil, and_true]
    exact ⟨hs.fresh _ (Nat.le_refl _), hlt⟩

theorem update {k : Kind Object α} {f : α → α} (hid : A id)
    (hp : ∀ n' ≥ n, ∀ a, Within A n' (Node.pointers (k.wrap a)) →
      Within A n' (Node.pointers (k.wrap (f a))))
    (hb : ∀ a l, k.wrap (f a) = .lambda l → ∃ l', k.wrap a = .lambda l' ∧ l.body = l'.body) :
    Keeps (Confined P A U) n (StoreM.update k id f) fun _ _ => True := by
  intro pins s hs hn
  rw [update_apply]
  cases hu : s.pool.update k id f with
  | error fault => rfl
  | ok p' =>
    obtain ⟨e, a, he, ha, rfl⟩ := Pool.update_eq_ok hu
    refine ⟨hs.insert (hs.below id e he) ?_ (fun hU l hl => ?_) fun _ _ h => h, Nat.le_refl _, trivial⟩
    · exact hp _ hn a (ha ▸ hs.pointers id e hid he)
    · obtain ⟨l', hl', hbody⟩ := hb a l hl
      exact hbody ▸ hs.body id e l' hid hU he (ha.trans hl')

end StoreM.Keeps

end Mosaic
