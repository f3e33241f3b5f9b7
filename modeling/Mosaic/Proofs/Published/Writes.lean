import Mosaic.Proofs.Published.Operations

/-!
# What operations write

Two operations write into nodes that are there. A later round of a comprehension adds one slot at the
end of the innermost open cluster, and the end of a block adds to the closures of the lambdas that were
set aside in the innermost frame what they missed (`Op.Writes`). An open cluster is out of the region
from its first round to its last: to open a comprehension draws the veil over a new node, and to close
it lifts the veil again.
-/

namespace Mosaic

open Mosaic.Graph (NodeId Node Kind Pool)

/-! ## Closures that grow -/

/-- The same lambda with a larger closure: what it had it still has, and what is new is for names that
it missed. -/
structure Lambda.Filled (l l' : Lambda) : Prop where
  rest : l' = { l with closure := l'.closure }
  kept : ∀ (name : Name) (d : Datum), l.closure[name]? = some d → l'.closure[name]? = some d
  missed : ∀ (name : Name) (d : Datum), l'.closure[name]? = some d →
    l.closure[name]? = some d ∨ name ∈ l.unresolved

namespace Lambda

variable {l l' l'' : Lambda}

theorem mem_unresolved {name : Name} : name ∈ l.unresolved ↔ name ∈ l.free ∧ l.closure[name]? = none := by
  rw [unresolved, List.mem_filter, Std.ExtTreeMap.contains_eq_isSome_getElem?]
  simp only [Bool.not_eq_true', Option.isSome_eq_false_iff, Option.isNone_iff_eq_none]

theorem Filled.trans (h : l.Filled l') (h' : l'.Filled l'') : l.Filled l'' where
  rest := by rw [h'.rest, h.rest]
  kept name d hd := h'.kept name d (h.kept name d hd)
  missed name d hd := by
    rcases h'.missed name d hd with hd | hn
    · exact h.missed name d hd
    · obtain ⟨hfree, hnone⟩ := mem_unresolved.1 hn
      refine .inr (mem_unresolved.2 ⟨by rw [h.rest] at hfree; exact hfree, ?_⟩)
      refine Option.eq_none_iff_forall_ne_some.2 fun d' hd' => ?_
      rw [h.kept name d' hd'] at hnone
      cases hnone

theorem filled_insertMany {ps : List (Name × Datum)} (h : ∀ p ∈ ps, p.1 ∈ l.unresolved) :
    l.Filled { l with closure := l.closure.insertMany ps } where
  rest := rfl
  kept name d hd := by
    have hnew : (ps.map Prod.fst).contains name = false := by
      refine Bool.eq_false_iff.2 fun hc => ?_
      obtain ⟨p, hp, rfl⟩ := List.mem_map.1 (List.contains_iff_mem.1 hc)
      have hnone := (mem_unresolved.1 (h p hp)).2
      rw [hd] at hnone
      cases hnone
    exact (Std.ExtTreeMap.getElem?_insertMany_list_of_contains_eq_false hnew).trans hd
  missed name d hd := (getElem?_insertMany_cases hd).imp id fun hmem => h (name, d) hmem

end Lambda

/-! ## What may change -/

/-- What an operation may write at a node that is there, with these clusters open and these lambdas set
aside in the innermost frame: instead of the first object there is the second. -/
inductive Op.Writes (builders parked : List NodeId) (id : NodeId) : Op → Object → Object → Prop
  | append {var : Name} {index : Nat} {body : Program} {c : Cluster} {d : Datum}
      (innermost : builders.head? = some id) :
      Writes builders parked id (.iterate var (index + 1) body) (.cluster c)
        (.cluster { c with items := c.items ++ [d] })
  | fill {l l' : Lambda} (mem : id ∈ parked) (filled : l.Filled l') :
      Writes builders parked id .setDependencies (.lambda l) (.lambda l')

/-- Every node that is there before and after has the payload it had, apart from what the operation may
write. -/
def Op.Frames (op : Op) (m m' : Machine) : Prop :=
  ∀ (id : NodeId) e e', m.store.pool.entries[id]? = some e → m'.store.pool.entries[id]? = some e' →
    e'.node = e.node ∨ op.Writes m.builders m.scopes.parked id e.node e'.node

/-- The datum is a new slot at the end of the innermost open cluster. -/
def Machine.Appends (m m' : Machine) (d : Datum) : Prop :=
  ∃ b builders c, m.builders = b :: builders ∧ m.store.pool.get Object.clusters b = .ok c ∧
    m'.store.pool.get Object.clusters b = .ok { c with items := c.items ++ [d] }

/-- The machine with another entry at an address. -/
def Machine.withEntry (m : Machine) (id : NodeId) (e : Graph.Entry Object) : Machine :=
  { m with store.pool.entries := m.store.pool.entries.insert id e }

/-- Nothing that the machine mentions refers to an open cluster. -/
structure Machine.Veiled (n₀ : Nat) (m : Machine) : Prop where
  guarded : Guarded n₀ (· ∉ m.builders) m.store m
  program : ∀ item ∈ m.program, item.Clear n₀ (· ∉ m.builders) m.next
  operands : ∀ o ∈ m.operands, Within (· ∉ m.builders) m.next o.node?.toList
  nodup : m.builders.Nodup

section

variable {n₀ : Nat} {A A' : NodeId → Prop} {s₀ s : Store} {m m' m'' : Machine} {op : Op}

theorem Guarded.rebase (h : Guarded n₀ A s₀ m) : Guarded n₀ A m.store m :=
  ⟨.refl h.store.toVeiled, h.scopes, h.memo, h.base_le, h.early⟩

theorem Guarded.imp (h : Guarded n₀ A s₀ m) (hA : ∀ id, A id → A' id) : Guarded n₀ A' m.store m where
  store := .refl (h.store.toVeiled.imp (fun _ hp => hp) hA)
  scopes := h.scopes.imp (fun _ hv => Within.imp hv hA) fun _ hid => ⟨hA _ hid.1, hid.2⟩
  memo key v hv := Within.imp (h.memo key v hv) hA
  base := h.base_le
  early id hid := hA id (h.early id hid)

theorem Guarded.allocate (h : Guarded n₀ A m.store m) {pins : Pins} {o : Object} {id : NodeId}
    (ha : m.store.allocate pins o = .ok (id, s)) (hA : ∀ i, i ≠ id → A i → A' i)
    (hp : Within A m.next o.pointers) (hb : ∀ l, o = .lambda l → Old n₀ l.body) :
    Guarded n₀ A' s { m with store := s } ∧ id = m.next ∧ s.pool.next = m.next + 1 ∧
      ∀ (i : NodeId) e, i ≠ id → s.pool.entries[i]? = some e → m.store.pool.entries[i]? = some e := by
  obtain ⟨hs, rfl, hn, hold⟩ := h.store.toVeiled.allocate ha hA hp hb
  have hle : m.next ≤ s.pool.next := hn ▸ Nat.le_succ _
  have hin : ∀ {ids}, Within A m.next ids → Within A' s.pool.next ids := fun hids i hi =>
    ⟨hA i (Nat.ne_of_lt (hids i hi).2) (hids i hi).1, Nat.lt_of_lt_of_le (hids i hi).2 hle⟩
  refine ⟨⟨.refl hs, ?_, fun key v hv => hin (h.memo key v hv), Nat.le_trans h.base_le hle, ?_⟩, rfl, hn, hold⟩
  · refine h.scopes.imp (fun _ hv => hin hv) fun i hi => ?_
    exact (Within.cons.1 (hin (Within.cons.2 ⟨hi, Within.nil⟩))).1
  · exact fun i hi => hA i (Nat.ne_of_lt (Nat.lt_of_lt_of_le hi h.base)) (h.early i hi)

theorem Op.Frames.refl (m : Machine) : op.Frames m m := by
  intro id e e' he he'
  rw [he] at he'
  cases he'
  exact .inl rfl

theorem Op.Frames.of_untouched (h : Untouched (Old n₀) A m.store m'.store) : op.Frames m m' := by
  intro id e e' he he'
  have hold := h.old id e' (h.start.below id e he) he'
  rw [he] at hold
  cases hold
  exact .inl rfl

end

/-! ## Actions on the store -/

namespace MachineM.Ends

variable {α β : Type} {m : Machine} {E : Machine → Prop} {Q : α → Machine → Prop}

theorem fetchThen {k : Kind Object α} {id : NodeId} {f : α → MachineM β} {R : β → Machine → Prop} (hE : E m)
    (h : ∀ a, m.store.pool.get k id = .ok a → Ends (f a) m E R) :
    Ends (MachineM.onStore (StoreM.fetch k id) >>= f) m E R := by
  intro pins
  rw [bind_apply, onStore_apply, StoreM.fetch_apply]
  cases hg : m.store.pool.get k id with
  | error fault => exact hE
  | ok a => exact h a hg pins

theorem allocateThen {o : Object} {ids : List NodeId} {f : NodeId → MachineM α} (hE : E m)
    (h : ∀ pins id s, m.store.allocate pins o = .ok (id, s) → Ends (f id) { m with store := s } E Q) :
    Ends (MachineM.keeping ids (MachineM.onStore (StoreM.allocate o)) >>= f) m E Q := by
  intro pins
  rw [bind_apply, keeping_apply, onStore_apply, StoreM.allocate_apply]
  cases ha : m.store.allocate (StoreM.pinsFor o m.store ((pins.also fun _ => ids).also fun _ => m.mentions)) o with
  | error fault => exact hE
  | ok r => exact h _ r.1 r.2 ha pins

theorem update {k : Kind Object α} {id : NodeId} {f : α → α} {R : Unit → Machine → Prop} (hE : E m)
    (h : ∀ e a, m.store.pool.entries[id]? = some e → e.node = k.wrap a →
      R () (m.withEntry id (e.renew (k.wrap (f a))))) :
    Ends (MachineM.onStore (StoreM.update k id f)) m E R := by
  intro pins
  rw [onStore_apply, StoreM.update_apply]
  cases hu : m.store.pool.update k id f with
  | error fault => exact hE
  | ok p =>
    obtain ⟨e, a, he, ha, rfl⟩ := Pool.update_eq_ok hu
    exact h e a he ha

end MachineM.Ends

/-! ## The end of a block -/

section

variable {n₀ : Nat} {A : NodeId → Prop} {s₀ : Store} {ids : List NodeId} {id : NodeId} {m m₁ m' : Machine}

theorem Guarded.insert (h : Guarded n₀ A s₀ m) {e : Graph.Entry Object} (hlt : id < m.next)
    (hp : Within A m.next (Node.pointers e.node)) (hb : ∀ l, e.node = .lambda l → Old n₀ l.body) :
    Guarded n₀ A (m.withEntry id e).store (m.withEntry id e) :=
  ⟨.refl (h.store.toVeiled.insert hlt hp hb), h.scopes, h.memo, h.base_le, h.early⟩

/-- Some of the lambdas that were set aside have been completed. -/
structure Completing (n₀ : Nat) (A : NodeId → Prop) (ids : List NodeId) (m m' : Machine) : Prop where
  guarded : Guarded n₀ A m'.store m'
  still : Still m m'
  filled : ∀ (id : NodeId) e', m'.store.pool.entries[id]? = some e' →
    ∃ e, m.store.pool.entries[id]? = some e ∧ (e'.node = e.node ∨
      id ∈ ids ∧ ∃ l l', e.node = .lambda l ∧ e'.node = .lambda l' ∧ l.Filled l')

theorem Completing.write (h : Completing n₀ A ids m m₁) (hid : id ∈ ids) {e : Graph.Entry Object}
    {l l' : Lambda} (he : m₁.store.pool.entries[id]? = some e) (hl : e.node = .lambda l)
    (hfilled : l.Filled l') (hp : Within A m₁.next l'.closure.pointers) :
    Completing n₀ A ids m (m₁.withEntry id (e.renew (.lambda l'))) where
  guarded := by
    have hbody : l'.body = l.body := by rw [hfilled.rest]
    have hfields : l'.fields = l.fields := by rw [hfilled.rest]
    have hin := h.guarded.store.pointers id e he
    rw [hl] at hin
    refine h.guarded.insert (h.guarded.store.below id e he) ?_ fun k hk => ?_
    · simp only [Graph.Entry.node_renew, Node.pointers, Object.pointers, Within.append, hfields] at hin ⊢
      exact ⟨hp, hin.2⟩
    · cases hk
      exact hbody ▸ h.guarded.store.body id e l he hl
  still := ⟨⟨h.still.program, h.still.operands, h.still.config, h.still.next⟩, h.still.builders⟩
  filled i e' he' := by
    rcases getElem?_insert_cases he' with ⟨rfl, rfl⟩ | ⟨_, he'⟩
    · obtain ⟨e₀, he₀, hnode⟩ := h.filled i e he
      refine ⟨e₀, he₀, .inr ⟨hid, ?_⟩⟩
      rcases hnode with hnode | ⟨_, l₀, l₁, hl₀, hl₁, hfilled'⟩
      · exact ⟨l, l', hnode.symm.trans hl, rfl, hfilled⟩
      · cases hl.symm.trans hl₁
        exact ⟨l₀, l', hl₀, rfl, hfilled'.trans hfilled⟩
    · exact h.filled i e' he'

namespace MachineM.Ends

theorem complete (h : Completing n₀ A ids m m₁) (hid : id ∈ ids) :
    Ends (MachineM.complete id) m₁ (Completing n₀ A ids m) fun _ => Completing n₀ A ids m := by
  refine fetchThen h fun l hl => ?_
  rw [capture_eq, bind_assoc]
  refine getThen (okThen h fun ps hps => ?_)
  split
  · refine update h fun e l' he hl' => ?_
    obtain ⟨e', he', hl⟩ := Pool.get_eq_ok_iff.1 hl
    cases he.symm.trans he'
    cases hl'.symm.trans hl
    refine h.write hid he hl' (Lambda.filled_insertMany fun p hp => (mem_of_captured hps hp).1) ?_
    have hin := h.guarded.store.pointers id e he
    rw [hl'] at hin
    refine Within.fields.2 fun name d hd => ?_
    rcases getElem?_insertMany_cases hd with hd | hd
    · exact Within.fields.1 (Within.append.1 hin).1 name d hd
    · exact h.guarded.scopes.lookup? (mem_of_captured hps hd).2
  · exact ret h

theorem completeAll {rest : List NodeId} (h : Completing n₀ A ids m m₁) (hids : rest ⊆ ids) :
    Ends (MachineM.completeAll rest) m₁ (Completing n₀ A ids m) fun _ => Completing n₀ A ids m := by
  induction rest generalizing m₁ with
  | nil => exact ret h
  | cons id rest ih =>
    obtain ⟨hid, hrest⟩ := List.cons_subset.1 hids
    exact bind (keeping (complete h hid)) fun _ m₂ h₂ => ih h₂ hrest

end MachineM.Ends

end

/-! ## What operations lead to -/

section

variable {n₀ : Nat} {op : Op} {m m₁ m' : Machine}

/-- What a failed operation leaves. -/
structure Op.Failed (n₀ : Nat) (op : Op) (m m' : Machine) : Prop where
  guarded : ∃ A, Guarded n₀ A m'.store m'
  frames : op.Frames m m'

/-- What an operation leads to that does not fail. -/
structure Op.Leaves (n₀ : Nat) (op : Op) (m : Machine) (e : Effect) (m' : Machine) : Prop where
  veiled : m'.Veiled n₀
  clear : e.Clear n₀ (· ∉ m'.builders) m'.next
  frames : op.Frames m m'

namespace Machine.Veiled

theorem failed (h : m.Veiled n₀) : op.Failed n₀ m m := ⟨⟨_, h.guarded⟩, .refl m⟩

theorem still {s₀ : Store} (h : m.Veiled n₀) (hm : Guarded n₀ (· ∉ m.builders) s₀ m') (hs : Still m m') :
    m'.Veiled n₀ where
  guarded := by
    rw [hs.builders]
    exact hm.rebase
  program item hitem := by
    rw [hs.builders]
    exact (h.program item (hs.program ▸ hitem)).imp (fun _ hid => hid) hs.next
  operands o ho := by
    rw [hs.builders]
    exact (h.operands o (hs.operands ▸ ho)).mono hs.next
  nodup := hs.builders ▸ h.nodup

end Machine.Veiled

namespace MachineM.Ends

theorem of_steady {args : List Operand} (h : m.Veiled n₀) (hop : Guards.Steady op)
    (hnodes : ∀ id ∈ op.nodes, id < n₀) (hlen : args.length = op.arity)
    (hargs : ∀ o ∈ args, Within (· ∉ m.builders) m.next o.node?.toList) :
    Ends (MachineM.perform op args) m (op.Failed n₀ m) (op.Leaves n₀ m) := by
  refine (Guards.perform hop hnodes hlen hargs h.guarded).imp (fun m' hm' => ?_)
    fun e m' ⟨hm', hs, he⟩ => ?_
  · exact ⟨⟨_, hm'.rebase⟩, .of_untouched hm'.store⟩
  · exact ⟨h.still hm' hs, by rw [hs.builders]; exact he, .of_untouched hm'.store⟩

theorem setDependencies (h : m.Veiled n₀) :
    Ends MachineM.setDependencies m (Op.setDependencies.Failed n₀ m) (Op.setDependencies.Leaves n₀ m) := by
  refine getThen (okThen h.failed fun r hr => modifyThen ?_)
  obtain ⟨ids, s⟩ := r
  obtain ⟨-, hs⟩ := h.guarded.scopes.takeParked hr
  obtain ⟨rfl, -⟩ := Scopes.takeParked_ok hr
  have hstart : Completing n₀ (· ∉ m.builders) m.scopes.parked m { m with scopes := s } :=
    ⟨h.guarded.withScopes hs, ⟨⟨rfl, rfl, rfl, Nat.le_refl _⟩, rfl⟩, fun id e he => ⟨e, he, .inl rfl⟩⟩
  have hframes : ∀ m', Completing n₀ (· ∉ m.builders) m.scopes.parked m m' →
      Op.setDependencies.Frames m m' := by
    intro m' hm' id e e' he he'
    obtain ⟨e₀, he₀, hnode⟩ := hm'.filled id e' he'
    cases he.symm.trans he₀
    refine hnode.imp (fun h => h) fun ⟨hid, l, l', hl, hl', hfilled⟩ => ?_
    rw [hl, hl']
    exact .fill hid hfilled
  refine bind ((completeAll hstart (List.Subset.refl _)).imp (fun m' hm' => ?_) fun _ _ hm' => hm')
    fun _ m' hm' => ret ?_
  · exact ⟨⟨_, hm'.guarded⟩, hframes m' hm'⟩
  · exact ⟨h.still hm'.guarded hm'.still, trivial, hframes m' hm'⟩

end MachineM.Ends

/-! ## The rounds of a comprehension -/

namespace Machine.Veiled

theorem fresh (h : m.Veiled n₀) {id : NodeId} (hid : id ∈ m.builders) : id < m.next :=
  Nat.lt_of_not_le fun hle => h.guarded.store.fresh id hle hid

theorem insert (h : m.Veiled n₀) {id : NodeId} {e : Graph.Entry Object} (hlt : id < m.next)
    (hp : Within (· ∉ m.builders) m.next (Node.pointers e.node))
    (hb : ∀ l, e.node = .lambda l → Old n₀ l.body) :
    (m.withEntry id e).Veiled n₀ :=
  ⟨h.guarded.insert hlt hp hb, h.program, h.operands, h.nodup⟩

/-- To open a comprehension draws the veil over the new cluster. -/
theorem opens (h : m.Veiled n₀) {pins : Pins} {id : NodeId} {s : Store}
    (ha : m.store.allocate pins (.cluster {}) = .ok (id, s)) :
    Veiled n₀ { m with store := s, builders := id :: m.builders } ∧ id = m.next ∧
      s.pool.next = m.next + 1 ∧
      ∀ (i : NodeId) e, i ≠ id → s.pool.entries[i]? = some e → m.store.pool.entries[i]? = some e := by
  have hA : ∀ i, i ≠ id → i ∉ m.builders → i ∉ id :: m.builders := fun i hi hm => by simp [hi, hm]
  obtain ⟨hg, rfl, hn, hold⟩ := h.guarded.allocate ha hA (by simp [Object.pointers]) nofun
  have hin : ∀ {ids}, Within (· ∉ m.builders) m.next ids → Within (· ∉ m.next :: m.builders) s.pool.next ids :=
    fun hids i hi => ⟨hA i (Nat.ne_of_lt (hids i hi).2) (hids i hi).1, hn ▸ Nat.lt_succ_of_lt (hids i hi).2⟩
  refine ⟨⟨⟨hg.store, hg.scopes, hg.memo, hg.base, hg.early⟩, fun item hitem => ?_,
    fun o ho => hin (h.operands o ho), ?_⟩, rfl, hn, hold⟩
  · have hclear := h.program item hitem
    cases item with
    | op code line => exact hclear
    | _ => exact hin hclear
  · exact List.nodup_cons.2 ⟨fun hid => Nat.lt_irrefl _ (h.fresh hid), h.nodup⟩

/-- To close one lifts the veil. -/
theorem closes (h : m.Veiled n₀) {b : NodeId} {builders : List NodeId} (hb : m.builders = b :: builders) :
    Veiled n₀ { m with builders } ∧ Valid (· ∉ builders) m.next (.object .cluster b) := by
  have hA : ∀ i, i ∉ m.builders → i ∉ builders := fun i hi hm => hi (by simp [hb, hm])
  have hg := h.guarded.imp hA
  have hnodup := List.nodup_cons.1 (hb ▸ h.nodup)
  refine ⟨⟨⟨hg.store, hg.scopes, hg.memo, hg.base, hg.early⟩, fun item hitem => ?_,
    fun o ho => (h.operands o ho).imp hA, hnodup.2⟩, ?_⟩
  · exact (h.program item hitem).imp hA (Nat.le_refl _)
  · exact valid_object.2 ⟨hnodup.1, h.fresh (by simp [hb])⟩

theorem appends (h : m.Veiled n₀) {b : NodeId} {builders : List NodeId} (hb : m.builders = b :: builders)
    {e : Graph.Entry Object} {c : Cluster} {d : Datum} (he : m.store.pool.entries[b]? = some e)
    (hc : e.node = .cluster c) (hd : Valid (· ∉ m.builders) m.next (.datum d)) :
    (m.withEntry b (e.renew (.cluster { c with items := c.items ++ [d] }))).Veiled n₀ ∧
      ∀ var index body m',
        m'.store = (m.withEntry b (e.renew (.cluster { c with items := c.items ++ [d] }))).store →
        (Op.iterate var (index + 1) body).Frames m m' ∧ m.Appends m' d := by
  refine ⟨h.insert (h.guarded.store.below b e he) ?_ nofun, fun var index body m' hs => ⟨?_, ?_⟩⟩
  · have hin := h.guarded.store.pointers b e he
    simp only [hc, Graph.Entry.node_renew, Node.pointers, Object.pointers, Within.append,
      List.filterMap_append] at hin ⊢
    refine ⟨⟨hin.1, within_data.2 fun d' hd' => ?_⟩, hin.2⟩
    rw [List.mem_singleton.1 hd']
    exact hd
  · intro id e₁ e₂ he₁ he₂
    rw [hs] at he₂
    rcases getElem?_insert_cases he₂ with ⟨rfl, rfl⟩ | ⟨_, he₂⟩
    · cases he.symm.trans he₁
      rw [hc]
      exact .inr (.append (by rw [hb]; rfl))
    · cases he₁.symm.trans he₂
      exact .inl rfl
  · refine ⟨b, builders, c, hb, Pool.get_eq_ok_iff.2 ⟨e, he, hc⟩,
      Pool.get_eq_ok_iff.2 ⟨e.renew (.cluster { c with items := c.items ++ [d] }), ?_, rfl⟩⟩
    rw [hs]
    exact Std.ExtTreeMap.getElem?_insert_self

end Machine.Veiled

namespace MachineM.Ends

theorem element? {P : Program → Prop} {A : NodeId → Prop} {source : Value} {index : Nat}
    (hm : Closed P A m.store) (hv : Valid A m.next source) :
    Ends (MachineM.element? source index) m (· = m) fun v? m' =>
      m' = m ∧ ∀ v, v? = some v → Valid A m.next v := by
  unfold MachineM.element?
  split
  · rename_i id
    refine onRead (R := fun n v? => ∀ v, v? = some v → Valid A n v) (.element id index)
      (.bind (StoreM.Keeps.fetchCluster (valid_object.1 hv).1) fun n₁ _ c hc => ?_) hm
    dsimp only
    cases hi : c.items[index]? with
    | none => exact .ret fun _ _ => nofun
    | some d =>
      refine .bind (StoreM.Keeps.load (hc d (List.mem_of_getElem? hi))) fun n₂ _ v hv => .ret fun n₃ h₃ w hw => ?_
      cases hw
      exact hv.mono h₃
  · split
    · refine ret ⟨rfl, fun v hv => ?_⟩
      split at hv
      · cases hv
        simp [Valid, Value.node?, Datum.node?]
      · cases hv
    · exact fail rfl
  · exact fail rfl

theorem schedule {var : Name} {index : Nat} {body : Program} {source : Value} (h : m.Veiled n₀)
    (hb : Old n₀ body) (hv : Valid (· ∉ m.builders) m.next source) :
    Ends (MachineM.schedule var index body source) m (· = m) fun e m' =>
      m'.store = m.store ∧ m'.Veiled n₀ ∧ e.Clear n₀ (· ∉ m'.builders) m'.next := by
  rw [schedule_eq]
  refine bind (element? h.guarded.store.closed hv) fun v? m₁ ⟨hm₁, hv?⟩ => ?_
  obtain rfl : m = m₁ := hm₁.symm
  split
  · rename_i element _
    refine ret ⟨rfl, h, fun item hitem => ?_⟩
    have hitem : item ∈ [.op .pushFrame none, .value element, .var var, .op (.assign 1) none] ∨ item ∈ body ∨
        item ∈ [.op .popFrame none, .value source, .op (.iterate var (index + 1) body) none] := by
      simpa only [MachineM.round, List.mem_append, or_assoc] using hitem
    rcases hitem with hitem | hitem | hitem
    · simp only [List.mem_cons, List.not_mem_nil, or_false] at hitem
      rcases hitem with rfl | rfl | rfl | rfl
      · simp [Item.Clear, Op.nodes]
      · exact hv? element rfl
      · simp [Item.Clear, Item.nodes]
      · simp [Item.Clear, Op.nodes]
    · exact hb.clear h.guarded.early h.guarded.base item hitem
    · simp only [List.mem_cons, List.not_mem_nil, or_false] at hitem
      rcases hitem with rfl | rfl | rfl
      · simp [Item.Clear, Op.nodes]
      · exact hv
      · exact hb
  · refine getThen ?_
    split
    · exact fail rfl
    · rename_i b builders hbuilders
      obtain ⟨hclosed, hb⟩ := h.closes hbuilders
      exact modifyThen (ret ⟨rfl, hclosed, hb⟩)

theorem openCluster {var : Name} {body : Program} {source : Operand} (h : m.Veiled n₀)
    (hb : Old n₀ body) (hs : Within (· ∉ m.builders) m.next source.node?.toList) :
    Ends (MachineM.openCluster var body source) m ((Op.iterate var 0 body).Failed n₀ m)
      ((Op.iterate var 0 body).Leaves n₀ m) := by
  refine okThen h.failed fun v hv => allocateThen h.failed fun pins id s ha => modifyThen ?_
  obtain ⟨hopen, rfl, hn, hold⟩ := h.opens ha
  have hv' : Valid (· ∉ m.builders) m.next v := by
    cases source <;> cases hv
    exact hs
  have hframes : ∀ m', m'.store = s → (Op.iterate var 0 body).Frames m m' := by
    rintro m' rfl id e e' he he'
    have hlt := h.guarded.store.below id e he
    cases he.symm.trans (hold id e' (Nat.ne_of_lt hlt) he')
    exact .inl rfl
  refine (schedule hopen hb fun i hi => ?_).imp (fun m' hm' => ?_) fun e m' ⟨hs', hm', he⟩ => ?_
  · have hlt := (hv' i hi).2
    exact ⟨by simpa [Nat.ne_of_lt hlt] using (hv' i hi).1, Nat.lt_of_lt_of_eq (Nat.lt_succ_of_lt hlt) hn.symm⟩
  · subst hm'
    exact ⟨⟨_, hopen.guarded⟩, hframes _ rfl⟩
  · exact ⟨hm', he, hframes m' hs'⟩

theorem addResult {var : Name} {index : Nat} {body : Program} {result source : Operand} (h : m.Veiled n₀)
    (hb : Old n₀ body) (hr : Within (· ∉ m.builders) m.next result.node?.toList)
    (hs : Within (· ∉ m.builders) m.next source.node?.toList) :
    Ends (MachineM.addResult var (index + 1) body result source) m
      ((Op.iterate var (index + 1) body).Failed n₀ m) fun e m' =>
        (Op.iterate var (index + 1) body).Leaves n₀ m e m' ∧
          ∃ d, result = .value (.datum d) ∧ m.Appends m' d := by
  refine okThen h.failed fun v hv => okThen h.failed fun w hw => okThen h.failed fun d hd => getThen ?_
  obtain rfl : result = .value v := by cases result <;> cases hv; rfl
  obtain rfl : source = .value w := by cases source <;> cases hw; rfl
  obtain rfl := Value.eq_of_toDatum hd
  split
  · exact fail h.failed
  rename_i b builders hbuilders
  refine bind (update (R := fun _ m₁ => ∃ e c, m.store.pool.entries[b]? = some e ∧ e.node = .cluster c ∧
    m₁ = m.withEntry b (e.renew (.cluster { c with items := c.items ++ [d] }))) h.failed
    fun e c he hc => ⟨e, c, he, hc, rfl⟩) ?_
  rintro _ _ ⟨e, c, he, hc, rfl⟩
  obtain ⟨hfull, happended⟩ := h.appends hbuilders he hc hr
  refine (schedule hfull hb hs).imp (fun m' hm' => ?_) fun e' m' hm' => ?_
  · subst hm'
    exact ⟨⟨_, hfull.guarded⟩, (happended var index body _ rfl).1⟩
  · obtain ⟨hs', hm', he'⟩ := hm'
    obtain ⟨hframes, happends⟩ := happended var index body m' hs'
    exact ⟨⟨hm', he', hframes⟩, d, rfl, happends⟩

/-- Whatever operands an operation finds, as long as there are as many as it takes. -/
theorem perform {op : Op} {args : List Operand} (h : m.Veiled n₀) (hnodes : ∀ id ∈ op.nodes, id < n₀)
    (hlen : args.length = op.arity) (hargs : ∀ o ∈ args, Within (· ∉ m.builders) m.next o.node?.toList) :
    Ends (MachineM.perform op args) m (op.Failed n₀ m) fun e m' => op.Leaves n₀ m e m' ∧
      ∀ var index body, op = .iterate var (index + 1) body →
        ∃ d source, args = [.value (.datum d), source] ∧ m.Appends m' d := by
  have hother : (∀ var index body, op ≠ .iterate var (index + 1) body) →
      Ends (MachineM.perform op args) m (op.Failed n₀ m) (op.Leaves n₀ m) →
      Ends (MachineM.perform op args) m (op.Failed n₀ m) fun e m' => op.Leaves n₀ m e m' ∧
        ∀ var index body, op = .iterate var (index + 1) body →
          ∃ d source, args = [.value (.datum d), source] ∧ m.Appends m' d :=
    fun hne hx => hx.imp (fun _ h => h) fun _ _ h => ⟨h, fun var index body heq => absurd heq (hne var index body)⟩
  cases op with
  | iterate var index body =>
    cases index with
    | zero =>
      obtain ⟨source, rfl⟩ := List.length_eq_one_iff.1 hlen
      exact hother (by simp) (openCluster h hnodes (hargs source (by simp)))
    | succ index =>
      obtain ⟨result, source, rfl⟩ := List.length_eq_two.1 hlen
      refine (addResult h hnodes (hargs result (by simp)) (hargs source (by simp))).imp (fun _ h => h)
        fun e m' ⟨hleaves, d, hd, happends⟩ => ⟨hleaves, fun _ _ _ _ => ⟨d, source, by rw [hd], happends⟩⟩
  | setDependencies =>
    obtain rfl := List.length_eq_zero_iff.1 hlen
    exact hother (by simp) (setDependencies h)
  | _ => exact hother (by simp) (of_steady h trivial hnodes hlen hargs)

end MachineM.Ends

end

end Mosaic
