import Mosaic.Proofs.Cadence.Fragment

/-!
# Stores that share a fragment

The edges of every object of the fragment are counted exactly, so a collection keeps what can be reached
from its roots and never fails. Each store may keep more alive than the other does (`Harbors`): nodes that
are pinned for it alone, and those on which its objects own handles. One lemma says what becomes of the
shared fragment in an allocation, and one what becomes of it when an object is replaced.
-/

namespace Mosaic.Graph

/-! ## Exact edges -/

namespace Edges

variable {e : Edges} {l l' xs : List NodeId} {t : NodeId}

/-- The edges are those of the pointers in the list. -/
def Counts (e : Edges) (l : List NodeId) : Prop :=
  ∀ t : NodeId, e[t]? = if l.count t = 0 then none else some (l.count t)

namespace Counts

theorem nil : Counts {} [] := fun t => by simp

theorem congr (h : e.Counts l) (hl : ∀ t, l.count t = l'.count t) : e.Counts l' := fun t => by
  rw [h t, hl t]

theorem count_eq (h : e.Counts l) (t : NodeId) : e.count t = l.count t := by
  rw [Edges.count, Std.ExtTreeMap.getD_eq_getD_getElem?, h t]
  split <;> simp_all

theorem add (h : e.Counts l) : (e.add t).Counts (t :: l) := by
  intro t'
  rw [Edges.add, Std.ExtTreeMap.getElem?_insert, h.count_eq, h t', List.count_cons]
  by_cases ht : t = t'
  · subst ht
    simp
  · simp [ht]

theorem remove (h : e.Counts (t :: l)) : (e.remove t).Counts l := by
  intro t'
  have hcount : e.count t = l.count t + 1 := by rw [h.count_eq, List.count_cons_self]
  have ht' := h t'
  rw [Edges.remove, hcount]
  by_cases ht : t = t'
  · subst ht
    by_cases hc : l.count t = 0
    · rw [if_neg (by omega), Std.ExtTreeMap.getElem?_erase_self, if_pos hc]
    · rw [if_pos (by omega), Std.ExtTreeMap.getElem?_insert_self, if_neg hc]
      rfl
  · rw [List.count_cons_of_ne ht] at ht'
    split
    · rw [Std.ExtTreeMap.getElem?_insert, if_neg (by simpa using ht), ht']
    · rw [Std.ExtTreeMap.getElem?_erase, if_neg (by simpa using ht), ht']

theorem addAll (h : e.Counts l) : (e.addAll xs).Counts (l ++ xs) := by
  induction xs generalizing e l with
  | nil => simpa [Edges.addAll] using h
  | cons x xs ih =>
    refine (ih (h.add (t := x))).congr fun t => ?_
    simp only [List.count_append, List.count_cons]
    omega

theorem removeAll (h : e.Counts (xs ++ l)) : (e.removeAll xs).Counts l := by
  induction xs generalizing e with
  | nil => exact h
  | cons x xs ih => exact ih h.remove

theorem mem_targets (h : e.Counts l) : t ∈ e.targets ↔ t ∈ l := by
  rw [Edges.targets, Std.ExtTreeMap.mem_keys, Std.ExtTreeMap.mem_iff_isSome_getElem?, h t,
    ← List.count_pos_iff]
  by_cases hc : l.count t = 0
  · simp [hc]
  · simp [hc, Nat.pos_of_ne_zero hc]

end Counts

end Edges

theorem Pool.mem_roots {ν : Type} {p : Pool ν} {pins : NodeSet} {id : NodeId} :
    id ∈ (p.roots pins).toList ↔ id ∈ pins ∨ id ∈ p.handles := by
  simp [Pool.roots]

theorem Pool.mem_tethers {ν : Type} [Node ν] {p : Pool ν} {t : Tether} :
    t ∈ p.tethers ↔ ∃ (id : NodeId) (e : Entry ν), p.entries[id]? = some e ∧ t ∈ Node.tethers e.node := by
  simp only [Pool.tethers, List.mem_flatMap, mem_values]
  grind

theorem Entry.counts_renew {ν : Type} [Node ν] {e : Entry ν} {node : ν}
    (h : e.edges.Counts (Node.pointers e.node)) : (e.renew node).edges.Counts (Node.pointers node) := by
  unfold Entry.renew
  dsimp only
  split
  · rename_i heq
    rwa [← heq]
  · have hnil : (e.edges.removeAll (Node.pointers e.node)).Counts [] :=
      Edges.Counts.removeAll (by rwa [List.append_nil])
    exact hnil.addAll

end Mosaic.Graph

namespace Mosaic

open Mosaic.Graph (NodeId Node Kind Pool Heap Edges Entries)

/-- A lambda has the body of one that is in the fragment. -/
def Fragment.Embodies (g : Fragment) (o : Object) : Prop :=
  ∀ l, o = .lambda l → ∃ (i : NodeId) (l' : Lambda), g i = some (.lambda l') ∧ l'.body = l.body

/-! ## Hosts -/

/-- What is the same of all stores that are looked at, and what either keeps of its own. -/
structure Setting where
  handles : Std.ExtTreeMap NodeId Nat compare := {}
  /-- What is known of the bodies of lambdas. -/
  body : Program → Prop := fun _ => True
  body_nil : body [] := by trivial
  /-- New addresses are given out from here. -/
  start : NodeId := 1
  /-- Nodes that only the one store keeps alive. -/
  left : List NodeId := []
  /-- Nodes that only the other store keeps alive. -/
  right : List NodeId := []

/-- The nodes that are kept alive: those with handles, and the pinned ones. -/
def Setting.Roots (E : Setting) (pins : Pins) (P : List NodeId) : Prop :=
  ∀ id, id ∈ pins.get ∨ id ∈ E.handles ↔ id ∈ P

/-- With these pins, both stores keep the nodes in `P` alive, and each its own. -/
structure Setting.Pinned (E : Setting) (pins pins' : Pins) (P : List NodeId) : Prop where
  left : E.Roots pins (P ++ E.left)
  right : E.Roots pins' (P ++ E.right)

theorem Setting.Roots.also {E : Setting} {pins : Pins} {P X : List NodeId} (h : E.Roots pins (P ++ X))
    {ids P' : List NodeId} (hP' : ∀ id, id ∈ P' ↔ id ∈ P ∨ id ∈ ids) :
    E.Roots (pins.also fun _ => ids) (P' ++ X) := by
  intro id
  have hid := h id
  rw [List.mem_append] at hid ⊢
  rw [Pins.mem_also, hP']
  grind

theorem Setting.Pinned.also {E : Setting} {pins pins' : Pins} {P ids P' : List NodeId}
    (h : E.Pinned pins pins' P) (hP' : ∀ id, id ∈ P' ↔ id ∈ P ∨ id ∈ ids) :
    E.Pinned (pins.also fun _ => ids) (pins'.also fun _ => ids) P' :=
  ⟨h.left.also hP', h.right.also hP'⟩

/-- The store has the objects of the fragment, with exact edges. -/
structure Hosts (E : Setting) (g : Fragment) (s : Store) : Prop where
  handles : s.pool.handles = E.handles
  entry : ∀ id o, g id = some o →
    ∃ e, s.pool.entries[id]? = some e ∧ e.node = o ∧ e.edges.Counts o.pointers
  body : ∀ (id : NodeId) e l, s.pool.entries[id]? = some e → e.node = .lambda l → E.body l.body

namespace Hosts

variable {E : Setting} {g : Fragment} {s : Store} {P : List NodeId} {id : NodeId} {o : Object}

/-- A collection succeeds, and keeps what can be reached from its pins. -/
theorem collectIfDue (h : Hosts E g s) (hg : g.Closed) {pins : Pins}
    (hpins : E.Roots pins P) (hP : ∀ id ∈ P, (g id).isSome = true) :
    ∃ s', s.collectIfDue pins = .ok s' ∧ Hosts E (g.cut P) s' ∧ s'.pool.next = s.pool.next ∧
      s'.totals.allocations = s.totals.allocations := by
  have hcut : ∀ id o, g.cut P id = some o →
      ∃ e, s.pool.entries[id]? = some e ∧ e.node = o ∧ e.edges.Counts o.pointers :=
    fun id o ho => h.entry id o (Fragment.eq_of_cut ho).1
  unfold Heap.collectIfDue
  by_cases hdue : s.collectEvery < s.sinceCollect
  · rw [if_pos hdue]
    have hroots : ∀ id, id ∈ (s.pool.roots pins.get).toList ↔ id ∈ P := by
      intro id
      rw [Pool.mem_roots, h.handles]
      exact hpins id
    -- What the walk comes across is in the fragment.
    have hwalk : ∃ r, Pool.walk s.pool.entries {} (s.pool.roots pins.get).toList = .ok r := by
      refine Pool.walk_succeeds (fun id => (g id).isSome = true) (fun id hid => .inr ?_)
        fun id hid => hP id ((hroots id).1 hid)
      obtain ⟨o, ho⟩ := Option.isSome_iff_exists.1 hid
      obtain ⟨e, he, hn, hc⟩ := h.entry id o ho
      refine ⟨e, he, fun t ht => ?_⟩
      rw [hc.mem_targets, Object.pointers_eq, List.mem_map] at ht
      obtain ⟨l, hl, rfl⟩ := ht
      obtain ⟨o', ho', _⟩ := hg id o ho l hl
      simp [ho']
    obtain ⟨⟨left, kept⟩, hwalk⟩ := hwalk
    refine ⟨_, by simp only [Heap.collect, Pool.collect, hwalk, Except.map]; rfl, ?_⟩
    have hsub : ∀ (id : NodeId) e, kept[id]? = some e → s.pool.entries[id]? = some e := by
      intro id e he
      rcases Pool.walk_sub hwalk he with he | he
      · simp at he
      · exact he
    have hkept : ∀ id, g.Reach P id → kept.contains id = true := by
      intro id hid
      induction hid with
      | root hid => exact Pool.walk_work hwalk _ ((hroots _).2 hid)
      | @link id o l _ ho hl ih =>
        obtain ⟨e, he⟩ := Pool.exists_of_contains ih
        obtain ⟨e', he', hn, hc⟩ := h.entry id o ho
        obtain rfl : e' = e := by simpa [he'] using hsub id e he
        refine Pool.walk_closed hwalk he (by simp) _ (hc.mem_targets.2 ?_)
        rw [Object.pointers_eq]
        exact List.mem_map_of_mem hl
    refine ⟨⟨h.handles, fun id o ho => ?_, fun id e l he => h.body id e l (hsub id e he)⟩, rfl, rfl⟩
    obtain ⟨e, he, hn, hc⟩ := hcut id o ho
    obtain ⟨e', he'⟩ := Pool.exists_of_contains (hkept id (Fragment.eq_of_cut ho).2)
    obtain rfl : e = e' := by simpa [he] using hsub id e' he'
    exact ⟨e, he', hn, hc⟩
  · rw [if_neg hdue]
    exact ⟨s, rfl, ⟨h.handles, hcut, h.body⟩, rfl, rfl⟩

theorem insert (h : Hosts E g s) (e : Graph.Entry Object) (hn : e.node = o)
    (hc : e.edges.Counts o.pointers) (hb : ∀ l, o = .lambda l → E.body l.body) (next : NodeId)
    (kinds : List String) :
    Hosts E (Function.update g id (some o))
      { s with pool :=
        { s.pool with entries := s.pool.entries.insert id e, next, kinds } } := by
  refine ⟨h.handles, fun i o' ho' => ?_, fun i e' l he' hl => ?_⟩
  · by_cases hi : i = id
    · subst hi
      rw [Function.update_self, Option.some.injEq] at ho'
      subst ho'
      exact ⟨e, by simp, hn, hc⟩
    · rw [Function.update_of_ne hi] at ho'
      obtain ⟨e', he', hn', hc'⟩ := h.entry i o' ho'
      refine ⟨e', ?_, hn', hc'⟩
      dsimp only
      rw [Std.ExtTreeMap.getElem?_insert, if_neg (by simpa using fun heq => hi heq.symm), he']
  · rcases getElem?_insert_cases he' with ⟨rfl, rfl⟩ | ⟨_, he'⟩
    · exact hb l (hn.symm.trans hl)
    · exact h.body i e' l he' hl

theorem withTotals (h : Hosts E g s) (sinceCollect : Nat) (totals : Graph.Totals) :
    Hosts E g { s with sinceCollect, totals } :=
  ⟨h.handles, h.entry, h.body⟩

/-- An allocation cuts the fragment down to what can be reached from the pins, and adds the object. -/
theorem allocate (h : Hosts E g s) (hg : g.Closed) {pins : Pins}
    (hpins : E.Roots pins P) (hP : ∀ id ∈ P, (g id).isSome = true)
    (hb : ∀ l, o = .lambda l → E.body l.body) :
    ∃ s', s.allocate pins o = .ok (s.pool.next, s') ∧
      Hosts E (Function.update (g.cut P) s.pool.next (some o)) s' ∧
      s'.pool.next = s.pool.next + 1 ∧
      s'.totals.allocations = s.totals.allocations + 1 := by
  obtain ⟨s₁, hcollect, h₁, hnext, halloc⟩ := h.collectIfDue hg hpins hP
  rw [← hnext, ← halloc]
  refine ⟨_, by simp only [Heap.allocate, hcollect, Except.map]; rfl, ?_, rfl, rfl⟩
  exact (h₁.insert ⟨o, _⟩ rfl Edges.Counts.nil.addAll hb _ _).withTotals _ _

theorem get {α : Type} {k : Kind Object α} {a : α} (h : Hosts E g s) (ha : g id = some (k.wrap a)) :
    s.pool.get k id = .ok a := by
  obtain ⟨e, he, hn, _⟩ := h.entry id _ ha
  exact Pool.get_eq_ok_iff.2 ⟨e, he, hn⟩

theorem update {α : Type} {k : Kind Object α} {a : α} {f : α → α} (h : Hosts E g s)
    (ha : g id = some (k.wrap a)) (hb : ∀ l, k.wrap (f a) = .lambda l → E.body l.body) :
    ∃ p, s.pool.update k id f = .ok p ∧ p.next = s.pool.next ∧
      Hosts E (Function.update g id (some (k.wrap (f a)))) { s with pool := p } := by
  obtain ⟨e, he, hn, hc⟩ := h.entry id _ ha
  rw [← hn] at hc
  exact ⟨_, Pool.update_of_entry he hn, rfl,
    h.insert _ (Graph.Entry.node_renew e _) (Graph.Entry.counts_renew hc) hb _ _⟩

end Hosts

theorem ObjectType.nodeName_injective : Function.Injective ObjectType.nodeName := by
  intro t t' h
  cases t <;> cases t' <;> simp [ObjectType.nodeName] at h ⊢

theorem Kind.type_wrap {α : Type} (k : Kind Object α) (a b : α) : (k.wrap a).type = (k.wrap b).type :=
  ObjectType.nodeName_injective ((k.kindName_wrap a).trans (k.kindName_wrap b).symm)

/-! ## What a store keeps of its own -/

/-- The nodes on which the objects of a store own handles. -/
def Store.tethered (s : Store) : List NodeId := s.pool.tethers.map Prod.snd

theorem Store.mem_tethered {s : Store} {id : NodeId} :
    id ∈ s.tethered ↔ ∃ (i : NodeId) (e : Graph.Entry Object), s.pool.entries[i]? = some e ∧
      id ∈ e.node.tethers.map Prod.snd := by
  simp only [tethered, List.mem_map, Pool.mem_tethers]
  constructor
  · rintro ⟨t, ⟨i, e, he, ht⟩, rfl⟩
    exact ⟨i, e, he, t, ht, rfl⟩
  · rintro ⟨i, e, he, t, ht, rfl⟩
    exact ⟨t, ⟨i, e, he, ht⟩, rfl⟩

/-- The store has the objects of the fragment, and besides them the nodes in `X`, those on which its objects
own handles, and what they all point at. -/
def Harbors (E : Setting) (X : List NodeId) (g : Fragment) (s : Store) : Prop :=
  ∃ k : Fragment, (∀ id o, g id = some o → k id = some o) ∧ k.Closed ∧ Hosts E k s ∧
    (∀ id ∈ X ++ s.tethered, (k id).isSome = true) ∧ ∀ id o, k id = some o → id < s.pool.next

namespace Harbors

variable {E : Setting} {X P : List NodeId} {g : Fragment} {s : Store} {id : NodeId} {o : Object}

theorem of_hosts (h : Hosts E g s) (hg : g.Closed) (hX : ∀ id ∈ X ++ s.tethered, (g id).isSome = true)
    (hbelow : ∀ id o, g id = some o → id < s.pool.next) : Harbors E X g s :=
  ⟨g, fun _ _ ho => ho, hg, h, hX, hbelow⟩

theorem hosts (h : Harbors E X g s) : Hosts E g s := by
  obtain ⟨k, hsub, -, hk, -⟩ := h
  exact ⟨hk.handles, fun id o ho => hk.entry id o (hsub id o ho), hk.body⟩

theorem below (h : Harbors E X g s) (ho : g id = some o) : id < s.pool.next := by
  obtain ⟨k, hsub, -, -, -, hbelow⟩ := h
  exact hbelow id o (hsub id o ho)

/-- What is pinned for an allocation: the roots, and what the objects own handles on. -/
theorem roots_pinsFor {pins : Pins} (hpins : E.Roots pins (P ++ X)) (ho : o.tethers = []) :
    E.Roots (StoreM.pinsFor o s pins) (P ++ (X ++ s.tethered)) := by
  rw [← List.append_assoc]
  intro id
  have hid := hpins id
  rw [StoreM.pinsFor, Pins.mem_also, ho, List.nil_append, List.mem_append (t := s.tethered), ← hid]
  exact or_right_comm

theorem tethered_of_allocate {pins : Pins} {s' : Store} (h : s.allocate pins o = .ok (id, s'))
    (ho : o.tethers = []) : s'.tethered ⊆ s.tethered := by
  obtain ⟨s₁, hcollect, rfl, rfl⟩ := Heap.allocate_eq_ok h
  obtain ⟨-, -, -, hsub⟩ := Heap.collectIfDue_sub hcollect
  intro t ht
  obtain ⟨i, e, he, ht⟩ := Store.mem_tethered.1 ht
  rcases getElem?_insert_cases he with ⟨rfl, rfl⟩ | ⟨_, he⟩
  · rw [ho] at ht
    cases ht
  · exact Store.mem_tethered.2 ⟨i, e, hsub i e he, ht⟩

theorem allocate (h : Harbors E X g s) {pins : Pins} (hpins : E.Roots pins (P ++ X))
    (hP : ∀ id ∈ P, (g id).isSome = true) (ho : ∀ l ∈ o.links, g.Reach P l.2 ∧ g.At l.1 l.2)
    (hb : ∀ l, o = .lambda l → E.body l.body) (hfree : o.tethers = []) :
    ∃ s', s.allocate (StoreM.pinsFor o s pins) o = .ok (s.pool.next, s') ∧
      Harbors E X (Function.update (g.cut P) s.pool.next (some o)) s' ∧
      s'.pool.next = s.pool.next + 1 ∧ s'.totals.allocations = s.totals.allocations + 1 := by
  obtain ⟨k, hsub, hclosed, hk, hX, hbelow⟩ := h
  have hroots : ∀ id ∈ P ++ (X ++ s.tethered), (k id).isSome = true := by
    intro id hid
    rcases List.mem_append.1 hid with hid | hid
    · obtain ⟨o, ho⟩ := Option.isSome_iff_exists.1 (hP id hid)
      simp [hsub id o ho]
    · exact hX id hid
  obtain ⟨s', hs, hhosts, hnext, halloc⟩ := hk.allocate hclosed (roots_pinsFor hpins hfree) hroots hb
  have hfresh : ∀ o', k.cut (P ++ (X ++ s.tethered)) s.pool.next ≠ some o' := fun o' ho' =>
    absurd (hbelow _ o' (Fragment.eq_of_cut ho').1) (Nat.lt_irrefl _)
  refine ⟨s', hs, ⟨_, Fragment.update_sub (Fragment.cut_sub hsub (List.subset_append_left P _)) _ o, ?_,
    hhosts, fun id hid => ?_, fun id o' ho' => ?_⟩, hnext, halloc⟩
  · refine hclosed.cut.update (fun t hat => ?_) fun l hl => ?_
    · obtain ⟨o', ho', _⟩ := hat
      exact (hfresh o' ho').elim
    · exact ((ho l hl).2.of_sub hsub).of_eq (Fragment.cut_of_reach
        ((ho l hl).1.of_sub hsub (List.subset_append_left P _)))
  · have hid' : id ∈ X ++ s.tethered :=
      List.append_subset.2 ⟨List.subset_append_left .., List.subset_append_of_subset_right _
        (tethered_of_allocate hs hfree)⟩ hid
    by_cases hi : id = s.pool.next
    · subst hi
      rw [Function.update_self]
      rfl
    · rw [Function.update_of_ne hi, Fragment.cut_of_reach (.root (List.mem_append_right P hid'))]
      exact hX id hid'
  · rw [hnext]
    by_cases hi : id = s.pool.next
    · rw [hi]
      exact Nat.lt_succ_self _
    · rw [Function.update_of_ne hi] at ho'
      exact Nat.lt_succ_of_lt (hbelow id o' (Fragment.eq_of_cut ho').1)

theorem tethers_of_embodies (h : Hosts E g s) (ho : g.Embodies o) :
    ∀ i ∈ o.tethers.map Prod.snd, i ∈ s.tethered := by
  intro i hi
  cases o with
  | lambda l =>
    obtain ⟨j, l', hl', hbody⟩ := ho l rfl
    obtain ⟨e, he, hn, _⟩ := h.entry j _ hl'
    refine Store.mem_tethered.2 ⟨j, e, he, ?_⟩
    rw [hn]
    show i ∈ (programTethers l'.body).map Prod.snd
    rwa [hbody]
  | _ => cases hi

theorem tethered_of_update {α : Type} {k : Kind Object α} {a : α} {f : α → α} {p : Pool Object}
    (h : Hosts E g s) (ha : g id = some (k.wrap a)) (hb : g.Embodies (k.wrap (f a)))
    (hp : s.pool.update k id f = .ok p) : Store.tethered { s with pool := p } ⊆ s.tethered := by
  obtain ⟨e, he, hn, _⟩ := h.entry id _ ha
  obtain rfl := Except.ok.inj ((Pool.update_of_entry he hn).symm.trans hp)
  intro i hi
  obtain ⟨j, e', he', hi⟩ := Store.mem_tethered.1 hi
  rcases getElem?_insert_cases he' with ⟨rfl, rfl⟩ | ⟨_, he'⟩
  · rw [Graph.Entry.node_renew] at hi
    exact tethers_of_embodies h hb i hi
  · exact Store.mem_tethered.2 ⟨j, e', he', hi⟩

theorem update {α : Type} {k : Kind Object α} {a : α} {f : α → α} (h : Harbors E X g s)
    (ha : g id = some (k.wrap a)) (hl : ∀ l ∈ (k.wrap (f a)).links, g.At l.1 l.2)
    (hb : g.Embodies (k.wrap (f a))) :
    ∃ p, s.pool.update k id f = .ok p ∧ p.next = s.pool.next ∧
      Harbors E X (Function.update g id (some (k.wrap (f a)))) { s with pool := p } := by
  have hhosts := h.hosts
  obtain ⟨g', hsub, hclosed, hg', hX, hbelow⟩ := h
  have ha' := hsub id _ ha
  have hbody : ∀ l, k.wrap (f a) = .lambda l → E.body l.body := fun l hl => by
    obtain ⟨i, l', hl', hbody⟩ := hb l hl
    obtain ⟨e, he, hn, _⟩ := hhosts.entry i _ hl'
    exact hbody ▸ hhosts.body i e l' he hn
  obtain ⟨p, hp, hnext, hupdated⟩ := hg'.update ha' hbody
  refine ⟨p, hp, hnext, _, Fragment.update_sub hsub id _, ?_, hupdated, fun i hi => ?_, fun i o' ho' => ?_⟩
  · refine hclosed.update (fun t hat => ?_) fun l hk => (hl l hk).of_sub hsub
    rw [← hat.type_eq ha']
    exact Kind.type_wrap k a (f a)
  · have hi' : i ∈ X ++ s.tethered :=
      List.append_subset.2 ⟨List.subset_append_left .., List.subset_append_of_subset_right _
        (tethered_of_update hhosts ha hb hp)⟩ hi
    by_cases hid : i = id
    · subst hid
      rw [Function.update_self]
      rfl
    · rw [Function.update_of_ne hid]
      exact hX i hi'
  · show i < p.next
    rw [hnext]
    by_cases hi : i = id
    · subst hi
      exact hbelow i _ ha'
    · rw [Function.update_of_ne hi] at ho'
      exact hbelow i o' ho'

end Harbors

/-! ## Twins -/

/-- The stores share the fragment, and give out the same addresses. -/
structure Twin (E : Setting) (g : Fragment) (s t : Store) : Prop where
  next : t.pool.next = s.pool.next
  allocations : t.totals.allocations = s.totals.allocations
  closed : g.Closed
  start_le : E.start ≤ s.pool.next
  harbors : Harbors E E.left g s
  harbors' : Harbors E E.right g t

namespace Twin

variable {E : Setting} {g : Fragment} {s t : Store} {P : List NodeId} {id : NodeId} {o : Object}

theorem left (h : Twin E g s t) : Hosts E g s := h.harbors.hosts

theorem right (h : Twin E g s t) : Hosts E g t := h.harbors'.hosts

theorem below (h : Twin E g s t) (id : NodeId) (o : Object) (ho : g id = some o) : id < s.pool.next :=
  h.harbors.below ho

theorem fresh (h : Twin E g s t) : g s.pool.next = none := by
  cases ho : g s.pool.next with
  | none => rfl
  | some o => exact absurd (h.below _ o ho) (Nat.lt_irrefl _)

theorem allocate (h : Twin E g s t) {pins pins' : Pins} (hpins : E.Pinned pins pins' P)
    (hP : ∀ id ∈ P, (g id).isSome = true)
    (ho : ∀ l ∈ o.links, g.Reach P l.2 ∧ g.At l.1 l.2) (hb : ∀ l, o = .lambda l → E.body l.body)
    (hfree : o.tethers = []) :
    ∃ s' t', s.allocate (StoreM.pinsFor o s pins) o = .ok (s.pool.next, s') ∧
      t.allocate (StoreM.pinsFor o t pins') o = .ok (s.pool.next, t') ∧
      Twin E (Function.update (g.cut P) s.pool.next (some o)) s' t' := by
  obtain ⟨s', hs, hleft, hnext, halloc⟩ := h.harbors.allocate hpins.left hP ho hb hfree
  obtain ⟨t', ht, hright, hnext', halloc'⟩ := h.harbors'.allocate hpins.right hP ho hb hfree
  rw [h.next] at ht hright
  refine ⟨s', t', hs, ht, ?_, ?_, ?_, ?_, hleft, hright⟩
  · rw [hnext, hnext', h.next]
  · rw [halloc, halloc', h.allocations]
  · refine h.closed.cut.update (fun t hat => ?_) fun l hl => ?_
    · obtain ⟨o', ho', _⟩ := hat
      cases h.fresh.symm.trans (Fragment.eq_of_cut ho').1
    · exact (ho l hl).2.of_eq (Fragment.cut_of_reach (ho l hl).1)
  · exact hnext ▸ Nat.le_succ_of_le h.start_le

theorem update {α : Type} {k : Kind Object α} {a : α} {f : α → α} (h : Twin E g s t)
    (ha : g id = some (k.wrap a)) (hl : ∀ l ∈ (k.wrap (f a)).links, g.At l.1 l.2)
    (hb : g.Embodies (k.wrap (f a))) :
    ∃ p q, s.pool.update k id f = .ok p ∧ t.pool.update k id f = .ok q ∧
      Twin E (Function.update g id (some (k.wrap (f a)))) { s with pool := p }
        { t with pool := q } := by
  obtain ⟨p, hp, hnext, hleft⟩ := h.harbors.update ha hl hb
  obtain ⟨q, hq, hnext', hright⟩ := h.harbors'.update ha hl hb
  refine ⟨p, q, hp, hq, hnext'.trans (h.next.trans hnext.symm), h.allocations, ?_,
    hnext.symm ▸ h.start_le, hleft, hright⟩
  refine h.closed.update (fun t hat => ?_) hl
  rw [← hat.type_eq ha]
  exact Kind.type_wrap k a (f a)

end Twin

end Mosaic
