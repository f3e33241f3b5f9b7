import Mosaic.Proofs.Cadence.Copy
import Mosaic.Proofs.Cadence.Counted
import Mosaic.Proofs.Cadence.Display

/-!
# Copies are isomorphic

The values of a list are copied one after the other, and what they share stays shared: what was copied is
what can be reached from the values (`Copied.domain`), so its number is that of the copies. In a store
without dangling edges (`Intact`) copying succeeds, whenever collections come between, and all that
`DeepCopy` says of its result holds.
-/

namespace Mosaic

open Mosaic.Graph (NodeId Node Kind Pool Entry Entries)

open Copies

/-! ## Values -/

/-- The nodes of some values. -/
abbrev nodesOf (vs : List Value) : List NodeId := vs.filterMap Value.node?

theorem nodesOf_cons (v : Value) (vs : List Value) : nodesOf (v :: vs) = v.node?.toList ++ nodesOf vs := by
  rw [nodesOf, List.filterMap_cons]
  cases v.node? <;> rfl

theorem Value.Like.self {ρ : NodeId → NodeId → Prop} {v : Value} (h : ∀ l, v.link? = some l → ρ l.2 l.2) :
    v.Like ρ v := by
  cases v with
  | datum d => exact ⟨d, rfl, .self h⟩
  | fieldRef => rfl

theorem Value.Like.sends {cs : Copies} {v w : Value} (h : v.Like cs.Sends w) :
    ∀ i ∈ v.node?.toList, ∃ j, cs.Sends i j := by
  intro i hi
  cases v with
  | fieldRef => cases hi
  | datum d =>
    obtain ⟨d', _, hlike⟩ := h
    cases d with
    | object t id =>
      obtain ⟨j, _, hj⟩ := hlike
      obtain rfl : i = id := by simpa [Value.node?, Datum.node?] using hi
      exact ⟨j, hj⟩
    | _ => cases hi

theorem Fragment.reach_nodesOf {g : Fragment} {P : List NodeId} {vs : List Value}
    (h : ∀ v ∈ vs, g.Rooted P v) : ∀ i ∈ nodesOf vs, g.Reach P i := by
  intro i hi
  obtain ⟨v, hv, hi⟩ := List.mem_filterMap.1 hi
  rw [Value.node?_eq_link?, Option.map_eq_some_iff] at hi
  obtain ⟨l, hl, rfl⟩ := hi
  exact (h v hv l hl).1

/-! ## What is copied -/

namespace Copied

variable {E : Setting} {P V V' : List NodeId} {U : NodeId → Prop} {cs : Copies} {g : Fragment} {i : NodeId}

theorem grow (h : Copied E P V U cs g) (hV : V ⊆ V') (hroot : ∀ v ∈ V', g.Reach P v) :
    Copied E P V' U cs g :=
  { h with rooted := hroot, origin := fun i j hc => (h.origin i j hc).mono hV }

theorem domain (h : Copied E P V (fun _ => False) cs g) (hV : ∀ v ∈ V, ∃ j, cs.Sends v j) :
    (∃ j, cs.Sends i j) ↔ g.Reach V i := by
  refine ⟨fun ⟨j, hj⟩ => h.origin i j hj, fun hi => ?_⟩
  induction hi with
  | root hi => exact hV _ hi
  | link _ ho hl ih =>
    obtain ⟨j, hj⟩ := ih
    obtain ⟨o, o', ho', _, hlike⟩ := h.like _ j hj id
    rw [ho] at ho'
    cases ho'
    obtain ⟨j', _, hj'⟩ := hlike.symm.exists_link hl
    exact ⟨j', hj'⟩

theorem size_eq (h : Copied E P V (fun _ => False) cs g) (hV : ∀ v ∈ V, ∃ j, cs.Sends v j) :
    cs.size = {i | g.Reach V i}.ncard := by
  rw [← Graph.ncard_contains]
  congr 1
  ext i
  rw [Set.mem_ofPred_eq, Set.mem_ofPred_eq, ← h.domain hV, Std.ExtTreeMap.contains_eq_isSome_getElem?,
    Option.isSome_iff_exists]
  rfl

end Copied

/-! ## Copying values -/

namespace CopyM.Agree

variable {E : Setting} {P V : List NodeId} {U : NodeId → Prop} {g : Fragment} {cs : Copies} {t : ObjectType}
  {id : NodeId} {v : Value} {vs : List Value}

theorem copyObject (hid : g.At t id) (hr : g.Reach V id) :
    Agree E P V U g cs (CopyM.copyObject t id) (CopyM.copyObject t id) fun cs' j => cs'.Sends id j := by
  intro hc pins pins' s s' hpins hP ht
  have hleft : ∀ {r : Store}, Hosts E g r → (cs.left V g).encard < (r.pool.size + 1 : Nat) := by
    intro r hr
    have hin : g.In r.pool := fun i o ho => (hr.entry i o ho).imp fun _ h => ⟨h.1, h.2.1⟩
    have hsize := Fragment.encard_le_size hin (V := V) fun i hi =>
      (hi.of_reach hc.rooted).isSome ht.closed fun i hi => hP i (List.mem_append_left _ hi)
    refine lt_of_le_of_lt ((Set.encard_le_encard fun i hi => hi.1).trans hsize) ?_
    exact_mod_cast Nat.lt_succ_self _
  rw [copyObject_run, StoreM.bind_apply, StoreM.bind_apply, StoreM.get_apply, StoreM.get_apply]
  exact copyNode hid hr (hleft ht.left) (hleft ht.right) hc pins pins' s s' hpins hP ht

theorem copyValue (hd : ∃ d, v = .datum d)
    (hv : ∀ l, v.link? = some l → g.At l.1 l.2 ∧ g.Reach V l.2) :
    Agree E P V U g cs (CopyM.copyValue v) (CopyM.copyValue v) fun cs' w => v.Like cs'.Sends w := by
  obtain ⟨d, rfl⟩ := hd
  cases d with
  | object t id =>
    obtain ⟨hat, hr⟩ := hv (t, id) rfl
    intro hc
    rw [copyValue_run]
    refine StoreM.Agree.bind (copyObject hat hr hc) fun g₁ r hlead hr₁ => ?_
    obtain ⟨hc₁, hext, hsame, hj⟩ := hr₁
    have hrP : g.Reach P id := hr.of_reach hc.rooted
    have hat₁ : g₁.At t r.1 := hc₁.at_copy hj (hlead.keeps.has hrP hat)
    refine StoreM.Agree.bind (StoreM.Agree.load (Fragment.good_object.2 hat₁)) fun g₂ w _ hw => ?_
    obtain ⟨rfl, rfl⟩ := hw
    exact StoreM.Agree.ret ⟨hc₁, hext, hsame, _, rfl, _, rfl, hj⟩
  | _ => exact ret ⟨_, rfl, rfl⟩

/-- Values that are copied after what can be reached from `V`. -/
theorem copyAll (hvs : ∀ v ∈ vs, (∃ d, v = .datum d) ∧ g.Rooted P v)
    (hc : Copied E P V (fun _ => False) cs g) (hV : ∀ v ∈ V, ∃ j, cs.Sends v j) :
    StoreM.Agree E P [] g ((Session.copyAll vs).run cs) ((Session.copyAll vs).run cs) fun g' r =>
      Copied E P (V ++ nodesOf vs) (fun _ => False) r.2 g' ∧ cs.Extends r.2 ∧
        (∀ v ∈ V ++ nodesOf vs, ∃ j, r.2.Sends v j) ∧
        List.Forall₂ (fun v c => v.Like r.2.Sends c.1) vs r.1 ∧
        ∀ k c, r.1[k]? = some c → c.2 = {i | g.Reach (V ++ nodesOf (vs.take (k + 1))) i}.ncard := by
  induction vs generalizing V g cs with
  | nil =>
    refine StoreM.Agree.ret ⟨?_, .refl cs, ?_, .nil, fun k c hk => ?_⟩
    · simpa using hc
    · simpa using hV
    · cases hk
  | cons v vs ih =>
    obtain ⟨hd, hv⟩ := hvs v (List.mem_cons_self ..)
    have hnode : ∀ l, v.link? = some l → l.2 ∈ v.node?.toList := fun l hl => by
      simp [Value.node?_eq_link?, hl]
    have hroot : ∀ i ∈ V ++ v.node?.toList, g.Reach P i := by
      intro i hi
      rcases List.mem_append.1 hi with hi | hi
      · exact hc.rooted i hi
      · have hone : ∀ w ∈ [v], g.Rooted P w := by simpa using hv
        exact Fragment.reach_nodesOf hone i (by simpa [nodesOf_cons] using hi)
    rw [Session.copyAll_cons_run, nodesOf_cons, ← List.append_assoc]
    refine StoreM.Agree.bind (copyValue hd (fun l hl => ⟨(hv l hl).2, .root (List.mem_append_right _
      (hnode l hl))⟩) (hc.grow (List.subset_append_left ..) hroot)) fun g₁ r₁ hlead hr₁ => ?_
    obtain ⟨hc₁, hext, _, hlike⟩ := hr₁
    have hV₁ : ∀ i ∈ V ++ v.node?.toList, ∃ j, r₁.2.Sends i j := by
      intro i hi
      rcases List.mem_append.1 hi with hi | hi
      · exact (hV i hi).imp fun j hj => hext i j hj
      · exact hlike.sends i hi
    have hreach : ∀ W : List NodeId, (∀ i ∈ W, g.Reach P i) → ∀ i, g₁.Reach W i ↔ g.Reach W i :=
      fun W hW i => (hlead.keeps.of_reach hW).reach_iff
    refine StoreM.Agree.bind (ih (fun w hw => ?_) hc₁ hV₁) fun g₂ r₂ _ hr₂ => StoreM.Agree.ret ?_
    · obtain ⟨hd, hw⟩ := hvs w (List.mem_cons_of_mem _ hw)
      exact ⟨hd, hw.keep hlead.keeps⟩
    obtain ⟨hc₂, hext₂, hV₂, hlikes, hcounts⟩ := hr₂
    refine ⟨hc₂, hext.trans hext₂, hV₂, .cons ?_ hlikes, fun k c hk => ?_⟩
    · obtain ⟨d, rfl⟩ := hd
      obtain ⟨d', hd', hlike⟩ := hlike
      exact ⟨d', hd', hlike.mono hext₂⟩
    · have hrooted : ∀ k, ∀ i ∈ V ++ v.node?.toList ++ nodesOf (vs.take k), g.Reach P i := by
        intro k i hi
        rcases List.mem_append.1 hi with hi | hi
        · exact hroot i hi
        · exact Fragment.reach_nodesOf
            (fun w hw => (hvs w (List.mem_cons_of_mem _ (List.mem_of_mem_take hw))).2) i hi
      rw [List.take_succ_cons, nodesOf_cons, ← List.append_assoc]
      cases k with
      | zero =>
        obtain rfl : (r₁.1, r₁.2.size) = c := Option.some.inj hk
        rw [List.take_zero, nodesOf, List.filterMap_nil, List.append_nil]
        simp only [hc₁.size_eq hV₁, hreach _ hroot]
      | succ k =>
        rw [hcounts k c hk]
        simp only [hreach _ (hrooted (k + 1))]

end CopyM.Agree

/-! ## Stores without dangling edges -/

/-- The objects of a pool. -/
def Fragment.of (p : Pool Object) : Fragment := fun id => (p.entries[id]?).map Entry.node

/-- Every pointer of a live node leads to a live node of the type it must have, and the edges of a node
are those of its pointers. The nodes on which live nodes own handles are live. -/
structure Intact (p : Pool Object) : Prop where
  below : ∀ (id : NodeId) e, p.entries[id]? = some e → id < p.next
  counts : ∀ (id : NodeId) e, p.entries[id]? = some e → e.edges.Counts e.node.pointers
  closed : (Fragment.of p).Closed
  tethered : ∀ t ∈ p.tethers, (Fragment.of p t.2).isSome = true

theorem Fragment.of_eq_some {p : Pool Object} {id : NodeId} {o : Object} :
    Fragment.of p id = some o ↔ ∃ e, p.entries[id]? = some e ∧ e.node = o := Option.map_eq_some_iff

/-- A store without dangling edges shares all of its objects with itself. -/
theorem Twin.of_intact {E : Setting} {s : Store} (h : Intact s.pool) (hhandles : s.pool.handles = E.handles)
    (hstart : E.start ≤ s.pool.next)
    (hbody : ∀ (id : NodeId) e l, s.pool.entries[id]? = some e → e.node = .lambda l → E.body l.body)
    (hleft : ∀ id ∈ E.left, (Fragment.of s.pool id).isSome = true)
    (hright : ∀ id ∈ E.right, (Fragment.of s.pool id).isSome = true) :
    Twin E (Fragment.of s.pool) s s := by
  have hhosts : Hosts E (Fragment.of s.pool) s := by
    refine ⟨hhandles, fun id o ho => ?_, hbody⟩
    obtain ⟨e, he, rfl⟩ := Fragment.of_eq_some.1 ho
    exact ⟨e, he, rfl, h.counts id e he⟩
  have hbelow : ∀ id o, Fragment.of s.pool id = some o → id < s.pool.next := by
    intro id o ho
    obtain ⟨e, he, _⟩ := Fragment.of_eq_some.1 ho
    exact h.below id e he
  have howned : ∀ id ∈ s.tethered, (Fragment.of s.pool id).isSome = true := by
    intro id hid
    obtain ⟨t, ht, rfl⟩ := List.mem_map.1 hid
    exact h.tethered t ht
  exact ⟨rfl, rfl, h.closed, hstart,
    .of_hosts hhosts h.closed (List.forall_mem_append.2 ⟨hleft, howned⟩) hbelow,
    .of_hosts hhosts h.closed (List.forall_mem_append.2 ⟨hright, howned⟩) hbelow⟩

/-- What came of copying the values: the copies are isomorphic to what can be reached from the values. -/
structure DeepCopy (roots : List NodeId) (s : Store) (vs : List Value) (rs : List (Value × Nat))
    (cs : Copies) (s' : Store) : Prop where
  /-- What can be reached from the values was copied. -/
  domain : ∀ i, (∃ j, cs.Sends i j) ↔ (Fragment.of s.pool).Reach (nodesOf vs) i
  /-- The copies are at the addresses that were given out. -/
  range : ∀ j, (∃ i, cs.Sends i j) ↔ s.pool.next ≤ j ∧ j < s'.pool.next
  injective : ∀ i i' j, cs.Sends i j → cs.Sends i' j → i = i'
  /-- A copy is like its original, with copies for what that points at. -/
  like : ∀ i j, cs.Sends i j → ∃ o o', Fragment.of s.pool i = some o ∧
    Fragment.of s'.pool j = some o' ∧ o.Like cs.Sends o'
  values : List.Forall₂ (fun v c => v.Like cs.Sends c.1) vs rs
  counted : ∀ k c, rs[k]? = some c →
    c.2 = {i | (Fragment.of s.pool).Reach (nodesOf (vs.take (k + 1))) i}.ncard
  /-- No copy points at an original. -/
  apart : ∀ i j o', cs.Sends i j → Fragment.of s'.pool j = some o' → ∀ l ∈ o'.links,
    ¬ (Fragment.of s.pool).Reach (nodesOf vs) l.2
  unchanged : (Fragment.of s.pool).Keeps roots (Fragment.of s'.pool)
  reached : ∀ i j, cs.Sends i j → (Fragment.of s'.pool).Reach (nodesOf (rs.map Prod.fst)) j
  shown : List.Forall₂ (fun v c => v.display s'.pool = v.display s.pool ∧
    c.1.display s'.pool = v.display s.pool) vs rs

/-- What holds of the copies when the last value was copied. -/
structure Made (E : Setting) (P : List NodeId) (s : Store) (vs : List Value) (rs : List (Value × Nat))
    (cs : Copies) (s' : Store) (g : Fragment) : Prop where
  twin : Twin E g s' s'
  keeps : (Fragment.of s.pool).Keeps P g
  copied : Copied E P (nodesOf vs) (fun _ => False) cs g
  covered : ∀ v ∈ nodesOf vs, ∃ j, cs.Sends v j
  values : List.Forall₂ (fun v c => v.Like cs.Sends c.1) vs rs
  counted : ∀ k c, rs[k]? = some c →
    c.2 = {i | (Fragment.of s.pool).Reach (nodesOf (vs.take (k + 1))) i}.ncard
  size : cs.size + E.start = s'.pool.next

namespace Made

variable {E : Setting} {P : List NodeId} {s s' : Store} {vs : List Value} {rs : List (Value × Nat)}
  {cs : Copies} {g : Fragment} {i j : NodeId}

theorem of_eq (h : Made E P s vs rs cs s' g) {o : Object} (ho : g i = some o) :
    Fragment.of s'.pool i = some o := by
  obtain ⟨e, he, hn, _⟩ := h.twin.left.entry i o ho
  exact Fragment.of_eq_some.2 ⟨e, he, hn⟩

/-- What can be reached from the values is as before. -/
theorem reach_iff (h : Made E P s vs rs cs s' g) (hP : ∀ v ∈ vs, (Fragment.of s.pool).Rooted P v) :
    g.Reach (nodesOf vs) i ↔ (Fragment.of s.pool).Reach (nodesOf vs) i :=
  (h.keeps.of_reach (Fragment.reach_nodesOf hP)).reach_iff

theorem reached (h : Made E P s vs rs cs s' g) (hi : g.Reach (nodesOf vs) i) (hj : cs.Sends i j) :
    (Fragment.of s'.pool).Reach (nodesOf (rs.map Prod.fst)) j := by
  induction hi generalizing j with
  | root hi =>
    obtain ⟨v, hv, hi⟩ := List.mem_filterMap.1 hi
    obtain ⟨r, hr, hlike⟩ := exists_of_forall₂ h.values.flip hv
    refine .root (List.mem_filterMap.2 ⟨r.1, List.mem_map_of_mem hr, ?_⟩)
    cases v with
    | fieldRef => cases hi
    | datum d =>
      obtain ⟨d', hd', hd⟩ := hlike
      cases d with
      | object t id =>
        cases hi
        obtain ⟨j', rfl, hj'⟩ := hd
        rw [hd', Option.some.inj (hj.symm.trans hj')]
        rfl
      | _ => cases hi
  | @link i₀ o l hr ho hl ih =>
    obtain ⟨j₀, hj₀⟩ := (h.copied.domain h.covered).2 hr
    obtain ⟨o₀, o', ho₀, ho', hlike⟩ := h.copied.like i₀ j₀ hj₀ id
    rw [ho] at ho₀
    cases ho₀
    obtain ⟨j', hl', hj'⟩ := hlike.symm.exists_link hl
    rw [Option.some.inj (hj.symm.trans hj')]
    exact .link (ih hj₀) (h.of_eq ho') hl'

theorem deepCopy (h : Made E P s vs rs cs s' g) (hs : Intact s.pool)
    (hroots : ∀ i ∈ P, (Fragment.of s.pool i).isSome = true)
    (hP : ∀ v ∈ vs, (Fragment.of s.pool).Rooted P v) (hE : E.start = s.pool.next) :
    DeepCopy P s vs rs cs s' := by
  have hold : ∀ i, (Fragment.of s.pool).Reach P i → ∃ o, Fragment.of s.pool i = some o := fun i hi =>
    Option.isSome_iff_exists.1 (hi.isSome hs.closed hroots)
  have hin : (Fragment.of s.pool).In s.pool := fun i o => Fragment.of_eq_some.1
  have hin' : g.In s'.pool := fun i o ho => Fragment.of_eq_some.1 (h.of_eq ho)
  have hlike : ∀ i j, cs.Sends i j → ∃ o o', Fragment.of s.pool i = some o ∧ g j = some o' ∧
      o.Like cs.Sends o' := by
    intro i j hij
    obtain ⟨o, o', ho, ho', hlike⟩ := h.copied.like i j hij id
    have hi : (Fragment.of s.pool).Reach P i :=
      ((h.reach_iff hP).1 (h.copied.origin i j hij)).of_reach (Fragment.reach_nodesOf hP)
    exact ⟨o, o', (h.keeps i hi).symm.trans ho, ho', hlike⟩
  have hnew : ∀ i j, cs.Sends i j → s.pool.next ≤ j ∧ j < s'.pool.next := by
    intro i j hij
    obtain ⟨_, o', _, ho', _⟩ := hlike i j hij
    exact ⟨hE ▸ h.copied.new i j hij, h.twin.below j o' ho'⟩
  have hcopies : Corresponds cs.Sends (Fragment.of s.pool) g :=
    ⟨hlike, fun i i' j j' hij hij' => ⟨fun heq => Option.some.inj (hij.symm.trans (heq ▸ hij')),
      fun heq => h.copied.injective i i' j hij (heq ▸ hij')⟩⟩
  refine ⟨fun i => (h.copied.domain h.covered).trans (h.reach_iff hP), fun j => ⟨fun ⟨i, hij⟩ => hnew i j hij,
    Copies.exists_of_size h.copied.injective hnew (hE ▸ h.size)⟩, h.copied.injective, fun i j hij => ?_,
    h.values, h.counted, fun i j o' hij ho' l hl hr => ?_, fun i hi => ?_, fun i j hij =>
    h.reached (h.copied.origin i j hij) hij, ?_⟩
  · obtain ⟨o, o', ho, ho', hlike⟩ := hlike i j hij
    exact ⟨o, o', ho, h.of_eq ho', hlike⟩
  · obtain ⟨o, p, _, hp, hlike⟩ := hlike i j hij
    rw [h.of_eq hp] at ho'
    cases ho'
    obtain ⟨i', _, hi'⟩ := hlike.exists_link hl
    obtain ⟨q, hq⟩ := hold l.2 (hr.of_reach (Fragment.reach_nodesOf hP))
    obtain ⟨e, he, _⟩ := Fragment.of_eq_some.1 hq
    exact absurd (hs.below l.2 e he) (Nat.not_lt.2 (hnew i' l.2 hi').1)
  · obtain ⟨o, ho⟩ := hold i hi
    rw [ho, h.of_eq ((h.keeps i hi).trans ho)]
  · refine ((List.forall₂_and_left _ _).2 ⟨hP, h.values⟩).imp fun v c hv => ⟨?_, ?_⟩
    · exact (Corresponds.of_keeps hs.closed hroots h.keeps).display_eq hs.closed hin hin'
        (.self fun l hl => ⟨rfl, (hv.1 l hl).1⟩) hv.1.good
    · exact hcopies.display_eq hs.closed hin hin' hv.2 hv.1.good

end Made

namespace Session

variable {pins : Pins} {s s' : Store} {v : Value} {vs : List Value} {rs : List (Value × Nat)} {cs : Copies}
  {t : ObjectType} {id : NodeId}

theorem copyValue_of_copyAll (h : (copyAll [v]).run {} pins s = .ok (rs, cs) s') :
    ∃ w, (CopyM.copyValue v).run {} pins s = .ok (w, cs) s' ∧ rs.map Prod.fst = [w] := by
  rw [copyAll_cons_run, StoreM.bind_apply] at h
  cases hr : (CopyM.copyValue v).run {} pins s with
  | error failure s₁ => rw [hr] at h; cases h
  | ok r s₁ => rw [hr] at h; cases h; exact ⟨r.1, rfl, rfl⟩

/-- Copying one value by itself does the same. -/
theorem copy_of_copyAll (h : (copyAll [v]).run {} pins s = .ok (rs, cs) s') :
    ∃ w, StoreM.copy v pins s = .ok w s' ∧ rs.map Prod.fst = [w] := by
  obtain ⟨w, hw, hrs⟩ := copyValue_of_copyAll h
  refine ⟨w, ?_, hrs⟩
  rw [StoreM.copy, StateT.run'_eq, map_eq_pure_bind, StoreM.bind_apply, hw]
  rfl

theorem copyObject_of_copyAll (h : (copyAll [.object t id]).run {} pins s = .ok (rs, cs) s') :
    ∃ j, StoreM.copyObject t id pins s = .ok j s' ∧ rs.map Prod.fst = [.object t j] := by
  obtain ⟨w, hw, hrs⟩ := copyValue_of_copyAll h
  rw [CopyM.copyValue_run, StoreM.bind_apply] at hw
  cases hr : (CopyM.copyObject t id).run {} pins s with
  | error failure s₁ => rw [hr] at hw; cases hw
  | ok r s₁ =>
    rw [hr] at hw
    dsimp only at hw
    rw [StoreM.bind_apply] at hw
    cases hl : StoreM.load (.object t r.1) pins s₁ with
    | error failure s₂ => rw [hl] at hw; cases hw
    | ok w' s₂ =>
      rw [hl] at hw
      cases hw
      obtain ⟨rfl, rfl⟩ := StoreM.load_eq_ok hl
      refine ⟨r.1, ?_, hrs⟩
      rw [StoreM.copyObject, StateT.run'_eq, map_eq_pure_bind, StoreM.bind_apply, hr]
      rfl

/-- Copying succeeds, whenever collections come between. -/
theorem copyAll_succeeds (hs : Intact s.pool)
    (hroots : ∀ i ∈ (s.pool.roots pins.get).toList, (Fragment.of s.pool i).isSome = true)
    (hvs : ∀ v ∈ vs, (∃ d, v = .datum d) ∧
      (Fragment.of s.pool).Rooted (s.pool.roots pins.get).toList v) :
    ∃ rs cs s' g', (copyAll vs).run {} pins s = .ok (rs, cs) s' ∧
      Made { handles := s.pool.handles, start := s.pool.next } (s.pool.roots pins.get).toList s vs rs cs s' g' := by
  have hroots' : Setting.Roots { handles := s.pool.handles, start := s.pool.next } pins
      ((s.pool.roots pins.get).toList ++ [] ++ []) := by
    intro id
    rw [List.append_nil, List.append_nil, Pool.mem_roots]
  have hagree := CopyM.Agree.copyAll (V := []) hvs (.empty (by simp)) (by simp) pins pins s s
    ⟨hroots', hroots'⟩ (by simpa using hroots)
    (Twin.of_intact hs rfl (Nat.le_refl _) (fun _ _ _ _ _ => trivial) nofun nofun)
  have hcounted := CopyM.Counted.copyAll (fun v hv => (hvs v hv).1) {} pins s
  cases hr : (copyAll vs).run {} pins s with
  | error failure s' =>
    rw [hr] at hagree
    cases hagree.2.1.symm.trans (hcounted.error hr)
  | ok r s' =>
    rw [hr] at hagree
    obtain ⟨-, g', ht, hlead, hc, -, hcovered, hvalues, hcount⟩ := hagree
    refine ⟨r.1, r.2, s', g', rfl, ht, hlead.keeps, hc, hcovered, hvalues, hcount, ?_⟩
    simpa using hcounted.ok hr

/-- Values of a store without dangling edges are copied without an error, and the copies are isomorphic to
the originals. The pins are the handles that are held throughout. Those that the body of a stored lambda owns
are not among them: they hold until the lambda is swept. -/
theorem copyAll_isomorphic (hs : Intact s.pool)
    (hroots : ∀ i ∈ (s.pool.roots pins.get).toList, (Fragment.of s.pool i).isSome = true)
    (hvs : ∀ v ∈ vs, (∃ d, v = .datum d) ∧
      (Fragment.of s.pool).Rooted (s.pool.roots pins.get).toList v) :
    ∃ rs cs s', (copyAll vs).run {} pins s = .ok (rs, cs) s' ∧
      DeepCopy (s.pool.roots pins.get).toList s vs rs cs s' ∧
      (∀ v, vs = [v] → ∃ w, StoreM.copy v pins s = .ok w s' ∧ rs.map Prod.fst = [w]) ∧
      ∀ t id, vs = [.object t id] →
        ∃ j, StoreM.copyObject t id pins s = .ok j s' ∧ rs.map Prod.fst = [.object t j] := by
  obtain ⟨rs, cs, s', g', hrun, hmade⟩ := copyAll_succeeds hs hroots hvs
  refine ⟨rs, cs, s', hrun, hmade.deepCopy hs hroots (fun v hv => (hvs v hv).2) rfl, ?_, ?_⟩
  · rintro v rfl
    exact copy_of_copyAll hrun
  · rintro t id rfl
    exact copyObject_of_copyAll hrun

/-- Two clusters that point at each other, one of them with a handle. A collection is due. -/
def facing : Store where
  pool :=
    { entries := (({} : Entries Object).insert 1 (entry [.object .cluster 2, .object .cluster 2])).insert 2
        (entry [.object .cluster 1, .text "a"])
      handles := ({} : Std.ExtTreeMap NodeId Nat compare).insert 1 1
      next := 3 }
  sinceCollect := 1
  collectEvery := 0
where
  entry (items : List Datum) : Entry Object :=
    ⟨.cluster { items }, Graph.Edges.addAll {} (Object.pointers (.cluster { items }))⟩

theorem facing_cases {e : Entry Object} (h : facing.pool.entries[id]? = some e) :
    id = 1 ∧ e = facing.entry [.object .cluster 2, .object .cluster 2] ∨
      id = 2 ∧ e = facing.entry [.object .cluster 1, .text "a"] := by
  rcases getElem?_insert_cases h with h | ⟨_, h⟩
  · exact .inr h
  rcases getElem?_insert_cases h with h | ⟨_, h⟩
  · exact .inl h
  · simp at h

theorem facing_at : (Fragment.of facing.pool).At .cluster 1 ∧ (Fragment.of facing.pool).At .cluster 2 :=
  ⟨⟨_, Fragment.of_eq_some.2 ⟨facing.entry [.object .cluster 2, .object .cluster 2], rfl, rfl⟩, rfl⟩,
    ⟨_, Fragment.of_eq_some.2 ⟨facing.entry [.object .cluster 1, .text "a"], rfl, rfl⟩, rfl⟩⟩

theorem facing_intact : Intact facing.pool := by
  refine ⟨fun id e he => ?_, fun id e he => ?_, fun id o ho l hl => ?_, nofun⟩
  · rcases facing_cases he with ⟨rfl, _⟩ | ⟨rfl, _⟩ <;> decide
  · rcases facing_cases he with ⟨_, rfl⟩ | ⟨_, rfl⟩ <;> exact Graph.Edges.Counts.nil.addAll
  · obtain ⟨e, he, rfl⟩ := Fragment.of_eq_some.1 ho
    rcases facing_cases he with ⟨_, rfl⟩ | ⟨_, rfl⟩
    · obtain rfl : l = (.cluster, 2) := by simpa [facing.entry, Object.links, Datum.link?] using hl
      exact facing_at.2
    · obtain rfl : l = (.cluster, 1) := by simpa [facing.entry, Object.links, Datum.link?] using hl
      exact facing_at.1

theorem facing_roots : (facing.pool.roots (Pins.of fun _ => []).get).toList = [1] := rfl

theorem facing_rooted : ∀ v ∈ [Value.object .cluster 1, .nil, .object .cluster 2],
    (∃ d, v = .datum d) ∧ (Fragment.of facing.pool).Rooted [1] v := by
  have hone : Fragment.of facing.pool 1 =
      some (facing.entry [.object .cluster 2, .object .cluster 2]).node := rfl
  have htwo : (Fragment.of facing.pool).Reach [1] 2 :=
    .link (l := (.cluster, 2)) (.root (by simp)) hone (by simp [facing.entry, Object.links, Datum.link?])
  simp only [List.forall_mem_cons, Fragment.Rooted]
  refine ⟨⟨⟨_, rfl⟩, fun l hl => ?_⟩, ⟨⟨_, rfl⟩, by rintro _ ⟨⟩⟩, ⟨⟨_, rfl⟩, fun l hl => ?_⟩, by simp⟩
  · cases hl
    exact ⟨.root (by simp), facing_at.1⟩
  · cases hl
    exact ⟨htwo, facing_at.2⟩

theorem copyAll_isomorphic_facing :
    Intact facing.pool ∧ (∀ i ∈ [1], (Fragment.of facing.pool i).isSome = true) ∧
      (∀ v ∈ [Value.object .cluster 1, .nil, .object .cluster 2],
        (∃ d, v = .datum d) ∧ (Fragment.of facing.pool).Rooted [1] v) ∧
      ∃ rs cs s', (copyAll [.object .cluster 1, .nil, .object .cluster 2]).run {}
          (.of fun _ => []) facing = .ok (rs, cs) s' ∧
        DeepCopy [1] facing [.object .cluster 1, .nil, .object .cluster 2] rs cs s' := by
  have hlive : ∀ i ∈ [1], (Fragment.of facing.pool i).isSome = true := by
    rintro i (_ | ⟨_, ⟨⟩⟩)
    rfl
  obtain ⟨rs, cs, s', hrun, hcopy, -⟩ := copyAll_isomorphic facing_intact (facing_roots ▸ hlive)
    (facing_roots ▸ facing_rooted)
  exact ⟨facing_intact, hlive, facing_rooted, rs, cs, s', hrun, facing_roots ▸ hcopy⟩

end Session

end Mosaic
