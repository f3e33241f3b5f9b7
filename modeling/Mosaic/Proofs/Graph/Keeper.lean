import Mosaic.Graph.Keeper
import Mosaic.Graph.Workbench
import Mosaic.Proofs.Graph.Client

/-!
# Nothing dangles for a keeper

No operation checks the pointers it is given, and an allocation may collect before the new node has its
edges. What saves the graph is `Pool.Closed`: every edge leads to a live node, and every pointer that a
node reports is an edge. A collection keeps whatever a held handle reaches (`Pool.exists_collect`), so
what the keeper stores is still live when its edges are made. So in every state that a keeper can reach
collections succeed and handles are good (`dependable_of_steps`).
-/

namespace Mosaic.Graph

open Std (LawfulEqCmp)

/-! ## Edges -/

namespace Edges

variable (e : Edges) (xs : List NodeId) {x t : NodeId}

theorem mem_targets_iff : t ∈ e.targets ↔ t ∈ e := Std.ExtTreeMap.mem_keys

theorem mem_targets_of_count (h : 0 < e.count t) : t ∈ e.targets := by
  rw [mem_targets_iff]
  by_contra hmem
  simp [count, Std.ExtTreeMap.getD_eq_fallback hmem] at h

theorem mem_targets_add : t ∈ (e.add x).targets ↔ x = t ∨ t ∈ e.targets := by
  simp [mem_targets_iff, add, Std.ExtTreeMap.mem_insert]

theorem mem_targets_of_remove (h : t ∈ (e.remove x).targets) : t ∈ e.targets := by
  rw [mem_targets_iff] at h ⊢
  unfold remove at h
  split at h
  next hc =>
    rcases Std.ExtTreeMap.mem_insert.1 h with heq | h
    · cases LawfulEqCmp.eq_of_compare heq
      exact (mem_targets_iff e).1 (mem_targets_of_count e (by omega))
    · exact h
  next => exact Std.ExtTreeMap.mem_of_mem_erase h

theorem mem_targets_of_addAll (h : t ∈ (e.addAll xs).targets) : t ∈ xs ∨ t ∈ e.targets := by
  induction xs generalizing e with
  | nil => exact .inr h
  | cons x xs ih =>
    rcases ih (e.add x) h with h | h
    · exact .inl (List.mem_cons_of_mem _ h)
    · rcases (mem_targets_add e).1 h with rfl | h
      exacts [.inl (List.mem_cons_self ..), .inr h]

theorem mem_targets_of_removeAll (h : t ∈ (e.removeAll xs).targets) : t ∈ e.targets := by
  induction xs generalizing e with
  | nil => exact h
  | cons x xs ih => exact mem_targets_of_remove e (ih (e.remove x) h)

theorem count_addAll (t : NodeId) : (e.addAll xs).count t = e.count t + xs.count t := by
  induction xs generalizing e with
  | nil => simp [addAll]
  | cons x xs ih =>
    refine (ih (e.add x)).trans ?_
    rw [count_add, List.count_cons]
    by_cases h : x = t
    · simp only [h, if_true, beq_self_eq_true]
      omega
    · simp [h]

end Edges

namespace Entry

variable {ν : Type} [Node ν] {e : Entry ν} {node : ν} {t : NodeId}

/-- Every pointer of the node is among its edges. -/
def Counted (e : Entry ν) : Prop := ∀ t, (Node.pointers e.node).count t ≤ e.edges.count t

theorem Counted.mem_targets (h : e.Counted) (ht : t ∈ Node.pointers e.node) : t ∈ e.edges.targets :=
  e.edges.mem_targets_of_count ((List.count_pos_iff.2 ht).trans_le (h t))

theorem mem_targets_of_renew (h : t ∈ (e.renew node).edges.targets) :
    t ∈ Node.pointers node ∨ t ∈ e.edges.targets := by
  unfold renew at h
  dsimp only at h
  split at h
  · exact .inr h
  · exact (Edges.mem_targets_of_addAll _ _ h).imp_right (Edges.mem_targets_of_removeAll _ _)

/-- Taking the old pointers away leaves the edges that were linked. -/
theorem Counted.renew (h : e.Counted) : (e.renew node).Counted := by
  intro t
  unfold Entry.renew
  dsimp only
  split
  next heq => rw [← heq]; exact h t
  next => rw [Edges.count_addAll]; exact Nat.le_add_left _ _

theorem Counted.add (h : e.Counted) : Counted { e with edges := e.edges.add t } := fun t' =>
  (h t').trans ((Edges.count_add e.edges t t').symm ▸ Nat.le_add_right _ _)

theorem counted_new (node : ν) : Counted ⟨node, Edges.addAll {} (Node.pointers node)⟩ := fun t => by
  rw [Edges.count_addAll]
  exact Nat.le_add_left _ _

end Entry

/-! ## Pools without dangling edges -/

namespace Pool

variable {ν α : Type} [Node ν] {p p' : Pool ν} {id : NodeId}

/-- Edges lead to live nodes, and pointers are edges. -/
structure Closed (p : Pool ν) : Prop where
  live : ∀ owner target, p.Points owner target → p.contains target = true
  counted : ∀ (id : NodeId) e, p.entries[id]? = some e → e.Counted

theorem Closed.contains_of_reaches (h : p.Closed) {start : NodeId} (hs : p.contains start = true)
    (hr : Relation.ReflTransGen p.Points start id) : p.contains id = true := by
  induction hr with
  | refl => exact hs
  | tail _ hp _ => exact h.live _ _ hp

theorem Closed.of_entries (h : p.Closed) (he : p'.entries = p.entries) : p'.Closed where
  live owner target hp := by
    obtain ⟨e, hg, ht⟩ := hp
    rw [contains, he]
    exact h.live owner target ⟨e, he ▸ hg, ht⟩
  counted id e hg := h.counted id e (he ▸ hg)

theorem Closed.insert (h : p.Closed) {e : Entry ν} (hc : e.Counted)
    (ht : ∀ t ∈ e.edges.targets, p.contains t = true) (hp : p'.entries = p.entries.insert id e) :
    p'.Closed where
  live owner target hpoints := by
    have hmono (t : NodeId) (hlive : p.contains t = true) : p'.contains t = true := by
      rw [contains, hp, Std.ExtTreeMap.contains_insert, Bool.or_eq_true]
      exact .inr hlive
    obtain ⟨e', hg, hmem⟩ := hpoints
    rw [hp] at hg
    rcases getElem?_insert_cases hg with ⟨rfl, rfl⟩ | ⟨_, hg⟩
    · exact hmono target (ht target hmem)
    · exact hmono target (h.live owner target ⟨e', hg, hmem⟩)
  counted i e' hg := by
    rw [hp] at hg
    rcases getElem?_insert_cases hg with ⟨rfl, rfl⟩ | ⟨_, hg⟩
    · exact hc
    · exact h.counted i e' hg

theorem Closed.allocate (h : p.Closed) (node : ν)
    (hr : ∀ t ∈ Node.pointers node, p.contains t = true) : (p.allocate node).2.Closed := by
  refine h.insert (Entry.counted_new node) (fun t ht => ?_) rfl
  rcases Edges.mem_targets_of_addAll _ _ ht with ht | ht
  · exact hr t ht
  · simp [Edges.targets] at ht

theorem Closed.update (h : p.Closed) {k : Kind ν α} {f : α → α}
    (hr : ∀ a, p.get k id = .ok a → ∀ t ∈ Node.pointers (k.wrap (f a)), p.contains t = true)
    (hu : p.update k id f = .ok p') : p'.Closed := by
  obtain ⟨e, a, he, ha, rfl⟩ := update_eq_ok hu
  refine h.insert (h.counted id e he).renew (fun t ht => ?_) rfl
  rcases Entry.mem_targets_of_renew ht with ht | ht
  · exact hr a (get_eq_ok_iff.2 ⟨e, he, ha⟩) t ht
  · exact h.live id t ⟨e, he, ht⟩

theorem Closed.link (h : p.Closed) {owner target : NodeId} (hl : p.link owner target = .ok p') :
    p'.Closed := by
  have htarget : p.contains target = true := by
    unfold Pool.link at hl
    split at hl
    · cases hl
    · split at hl
      next hc => exact hc
      next => cases hl
  obtain ⟨e, he, rfl⟩ := link_eq_ok hl
  refine h.insert (h.counted owner e he).add (fun t ht => ?_) rfl
  rcases (Edges.mem_targets_add e.edges).1 ht with rfl | ht
  · exact htarget
  · exact h.live owner t ⟨e, he, ht⟩

/-- A collection from live roots succeeds, keeps what they reach, and leaves no edge dangling. -/
theorem Closed.exists_collect (h : p.Closed) (hroots : ∀ id ∈ p.handles, p.contains id = true) :
    ∃ c p', p.collect {} = .ok (c, p') ∧ p'.Closed ∧
      ∀ start ∈ p.handles, ∀ id, Relation.ReflTransGen p.Points start id → p'.contains id = true := by
  have hmem (id : NodeId) : id ∈ (p.roots {}).toList ↔ id ∈ p.handles := by simp [roots]
  have hwalk : ∃ r, walk p.entries {} (p.roots {}).toList = .ok r := by
    refine walk_succeeds (fun id => p.contains id = true) (fun id hid => ?_)
      fun id hid => hroots id ((hmem id).1 hid)
    obtain ⟨e, he⟩ := exists_of_contains hid
    exact .inr ⟨e, he, fun t ht => h.live id t ⟨e, he, ht⟩⟩
  obtain ⟨⟨left, kept⟩, hwalk⟩ := hwalk
  have hsub {id : NodeId} {e : Entry ν} (he : kept[id]? = some e) : p.entries[id]? = some e :=
    (walk_sub hwalk he).resolve_left (by simp)
  have hclosed {id : NodeId} {e : Entry ν} (he : kept[id]? = some e) :
      ∀ t ∈ e.edges.targets, kept.contains t = true := walk_closed hwalk he (by simp)
  refine ⟨_, { p with entries := kept }, by rw [collect, hwalk]; rfl, ⟨?_, ?_⟩, ?_⟩
  · rintro owner target ⟨e, he, ht⟩
    exact hclosed he target ht
  · exact fun id e he => h.counted id e (hsub he)
  · intro start hs id hr
    induction hr with
    | refl => exact walk_work hwalk start ((hmem start).2 hs)
    | tail _ hp ih =>
      obtain ⟨e, he, ht⟩ := hp
      obtain ⟨e', he'⟩ := exists_of_contains ih
      cases (hsub he').symm.trans he
      exact hclosed he' _ ht

end Pool

/-! ## Keepers -/

/-- A kind that all nodes of its name are of. -/
def Kind.Full {ν α : Type} [Node ν] (k : Kind ν α) : Prop :=
  ∀ n, Node.kindName n = k.name → ∃ a, n = k.wrap a

namespace Keeper

variable {ν α : Type} [Node ν] {c c' : Keeper ν} {p : Pool ν} {id : NodeId}

/-- What the keeper does with nodes and handles, as the client of a pool. -/
def client (c : Keeper ν) (t : Tables ν) (p : Pool ν) : Client ν where
  tables := t
  pool := p
  holds := c.holds
  issued := c.issued

/-- What every step keeps: handles are counted and held nodes live, and nothing dangles. -/
structure Intact (c : Keeper ν) : Prop where
  sound : ∃ t, (c.client t c.heap.pool).Sound
  closed : c.heap.pool.Closed

/-- What is left of the keeper's pool is still good for it. -/
structure Kept (c : Keeper ν) (p : Pool ν) : Prop where
  sound : ∃ t, (c.client t p).Sound
  closed : p.Closed
  reached : ∀ id, c.Reaches id → p.contains id = true

namespace Intact

/-- The addresses with handles are those of the handles that are held. -/
theorem mem_handles (hc : c.Intact) : id ∈ c.heap.pool.handles ↔ ∃ h ∈ c.holds, h.id = id := by
  obtain ⟨t, hs⟩ := hc.sound
  have hcount : c.heap.pool.handleCount id = (c.holds.map Hold.id).count id := hs.count id
  have hmem : id ∈ c.heap.pool.handles ↔ 0 < c.heap.pool.handleCount id := by
    rw [Std.ExtTreeMap.mem_iff_isSome_getElem?, Pool.handleCount,
      Std.ExtTreeMap.getD_eq_getD_getElem?, show c.heap.pool.handles[id]? = _ from hs.stores.handles id]
    cases h : (Option.filter (0 < ·) (t.roots[id]?)) with
    | none => simp [client, h]
    | some n => simpa [client, h] using (Option.filter_eq_some_iff.1 h).2
  rw [hmem, hcount, List.count_pos_iff, List.mem_map]

theorem held (hc : c.Intact) {h : Hold} (hh : h ∈ c.holds) : ∃ e, c.heap.pool.entries[h.id]? = some e ∧
    ∀ kind, h.kind? = some kind → Node.kindName e.node = kind := by
  obtain ⟨t, hs⟩ := hc.sound
  exact hs.held h hh

theorem reached (hc : c.Intact) (hr : c.Reaches id) : c.heap.pool.contains id = true := by
  obtain ⟨h, hh, hr⟩ := hr
  obtain ⟨e, he, -⟩ := hc.held hh
  exact hc.closed.contains_of_reaches (Pool.contains_of_getElem? he) hr

theorem kept (hc : c.Intact) : c.Kept c.heap.pool := ⟨hc.sound, hc.closed, fun _ => hc.reached⟩

theorem exists_collect (hc : c.Intact) : ∃ r, c.heap.pool.collect {} = .ok r ∧ c.Kept r.2 := by
  obtain ⟨s, p, hp, hclosed, hreach⟩ := hc.closed.exists_collect fun id hid => by
    obtain ⟨h, hh, rfl⟩ := hc.mem_handles.1 hid
    exact hc.reached ⟨h, hh, .refl⟩
  obtain ⟨t, hs⟩ := hc.sound
  have hmark := hs.stores.collect_mark
  rw [show (c.client t c.heap.pool).pool.collect {} = _ from hp] at hmark
  obtain ⟨r, hm, hstores, -⟩ := hmark
  exact ⟨(s, p), hp, ⟨t.prune r, hs.prune hm hp hstores⟩, hclosed,
    fun id ⟨h, hh, hr⟩ => hreach h.id (hc.mem_handles.2 ⟨h, hh, rfl⟩) id hr⟩

theorem exists_collectHeap (hc : c.Intact) : ∃ r, c.heap.collect {} = .ok r ∧ c.Kept r.2.pool := by
  obtain ⟨r, hr, hk⟩ := hc.exists_collect
  exact ⟨_, by rw [Heap.collect, hr]; rfl, hk⟩

theorem exists_collectIfDue (hc : c.Intact) :
    ∃ g, c.heap.collectIfDue (Thunk.pure {}) = .ok g ∧ c.Kept g.pool := by
  unfold Heap.collectIfDue
  split
  · obtain ⟨r, hr, hk⟩ := hc.exists_collectHeap
    exact ⟨r.2, by rw [show (Thunk.pure ({} : NodeSet)).get = {} from rfl, hr]; rfl, hk⟩
  · exact ⟨c.heap, rfl, hc.kept⟩

theorem exists_allocate (hc : c.Intact) (node : ν) :
    ∃ r p, c.heap.allocate (Thunk.pure {}) node = .ok r ∧ c.Kept p ∧
      r.1 = (p.allocate node).1 ∧ r.2.pool = (p.allocate node).2 := by
  obtain ⟨g, hg, hk⟩ := hc.exists_collectIfDue
  exact ⟨_, g.pool, by rw [Heap.allocate, hg]; rfl, hk, rfl, rfl⟩

end Intact

/-- The new node's pointers are reached, so its edges lead to nodes that are still there. -/
theorem Kept.receive (hk : c.Kept p) {node : ν} {r : NodeId × Heap ν} (hid : r.1 = (p.allocate node).1)
    (hp : r.2.pool = (p.allocate node).2) (hr : ∀ t ∈ Node.pointers node, c.Reaches t) :
    (c.receive node r).Intact := by
  obtain ⟨t, hs⟩ := hk.sound
  have htables : (t.allocate node).1 = (p.allocate node).1 := (hs.stores.allocate hs.next_free node).1
  have hallocate := hs.allocate node
  simp only [client, htables] at hallocate
  refine ⟨⟨(t.allocate node).2, ?_⟩, ?_⟩
  · simp only [Keeper.receive, client, hid, hp]
    exact hallocate
  · refine (hk.closed.allocate node fun t ht => hk.reached t (hr t ht)).of_entries ?_
    simp [Keeper.receive, hp, Pool.acquire]

namespace Intact

theorem of_kept (hk : c.Kept p) {heap : Heap ν} (hp : heap.pool = p) :
    Intact { c with heap } := by
  subst hp
  exact ⟨hk.sound, hk.closed⟩

theorem of_holds (hc : c.Intact) {t : Tables ν} {p : Pool ν} {holds : List Hold}
    (hs : Client.Sound { tables := t, pool := p, holds, issued := c.issued })
    (hp : p.entries = c.heap.pool.entries) :
    Intact { c with heap := { c.heap with pool := p }, holds } :=
  ⟨⟨t, hs⟩, hc.closed.of_entries hp⟩

theorem step (hc : c.Intact) (hs : Step c c') : c'.Intact := by
  obtain ⟨t, hsound⟩ := hc.sound
  cases hs with
  | allocate node hr =>
    obtain ⟨r, p, ha, hk, hid, hp⟩ := hc.exists_allocate node
    rw [ha]
    exact hk.receive hid hp hr
  | place node hr => exact hc.kept.receive rfl rfl hr
  | update k id f hh hr =>
    refine ⟨⟨_, hsound.update k id f⟩, ?_⟩
    cases hu : c.heap.pool.update k id f with
    | error fault => exact hc.closed
    | ok p => exact hc.closed.update (fun a ha t ht => hc.reached (hr a ha t ht)) hu
  | link owner target =>
    refine ⟨⟨_, hsound.link owner target⟩, ?_⟩
    cases hl : c.heap.pool.link owner target with
    | error fault => exact hc.closed
    | ok p => exact hc.closed.link hl
  | root k id =>
    cases hg : c.heap.pool.get k id with
    | error fault =>
      rw [Pool.hold, hg]
      exact hc
    | ok a =>
      rw [Pool.hold, hg]
      obtain ⟨e, he, ha⟩ := Pool.get_eq_ok_iff.1 hg
      refine hc.of_holds (hsound.acquire (h := .published k.name id) he fun kind hk => ?_) rfl
      rw [ha, k.kindName_wrap]
      exact Option.some.inj hk
  | read => exact hc
  | freeze kind id hh => exact hc.of_holds (hsound.exchange hh rfl fun _ hk => hk) rfl
  | guard h hh => exact hc.of_holds (hsound.exchange hh rfl fun _ hk => nomatch hk) rfl
  | copy h hh _ =>
    obtain ⟨e, he, hk⟩ := hc.held hh
    exact hc.of_holds (hsound.acquire he hk) rfl
  | drop h hh =>
    exact hc.of_holds (hsound.release hh) (Pool.entries_release ..)
  | collect =>
    obtain ⟨r, hr, hk⟩ := hc.exists_collectHeap
    rw [hr]
    exact of_kept hk rfl
  | collectPool =>
    obtain ⟨r, hr, hk⟩ := hc.exists_collect
    rw [hr]
    exact of_kept hk rfl

theorem steps (hc : c.Intact) (hs : Relation.ReflTransGen Step c c') : c'.Intact := by
  induction hs with
  | refl => exact hc
  | tail _ hs ih => exact ih.step hs

theorem init (n : Nat) : Intact ({ heap := { collectEvery := n } } : Keeper ν) where
  sound := ⟨{}, Client.Sound.init⟩
  closed := ⟨fun _ _ ⟨e, he, _⟩ => by simp at he, fun _ e he => by simp at he⟩

end Intact

/-! ## What a keeper can rely on -/

/-- What a keeper can rely on in a state. -/
structure Dependable (c : Keeper ν) : Prop where
  /-- Every edge of a live node leads to a live node. -/
  edges_live : ∀ owner target, c.heap.pool.Points owner target → c.heap.pool.contains target = true
  /-- Every pointer that a live node reports is an edge. -/
  pointers_points : ∀ (id : NodeId) e, c.heap.pool.entries[id]? = some e →
    ∀ t ∈ Node.pointers e.node, c.heap.pool.Points id t
  /-- What is reached from a handle is live, as a node of the kind that the address was given out for,
  and can be read. -/
  reached : ∀ id, c.Reaches id → ∃ e, c.heap.pool.entries[id]? = some e ∧
    (id, Node.kindName e.node) ∈ c.issued ∧ ∀ {α : Type} (k : Kind ν α), k.Full →
      (id, k.name) ∈ c.issued → ∃ a, c.heap.pool.get k id = .ok a ∧ e.node = k.wrap a
  collects : ∃ r, c.heap.collect {} = .ok r
  collectsPool : ∃ r, c.heap.pool.collect {} = .ok r
  /-- No allocation fails in the collection that it makes first. -/
  allocates : ∀ node : ν, ∃ r, c.heap.allocate (Thunk.pure {}) node = .ok r
  /-- A handle is good for reading its node and for another handle on it. -/
  gets : ∀ {α : Type} (k : Kind ν α), k.Full → ∀ h ∈ c.holds, h.kind? = some k.name →
    (∃ a, c.heap.pool.get k h.id = .ok a) ∧ ∃ p, c.heap.pool.hold k h.id = .ok p
  updates : ∀ {α : Type} (k : Kind ν α), k.Full → ∀ id, .mutable k.name id ∈ c.holds →
    ∀ f, ∃ p, c.heap.pool.update k id f = .ok p

theorem Intact.dependable (hc : c.Intact) : c.Dependable where
  edges_live := hc.closed.live
  pointers_points id e he t ht := ⟨e, he, (hc.closed.counted id e he).mem_targets ht⟩
  reached id hr := by
    obtain ⟨t, hs⟩ := hc.sound
    obtain ⟨e, he⟩ := Pool.exists_of_contains (hc.reached hr)
    have hissued : (id, Node.kindName e.node) ∈ c.issued := hs.issued id e he
    refine ⟨e, he, hissued, fun k hk hi => ?_⟩
    have hname := congrArg Prod.snd (List.inj_on_of_nodup_map hs.once hissued hi rfl)
    obtain ⟨a, ha⟩ := hk e.node hname
    exact ⟨a, Pool.get_eq_ok_iff.2 ⟨e, he, ha⟩, ha⟩
  collects := hc.exists_collectHeap.imp fun _ h => h.1
  collectsPool := hc.exists_collect.imp fun _ h => h.1
  allocates node := by
    obtain ⟨r, p, ha, -⟩ := hc.exists_allocate node
    exact ⟨r, ha⟩
  gets k hk h hh hkind := by
    obtain ⟨e, he, hname⟩ := hc.held hh
    obtain ⟨a, ha⟩ := hk e.node (hname _ hkind)
    have hget := Pool.get_eq_ok_iff.2 ⟨e, he, ha⟩
    exact ⟨⟨a, hget⟩, _, by rw [Pool.hold, hget]; rfl⟩
  updates k hk id hh f := by
    obtain ⟨e, he, hname⟩ := hc.held hh
    obtain ⟨a, ha⟩ := hk e.node (hname _ rfl)
    exact ⟨_, Pool.update_of_entry he ha⟩

/-- Whatever a keeper does, nothing dangles and nothing fails: every edge leads to a live node, what is
reached from a handle can be read, collections succeed, and handles are good. -/
theorem dependable_of_steps (n : Nat)
    (h : Relation.ReflTransGen Step ({ heap := { collectEvery := n } } : Keeper ν) c) : c.Dependable :=
  ((Intact.init n).steps h).dependable

/-- Of two cells that point at each other one has no handle; it is reached through the other. -/
theorem dependable_of_steps_pair : ∃ c : Keeper Cell,
    Relation.ReflTransGen Step ({ heap := { collectEvery := 5 } } : Keeper Cell) c ∧
      c.holds = [.mutable "Alpha" 1] ∧ (∃ r, c.heap.collect {} = .ok r) ∧
        ∃ next, c.heap.pool.get Cell.alphas 2 = .ok next := by
  have halphas : Cell.alphas.Full := fun n hn => by
    cases n with
    | alpha next => exact ⟨next, rfl⟩
    | beta next => exact absurd hn (show "Beta" ≠ "Alpha" by decide)
  have h : Relation.ReflTransGen Step ({ heap := { collectEvery := 5 } } : Keeper Cell) _ :=
    .tail (.tail (.tail (.tail .refl
      (.allocate _ (.alpha []) (by simp [Node.pointers])))
      (.allocate _ (.alpha [1]) (fun t ht => ⟨.mutable "Alpha" 1, by decide, by
        rw [List.mem_singleton.1 ht]; exact .refl⟩)))
      (.update _ Cell.alphas 1 (fun _ => [2]) (by decide) (fun a _ t ht =>
        ⟨.mutable "Alpha" 2, by decide, by rw [List.mem_singleton.1 ht]; exact .refl⟩)))
      (.drop _ (.mutable "Alpha" 2) (by decide))
  have hc := dependable_of_steps 5 h
  refine ⟨_, h, rfl, hc.collects, ?_⟩
  obtain ⟨e, he, -, hread⟩ := hc.reached 2 ⟨.mutable "Alpha" 1, by decide, .single ⟨_, rfl, by decide⟩⟩
  exact (hread Cell.alphas halphas (by decide)).imp fun _ h => h.1

end Keeper

end Mosaic.Graph
