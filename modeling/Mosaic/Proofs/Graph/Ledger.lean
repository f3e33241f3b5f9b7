import Mosaic.Graph.Ledger
import Mosaic.Proofs.Graph.Client

/-!
# What a request does

The layout of a heap and the running one go side by side (`HeapTables.Stores`): they give the same answers,
and if a request fails, both are as they were, but that the layout has noted a collection that failed. What
a request may do to the heap, and what is written down of it, is a chain of few alterations
(`History.Alters`), from which every invariant of heaps and events is read off.
-/

namespace Mosaic.Graph

/-! ## Alterations -/

/-- The heap after an allocation that has no collection to make first. -/
def Heap.storing {ν : Type} [Node ν] (g : Heap ν) (node : ν) : Heap ν :=
  { g with
    pool := (g.pool.allocate node).2
    sinceCollect := g.sinceCollect + 1
    totals := { g.totals with allocations := g.totals.allocations + 1 } }

/-- The heap after some handles were let go of. -/
def Heap.lettingGo {ν : Type} (g : Heap ν) (ids : List NodeId) : Heap ν :=
  { g with pool := ids.foldl Pool.release g.pool }

/-- A heap, with what has happened to it, the last event first. -/
structure History (ν : Type) where
  heap : Heap ν
  events : List Event

namespace History

variable {ν : Type} [Node ν] {B : Prop} {s s' : History ν}

/-- What is done to a heap at once; some of it only past the heap, if `B` allows that. -/
inductive Alters (B : Prop) : History ν → History ν → Prop
  /-- Handles are taken or given up. -/
  | held {g : Heap ν} (es : List Event) {p : Pool ν} (entries : p.entries = g.pool.entries)
    (next : p.next = g.pool.next) : Alters B ⟨g, es⟩ ⟨{ g with pool := p }, es⟩
  | renewed {g : Heap ν} (es : List Event) {id : NodeId} {e : Entry ν}
    (found : g.pool.entries[id]? = some e) (node : ν) :
    Alters B ⟨g, es⟩
      ⟨{ g with pool := { g.pool with entries := g.pool.entries.insert id (e.renew node) } }, es⟩
  | linked {g : Heap ν} (es : List Event) {owner : NodeId} {e : Entry ν}
    (found : g.pool.entries[owner]? = some e) (target : NodeId) :
    Alters B ⟨g, es⟩
      ⟨{ g with pool := { g.pool with
          entries := g.pool.entries.insert owner { e with edges := e.edges.add target } } },
        .linked owner target :: es⟩
  | allocated {g : Heap ν} (es : List Event) (le : g.sinceCollect ≤ g.collectEvery) (node : ν) :
    Alters B ⟨g, es⟩ ⟨g.storing node, .allocated g.pool.next :: es⟩
  | collected {g g' : Heap ν} (es : List Event) {c : Collection} (h : g.collect {} = .ok (c, g')) :
    Alters B ⟨g, es⟩ ⟨g', .collected g'.pool.size :: es⟩
  | refused (g : Heap ν) (es : List Event) (fault : Fault) : Alters B ⟨g, es⟩ ⟨g, .refused fault :: es⟩
  | placed (g : Heap ν) (es : List Event) (h : B) (node : ν) :
    Alters B ⟨g, es⟩ ⟨{ g with pool := (g.pool.allocate node).2 }, es⟩
  | swept {g : Heap ν} (es : List Event) (h : B) {c : Collection} {p : Pool ν}
    (collected : g.pool.collect {} = .ok (c, p)) :
    Alters B ⟨g, es⟩ ⟨{ g with pool := p }, .collected p.size :: es⟩

theorem Alters.mono {B' : Prop} (h : B → B') (ha : Alters B s s') : Alters B' s s' := by
  cases ha with
  | held es entries next => exact .held es entries next
  | renewed es found node => exact .renewed es found node
  | linked es found target => exact .linked es found target
  | allocated es le node => exact .allocated es le node
  | collected es hc => exact .collected es hc
  | refused g es fault => exact .refused g es fault
  | placed g es hp node => exact .placed g es (h hp) node
  | swept es hp hc => exact .swept es (h hp) hc

theorem kept_of_alters {P : History ν → Prop} (step : ∀ {s s'}, P s → Alters B s s' → P s') (h : P s)
    (ha : Relation.ReflTransGen (Alters B) s s') : P s' := by
  induction ha with
  | refl => exact h
  | tail _ ha ih => exact step ih ha

end History

open History (Alters)

namespace Heap

variable {ν : Type} {g g' : Heap ν} {c : Collection}

theorem collect_eq_ok (h : g.collect {} = .ok (c, g')) : ∃ p, g.pool.collect {} = .ok (c, p) ∧
    g' = { g with
      pool := p
      sinceCollect := 0
      totals :=
        { g.totals with
          collections := g.totals.collections + 1
          swept := g.totals.swept + c.swept
          lastRetained := c.retained } } := by
  unfold collect at h
  cases hp : g.pool.collect {} with
  | error fault => rw [hp] at h; cases h
  | ok r => rw [hp] at h; cases h; exact ⟨_, rfl, rfl⟩

/-- No collection is due after one. -/
theorem le_of_collect (h : g.collect {} = .ok (c, g')) : g'.sinceCollect ≤ g'.collectEvery := by
  obtain ⟨p, -, rfl⟩ := collect_eq_ok h
  exact Nat.zero_le _

end Heap

theorem History.alters_lettingGo {ν : Type} [Node ν] {B : Prop} (g : Heap ν) (es : List Event)
    (ids : List NodeId) : Alters B ⟨g, es⟩ ⟨g.lettingGo ids, es⟩ :=
  .held es (g.pool.foldl_release ids).1 (g.pool.foldl_release ids).2.1

theorem History.Alters.collectEvery {ν : Type} [Node ν] {B : Prop} {s s' : History ν}
    (h : Alters B s s') : s'.heap.collectEvery = s.heap.collectEvery := by
  cases h with
  | collected es hc =>
    obtain ⟨p, -, rfl⟩ := Heap.collect_eq_ok hc
    rfl
  | _ => rfl

namespace Pool

variable {ν : Type} {p p' : Pool ν} {c : Collection}

/-- Every node is at an address that was given out. -/
def Dated (p : Pool ν) : Prop := ∀ (id : NodeId) e, p.entries[id]? = some e → id < p.next

theorem Dated.next_free (h : p.Dated) : p.entries[p.next]? = none := by
  cases he : p.entries[p.next]? with
  | none => rfl
  | some e => exact absurd (h _ e he) (Nat.lt_irrefl _)

theorem next_of_collect (h : p.collect {} = .ok (c, p')) : p'.next = p.next := by
  obtain ⟨_, _, _, rfl⟩ := collect_eq_ok h
  rfl

theorem Dated.insert (h : p.Dated) {id : NodeId} {e e' : Entry ν} (found : p.entries[id]? = some e) :
    Dated { p with entries := p.entries.insert id e' } := by
  intro i e₁ he
  rcases getElem?_insert_cases he with ⟨rfl, -⟩ | ⟨-, he⟩
  · exact h _ _ found
  · exact h i e₁ he

theorem Dated.collect (h : p.Dated) (hc : p.collect {} = .ok (c, p')) : p'.Dated := fun id e he =>
  next_of_collect hc ▸ h id e (collect_sub hc he)

theorem Dated.allocate [Node ν] (h : p.Dated) (node : ν) : (p.allocate node).2.Dated := by
  intro id e he
  rcases getElem?_insert_cases he with ⟨rfl, -⟩ | ⟨-, he⟩
  · exact Nat.lt_succ_self _
  · exact Nat.lt_succ_of_lt (h id e he)

theorem Dated.alters [Node ν] {B : Prop} {s s' : History ν} (h : s.heap.pool.Dated)
    (ha : Alters B s s') : s'.heap.pool.Dated := by
  cases ha with
  | held es entries next => exact fun id e he => next ▸ h id e (entries ▸ he)
  | renewed es found node => exact h.insert found
  | linked es found target => exact h.insert found
  | allocated es le node => exact h.allocate node
  | placed g es _ node => exact h.allocate node
  | collected es hc =>
    obtain ⟨p, hp, rfl⟩ := Heap.collect_eq_ok hc
    exact h.collect hp
  | swept es _ hc => exact h.collect hc
  | refused => exact h

end Pool

/-! ## The layout and the running heap -/

namespace HeapTables

variable {ν α : Type} [Node ν] {h : HeapTables ν} {g : Heap ν} {B : Prop} {outside : List Tether}

/-- The layout holds what the running heap does. -/
structure Stores (h : HeapTables ν) (g : Heap ν) : Prop where
  tables : h.tables.Stores g.pool
  sinceCollect : h.sinceCollect = g.sinceCollect
  collectEvery : h.collectEvery = g.collectEvery
  totals : h.totals = g.totals

/-- The layout has got from one running heap to another, by what its events say. -/
def Leads (B : Prop) (h : HeapTables ν) (g : Heap ν) (h' : HeapTables ν) (g' : Heap ν) : Prop :=
  h'.Stores g' ∧ Relation.ReflTransGen (Alters B) ⟨g, h.events⟩ ⟨g', h'.events⟩

/-- What an operation makes of the layout, if `r` is what it makes of the running pool. -/
def Follows (B : Prop) (h : HeapTables ν) (g : Heap ν) (s : Except Fault Unit × HeapTables ν)
    (r : Except Fault (Pool ν)) : Prop :=
  (s.1 = r.map fun _ => ()) ∧ Leads B h g s.2 { g with pool := r.toOption.getD g.pool }

namespace Stores

/-! ### Operations of the pool -/

theorem with_tables (hs : h.Stores g) {t : Tables ν} {p : Pool ν} (ht : t.Stores p)
    (hentries : p.entries = g.pool.entries) (hnext : p.next = g.pool.next) :
    Leads B h g { h with tables := t } { g with pool := p } :=
  ⟨⟨ht, hs.sinceCollect, hs.collectEvery, hs.totals⟩, .single (.held _ hentries hnext)⟩

theorem acquire (hs : h.Stores g) (id : NodeId) :
    Leads B h g { h with tables := h.tables.acquire id } { g with pool := g.pool.acquire id } :=
  hs.with_tables (hs.tables.acquire id) rfl rfl

theorem release (hs : h.Stores g) (id : NodeId) :
    Leads B h g { h with tables := h.tables.release id } { g with pool := g.pool.release id } :=
  hs.with_tables (hs.tables.release id) (Pool.entries_release ..) (Pool.next_release ..)

theorem hold (hs : h.Stores g) (k : Kind ν α) (id : NodeId) : Follows B h g
    ((h.tables.hold k id).1, { h with tables := (h.tables.hold k id).2 }) (g.pool.hold k id) := by
  have hf := hs.tables.hold k id
  unfold Pool.hold at hf ⊢
  cases hg : g.pool.get k id with
  | error fault =>
    rw [hg] at hf
    rw [show h.tables.hold k id = (.error fault, h.tables) from hf]
    exact ⟨rfl, hs, .refl⟩
  | ok a =>
    rw [hg] at hf
    exact ⟨hf.1, hs.with_tables hf.2 rfl rfl⟩

theorem update (hs : h.Stores g) (k : Kind ν α) (id : NodeId) (f : α → α) :
    Follows B h g (h.update k id f) (g.pool.update k id f) := by
  have hf := hs.tables.update k id f
  unfold HeapTables.update
  cases hfind : h.tables.find? k id with
  | none =>
    have hupdate : h.tables.update k id f = (.error (h.tables.missing k id), h.tables) := by
      simp only [Tables.update, hfind]
    cases hp : g.pool.update k id f with
    | error fault =>
      rw [hp, hupdate] at hf
      cases hf
      exact ⟨rfl, hs, .refl⟩
    | ok p =>
      rw [hp, hupdate] at hf
      cases hf.1
  | some a =>
    cases hp : g.pool.update k id f with
    | error fault =>
      rw [hp, Tables.update, hfind] at hf
      cases hf
    | ok p =>
      rw [hp] at hf
      obtain ⟨e, a, he, -, rfl⟩ := Pool.update_eq_ok hp
      exact ⟨rfl, ⟨hf.2, hs.sinceCollect, hs.collectEvery, hs.totals⟩, .single (.renewed _ he _)⟩

theorem link (hs : h.Stores g) (owner target : NodeId) :
    Follows B h g (h.link owner target) (g.pool.link owner target) := by
  have hf := hs.tables.link owner target
  unfold HeapTables.link
  unfold Tables.link at hf
  cases hfind : [owner, target].find? fun id => !h.tables.contains id with
  | some id =>
    rw [hfind] at hf
    cases hp : g.pool.link owner target with
    | error fault => rw [hp] at hf; cases hf; exact ⟨rfl, hs, .refl⟩
    | ok p => rw [hp] at hf; cases hf.1
  | none =>
    rw [hfind] at hf
    cases hp : g.pool.link owner target with
    | error fault => rw [hp] at hf; cases hf
    | ok p =>
      rw [hp] at hf
      obtain ⟨e, he, rfl⟩ := Pool.link_eq_ok hp
      refine ⟨rfl, ⟨?_, hs.sinceCollect, hs.collectEvery, hs.totals⟩, .single (.linked _ he _)⟩
      simp only [Tables.link, hfind]
      exact hf.2

theorem allocate_tables (hs : h.Stores g) (hd : g.pool.Dated) (node : ν) :
    (h.place node).1 = g.pool.next ∧
      (h.place node).2.tables.Stores ((g.pool.allocate node).2.acquire g.pool.next) :=
  hs.tables.allocate hd.next_free node

theorem place (hs : h.Stores g) (hd : g.pool.Dated) (hpast : B) (node : ν) :
    Leads B h g (h.place node).2
      { g with pool := (g.pool.allocate node).2.acquire (g.pool.allocate node).1 } :=
  ⟨⟨(hs.allocate_tables hd node).2, hs.sinceCollect, hs.collectEvery, hs.totals⟩,
    .tail (.single (.placed _ _ hpast node)) (.held _ rfl rfl)⟩

/-- A collection of the pool: the same numbers, and a failure is noted and changes nothing else. -/
theorem collectPool (hs : h.Stores g) (outside : List Tether) : match g.pool.collect {} with
    | .ok (c, p) => (h.collectPool outside).1 = .ok c ∧
      (h.collectPool outside).2.Stores (Heap.lettingGo { g with pool := p } (h.tables.lost outside)) ∧
      (h.collectPool outside).2.events = .collected p.size :: h.events
    | .error fault => h.collectPool outside = (.error fault, h.log (.refused fault)) ∧
      h.tables.lost outside = [] := by
  have hf := hs.tables.collect_mark
  cases hp : g.pool.collect {} with
  | error fault =>
    rw [hp] at hf
    have hm : h.tables.adjacency.mark {} h.tables.rooted = .error fault := hf
    simp only [HeapTables.collectPool, Tables.lost, hm, and_self]
  | ok q =>
    rw [hp] at hf
    obtain ⟨r, hm, hstores, hc⟩ := hf
    simp only [HeapTables.collectPool, Tables.lost, hm]
    refine ⟨congrArg _ (hc outside),
      ⟨hstores.foldl_release _, hs.sinceCollect, hs.collectEvery, hs.totals⟩, ?_⟩
    obtain ⟨roots, hroots⟩ := h.tables.exists_keep r outside
    rw [hroots, hstores.adjacency_eq, Pool.adjacency, Std.ExtTreeMap.size_map, Pool.size]

/-! ### Operations of the heap -/

theorem collect (hs : h.Stores g) (outside : List Tether) : match g.collect {} with
    | .ok (c, g') => (h.collect outside).1 = .ok c ∧
      (h.collect outside).2.Stores (g'.lettingGo (h.tables.lost outside)) ∧
      (h.collect outside).2.events = .collected g'.pool.size :: h.events
    | .error fault => h.collect outside = (.error fault, h.log (.refused fault)) ∧
      h.tables.lost outside = [] := by
  have hf := hs.collectPool outside
  unfold Heap.collect HeapTables.collect
  cases hp : g.pool.collect {} with
  | error fault =>
    rw [hp] at hf
    obtain ⟨hcollect, hlost⟩ := hf
    simp only [Except.map, hcollect, hlost, and_self]
  | ok r =>
    rw [hp] at hf
    obtain ⟨hok, hstores, hevents⟩ := hf
    rw [show h.collectPool outside = (.ok r.1, (h.collectPool outside).2) from Prod.ext hok rfl]
    dsimp only [Except.map]
    exact ⟨rfl, ⟨hstores.tables, rfl, hstores.collectEvery,
      congrArg (fun t : Totals => { t with
        collections := t.collections + 1
        swept := t.swept + r.1.swept
        lastRetained := r.1.retained }) hstores.totals⟩, hevents⟩

end Stores

theorem allocate_of_le (hle : h.sinceCollect ≤ h.collectEvery) (node : ν) :
    h.allocate node outside = (.ok h.tables.next,
      { (h.place node).2.log (.allocated h.tables.next) with
        sinceCollect := h.sinceCollect + 1
        totals := { h.totals with allocations := h.totals.allocations + 1 } }) := by
  simp only [allocate, beforeAllocation, collectIfDue, if_neg (Nat.not_lt.2 hle)]
  rfl

/-- After the collection that is due, an allocation is as it would be then. -/
theorem allocate_of_due {c : Collection} (hdue : h.collectEvery < h.sinceCollect)
    (hc : (h.collect outside).1 = .ok c)
    (hle : (h.collect outside).2.sinceCollect ≤ (h.collect outside).2.collectEvery) (node : ν) :
    h.allocate node outside = (h.collect outside).2.allocate node outside := by
  simp only [allocate, beforeAllocation, collectIfDue, if_pos hdue, if_neg (Nat.not_lt.2 hle), hc]
  rfl

theorem allocate_of_fault {fault : Fault} (hdue : h.collectEvery < h.sinceCollect)
    (hc : h.collect outside = (.error fault, h.log (.refused fault))) (node : ν) :
    h.allocate node outside = (.error fault, h.log (.refused fault)) := by
  simp only [allocate, beforeAllocation, collectIfDue, if_pos hdue, hc]
  rfl

theorem lostIfDue_of_le (hle : h.sinceCollect ≤ h.collectEvery) : h.lostIfDue outside = [] :=
  if_neg (Nat.not_lt.2 hle)

end HeapTables

theorem Pool.allocate_foldl_release {ν : Type} [Node ν] (p : Pool ν) (ids : List NodeId) (node : ν) :
    ((ids.foldl release p).allocate node).2 = ids.foldl release (p.allocate node).2 := by
  induction ids generalizing p with
  | nil => rfl
  | cons id ids ih =>
    have hrelease : ((p.release id).allocate node).2 = (p.allocate node).2.release id := by
      have hcount : (p.allocate node).2.handleCount id = p.handleCount id := rfl
      unfold release
      rw [hcount]
      split <;> rfl
    rw [List.foldl_cons, ih, hrelease, List.foldl_cons]

namespace Heap

variable {ν : Type} [Node ν] {g g' : Heap ν} {c : Collection}

theorem allocate_of_le (hle : g.sinceCollect ≤ g.collectEvery) (node : ν) :
    g.allocate (Thunk.pure {}) node = .ok (g.pool.next, g.storing node) := by
  rw [allocate, collectIfDue, if_neg (Nat.not_lt.2 hle)]
  rfl

theorem allocate_of_due (hdue : g.collectEvery < g.sinceCollect) (hc : g.collect {} = .ok (c, g'))
    (node : ν) : g.allocate (Thunk.pure {}) node = .ok (g'.pool.next, g'.storing node) := by
  rw [allocate, collectIfDue, if_pos hdue, show (Thunk.pure ({} : NodeSet)).get = {} from rfl, hc]
  rfl

theorem allocate_of_fault {fault : Fault} (hdue : g.collectEvery < g.sinceCollect)
    (hc : g.collect {} = .error fault) (node : ν) : g.allocate (Thunk.pure {}) node = .error fault := by
  rw [allocate, collectIfDue, if_pos hdue, show (Thunk.pure ({} : NodeSet)).get = {} from rfl, hc]
  rfl

end Heap

/-! ## Requests -/

namespace Ledger

variable {ν : Type} [Node ν] {l : Ledger ν} {B : Prop}

/-- What every request keeps. -/
structure Sound (l : Ledger ν) : Prop where
  stores : l.layout.Stores l.heap
  dated : l.heap.pool.Dated

def history (l : Ledger ν) : History ν := ⟨l.heap, l.layout.events⟩

namespace Sound

open HeapTables (Leads Follows)

theorem start (every : Nat) : (start every : Ledger ν).Sound where
  stores := ⟨.empty, rfl, rfl, rfl⟩
  dated id e he := by simp [Ledger.start] at he

theorem serve_allocate_of_le (hl : l.Sound) (hle : l.heap.sinceCollect ≤ l.heap.collectEvery) (node : ν)
    (outside : List Tether) :
    Leads B l.layout l.heap (l.serve (.allocate node outside)).layout
        (l.serve (.allocate node outside)).heap ∧
      (l.serve (.allocate node outside)).layout.events =
        .allocated l.layout.tables.next :: l.layout.events := by
  have hlayout : l.layout.sinceCollect ≤ l.layout.collectEvery := by
    rwa [hl.stores.sinceCollect, hl.stores.collectEvery]
  obtain ⟨-, htables⟩ := hl.stores.allocate_tables hl.dated node
  simp only [serve, HeapTables.allocate_of_le hlayout, Heap.allocate_of_le hle,
    HeapTables.lostIfDue_of_le hlayout, List.foldl_nil]
  refine ⟨⟨⟨htables, ?_, hl.stores.collectEvery, ?_⟩, ?_⟩, rfl⟩
  · exact congrArg (· + 1) hl.stores.sinceCollect
  · exact congrArg (fun t : Totals => { t with allocations := t.allocations + 1 }) hl.stores.totals
  · refine .tail (.single ?_) (.held _ rfl rfl)
    have := Alters.allocated (B := B) l.layout.events hle node
    rwa [← hl.stores.tables.next] at this

theorem collect (hl : l.Sound) {c : Collection} {g' : Heap ν} (hc : l.heap.collect {} = .ok (c, g'))
    (outside : List Tether) :
    Sound ⟨(l.layout.collect outside).2, g'.lettingGo (l.layout.tables.lost outside)⟩ ∧
      Relation.ReflTransGen (Alters B) l.history
        ⟨g'.lettingGo (l.layout.tables.lost outside), (l.layout.collect outside).2.events⟩ := by
  have hf := hl.stores.collect outside
  rw [hc] at hf
  have ha : Alters B l.history ⟨g', (l.layout.collect outside).2.events⟩ := by
    rw [hf.2.2]
    exact .collected _ hc
  have hgo := History.alters_lettingGo (B := B) g' (l.layout.collect outside).2.events
    (l.layout.tables.lost outside)
  exact ⟨⟨hf.2.1, (hl.dated.alters ha).alters hgo⟩, .tail (.single ha) hgo⟩

/-- When a collection is due and succeeds, the request is served as it would be after it. -/
theorem serve_allocate_of_due (hl : l.Sound) (hdue : l.heap.collectEvery < l.heap.sinceCollect)
    {c : Collection} {g' : Heap ν} (hc : l.heap.collect {} = .ok (c, g')) (node : ν)
    (outside : List Tether) : l.serve (.allocate node outside) =
      serve ⟨(l.layout.collect outside).2, g'.lettingGo (l.layout.tables.lost outside)⟩
        (.allocate node outside) := by
  have hf := hl.stores.collect outside
  rw [hc] at hf
  have hle' := Heap.le_of_collect hc
  have hle : (l.layout.collect outside).2.sinceCollect ≤ (l.layout.collect outside).2.collectEvery := by
    rw [hf.2.1.sinceCollect, hf.2.1.collectEvery]
    exact hle'
  have hdue' : l.layout.collectEvery < l.layout.sinceCollect := by
    rwa [hl.stores.sinceCollect, hl.stores.collectEvery]
  have hlost : l.layout.lostIfDue outside = l.layout.tables.lost outside := if_pos hdue'
  simp only [serve, HeapTables.allocate_of_due hdue' hf.1 hle, Heap.allocate_of_due hdue hc, hlost,
    HeapTables.lostIfDue_of_le hle, List.foldl_nil]
  rw [Heap.allocate_of_le (g := g'.lettingGo _) hle']
  simp only [Heap.storing, Heap.lettingGo, Pool.allocate_foldl_release, (Pool.foldl_release _ _).2.1]

theorem serve_allocate_of_fault (hl : l.Sound) (hdue : l.heap.collectEvery < l.heap.sinceCollect)
    {fault : Fault} (hc : l.heap.collect {} = .error fault) (node : ν) (outside : List Tether) :
    l.layout.allocate node outside = (.error fault, l.layout.log (.refused fault)) ∧
      l.serve (.allocate node outside) = { l with layout := l.layout.log (.refused fault) } := by
  have hf := hl.stores.collect outside
  rw [hc] at hf
  have hdue' : l.layout.collectEvery < l.layout.sinceCollect := by
    rwa [hl.stores.sinceCollect, hl.stores.collectEvery]
  refine ⟨HeapTables.allocate_of_fault hdue' hf.1 node, ?_⟩
  simp only [serve, HeapTables.allocate_of_fault hdue' hf.1, Heap.allocate_of_fault hdue hc]

theorem serve_allocate (hl : l.Sound) (node : ν) (outside : List Tether) :
    Leads B l.layout l.heap (l.serve (.allocate node outside)).layout
      (l.serve (.allocate node outside)).heap := by
  rcases Nat.lt_or_ge l.heap.collectEvery l.heap.sinceCollect with hdue | hle
  · cases hc : l.heap.collect {} with
    | error fault =>
      rw [(hl.serve_allocate_of_fault hdue hc node outside).2]
      exact ⟨⟨hl.stores.tables, hl.stores.sinceCollect, hl.stores.collectEvery, hl.stores.totals⟩,
        .single (.refused _ _ fault)⟩
    | ok r =>
      obtain ⟨c, g'⟩ := r
      obtain ⟨hsound, ha⟩ := hl.collect (B := B) hc outside
      rw [hl.serve_allocate_of_due hdue hc]
      have hle' : g'.sinceCollect ≤ g'.collectEvery := Heap.le_of_collect hc
      obtain ⟨⟨hstores, halters⟩, -⟩ := hsound.serve_allocate_of_le (B := B) hle' node outside
      exact ⟨hstores, ha.trans halters⟩
  · exact (hl.serve_allocate_of_le hle node outside).1

/-- What a request does is a chain of alterations, past the heap only if it is made past the heap. -/
theorem leads (hl : l.Sound) (r : Request ν) :
    Leads (¬ r.Counted) l.layout l.heap (l.serve r).layout (l.serve r).heap := by
  cases r with
  | allocate node outside => exact hl.serve_allocate node outside
  | place node => exact hl.stores.place hl.dated id node
  | update k id f => exact (hl.stores.update k id f).2
  | link owner target => exact (hl.stores.link owner target).2
  | root k id => exact (hl.stores.hold k id).2
  | copy id => exact hl.stores.acquire id
  | drop id => exact hl.stores.release id
  | collect outside =>
    cases hc : l.heap.collect {} with
    | error fault =>
      have hf := hl.stores.collect outside
      rw [hc] at hf
      simp only [serve, hc, hf.1, hf.2]
      exact ⟨⟨hl.stores.tables, hl.stores.sinceCollect, hl.stores.collectEvery, hl.stores.totals⟩,
        .single (.refused _ _ fault)⟩
    | ok r =>
      obtain ⟨hsound, ha⟩ :=
        hl.collect (B := ¬ Request.Counted (.collect outside : Request ν)) hc outside
      simp only [serve, hc]
      exact ⟨hsound.stores, ha⟩
  | collectPool outside =>
    have hf := hl.stores.collectPool outside
    cases hc : l.heap.pool.collect {} with
    | error fault =>
      rw [hc] at hf
      simp only [serve, renew, hc, hf.1]
      exact ⟨⟨hl.stores.tables, hl.stores.sinceCollect, hl.stores.collectEvery, hl.stores.totals⟩,
        .single (.refused _ _ fault)⟩
    | ok r =>
      rw [hc] at hf
      simp only [serve, renew, hc]
      refine ⟨hf.2.1, .tail (.single (.swept _ id hc)) ?_⟩
      rw [hf.2.2]
      exact History.alters_lettingGo ..

theorem serve (hl : l.Sound) (r : Request ν) : (l.serve r).Sound where
  stores := (hl.leads r).1
  dated := History.kept_of_alters (P := fun s => s.heap.pool.Dated) Pool.Dated.alters hl.dated (hl.leads r).2

end Sound

/-- What every alteration keeps, a run keeps, if it makes no request past the heap or such alterations
keep it, too. -/
theorem Sound.run {P : History ν → Prop} (hl : l.Sound) {rs : List (Request ν)}
    (hpast : ∀ r ∈ rs, ¬ r.Counted → B)
    (step : ∀ {s s'}, P s → Alters B s s' → P s') (h : P l.history) :
    (l.run rs).Sound ∧ P (l.run rs).history := by
  induction rs generalizing l with
  | nil => exact ⟨hl, h⟩
  | cons r rs ih =>
    refine ih (hl.serve r) (fun r' hr' => hpast r' (List.mem_cons_of_mem _ hr')) ?_
    exact History.kept_of_alters (fun hP ha => step hP (ha.mono (hpast r (List.mem_cons_self ..)))) h
      (hl.leads r).2

end Ledger

end Mosaic.Graph
