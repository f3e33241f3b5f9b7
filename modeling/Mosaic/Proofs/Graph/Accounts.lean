import Mathlib.Data.List.Permutation
import Mosaic.Graph.Workbench
import Mosaic.Proofs.Graph.Ledger

/-!
# The books of a heap

What a heap counts agrees with what has happened to it (`History.Counted`), as long as nobody allocates or
collects past the heap: a collection moves nodes from those that live to those that were swept, and an
allocation adds to those that live. So an allocation collects first exactly if more than the cadence have
been made since the last collection, whatever has been tried in vain in between (`accounted_of_run`).
-/

namespace Mosaic.Graph

namespace Pool

variable {ν : Type} {p p' : Pool ν} {c : Collection}

/-- A collection counts each node once, as kept or as swept. -/
theorem size_of_collect (h : p.collect {} = .ok (c, p')) :
    c.retained = p'.size ∧ p.size = p'.size + c.swept := by
  rw [collect_eq_mark] at h
  cases hm : (adjacency p.entries).mark {} (p.roots {}).toList with
  | error fault => rw [hm] at h; cases h
  | ok r =>
    rw [hm] at h
    cases h
    refine ⟨rfl, ?_⟩
    have hle : (within p.entries r).size ≤ p.entries.size := Std.ExtTreeMap.size_filter_le_size
    have hrest : p.entries.size - (within p.entries r).size = (without p.entries r).size :=
      size_filter_not p.entries fun id _ => r.contains id
    show p.entries.size = (within p.entries r).size + (without p.entries r).size
    omega

theorem size_allocate [Node ν] (h : p.Dated) (node : ν) : (p.allocate node).2.size = p.size + 1 := by
  have hfree : p.entries.contains p.next = false := by
    rw [Std.ExtTreeMap.contains_eq_isSome_getElem?, h.next_free]
    rfl
  show (p.entries.insert p.next _).size = _
  simp [Std.ExtTreeMap.size_insert, hfree, size]

/-- An entry is replaced by another. -/
theorem size_insert {id : NodeId} {e e' : Entry ν} (found : p.entries[id]? = some e) :
    (p.entries.insert id e').size = p.size := by
  rw [Std.ExtTreeMap.size_insert, if_pos (contains_of_getElem? found), size]

end Pool

/-! ## The invariant -/

namespace History

variable {ν : Type} [Node ν] {s s' : History ν}

/-- The heap has counted what has happened. -/
structure Counted (s : History ν) : Prop where
  dated : s.heap.pool.Dated
  sinceCollect : s.heap.sinceCollect = allocatedSince s.events
  le : s.heap.sinceCollect ≤ s.heap.collectEvery + 1
  allocations : s.heap.totals.allocations = s.events.countP Event.isAllocated
  collections : s.heap.totals.collections = s.events.countP Event.isCollected
  conserved : s.heap.totals.allocations = s.heap.pool.size + s.heap.totals.swept
  lastRetained : s.heap.totals.lastRetained = (lastCollected? s.events).getD 0

namespace Counted

omit [Node ν] in
theorem of_size (h : s.Counted) {p : Pool ν} {es : List Event} (hd : p.Dated)
    (hsize : p.size = s.heap.pool.size) (hsince : allocatedSince es = allocatedSince s.events)
    (hmade : es.countP Event.isAllocated = s.events.countP Event.isAllocated)
    (hcollections : es.countP Event.isCollected = s.events.countP Event.isCollected)
    (hlast : lastCollected? es = lastCollected? s.events) :
    Counted ⟨{ s.heap with pool := p }, es⟩ where
  dated := hd
  sinceCollect := h.sinceCollect.trans hsince.symm
  le := h.le
  allocations := h.allocations.trans hmade.symm
  collections := h.collections.trans hcollections.symm
  conserved := h.conserved.trans (congrArg (· + _) hsize.symm)
  lastRetained := h.lastRetained.trans (by rw [hlast])

theorem alters (h : s.Counted) (ha : Alters False s s') : s'.Counted := by
  have hd := h.dated.alters ha
  cases ha with
  | held es entries next => exact h.of_size hd (congrArg Std.ExtTreeMap.size entries) rfl rfl rfl rfl
  | renewed es found node => exact h.of_size hd (Pool.size_insert found) rfl rfl rfl rfl
  | linked es found target => exact h.of_size hd (Pool.size_insert found) rfl rfl rfl rfl
  | refused g es fault => exact h.of_size hd rfl rfl rfl rfl rfl
  | @allocated g es le node =>
    have hsize : (g.storing node).pool.size = g.pool.size + 1 := Pool.size_allocate h.dated node
    have hconserved : g.totals.allocations = g.pool.size + g.totals.swept := h.conserved
    refine ⟨hd, ?_, Nat.succ_le_succ le, ?_, ?_, ?_, h.lastRetained⟩
    · exact (congrArg (· + 1) h.sinceCollect).trans (allocatedSince_allocated _ es).symm
    · exact (congrArg (· + 1) h.allocations).trans (List.countP_cons_of_pos rfl).symm
    · exact h.collections.trans (List.countP_cons_of_neg Bool.false_ne_true).symm
    · show g.totals.allocations + 1 = (g.storing node).pool.size + g.totals.swept
      rw [hsize, hconserved]
      omega
  | @collected g _ es c hc =>
    obtain ⟨p, hp, rfl⟩ := Heap.collect_eq_ok hc
    obtain ⟨hretained, hswept⟩ := Pool.size_of_collect hp
    have hconserved : g.totals.allocations = g.pool.size + g.totals.swept := h.conserved
    refine ⟨hd, rfl, Nat.zero_le _, ?_, ?_, ?_, hretained⟩
    · exact h.allocations.trans (List.countP_cons_of_neg Bool.false_ne_true).symm
    · exact (congrArg (· + 1) h.collections).trans (List.countP_cons_of_pos rfl).symm
    · show g.totals.allocations = p.size + (g.totals.swept + c.swept)
      rw [hconserved, hswept]
      omega
  | placed g es hpast => exact hpast.elim
  | swept es hpast => exact hpast.elim

end Counted

end History

/-! ## What the books say -/

namespace Ledger

variable {ν : Type} [Node ν] {l : Ledger ν} {every : Nat}

/-- What there is to say of the books of a heap in a state. -/
structure Accounted (l : Ledger ν) (every : Nat) : Prop where
  /-- The running heap holds the same nodes and has counted the same. -/
  stores : l.layout.Stores l.heap
  live : l.layout.tables.adjacency.size = l.heap.pool.size
  collectEvery : l.layout.collectEvery = every
  sinceCollect : l.layout.sinceCollect = allocatedSince l.layout.events
  sinceCollect_le : l.layout.sinceCollect ≤ every + 1
  allocations : l.layout.totals.allocations = l.layout.events.countP Event.isAllocated
  collections : l.layout.totals.collections = l.layout.events.countP Event.isCollected
  conserved : l.layout.totals.allocations = l.layout.tables.adjacency.size + l.layout.totals.swept
  lastRetained : l.layout.totals.lastRetained = (lastCollected? l.layout.events).getD 0
  /-- The running heap answers a request to allocate in the same way. -/
  answers : ∀ (node : ν) outside,
    (l.heap.allocate (Thunk.pure {}) node).map Prod.fst = (l.layout.allocate node outside).1
  /-- No collection is due: the node is made, and nothing else happens. -/
  allocates : ∀ (node : ν) outside, allocatedSince l.layout.events ≤ every →
    (l.layout.allocate node outside).1 = .ok l.layout.tables.next ∧
      (l.serve (.allocate node outside)).layout.events =
        .allocated l.layout.tables.next :: l.layout.events
  /-- A collection is due: it is made first, or it fails. Then the next address, the tables and what was
  counted are as before, and the next request tries again. -/
  collects : ∀ (node : ν) outside, every < allocatedSince l.layout.events →
    (∃ live, (l.layout.allocate node outside).1 = .ok l.layout.tables.next ∧
      (l.serve (.allocate node outside)).layout.events =
        .allocated l.layout.tables.next :: .collected live :: l.layout.events) ∨
    ∃ fault, (l.layout.allocate node outside).1 = .error fault ∧
      l.serve (.allocate node outside) = { l with layout := l.layout.log (.refused fault) } ∧
      ∀ (node' : ν) outside', (l.serve (.allocate node outside)).serve (.allocate node' outside') =
        { l with layout := (l.layout.log (.refused fault)).log (.refused fault) }

theorem Sound.answer_of_le (hl : l.Sound) (hle : l.heap.sinceCollect ≤ l.heap.collectEvery) (node : ν)
    (outside : List Tether) :
    (l.heap.allocate (Thunk.pure {}) node).map Prod.fst = .ok l.layout.tables.next ∧
      (l.layout.allocate node outside).1 = .ok l.layout.tables.next := by
  have hlayout : l.layout.sinceCollect ≤ l.layout.collectEvery := by
    rwa [hl.stores.sinceCollect, hl.stores.collectEvery]
  rw [Heap.allocate_of_le hle, HeapTables.allocate_of_le hlayout]
  exact ⟨congrArg Except.ok hl.stores.tables.next.symm, rfl⟩

theorem Sound.next_of_collect (hl : l.Sound) {c : Collection} {g' : Heap ν}
    (hc : l.heap.collect {} = .ok (c, g')) (outside : List Tether) :
    (l.layout.collect outside).2.tables.next = l.layout.tables.next := by
  have hf := hl.stores.collect outside
  rw [hc] at hf
  obtain ⟨p, hp, rfl⟩ := Heap.collect_eq_ok hc
  rw [hf.2.1.tables.next, hl.stores.tables.next]
  exact (Pool.foldl_release p _).2.1.trans (Pool.next_of_collect hp)

/-- The answer of both heaps after the collection that is due. -/
theorem Sound.answer_of_due (hl : l.Sound) (hdue : l.heap.collectEvery < l.heap.sinceCollect)
    {c : Collection} {g' : Heap ν} (hc : l.heap.collect {} = .ok (c, g')) (node : ν)
    (outside : List Tether) :
    (l.heap.allocate (Thunk.pure {}) node).map Prod.fst = .ok l.layout.tables.next ∧
      (l.layout.allocate node outside).1 = .ok l.layout.tables.next := by
  obtain ⟨hsound, -⟩ := hl.collect (B := False) hc outside
  have hle := Heap.le_of_collect hc
  have hanswer := hsound.answer_of_le hle node outside
  have hf := hl.stores.collect outside
  rw [hc] at hf
  have hlayout : (l.layout.collect outside).2.sinceCollect ≤ (l.layout.collect outside).2.collectEvery := by
    rw [hf.2.1.sinceCollect, hf.2.1.collectEvery]
    exact hle
  have hdue' : l.layout.collectEvery < l.layout.sinceCollect := by
    rwa [hl.stores.sinceCollect, hl.stores.collectEvery]
  have hnext := hl.next_of_collect hc outside
  have hfresh : g'.pool.next = l.layout.tables.next := by
    rw [← hnext, hf.2.1.tables.next]
    exact (Pool.foldl_release ..).2.1.symm
  rw [HeapTables.allocate_of_due hdue' hf.1 hlayout, ← hnext, Heap.allocate_of_due hdue hc]
  exact ⟨congrArg Except.ok (hfresh.trans hnext.symm), hanswer.2⟩

theorem Sound.accounted (hl : l.Sound) (h : l.history.Counted) (hevery : l.heap.collectEvery = every) :
    l.Accounted every := by
  have hsize : l.layout.tables.adjacency.size = l.heap.pool.size := by
    rw [hl.stores.tables.adjacency_eq, Pool.adjacency, Std.ExtTreeMap.size_map, Pool.size]
  have hsince : l.heap.sinceCollect = allocatedSince l.layout.events := h.sinceCollect
  subst hevery
  refine
    { stores := hl.stores, live := hsize, collectEvery := hl.stores.collectEvery
      sinceCollect := hl.stores.sinceCollect.trans hsince
      sinceCollect_le := hl.stores.sinceCollect ▸ h.le
      allocations := hl.stores.totals ▸ h.allocations
      collections := hl.stores.totals ▸ h.collections
      conserved := by rw [hl.stores.totals, hsize]; exact h.conserved
      lastRetained := hl.stores.totals ▸ h.lastRetained
      answers := fun node outside => ?_
      allocates := fun node outside hle => ?_
      collects := fun node outside hdue => ?_ }
  · rcases Nat.lt_or_ge l.heap.collectEvery l.heap.sinceCollect with hdue | hle
    · cases hc : l.heap.collect {} with
      | error fault =>
        rw [Heap.allocate_of_fault hdue hc, (hl.serve_allocate_of_fault hdue hc node outside).1]
        rfl
      | ok r =>
        have hanswer := hl.answer_of_due hdue hc node outside
        exact hanswer.1.trans hanswer.2.symm
    · have hanswer := hl.answer_of_le hle node outside
      exact hanswer.1.trans hanswer.2.symm
  · rw [← hsince] at hle
    exact ⟨(hl.answer_of_le hle node outside).2,
      (hl.serve_allocate_of_le (B := False) hle node outside).2⟩
  · rw [← hsince] at hdue
    cases hc : l.heap.collect {} with
    | error fault =>
      obtain ⟨hanswer, hserve⟩ := hl.serve_allocate_of_fault hdue hc node outside
      refine .inr ⟨fault, congrArg Prod.fst hanswer, hserve, fun node' outside' => ?_⟩
      have hl' := hl.serve (.allocate node outside)
      rw [hserve] at hl' ⊢
      exact (hl'.serve_allocate_of_fault hdue hc node' outside').2
    | ok r =>
      refine .inl ⟨r.2.pool.size, (hl.answer_of_due hdue hc node outside).2, ?_⟩
      obtain ⟨hsound, -⟩ := hl.collect (B := False) hc outside
      have hle : r.2.sinceCollect ≤ r.2.collectEvery := Heap.le_of_collect hc
      have hf := hl.stores.collect outside
      rw [hc] at hf
      rw [hl.serve_allocate_of_due hdue hc, (hsound.serve_allocate_of_le (B := False) hle node outside).2,
        hf.2.2, hl.next_of_collect hc]

/-- What a heap has counted agrees with what has happened to it, whatever is asked of it but to allocate or
to collect past it. It collects before an allocation exactly if one is due; if the collection fails, so does
the allocation, and all else is as it was. -/
theorem accounted_of_run (every : Nat) {rs : List (Request ν)} (h : ∀ r ∈ rs, r.Counted) :
    ((start every).run rs).Accounted every := by
  have hstart : (start every : Ledger ν).history.Counted :=
    ⟨(Sound.start every).dated, rfl, Nat.zero_le _, rfl, rfl, rfl, rfl⟩
  obtain ⟨hl, hcounted, hevery⟩ := (Sound.start every).run (B := False)
    (P := fun s => s.Counted ∧ s.heap.collectEvery = every) (fun r hr hn => hn (h r hr))
    (fun hP ha => ⟨hP.1.alters ha, ha.collectEvery.trans hP.2⟩) ⟨hstart, rfl⟩
  exact hl.accounted hcounted hevery

/-- A cell that points at an address without a node, so that the collection before the next allocation fails,
and the one after the cell was changed and dropped does not. -/
def mended : List (Request Cell) :=
  [.allocate (.alpha [9]) [], .allocate (.beta []) [], .update Cell.alphas 1 fun _ => [1], .drop 1,
    .allocate (.beta []) []]

theorem accounted_of_run_mended : (∀ r ∈ mended, r.Counted) ∧ ((start 0).run mended).Accounted 0 ∧
    ((start 0).run mended).layout.events =
      [.allocated 2, .collected 0, .refused (.corrupt 9), .allocated 1] ∧
    ((start 0).run mended).layout.totals = ⟨2, 1, 1, 0⟩ := by
  have h : ∀ r ∈ mended, r.Counted := by simp [mended, Request.Counted]
  exact ⟨h, accounted_of_run 0 h, by cbv, by cbv⟩

end Ledger

end Mosaic.Graph
