import Mosaic.Graph.Workbench
import Mosaic.Proofs.Graph.Keeper
import Mosaic.Proofs.Graph.Ledger

/-!
# Edges are counted exactly

An edge is counted once for each time that its owner reports the target, and once for each time that it was
linked (`Entry.Exact`). To replace a node takes the pointers of the old one away and adds those of the new
one, in whatever order they are reported, so that the linked edges are left. A row of words has the same
counts for every target whose count has stayed below 2 ^ 32 (`HeapTables.Fits`); what happens to the counts
of other targets does not matter.
-/

namespace Mosaic.Graph

open Std (LawfulEqCmp)
open History (Alters)

/-! ## Entries -/

namespace Edges

variable (e : Edges) (xs : List NodeId) (x : NodeId)

theorem count_removeAll (t : NodeId) : (e.removeAll xs).count t = e.count t - xs.count t := by
  induction xs generalizing e with
  | nil => simp [removeAll]
  | cons x xs ih =>
    refine (ih (e.remove x)).trans ?_
    rw [count_remove, List.count_cons]
    by_cases h : x = t
    · simp only [h, if_true, beq_self_eq_true]
      omega
    · simp [h]

/-- Every target that has an entry is pointed at. -/
def Positive (e : Edges) : Prop := ∀ t ∈ e, 0 < e.count t

variable {e}

theorem Positive.add (h : e.Positive) : (e.add x).Positive := by
  intro t ht
  rw [count_add]
  rcases Std.ExtTreeMap.mem_insert.1 ht with heq | ht
  · rw [if_pos (LawfulEqCmp.eq_of_compare heq)]
    exact Nat.succ_pos _
  · exact Nat.add_pos_left (h t ht) _

theorem Positive.remove (h : e.Positive) : (e.remove x).Positive := by
  intro t ht
  rw [count_remove]
  by_cases hx : x = t
  · subst hx
    unfold Edges.remove at ht
    split at ht
    · rw [if_pos rfl]
      omega
    · simp at ht
  · rw [if_neg hx]
    exact h t ((mem_targets_iff e).1 (mem_targets_of_remove e ((mem_targets_iff _).2 ht)))

theorem Positive.addAll (h : e.Positive) : (e.addAll xs).Positive := by
  induction xs generalizing e with
  | nil => exact h
  | cons x xs ih => exact ih (h.add x)

theorem Positive.removeAll (h : e.Positive) : (e.removeAll xs).Positive := by
  induction xs generalizing e with
  | nil => exact h
  | cons x xs ih => exact ih (h.remove x)

theorem positive_empty : Positive {} := fun t ht => by simp at ht

theorem Positive.mem_targets (h : e.Positive) (t : NodeId) : t ∈ e.targets ↔ 0 < e.count t :=
  ⟨fun ht => h t ((mem_targets_iff e).1 ht), e.mem_targets_of_count⟩

end Edges

namespace Entry

variable {ν : Type} [Node ν] {e : Entry ν} {linked linked' : NodeId → Nat}

/-- The edges are the pointers of the node and those that were linked. -/
structure Exact (e : Entry ν) (linked : NodeId → Nat) : Prop where
  count : ∀ t, e.edges.count t = (Node.pointers e.node).count t + linked t
  positive : e.edges.Positive

theorem exact_new (node : ν) (h : ∀ t, linked t = 0) :
    Exact ⟨node, Edges.addAll {} (Node.pointers node)⟩ linked where
  count t := by
    rw [Edges.count_addAll, h]
    simp [Edges.count]
  positive := Edges.positive_empty.addAll _

theorem Exact.renew (h : e.Exact linked) (node : ν) : (e.renew node).Exact linked := by
  unfold Entry.renew
  split
  next heq => exact ⟨fun t => heq ▸ h.count t, h.positive⟩
  next =>
    refine ⟨fun t => ?_, (h.positive.removeAll _).addAll _⟩
    rw [Edges.count_addAll, Edges.count_removeAll, h.count, Nat.add_sub_cancel_left]
    exact Nat.add_comm _ _

theorem Exact.add (h : e.Exact linked) {x : NodeId}
    (hlinked : ∀ t, linked' t = linked t + if x = t then 1 else 0) :
    Exact { e with edges := e.edges.add x } linked' where
  count t := by rw [Edges.count_add, h.count, hlinked, Nat.add_assoc]
  positive := h.positive.add x

end Entry

/-! ## Histories -/

namespace History

variable {ν : Type} [Node ν] {B : Prop} {s s' : History ν}

/-- How often the edge was linked. -/
def linked (s : History ν) (owner target : NodeId) : Nat := s.events.count (.linked owner target)

/-- What every alteration keeps. -/
structure Tallied (s : History ν) : Prop where
  dated : s.heap.pool.Dated
  lt_next : ∀ owner target, .linked owner target ∈ s.events → owner < s.heap.pool.next
  exact : ∀ (id : NodeId) e, s.heap.pool.entries[id]? = some e → e.Exact (s.linked id)

omit [Node ν] in
theorem linked_cons (s : History ν) {e : Event} (h : ∀ owner target, e ≠ .linked owner target) (g : Heap ν)
    (owner : NodeId) : linked ⟨g, e :: s.events⟩ owner = s.linked owner := by
  funext target
  exact List.count_cons_of_ne (h owner target)

namespace Tallied

/-- A node is made. Nothing was linked to an address that was not given out. -/
theorem allocate (h : s.Tallied) (node : ν) {g : Heap ν} (hg : g.pool = (s.heap.pool.allocate node).2) :
    Tallied ⟨g, s.events⟩ where
  dated := by
    rw [hg]
    exact h.dated.allocate node
  lt_next owner target ht := by
    rw [hg]
    exact Nat.lt_succ_of_lt (h.lt_next owner target ht)
  exact id e he := by
    rw [hg] at he
    rcases getElem?_insert_cases he with ⟨rfl, rfl⟩ | ⟨-, he⟩
    · refine Entry.exact_new node fun t => List.count_eq_zero.2 fun ht => ?_
      exact Nat.lt_irrefl _ (h.lt_next _ t ht)
    · exact h.exact id e he

theorem collect (h : s.Tallied) {c : Collection} {p : Pool ν} (hc : s.heap.pool.collect {} = .ok (c, p))
    {g : Heap ν} (hg : g.pool = p) : Tallied ⟨g, s.events⟩ := by
  subst hg
  exact ⟨h.dated.collect hc, fun owner target ht => Pool.next_of_collect hc ▸ h.lt_next owner target ht,
    fun id e he => h.exact id e (Pool.collect_sub hc he)⟩

theorem cons (h : s.Tallied) {e : Event} (he : ∀ owner target, e ≠ .linked owner target) :
    Tallied ⟨s.heap, e :: s.events⟩ where
  dated := h.dated
  lt_next owner target ht := h.lt_next owner target ((List.mem_cons.1 ht).resolve_left (he owner target ·.symm))
  exact id e' he' := s.linked_cons he s.heap id ▸ h.exact id e' he'

theorem alters (h : s.Tallied) (ha : Alters B s s') : s'.Tallied := by
  cases ha with
  | held es entries next =>
    exact ⟨h.dated.alters (.held (B := B) es entries next),
      fun owner target ht => next ▸ h.lt_next owner target ht, fun id e he => h.exact id e (entries ▸ he)⟩
  | renewed es found node =>
    refine ⟨h.dated.insert found, h.lt_next, fun id e he => ?_⟩
    rcases getElem?_insert_cases he with ⟨rfl, rfl⟩ | ⟨-, he⟩
    · exact (h.exact _ _ found).renew node
    · exact h.exact id e he
  | @linked g es owner e found target =>
    refine ⟨h.dated.insert found, fun owner' target' ht => ?_, fun id e' he => ?_⟩
    · rcases List.mem_cons.1 ht with heq | ht
      · cases heq
        exact h.dated _ _ found
      · exact h.lt_next owner' target' ht
    · rcases getElem?_insert_cases he with ⟨rfl, rfl⟩ | ⟨hne, he⟩
      · refine (h.exact _ _ found).add fun t => ?_
        refine List.count_cons.trans ?_
        by_cases ht : target = t <;> simp [ht, linked]
      · refine (?_ : linked ⟨g, .linked owner target :: es⟩ id = linked ⟨g, es⟩ id) ▸ h.exact id e' he
        funext t
        exact List.count_cons_of_ne fun heq => hne (Event.linked.inj heq).1.symm
  | allocated es le node => exact (h.allocate node rfl).cons nofun
  | collected es hc =>
    obtain ⟨p, hp, rfl⟩ := Heap.collect_eq_ok hc
    exact (h.collect hp rfl).cons nofun
  | refused g es fault => exact h.cons nofun
  | placed g es _ node => exact h.allocate node rfl
  | swept es _ hc => exact (h.collect hc rfl).cons nofun

end Tallied

end History

/-! ## Words -/

/-- The word for the target is its count. -/
def WordRow.Fits (row : WordRow) (e : Edges) (t : NodeId) : Prop := row[t]?.map UInt32.toNat = e[t]?

namespace WordRow.Fits

variable {row : WordRow} {e : Edges} {t : NodeId}

theorem getD (h : row.Fits e t) : (row.getD t 0).toNat = e.count t := by
  rw [Std.ExtTreeMap.getD_eq_getD_getElem?, Edges.count, Std.ExtTreeMap.getD_eq_getD_getElem?, ← h]
  cases row[t]? <;> rfl

theorem mem (h : row.Fits e t) : t ∈ row ↔ t ∈ e := by
  rw [Std.ExtTreeMap.mem_iff_isSome_getElem?, Std.ExtTreeMap.mem_iff_isSome_getElem?, ← h, Option.isSome_map]

/-- The word does not wrap around, since the count is below 2 ^ 32. -/
theorem add (h : row.Fits e t) (x : NodeId) (hlt : (e.add x).count t < 2 ^ 32) : (row.add x).Fits (e.add x) t := by
  by_cases hx : x = t
  · subst hx
    rw [Edges.count_add, if_pos rfl] at hlt
    simp only [Fits, WordRow.add, Edges.add, Std.ExtTreeMap.getElem?_insert_self, Option.map_some, UInt32.toNat_add,
      h.getD]
    exact congrArg some (Nat.mod_eq_of_lt hlt)
  · simpa [Fits, WordRow.add, Edges.add, Std.ExtTreeMap.getElem?_insert, hx] using h

theorem remove (h : row.Fits e t) (x : NodeId) : (row.remove x).Fits (e.remove x) t := by
  have hcount := h.getD
  unfold Fits WordRow.remove Edges.remove at *
  by_cases hx : x = t
  · subst hx
    rw [Std.ExtTreeMap.getD_eq_getD_getElem?] at hcount
    cases hn : row[x]? with
    | none =>
      rw [hn] at h hcount
      rw [← hcount]
      simp [hn]
    | some n =>
      rw [hn] at hcount
      rw [← hcount]
      by_cases hone : 1 < n
      · have hone' : 1 < n.toNat := UInt32.lt_iff_toNat_lt.1 hone
        have hsub : (n - 1).toNat = n.toNat - 1 := UInt32.toNat_sub_of_le n 1 (UInt32.le_of_lt hone)
        simp [hone, hone', hsub]
      · have hone' : ¬ 1 < n.toNat := fun hlt => hone (UInt32.lt_iff_toNat_lt.2 hlt)
        simp [hone, hone']
  · have hrow : ∀ m : WordRow, m = row.erase x ∨ (∃ n, m = row.insert x n) ∨ m = row → m[t]? = row[t]? := by
      rintro m (rfl | ⟨n, rfl⟩ | rfl) <;> simp [Std.ExtTreeMap.getElem?_erase, Std.ExtTreeMap.getElem?_insert, hx]
    have he : ∀ m : Edges, m = e.erase x ∨ (∃ n, m = e.insert x n) → m[t]? = e[t]? := by
      rintro m (rfl | ⟨n, rfl⟩) <;> simp [Std.ExtTreeMap.getElem?_erase, Std.ExtTreeMap.getElem?_insert, hx]
    rw [hrow _ (by split <;> [split; skip] <;> simp), he _ (by split <;> simp), h]

theorem addAll (h : row.Fits e t) (xs : List NodeId) (hlt : (e.addAll xs).count t < 2 ^ 32) :
    (xs.foldl WordRow.add row).Fits (e.addAll xs) t := by
  induction xs generalizing row e with
  | nil => exact h
  | cons x xs ih =>
    refine ih (h.add x ?_) hlt
    exact Nat.lt_of_le_of_lt ((Edges.count_addAll (e.add x) xs t).symm ▸ Nat.le_add_right _ _) hlt

theorem removeAll (h : row.Fits e t) (xs : List NodeId) : (xs.foldl WordRow.remove row).Fits (e.removeAll xs) t := by
  induction xs generalizing row e with
  | nil => exact h
  | cons x xs ih => exact ih (h.remove x)

end WordRow.Fits

/-- The word for the edge is its count, and the owner has a row of words exactly if it has one of counts. -/
def Words.Fits (w : Words) (a : Adjacency) (owner target : NodeId) : Prop :=
  Option.Rel (fun row e => WordRow.Fits row e target) w[owner]? a[owner]?

/-- The count of the edge is below 2 ^ 32. -/
def Adjacency.Below (a : Adjacency) (owner target : NodeId) : Prop :=
  ∀ e, a[owner]? = some e → e.count target < 2 ^ 32

namespace Words.Fits

variable {w : Words} {a : Adjacency} {owner target id : NodeId}

theorem addEdges (h : w.Fits a owner target) (xs : List NodeId) (hlt : (a.addEdges id xs).Below owner target) :
    (w.addEdges id xs).Fits (a.addEdges id xs) owner target := by
  have hrow := getElem?_foldl_modify w id owner WordRow.add xs
  have he := a.getElem?_addEdges id owner xs
  unfold Adjacency.Below at hlt
  unfold Words.Fits Words.addEdges Words.addEdge at *
  rw [he] at hlt ⊢
  rw [hrow]
  generalize w[owner]? = row? at h ⊢
  generalize a[owner]? = e? at h hlt ⊢
  by_cases hid : id = owner
  · simp only [if_pos hid] at hlt ⊢
    cases h with
    | none => exact .none
    | some h => exact .some (h.addAll xs (hlt _ rfl))
  · simpa only [if_neg hid] using h

theorem removeEdges (h : w.Fits a owner target) (xs : List NodeId) :
    (w.removeEdges id xs).Fits (a.removeEdges id xs) owner target := by
  have hrow := getElem?_foldl_modify w id owner WordRow.remove xs
  have he := a.getElem?_removeEdges id owner xs
  unfold Words.Fits Words.removeEdges Words.removeEdge at *
  rw [hrow, he]
  generalize w[owner]? = row? at h ⊢
  generalize a[owner]? = e? at h ⊢
  by_cases hid : id = owner
  · simp only [if_pos hid]
    cases h with
    | none => exact .none
    | some h => exact .some (h.removeAll xs)
  · simpa only [if_neg hid] using h

theorem insert (h : w.Fits a owner target) : Words.Fits (w.insert id {}) (a.insert id {}) owner target := by
  unfold Words.Fits at *
  by_cases hid : id = owner
  · subst hid
    simpa using Option.Rel.some (show WordRow.Fits {} {} target by simp [WordRow.Fits])
  · simpa [Std.ExtTreeMap.getElem?_insert, hid] using h

theorem filter (h : w.Fits a owner target) (f : NodeId → Bool) :
    Words.Fits (w.filter fun id _ => f id) (a.filter fun id _ => f id) owner target := by
  unfold Words.Fits at *
  rw [Std.ExtTreeMap.getElem?_filter', Std.ExtTreeMap.getElem?_filter']
  generalize w[owner]? = row? at h ⊢
  generalize a[owner]? = e? at h ⊢
  cases h with
  | none => exact .none
  | some h =>
    cases f owner with
    | true => exact .some h
    | false => exact .none

end Words.Fits

namespace HeapTables

variable {ν α : Type} {h : HeapTables ν} {owner target : NodeId}

/-- The word for the edge is its count. -/
def Fits (h : HeapTables ν) (owner target : NodeId) : Prop := h.words.Fits h.tables.adjacency owner target

namespace Fits

theorem link (hf : h.Fits owner target) (o t : NodeId)
    (hlt : (h.link o t).2.tables.adjacency.Below owner target) : (h.link o t).2.Fits owner target := by
  unfold HeapTables.link Tables.link at *
  cases hfind : [o, t].find? fun id => !h.tables.contains id with
  | some id => exact hf
  | none =>
    simp only [hfind] at hlt ⊢
    exact Words.Fits.addEdges hf [t] hlt

variable [Node ν]

theorem collectPool (hf : h.Fits owner target) (outside : List Tether) :
    (h.collectPool outside).2.Fits owner target := by
  unfold HeapTables.collectPool
  cases h.tables.adjacency.mark {} h.tables.rooted with
  | error fault => exact hf
  | ok retained =>
    obtain ⟨roots, hkeep⟩ := h.tables.exists_keep retained outside
    simp only [Fits, hkeep]
    exact Words.Fits.filter hf _

theorem collect (hf : h.Fits owner target) (outside : List Tether) :
    (h.collect outside).2.Fits owner target := by
  have hpool := hf.collectPool outside
  unfold HeapTables.collect
  rcases hp : h.collectPool outside with ⟨r, h'⟩
  rw [hp] at hpool
  cases r <;> exact hpool

theorem place (hf : h.Fits owner target) (node : ν)
    (hlt : (h.place node).2.tables.adjacency.Below owner target) : (h.place node).2.Fits owner target :=
  hf.insert.addEdges _ hlt

theorem update (hf : h.Fits owner target) (k : Kind ν α) (id : NodeId) (f : α → α)
    (hlt : (h.update k id f).2.tables.adjacency.Below owner target) : (h.update k id f).2.Fits owner target := by
  unfold HeapTables.update Tables.update at *
  cases hfind : h.tables.find? k id with
  | none => exact hf
  | some a =>
    simp only [hfind] at hlt ⊢
    unfold Fits at *
    split at hlt
    next heq => simpa only [if_pos heq] using hf
    next hne =>
      simp only [if_neg hne] at hlt ⊢
      exact (hf.removeEdges _).addEdges _ hlt

theorem allocate (hf : h.Fits owner target) (node : ν) (outside : List Tether)
    (hlt : (h.allocate node outside).2.tables.adjacency.Below owner target) :
    (h.allocate node outside).2.Fits owner target := by
  have hdue : (h.collectIfDue outside).2.Fits owner target := by
    unfold collectIfDue
    split
    · exact hf.collect outside
    · exact hf
  unfold HeapTables.allocate beforeAllocation at *
  rcases hc : h.collectIfDue outside with ⟨r, h'⟩
  rw [hc] at hdue
  simp only [hc] at hlt ⊢
  cases r with
  | error fault => exact hdue
  | ok => exact place hdue node hlt

end Fits

end HeapTables

/-! ## Runs -/

namespace Ledger

variable {ν : Type} [Node ν] {l : Ledger ν} {owner target : NodeId}

theorem fits_serve (hf : l.layout.Fits owner target) (r : Request ν)
    (hlt : (l.serve r).layout.tables.adjacency.Below owner target) : (l.serve r).layout.Fits owner target := by
  cases r with
  | allocate node outside => exact hf.allocate node outside hlt
  | place node => exact hf.place node hlt
  | update k id f => exact hf.update k id f hlt
  | link o t => exact hf.link o t hlt
  | root k id =>
    simp only [serve, renew, Tables.hold]
    split <;> exact hf
  | copy id => exact hf
  | drop id =>
    simp only [serve, renew, Tables.release]
    split <;> exact hf
  | collect outside => exact hf.collect outside
  | collectPool outside => exact hf.collectPool outside

/-- The count of the edge has been below 2 ^ 32 all the time. -/
def StaysBelow (l : Ledger ν) (rs : List (Request ν)) (owner target : NodeId) : Prop :=
  ∀ rs', rs' <+: rs → (l.run rs').layout.tables.adjacency.Below owner target

theorem fits_run (hf : l.layout.Fits owner target) (rs : List (Request ν)) (hlt : l.StaysBelow rs owner target) :
    (l.run rs).layout.Fits owner target := by
  induction rs generalizing l with
  | nil => exact hf
  | cons r rs ih =>
    refine ih (fits_serve hf r (hlt [r] (by simp))) fun rs' hrs' => ?_
    exact hlt (r :: rs') ((List.prefix_cons_inj r).2 hrs')

/-- The edges of a live node are exactly those that it reports and those that were linked. -/
structure EdgesExact (l : Ledger ν) (owner : NodeId) (e : Entry ν) : Prop where
  /-- The tables have the node of the running pool, and its edges. -/
  node : (l.layout.tables.nodesOf (Node.kindName e.node))[owner]? = some e.node
  row : l.layout.tables.adjacency[owner]? = some e.edges
  count : ∀ t, e.edges.count t =
    (Node.pointers e.node).count t + l.layout.events.count (.linked owner t)
  edgesOf : ∃ ts, l.layout.tables.edgesOf owner = .ok ts ∧ l.heap.pool.edgesOf owner = .ok ts ∧
    ts.Pairwise (· < ·) ∧ (∀ t, t ∈ ts ↔ 0 < e.edges.count t) ∧
    ∀ t, t ∈ ts ↔ t ∈ Node.pointers e.node ∨ .linked owner t ∈ l.layout.events

theorem Sound.edgesExact (hl : l.Sound) (ht : l.history.Tallied) {e : Entry ν}
    (he : l.heap.pool.entries[owner]? = some e) : l.EdgesExact owner e where
  node := by
    rw [hl.stores.tables.nodesOf, he]
    simp [Option.filter]
  row := by rw [hl.stores.tables.adjacency, he, Option.map_some]
  count := (ht.exact owner e he).count
  edgesOf := by
    have hexact := ht.exact owner e he
    refine ⟨e.edges.targets, ?_, ?_, ?_, hexact.positive.mem_targets, fun t => ?_⟩
    · rw [Tables.edgesOf, hl.stores.tables.adjacency, he, Option.map_some]
    · rw [Pool.edgesOf, he]
    · exact keys_sorted e.edges
    · rw [hexact.positive.mem_targets, hexact.count, Nat.add_pos_iff_pos_or_pos, List.count_pos_iff,
        History.linked, List.count_pos_iff]
      rfl

/-- Edges are an exact multiset: whatever is asked of a new heap and of its pool, the count of an edge of a
live node is the number of times that the node reports the target, and that it was linked to it. The word
that is stored is this count, as long as that stays below 2 ^ 32. -/
theorem edges_exact (every : Nat) (rs : List (Request ν)) {e : Entry ν}
    (he : ((start every).run rs).heap.pool.entries[owner]? = some e) :
    ((start every).run rs).EdgesExact owner e ∧
      (∀ t, (start every : Ledger ν).StaysBelow rs owner t →
        ∃ row, ((start every).run rs).layout.words[owner]? = some row ∧
          (row.getD t 0).toNat = e.edges.count t) ∧
      ((∀ t, (start every : Ledger ν).StaysBelow rs owner t) →
        ∃ row, ((start every).run rs).layout.words[owner]? = some row ∧ row.keys = e.edges.targets) := by
  have hstart : (start every : Ledger ν).history.Tallied :=
    ⟨(Sound.start every).dated, nofun, fun id e he => by simp [history, start] at he⟩
  obtain ⟨hl, ht⟩ : ((start every).run rs).Sound ∧ ((start every).run rs).history.Tallied :=
    (Sound.start every).run (B := True) (fun _ _ _ => trivial) History.Tallied.alters hstart
  have hexact := hl.edgesExact ht he
  have hfits : ∀ t, (start every : Ledger ν).StaysBelow rs owner t →
      ∃ row, ((start every).run rs).layout.words[owner]? = some row ∧ row.Fits e.edges t := by
    intro t hlt
    have hf := fits_run (l := start every) (by simp [HeapTables.Fits, Words.Fits, start]) rs hlt
    unfold HeapTables.Fits Words.Fits at hf
    rw [hexact.row] at hf
    generalize ((start every).run rs).layout.words[owner]? = row? at hf ⊢
    cases hf with
    | some hf => exact ⟨_, rfl, hf⟩
  refine ⟨hexact, fun t hlt => ?_, fun hlt => ?_⟩
  · obtain ⟨row, hrow, hf⟩ := hfits t hlt
    exact ⟨row, hrow, hf.getD⟩
  · obtain ⟨row, hrow, -⟩ := hfits 0 (hlt 0)
    refine ⟨row, hrow, ?_⟩
    have hmem : ∀ t, t ∈ row.keys ↔ t ∈ e.edges.targets := by
      intro t
      obtain ⟨row', hrow', hf⟩ := hfits t (hlt t)
      obtain rfl := Option.some.inj (hrow.symm.trans hrow')
      rw [Std.ExtTreeMap.mem_keys, hf.mem, Edges.mem_targets_iff]
    exact List.Pairwise.eq_of_mem_iff (keys_sorted row) (keys_sorted e.edges) fun {t} => hmem t

/-- A cell that reports another one twice and is linked to it, and then reports it once. -/
def thinned : List (Request Cell) :=
  [.allocate (.alpha []) [], .allocate (.beta [1, 1]) [], .link 2 1, .update Cell.betas 2 fun _ => [1]]

theorem edges_exact_thinned : ∃ e, ((start 5).run thinned).heap.pool.entries[2]? = some e ∧
    e.node = .beta [1] ∧ e.edges.count 1 = 2 ∧ ((start 5).run thinned).EdgesExact 2 e := by
  have hentry : ((start 5).run thinned).heap.pool.entries[2]?.map (fun e => (e.node, e.edges.count 1)) =
      some (.beta [1], 2) := rfl
  obtain ⟨e, he, heq⟩ := Option.map_eq_some_iff.1 hentry
  obtain ⟨hnode, hcount⟩ := Prod.mk.inj heq
  exact ⟨e, he, hnode, hcount, (edges_exact 5 thinned he).1⟩

end Ledger

end Mosaic.Graph
