import Mathlib.Data.List.Sort
import Mathlib.Data.Set.Card
import Mosaic.Graph.Workbench
import Mosaic.Object
import Mosaic.Proofs.Graph.Tables
import Mosaic.Proofs.Graph.Visit
import Mosaic.Proofs.Maps

/-!
# What a collection keeps

A pool and the tables that hold it collect alike: the walk over the entries is the marking of their edges
(`walk_eq_mark`). From the marking, which finds what can be reached, `Tables.Collected` is derived: what is
live afterwards, what of it is as before, which handles went with what was removed, what the four numbers
count, and what a second collection finds. A node that only a removed one held survives the first
collection, and the second may remove it.
-/

namespace Mosaic.Graph

open Std (LawfulEqCmp)

/-! ## Counting -/

theorem ncard_eq_length {α : Type} [DecidableEq α] {s : Set α} {l : List α} (hl : l.Nodup)
    (h : ∀ a, a ∈ s ↔ a ∈ l) : s.ncard = l.length := by
  have hs : s = ↑l.toFinset := by
    ext a
    simp [h a]
  rw [hs, Set.ncard_coe_finset, List.toFinset_card_of_nodup hl]

theorem ncard_contains {β : Type} (m : Std.ExtTreeMap NodeId β compare) :
    {id | m.contains id = true}.ncard = m.size := by
  rw [← Std.ExtTreeMap.length_keys]
  exact ncard_eq_length Std.ExtTreeMap.nodup_keys fun id => Std.ExtTreeMap.mem_keys.symm

theorem ncard_mem (s : NodeSet) : {id | id ∈ s}.ncard = s.size := ncard_contains s.inner

theorem size_filter_not {β : Type} (m : Std.ExtTreeMap NodeId β compare) (f : NodeId → β → Bool) :
    m.size - (m.filter f).size = (m.filter fun id b => !f id b).size := by
  simp only [← Std.ExtTreeMap.length_toList, Std.ExtTreeMap.toList_filter]
  have := List.length_eq_length_filter_add (l := m.toList) fun p => f p.1 p.2
  omega

theorem foldl_add_length {α β : Type} (l : List α) (f : α → List β) (n : Nat) :
    l.foldl (fun n a => n + (f a).length) n = n + (l.flatMap f).length := by
  induction l generalizing n with
  | nil => rfl
  | cons a l ih => rw [List.foldl_cons, ih, List.flatMap_cons, List.length_append, Nat.add_assoc]

theorem nodup_eraseDups {α : Type} [BEq α] [LawfulBEq α] : (l : List α) → l.eraseDups.Nodup
  | [] => List.nodup_nil
  | a :: l => by
    rw [List.eraseDups_cons, List.nodup_cons, List.mem_eraseDups]
    exact ⟨by simp, nodup_eraseDups _⟩
termination_by l => l.length
decreasing_by exact Nat.lt_succ_of_le (List.length_filter_le ..)

/-! ## Walking and marking -/

namespace Adjacency

variable (a : Adjacency) {visited : NodeSet} {l work work' : List NodeId}

theorem mark_append (h : ∀ id ∈ l, visited.contains id = true) :
    a.mark visited (l ++ work) = a.mark visited work := by
  induction l with
  | nil => rfl
  | cons id l ih =>
    rw [List.cons_append, mark, dif_pos (h id (List.mem_cons_self ..))]
    exact ih fun i hi => h i (List.mem_cons_of_mem _ hi)

theorem mark_congr (h : work.filter (fun id => !visited.contains id) =
    work'.filter fun id => !visited.contains id) : a.mark visited work = a.mark visited work' := by
  fun_induction mark a visited work generalizing work' with
  | case1 visited =>
    rw [List.filter_nil, eq_comm, List.filter_eq_nil_iff] at h
    have happ : a.mark visited (work' ++ []) = a.mark visited [] := a.mark_append (by simpa using h)
    rw [List.append_nil, mark] at happ
    exact happ.symm
  | case2 visited id work hid ih => exact ih (by rw [← h, List.filter_cons_of_neg (by simp [hid])])
  | case3 visited id work hid he =>
    rw [List.filter_cons_of_pos (by simp [hid]), eq_comm, List.filter_eq_cons_iff] at h
    obtain ⟨l₁, l₂, rfl, hl₁, _, _⟩ := h
    rw [a.mark_append (by simpa using hl₁), mark, dif_neg hid]
    split
    · rfl
    · rename_i he'
      simp [he] at he'
  | case4 visited id work hid e he ih =>
    rw [List.filter_cons_of_pos (by simp [hid]), eq_comm, List.filter_eq_cons_iff] at h
    obtain ⟨l₁, l₂, rfl, hl₁, _, hl₂⟩ := h
    have happ : a.mark visited (l₁ ++ id :: l₂) = a.mark visited (id :: l₂) :=
      a.mark_append (by simpa using hl₁)
    have hmark : a.mark visited (id :: l₂) = a.mark (visited.insert id)
        (e.targets.filter (fun t => !(visited.insert id).contains t) ++ l₂) := by
      rw [mark, dif_neg hid]
      split <;> simp_all
    rw [happ, hmark]
    refine ih ?_
    -- what is not visited now was not visited before
    have hsub : ∀ w : List NodeId, w.filter (fun i => !(visited.insert id).contains i) =
        (w.filter fun i => !visited.contains i).filter fun i => !(visited.insert id).contains i := by
      intro w
      rw [List.filter_filter]
      refine List.filter_congr fun i _ => ?_
      simp only [Std.ExtTreeSet.contains_insert]
      cases compare id i == .eq <;> cases visited.contains i <;> rfl
    rw [List.filter_append, List.filter_append, hsub work, hsub l₂, hl₂]

end Adjacency

namespace Pool

variable {ν : Type} (es : Entries ν)

/-- The edges of the entries. -/
def adjacency (es : Entries ν) : Adjacency := es.map fun _ e => e.edges

theorem getElem?_adjacency (id : NodeId) : (adjacency es)[id]? = es[id]?.map Entry.edges :=
  Std.ExtTreeMap.getElem?_map

/-- The entries that are among the visited ones. -/
def within (es : Entries ν) (visited : NodeSet) : Entries ν := es.filter fun id _ => visited.contains id

def without (es : Entries ν) (visited : NodeSet) : Entries ν :=
  es.filter fun id _ => !visited.contains id

theorem contains_within (visited : NodeSet) (id : NodeId) :
    (within es visited).contains id = (es.contains id && visited.contains id) := by
  simp only [within, Std.ExtTreeMap.contains_eq_isSome_getElem?, Std.ExtTreeMap.getElem?_filter']
  cases es[id]? <;> cases visited.contains id <;> rfl

theorem contains_without (visited : NodeSet) (id : NodeId) :
    (without es visited).contains id = (es.contains id && !visited.contains id) := by
  simp only [without, Std.ExtTreeMap.contains_eq_isSome_getElem?, Std.ExtTreeMap.getElem?_filter']
  cases es[id]? <;> cases visited.contains id <;> rfl

theorem within_insert {visited : NodeSet} {id : NodeId} {e : Entry ν} (he : es[id]? = some e) :
    (within es visited).insert id e = within es (visited.insert id) := by
  refine Std.ExtTreeMap.ext_getElem? fun i => ?_
  simp only [within, Std.ExtTreeMap.getElem?_insert, Std.ExtTreeMap.getElem?_filter',
    Std.ExtTreeSet.contains_insert, LawfulEqCmp.compare_eq_iff_eq]
  by_cases hi : id = i
  · subst hi
    simp [he, Option.filter]
  · have hne : (compare id i == .eq) = false := by simpa using hi
    simp [hi, hne]

theorem without_erase (visited : NodeSet) (id : NodeId) :
    (without es visited).erase id = without es (visited.insert id) := by
  refine Std.ExtTreeMap.ext_getElem? fun i => ?_
  simp only [without, Std.ExtTreeMap.getElem?_erase, Std.ExtTreeMap.getElem?_filter',
    Std.ExtTreeSet.contains_insert, LawfulEqCmp.compare_eq_iff_eq]
  by_cases hi : id = i
  · subst hi
    cases es[id]? <;> simp
  · have hne : (compare id i == .eq) = false := by simpa using hi
    simp [hi, hne]

/-- The walk moves the entries of what the marking visits. -/
theorem walk_eq_mark {left kept : Entries ν} {visited : NodeSet} {work : List NodeId}
    (hl : left = without es visited) (hk : kept = within es visited)
    (h : ∀ id, visited.contains id = true → es.contains id = true) :
    walk left kept work =
      ((adjacency es).mark visited work).map fun r => (without es r, within es r) := by
  fun_induction walk left kept work generalizing visited with
  | case1 left kept =>
    rw [Adjacency.mark, hl, hk]
    rfl
  | case2 left kept id work hid ih =>
    rw [hk, contains_within, Bool.and_eq_true] at hid
    rw [Adjacency.mark, dif_pos hid.2]
    exact ih hl hk h
  | case3 left kept id work hid hnone =>
    have hvis : ¬ visited.contains id = true := fun hv =>
      hid (by rw [hk, contains_within, h id hv, hv]; rfl)
    have hes : (adjacency es)[id]? = none := by
      rw [hl, without, Std.ExtTreeMap.getElem?_filter'] at hnone
      rw [getElem?_adjacency]
      cases hes : es[id]? <;> simp_all
    rw [Adjacency.mark, dif_neg hvis]
    split
    · rfl
    · rename_i he
      rw [hes] at he
      cases he
  | case4 left kept id work hid e he ih =>
    have hvis : ¬ visited.contains id = true := fun hv =>
      hid (by rw [hk, contains_within, h id hv, hv]; rfl)
    have hes : es[id]? = some e := by
      rw [hl, without, Std.ExtTreeMap.getElem?_filter', Option.filter_eq_some_iff] at he
      exact he.1
    have hmark : (adjacency es).mark visited (id :: work) =
        (adjacency es).mark (visited.insert id) (e.edges.targets ++ work) := by
      rw [Adjacency.mark, dif_neg hvis]
      split
      · rename_i hno
        simp [getElem?_adjacency, hes] at hno
      · rename_i e' he'
        obtain rfl : e.edges = e' := by simpa [getElem?_adjacency, hes] using he'
        refine (adjacency es).mark_congr ?_
        simp [List.filter_append, List.filter_filter]
    rw [hmark]
    refine ih (by rw [hl, without_erase]) (by rw [hk, within_insert es hes]) fun i hi => ?_
    rw [Std.ExtTreeSet.contains_insert, Bool.or_eq_true] at hi
    rcases hi with hi | hi
    · obtain rfl : id = i := by simpa using hi
      exact contains_of_getElem? hes
    · exact h i hi

theorem collect_eq_mark {ν : Type} (p : Pool ν) (pins : NodeSet) :
    p.collect pins = ((adjacency p.entries).mark {} (p.roots pins).toList).map fun r =>
      ({ roots := (p.roots pins).size
         retained := (within p.entries r).size
         swept := (without p.entries r).size
         prunedEdges := (without p.entries r).foldl (fun n _ e => n + e.edges.size) 0 },
        { p with entries := within p.entries r }) := by
  have hleft : p.entries = without p.entries {} := by
    refine Std.ExtTreeMap.ext_getElem? fun i => ?_
    rw [without, Std.ExtTreeMap.getElem?_filter']
    cases p.entries[i]? <;> rfl
  have hkept : ({} : Entries ν) = within p.entries {} := by
    refine Std.ExtTreeMap.ext_getElem? fun i => ?_
    rw [within, Std.ExtTreeMap.getElem?_filter']
    cases p.entries[i]? <;> rfl
  simp only [collect]
  rw [walk_eq_mark p.entries hleft hkept (by simp)]
  cases (adjacency p.entries).mark {} (p.roots pins).toList <;> rfl

end Pool

namespace Tables

variable {ν : Type} [Node ν] {t t' : Tables ν} {p : Pool ν} {r : NodeSet} {c : Collection}

/-- The node can be reached from one that is held. -/
def Reached (t : Tables ν) : NodeId → Prop := t.adjacency.Reached fun id => 0 < t.handleCount id

omit [Node ν] in
theorem mem_rooted (t : Tables ν) (id : NodeId) : id ∈ t.rooted ↔ 0 < t.handleCount id := by
  rw [rooted, Std.ExtTreeMap.mem_keys, Std.ExtTreeMap.mem_iff_isSome_getElem?,
    Std.ExtTreeMap.getElem?_filter', handleCount, Std.ExtTreeMap.getD_eq_getD_getElem?]
  cases t.roots[id]? with
  | none => simp
  | some n => by_cases hn : 0 < n <;> simp [Option.filter, hn]

omit [Node ν] in
theorem reached_eq (t : Tables ν) : t.Reached = t.adjacency.Reached (· ∈ t.rooted) :=
  congrArg _ (funext fun id => propext (t.mem_rooted id).symm)

omit [Node ν] in
theorem getElem?_sweep (nodes : NodeTable ν) (r : NodeSet) (id : NodeId) :
    (sweep nodes r)[id]? = if r.contains id then nodes[id]? else none := by
  rw [sweep, Std.ExtTreeMap.getElem?_filter']
  cases nodes[id]? <;> cases r.contains id <;> simp [Option.filter]

omit [Node ν] in
theorem nodesOf_prune (t : Tables ν) (r : NodeSet) (kind : String) :
    (t.prune r).nodesOf kind = sweep (t.nodesOf kind) r := by
  simp only [nodesOf, prune, Std.ExtTreeMap.getD_eq_getD_getElem?, Std.ExtTreeMap.getElem?_map]
  cases t.nodes[kind]? with
  | none =>
    refine Std.ExtTreeMap.ext_getElem? fun id => ?_
    rw [getElem?_sweep]
    simp
  | some nodes => rfl

/-! ## What the numbers count -/

theorem Agree.swept_eq (h : t.Agree) (r : NodeSet) (outside : List Tether) :
    (t.keep r outside).1.swept = {id | t.contains id = true ∧ id ∉ r}.ncard := by
  let gone (nodes : NodeTable ν) : NodeTable ν := nodes.filter fun id _ => !r.contains id
  have hgone : ∀ (nodes : NodeTable ν) id, id ∈ (gone nodes).keys ↔
      nodes.contains id = true ∧ id ∉ r := by
    intro nodes id
    rw [Std.ExtTreeMap.mem_keys, ← Std.ExtTreeMap.contains_iff_mem,
      Std.ExtTreeMap.contains_eq_isSome_getElem?, Std.ExtTreeMap.getElem?_filter',
      Std.ExtTreeMap.contains_eq_isSome_getElem?, ← Std.ExtTreeSet.contains_iff_mem]
    cases nodes[id]? <;> cases r.contains id <;> simp [Option.filter]
  have hterm : ∀ nodes : NodeTable ν, nodes.size - (sweep nodes r).size = (gone nodes).keys.length :=
    fun nodes => by rw [sweep, size_filter_not, Std.ExtTreeMap.length_keys]
  simp only [keep, Std.ExtTreeMap.foldl_eq_foldl_toList, hterm]
  rw [foldl_add_length t.nodes.toList fun p => (gone p.2).keys, Nat.zero_add]
  refine (ncard_eq_length ?_ fun id => ?_).symm
  · refine List.nodup_flatMap.2 ⟨fun _ _ => Std.ExtTreeMap.nodup_keys, ?_⟩
    refine Std.ExtTreeMap.distinct_keys_toList.imp_of_mem ?_
    rintro ⟨kind, nodes⟩ ⟨kind', nodes'⟩ hmem hmem' hne id hid hid'
    obtain rfl := nodesOf_of_mem hmem
    obtain rfl := nodesOf_of_mem hmem'
    exact hne (LawfulEqCmp.compare_eq_iff_eq.2
      (h.unique id kind kind' ((hgone _ id).1 hid).1 ((hgone _ id).1 hid').1))
  · simp only [Set.mem_ofPred_eq, h.contains_iff, List.mem_flatMap, hgone, Prod.exists]
    constructor
    · rintro ⟨⟨kind, hk⟩, hr⟩
      exact ⟨kind, _, mem_toList_of_contains hk, hk, hr⟩
    · rintro ⟨kind, nodes, hmem, hk, hr⟩
      obtain rfl := nodesOf_of_mem hmem
      exact ⟨⟨kind, hk⟩, hr⟩

/-- The edges that go with their owners. -/
theorem prunedEdges_eq (t : Tables ν) (r : NodeSet) (outside : List Tether) :
    (t.keep r outside).1.prunedEdges =
      {e : NodeId × NodeId | t.adjacency.Points e.1 e.2 ∧ e.1 ∉ r}.ncard := by
  let edges (row : NodeId × Edges) : List (NodeId × NodeId) := row.2.targets.map (row.1, ·)
  have hterm : ∀ row : NodeId × Edges, row.2.size = (edges row).length := fun row => by
    rw [List.length_map, Edges.targets, Std.ExtTreeMap.length_keys]
  have hrow : ∀ row : NodeId × Edges, row ∈ (t.adjacency.unvisited r).toList ↔
      t.adjacency[row.1]? = some row.2 ∧ row.1 ∉ r := by
    intro row
    rw [Adjacency.unvisited, Std.ExtTreeMap.toList_filter, List.mem_filter,
      Std.ExtTreeMap.mem_toList_iff_getElem?_eq_some, Bool.not_eq_true', Bool.eq_false_iff, ne_eq,
      Std.ExtTreeSet.contains_iff_mem]
  simp only [keep, Std.ExtTreeMap.foldl_eq_foldl_toList, hterm]
  rw [foldl_add_length, Nat.zero_add]
  refine (ncard_eq_length ?_ fun e => ?_).symm
  · refine List.nodup_flatMap.2
      ⟨fun _ _ => Std.ExtTreeMap.nodup_keys.map fun _ _ h => (Prod.mk.inj h).2, ?_⟩
    refine Std.ExtTreeMap.distinct_keys_toList.imp ?_
    rintro ⟨owner, row⟩ ⟨owner', row'⟩ hne e he he'
    obtain ⟨_, _, rfl⟩ := List.mem_map.1 he
    obtain ⟨_, _, heq⟩ := List.mem_map.1 he'
    exact hne (LawfulEqCmp.compare_eq_iff_eq.2 (Prod.mk.inj heq).1.symm)
  · obtain ⟨owner, target⟩ := e
    simp only [Set.mem_ofPred_eq, List.mem_flatMap, hrow, Prod.exists, edges, List.mem_map,
      Prod.mk.injEq, Adjacency.Points]
    constructor
    · rintro ⟨⟨row, hrow, ht⟩, hr⟩
      exact ⟨owner, row, ⟨hrow, hr⟩, target, ht, rfl, rfl⟩
    · rintro ⟨_, row, ⟨hrow, hr⟩, _, ht, rfl, rfl⟩
      exact ⟨⟨row, hrow, ht⟩, hr⟩

/-! ## Tables and the pool that they hold -/

namespace Stores

theorem adjacency_eq (h : t.Stores p) : t.adjacency = Pool.adjacency p.entries :=
  Std.ExtTreeMap.ext_getElem? fun id => by rw [h.adjacency, Pool.getElem?_adjacency]

theorem rooted_eq (h : t.Stores p) : (p.roots {}).toList = t.rooted := by
  have hmem : ∀ id, id ∈ (p.roots {}).toList ↔ id ∈ t.rooted := by
    intro id
    rw [Pool.roots, Std.ExtTreeSet.mem_toList, Std.ExtTreeSet.mem_insertMany_list, rooted,
      Std.ExtTreeMap.mem_keys, List.contains_iff_mem, Std.ExtTreeMap.mem_keys,
      Std.ExtTreeMap.mem_iff_isSome_getElem?, Std.ExtTreeMap.mem_iff_isSome_getElem?, h.handles,
      Std.ExtTreeMap.getElem?_filter']
    simp
  have hp : (p.roots {}).toList.Pairwise (· < ·) :=
    Std.ExtTreeSet.ordered_toList.imp fun hab => Nat.compare_eq_lt.1 hab
  have ht : t.rooted.Pairwise (· < ·) := keys_sorted _
  exact List.Pairwise.eq_of_mem_iff hp ht (fun {id} => hmem id)

theorem prune (h : t.Stores p) (r : NodeSet) :
    (t.prune r).Stores { p with entries := Pool.within p.entries r } := by
  refine ⟨fun id => ?_, fun kind id => ?_, h.handles, h.next⟩
  · simp only [Tables.prune, Pool.within, Std.ExtTreeMap.getElem?_filter', h.adjacency]
    cases p.entries[id]? <;> cases r.contains id <;> simp [Option.filter]
  · rw [nodesOf_prune, getElem?_sweep, h.nodesOf, Pool.within, Std.ExtTreeMap.getElem?_filter']
    cases p.entries[id]? <;> cases r.contains id <;> simp [Option.filter]

/-- A collection of a pool is one of the tables that hold it: the same faults, the same numbers, and the
same nodes that stay. -/
theorem collect_mark (h : t.Stores p) : match p.collect {} with
    | .ok (c, p') => ∃ r, t.adjacency.mark {} t.rooted = .ok r ∧ (t.prune r).Stores p' ∧
      ∀ outside, (t.keep r outside).1 = c
    | .error fault => t.adjacency.mark {} t.rooted = .error fault := by
  rw [Pool.collect_eq_mark, ← h.adjacency_eq, h.rooted_eq]
  cases hm : t.adjacency.mark {} t.rooted with
  | error fault => rfl
  | ok r =>
    refine ⟨r, rfl, h.prune r, fun outside => ?_⟩
    have hrow : ∀ id, id ∈ r → p.entries.contains id = true := by
      intro id hid
      have := Adjacency.getElem?_ne_none_of_mark hm ((Adjacency.mem_mark hm id).1 hid)
      rw [h.adjacency] at this
      rw [Std.ExtTreeMap.contains_eq_isSome_getElem?]
      cases he : p.entries[id]? <;> simp_all
    have hroots : t.rooted.length = (p.roots {}).size := by
      rw [← h.rooted_eq, Std.ExtTreeSet.length_toList]
    have hretained : r.size = (Pool.within p.entries r).size := by
      rw [← ncard_mem, ← ncard_contains]
      congr 1
      ext id
      simp only [Set.mem_ofPred_eq, Pool.contains_within, Bool.and_eq_true,
        Std.ExtTreeSet.contains_iff_mem]
      exact ⟨fun hid => ⟨hrow id hid, hid⟩, And.right⟩
    have hswept : (t.keep r outside).1.swept = (Pool.without p.entries r).size := by
      rw [h.agree.swept_eq, ← ncard_contains]
      congr 1
      ext id
      simp only [Set.mem_ofPred_eq, h.contains, Pool.contains_without, Pool.contains,
        Bool.and_eq_true, Bool.not_eq_true', Bool.eq_false_iff, ne_eq, Std.ExtTreeSet.contains_iff_mem]
    have hpruned : (t.keep r outside).1.prunedEdges =
        (Pool.without p.entries r).foldl (fun n _ e => n + e.edges.size) 0 := by
      have hrows : t.adjacency.unvisited r = Pool.adjacency (Pool.without p.entries r) := by
        refine Std.ExtTreeMap.ext_getElem? fun id => ?_
        rw [Pool.getElem?_adjacency, Adjacency.unvisited, Pool.without,
          Std.ExtTreeMap.getElem?_filter', Std.ExtTreeMap.getElem?_filter', h.adjacency]
        cases p.entries[id]? <;> cases r.contains id <;> rfl
      simp only [Tables.keep, hrows, Pool.adjacency, Std.ExtTreeMap.foldl_eq_foldl_toList,
        Std.ExtTreeMap.toList_map, List.foldl_map]
    exact (Collection.mk.injEq ..).mpr ⟨hroots, hretained, hswept, hpruned⟩

/-- The same pool is left once the lost handles are let go of. -/
theorem collect (h : t.Stores p) (outside : List Tether) : match p.collect {} with
    | .ok (c, p') => (t.collect outside).1 = .ok c ∧
      (t.collect outside).2.Stores ((t.lost outside).foldl Pool.release p')
    | .error fault => t.collect outside = (.error fault, t) := by
  have hf := h.collect_mark
  rw [Tables.collect, Tables.lost]
  cases hp : p.collect {} with
  | error fault =>
    rw [hp] at hf
    rw [show t.adjacency.mark {} t.rooted = _ from hf]
  | ok r =>
    rw [hp] at hf
    obtain ⟨r, hm, hs, hc⟩ := hf
    rw [hm]
    exact ⟨congrArg _ (hc outside), hs.foldl_release _⟩

end Stores

/-! ## What is kept -/

/-- The node at the address owns the handle. -/
def Owns (t : Tables ν) (id : NodeId) (h : Tether) : Prop :=
  ∃ kind n, (t.nodesOf kind)[id]? = some n ∧ h ∈ Node.tethers n

/-- The handle goes with nodes that cannot be reached: one of them owns it, and nobody else does. -/
def Goes (t : Tables ν) (outside : List Tether) (h : Tether) : Prop :=
  (∃ id, ¬ t.Reached id ∧ t.Owns id h) ∧ (∀ id, t.Reached id → ¬ t.Owns id h) ∧ h ∉ outside

/-- What there is to say of a collection that made `t'` of `t`, with the numbers in `c`, while the handles in
`outside` were owned elsewhere, too. -/
structure Collected (t : Tables ν) (outside : List Tether) (c : Collection) (t' : Tables ν) : Prop where
  agree : t'.Agree
  live : ∀ id, t'.contains id = true ↔ t.Reached id
  nodes : ∀ id, t.Reached id → ∀ kind, (t'.nodesOf kind)[id]? = (t.nodesOf kind)[id]?
  edges : ∀ id, t.Reached id → t'.adjacency[id]? = t.adjacency[id]?
  /-- Only the handles that go with removed nodes are let go of. -/
  handles : ∀ id, t'.handleCount id = t.handleCount id - {h | t.Goes outside h ∧ h.2 = id}.ncard
  next : t'.next = t.next
  closed : ∀ owner target, t'.adjacency.Points owner target → t'.contains target = true
  roots : c.roots = {id | 0 < t.handleCount id}.ncard
  retained : c.retained = {id | t.Reached id}.ncard
  swept : c.swept = {id | t.contains id = true ∧ ¬ t.Reached id}.ncard
  prunedEdges : c.prunedEdges =
    {e : NodeId × NodeId | t.adjacency.Points e.1 e.2 ∧ ¬ t.Reached e.1}.ncard
  /-- A second collection does not fail. -/
  again : ∀ outside', ∃ c', (t'.collect outside').1 = .ok c'
  /-- It removes nothing if the handles that are left still reach everything. -/
  settled : (∀ id, t.Reached id → t'.Reached id) → ∀ outside', t'.collect outside' =
    (.ok { c with roots := {id | 0 < t'.handleCount id}.ncard, swept := 0, prunedEdges := 0 }, t')
  /-- So it is if no handle was let go of; then the counts are as before. -/
  unreleased : (∀ h, ¬ t.Goes outside h) → t'.roots = t.roots ∧
    ∀ outside', t'.collect outside' = (.ok { c with swept := 0, prunedEdges := 0 }, t')

omit [Node ν] in
theorem contains_prune (t : Tables ν) (r : NodeSet) (id : NodeId) :
    (t.prune r).contains id = (t.contains id && r.contains id) := by
  simp only [contains, prune, Std.ExtTreeMap.contains_eq_isSome_getElem?, Std.ExtTreeMap.getElem?_filter']
  cases t.adjacency[id]? <;> cases r.contains id <;> rfl

omit [Node ν] in
theorem points_prune (t : Tables ν) (r : NodeSet) (owner target : NodeId) :
    (t.prune r).adjacency.Points owner target ↔ t.adjacency.Points owner target ∧ owner ∈ r := by
  simp only [Adjacency.Points, prune, Std.ExtTreeMap.getElem?_filter', Option.filter_eq_some_iff,
    Std.ExtTreeSet.contains_iff_mem]
  constructor
  · rintro ⟨e, ⟨he, hr⟩, ht⟩
    exact ⟨⟨e, he, ht⟩, hr⟩
  · rintro ⟨⟨e, he, ht⟩, hr⟩
    exact ⟨e, ⟨he, hr⟩, ht⟩

theorem exists_keep (t : Tables ν) (r : NodeSet) (outside : List Tether) :
    ∃ roots, (t.keep r outside).2 = { t.prune r with roots } :=
  (t.prune r).exists_foldl_release _

theorem Agree.keep (h : t.Agree) (r : NodeSet) (outside : List Tether) : (t.keep r outside).2.Agree :=
  ((h.stores_pool.prune r).foldl_release _).agree

theorem contains_keep (t : Tables ν) (r : NodeSet) (outside : List Tether) (id : NodeId) :
    (t.keep r outside).2.contains id = (t.contains id && r.contains id) := by
  obtain ⟨roots, hr⟩ := t.exists_keep r outside
  rw [hr]
  exact t.contains_prune r id

theorem points_keep (t : Tables ν) (r : NodeSet) (outside : List Tether) (owner target : NodeId) :
    (t.keep r outside).2.adjacency.Points owner target ↔
      t.adjacency.Points owner target ∧ owner ∈ r := by
  obtain ⟨roots, hr⟩ := t.exists_keep r outside
  rw [hr]
  exact t.points_prune r owner target

theorem nodesOf_keep (t : Tables ν) (r : NodeSet) (outside : List Tether) (kind : String) :
    (t.keep r outside).2.nodesOf kind = sweep (t.nodesOf kind) r := by
  obtain ⟨roots, hr⟩ := t.exists_keep r outside
  rw [hr]
  exact t.nodesOf_prune r kind

/-! ## Handles that go -/

theorem mem_tethers {h : Tether} : h ∈ t.tethers ↔ ∃ id, t.Owns id h := by
  simp only [tethers, Owns, List.mem_flatMap, mem_values]
  constructor
  · rintro ⟨nodes, ⟨kind, hk⟩, n, ⟨id, hn⟩, hh⟩
    exact ⟨id, kind, n, by rw [nodesOf, Std.ExtTreeMap.getD_eq_getD_getElem?, hk]; exact hn, hh⟩
  · rintro ⟨id, kind, n, hn, hh⟩
    have hid : (t.nodesOf kind).contains id = true := by
      rw [Std.ExtTreeMap.contains_eq_isSome_getElem?, hn]
      rfl
    have hmem := Std.ExtTreeMap.mem_toList_iff_getElem?_eq_some.1 (mem_toList_of_contains hid)
    exact ⟨t.nodesOf kind, ⟨kind, hmem⟩, n, ⟨id, hn⟩, hh⟩

theorem owns_prune {id : NodeId} {h : Tether} : (t.prune r).Owns id h ↔ id ∈ r ∧ t.Owns id h := by
  have hnode : ∀ kind n, ((t.prune r).nodesOf kind)[id]? = some n ↔
      id ∈ r ∧ (t.nodesOf kind)[id]? = some n := by
    intro kind n
    rw [nodesOf_prune, getElem?_sweep, ← Std.ExtTreeSet.contains_iff_mem]
    cases r.contains id <;> simp
  simp only [Owns, hnode]
  exact ⟨fun ⟨kind, n, ⟨hr, hn⟩, hh⟩ => ⟨hr, kind, n, hn, hh⟩,
    fun ⟨hr, kind, n, hn, hh⟩ => ⟨kind, n, ⟨hr, hn⟩, hh⟩⟩

/-- The handles that a collection lets go of, each once. -/
theorem count_letGo (hr : ∀ id, id ∈ r ↔ t.Reached id) (outside : List Tether) (id : NodeId) :
    (t.letGo r outside).count id = {h | t.Goes outside h ∧ h.2 = id}.ncard := by
  have hmem : ∀ h : Tether, t.Goes outside h ↔
      h ∈ t.tethers.eraseDups.filter fun h =>
        !(t.prune r).tethers.contains h && !outside.contains h := by
    intro h
    simp only [List.mem_filter, List.mem_eraseDups, Bool.and_eq_true, Bool.not_eq_true',
      ← Bool.not_eq_true, List.contains_iff_mem, mem_tethers, owns_prune, hr, Goes]
    constructor
    · rintro ⟨⟨i, -, hi⟩, hno, hout⟩
      refine ⟨⟨i, hi⟩, ?_, hout⟩
      rintro ⟨j, hj, hj'⟩
      exact hno j hj hj'
    · rintro ⟨⟨i, hi⟩, hno, hout⟩
      exact ⟨⟨i, fun hi' => hno ⟨i, hi', hi⟩, hi⟩, fun j hj hj' => hno ⟨j, hj, hj'⟩, hout⟩
  rw [letGo, List.count_eq_countP, List.countP_map, List.countP_eq_length_filter]
  refine (ncard_eq_length (((nodup_eraseDups _).filter _).filter _) fun h => ?_).symm
  simp only [Set.mem_ofPred_eq, hmem, List.mem_filter (p := _ ∘ _), Function.comp_apply, beq_iff_eq]

theorem Agree.keep_of_all (h : t.Agree) (hall : ∀ id, t.contains id = true → id ∈ r)
    (outside : List Tether) : t.keep r outside =
      ({ roots := t.rooted.length, retained := r.size, swept := 0, prunedEdges := 0 }, t) := by
  have hprune : t.prune r = t := by
    have hnodes : (t.prune r).nodes = t.nodes := by
      refine Std.ExtTreeMap.ext_getElem? fun kind => ?_
      rw [prune, Std.ExtTreeMap.getElem?_map]
      cases hk : t.nodes[kind]? with
      | none => rfl
      | some nodes =>
        refine congrArg some (Std.ExtTreeMap.ext_getElem? fun id => ?_)
        rw [getElem?_sweep]
        split
        · rfl
        · rename_i hr
          cases hn : nodes[id]? with
          | none => rfl
          | some n =>
            refine absurd (Std.ExtTreeSet.contains_iff_mem.2 (hall id ((h.contains_iff id).2 ⟨kind, ?_⟩))) hr
            rw [nodesOf, Std.ExtTreeMap.getD_eq_getD_getElem?, hk, Option.getD_some,
              Std.ExtTreeMap.contains_eq_isSome_getElem?, hn]
            rfl
    have hedges : (t.prune r).adjacency = t.adjacency := by
      refine Std.ExtTreeMap.ext_getElem? fun id => ?_
      rw [prune, Std.ExtTreeMap.getElem?_filter']
      cases he : t.adjacency[id]? with
      | none => rfl
      | some e =>
        have hid : t.contains id = true := by
          rw [contains, Std.ExtTreeMap.contains_eq_isSome_getElem?, he]
          rfl
        rw [Option.filter_some, if_pos (Std.ExtTreeSet.contains_iff_mem.2 (hall id hid))]
    exact (Tables.mk.injEq ..).mpr ⟨hnodes, hedges, rfl, rfl⟩
  have hletGo : t.letGo r outside = [] := by
    rw [letGo, hprune, List.map_eq_nil_iff, List.filter_eq_nil_iff]
    intro x hx
    simp [List.mem_eraseDups.1 hx]
  have hswept : (t.keep r outside).1.swept = 0 := by
    rw [h.swept_eq, ← Set.ncard_empty NodeId]
    refine congrArg _ (Set.eq_empty_of_forall_notMem ?_)
    rintro id ⟨hid, hr⟩
    exact hr (hall id hid)
  have hpruned : (t.keep r outside).1.prunedEdges = 0 := by
    rw [prunedEdges_eq, ← Set.ncard_empty (NodeId × NodeId)]
    refine congrArg _ (Set.eq_empty_of_forall_notMem ?_)
    rintro e ⟨⟨row, hrow, _⟩, hr⟩
    refine hr (hall e.1 ?_)
    rw [contains, Std.ExtTreeMap.contains_eq_isSome_getElem?, hrow]
    rfl
  refine Prod.ext ((Collection.mk.injEq ..).mpr ⟨rfl, rfl, hswept, hpruned⟩) ?_
  simp only [Tables.keep, hletGo, hprune, List.foldl_nil]

variable (h : t.Agree) (hm : t.adjacency.mark {} t.rooted = .ok r) {outside : List Tether}

include hm in
omit [Node ν] in
theorem mem_mark (id : NodeId) : id ∈ r ↔ t.Reached id := by
  rw [reached_eq, Adjacency.mem_mark hm]

include hm in
omit [Node ν] in
theorem contains_of_mem_mark {id : NodeId} (hid : id ∈ r) : t.contains id = true := by
  have := Adjacency.getElem?_ne_none_of_mark hm ((Adjacency.mem_mark hm id).1 hid)
  rw [contains, Std.ExtTreeMap.contains_eq_isSome_getElem?]
  exact Option.isSome_iff_ne_none.2 this

include hm in
theorem contains_keep_iff (id : NodeId) : (t.keep r outside).2.contains id = true ↔ id ∈ r := by
  rw [contains_keep, Bool.and_eq_true, Std.ExtTreeSet.contains_iff_mem]
  exact ⟨And.right, fun hid => ⟨contains_of_mem_mark hm hid, hid⟩⟩

include hm in
theorem handleCount_keep (id : NodeId) : (t.keep r outside).2.handleCount id =
    t.handleCount id - {h | t.Goes outside h ∧ h.2 = id}.ncard := by
  rw [keep, handleCount_foldl_release, count_letGo (mem_mark hm)]
  rfl

include hm in
/-- What can be reached afterwards could be reached before. -/
theorem reached_of_keep {id : NodeId} (hid : (t.keep r outside).2.Reached id) : t.Reached id := by
  obtain ⟨s, hs, hr⟩ := hid
  rw [handleCount_keep hm] at hs
  exact ⟨s, Nat.lt_of_lt_of_le hs (Nat.sub_le ..), Relation.ReflTransGen.mono
    (fun owner target ht => ((points_keep t r outside owner target).1 ht).1) _ _ hr⟩

include hm in
theorem path_keep {s id : NodeId} (hs : 0 < t.handleCount s)
    (hr : Relation.ReflTransGen t.adjacency.Points s id) :
    Relation.ReflTransGen (t.keep r outside).2.adjacency.Points s id := by
  induction hr with
  | refl => exact .refl
  | @tail i j hi hij ih =>
    have hmem : i ∈ r := (mem_mark hm i).2 ⟨s, hs, hi⟩
    exact ih.tail ((points_keep t r outside i j).2 ⟨hij, hmem⟩)

variable (outside) in
include hm in
/-- What is kept has its rows, so it can be marked again. -/
theorem exists_mark_keep : ∃ r', (t.keep r outside).2.adjacency.mark {} (t.keep r outside).2.rooted = .ok r' := by
  cases hm' : (t.keep r outside).2.adjacency.mark {} (t.keep r outside).2.rooted with
  | ok r' => exact ⟨r', rfl⟩
  | error fault =>
    obtain ⟨id, -, hid, hnone⟩ := Adjacency.mark_error hm'
    rw [← reached_eq] at hid
    have hrow : (t.keep r outside).2.contains id = true :=
      (contains_keep_iff hm id).2 ((mem_mark hm id).2 (reached_of_keep hm hid))
    rw [contains, Std.ExtTreeMap.contains_eq_isSome_getElem?, hnone] at hrow
    cases hrow

include h hm in
theorem Agree.keep_settled (hall : ∀ id, t.Reached id → (t.keep r outside).2.Reached id)
    (outside' : List Tether) : (t.keep r outside).2.collect outside' =
      (.ok { (t.keep r outside).1 with
        roots := {id | 0 < (t.keep r outside).2.handleCount id}.ncard, swept := 0, prunedEdges := 0 },
        (t.keep r outside).2) := by
  obtain ⟨r', hm'⟩ := exists_mark_keep hm outside
  obtain rfl : r' = r := Std.ExtTreeSet.ext_mem fun id => by
    rw [mem_mark hm', mem_mark hm]
    exact ⟨reached_of_keep hm, hall id⟩
  have hroots : {id | 0 < (t.keep r' outside).2.handleCount id}.ncard =
      (t.keep r' outside).2.rooted.length :=
    ncard_eq_length Std.ExtTreeMap.nodup_keys fun id => ((t.keep r' outside).2.mem_rooted id).symm
  rw [collect, hm']
  dsimp only
  rw [(h.keep r' outside).keep_of_all fun id => (contains_keep_iff hm id).1, hroots]
  rfl

include h hm in
theorem Agree.collected : t.Collected outside (t.keep r outside).1 (t.keep r outside).2 where
  agree := h.keep r outside
  live id := by rw [contains_keep_iff hm, mem_mark hm]
  nodes id hid kind := by
    rw [nodesOf_keep, getElem?_sweep, if_pos (Std.ExtTreeSet.contains_iff_mem.2 ((mem_mark hm id).2 hid))]
  edges id hid := by
    have hr := Std.ExtTreeSet.contains_iff_mem.2 ((mem_mark hm id).2 hid)
    obtain ⟨roots, hkeep⟩ := t.exists_keep r outside
    simp only [hkeep, prune, Std.ExtTreeMap.getElem?_filter', hr]
    cases t.adjacency[id]? <;> rfl
  handles := handleCount_keep hm
  next := by
    obtain ⟨roots, hkeep⟩ := t.exists_keep r outside
    rw [hkeep]
    rfl
  closed owner target ht := by
    obtain ⟨ht, hr⟩ := (points_keep t r outside owner target).1 ht
    exact (contains_keep_iff hm target).2 ((mem_mark hm _).2 (((mem_mark hm _).1 hr).edge ht))
  roots := by
    simp only [← mem_rooted]
    exact (ncard_eq_length Std.ExtTreeMap.nodup_keys fun _ => Iff.rfl).symm
  retained := by
    simp only [← mem_mark hm]
    exact (ncard_mem r).symm
  swept := by
    rw [h.swept_eq]
    simp only [mem_mark hm]
  prunedEdges := by
    rw [prunedEdges_eq]
    simp only [mem_mark hm]
  again outside' := by
    obtain ⟨r', hm'⟩ := exists_mark_keep hm outside
    exact ⟨_, by rw [collect, hm']⟩
  settled := h.keep_settled hm
  unreleased hno := by
    have hletGo : t.letGo r outside = [] := List.eq_nil_iff_forall_not_mem.2 fun id hid => by
      rw [← List.count_pos_iff, count_letGo (mem_mark hm)] at hid
      obtain ⟨x, hx, -⟩ := Set.nonempty_of_ncard_ne_zero hid.ne'
      exact hno x hx
    have hkeep : (t.keep r outside).2 = t.prune r := by rw [Tables.keep, hletGo, List.foldl_nil]
    have hroots : ∀ id, (t.keep r outside).2.handleCount id = t.handleCount id := fun id => by
      rw [hkeep]
      rfl
    have hall : ∀ id, t.Reached id → (t.keep r outside).2.Reached id := fun id ⟨s, hs, hr⟩ =>
      ⟨s, hs.trans_eq (hroots s).symm, path_keep hm hs hr⟩
    refine ⟨by rw [hkeep]; rfl, fun outside' => ?_⟩
    rw [h.keep_settled hm hall]
    have hcard : {id | 0 < (t.keep r outside).2.handleCount id}.ncard = (t.keep r outside).1.roots := by
      simp only [hroots, ← mem_rooted]
      exact ncard_eq_length Std.ExtTreeMap.nodup_keys fun _ => Iff.rfl
    rw [hcard]

omit hm in
include h in
theorem Agree.collected_of_collect {c : Collection} (hc : (t.collect outside).1 = .ok c) :
    t.Collected outside c (t.collect outside).2 := by
  rw [collect] at hc ⊢
  cases hm : t.adjacency.mark {} t.rooted with
  | error fault => simp [hm] at hc
  | ok r =>
    simp only [hm, Except.ok.injEq] at hc
    exact hc ▸ h.collected hm

/-- Collections keep exactly what can be reached, whatever handles are owned outside of the tables. -/
structure CollectsReachable (t : Tables ν) (outside : List Tether) : Prop where
  fails_iff : (∃ fault, (t.collect outside).1 = .error fault) ↔ ∃ id, t.Reached id ∧ t.contains id = false
  /-- A failure names an address that can be reached and has no row, and leaves the tables alone. -/
  failed : ∀ fault, (t.collect outside).1 = .error fault →
    (t.collect outside).2 = t ∧ ∃ id, fault = .corrupt id ∧ t.Reached id ∧ t.contains id = false
  collected : ∀ c, (t.collect outside).1 = .ok c → t.Collected outside c (t.collect outside).2
  /-- Whatever the order in which roots and edges are taken, a visit comes to an end. -/
  ends : WellFounded fun v' v => Visit.Step t.adjacency v v'
  /-- The outcome is that of any visit, apart from the address that a failure names. -/
  any_order : ∀ work v, work.Perm t.rooted →
    Relation.ReflTransGen (Visit.Step t.adjacency) ⟨{}, work⟩ v →
    (∀ v', ¬ Visit.Step t.adjacency v v') →
    (v.work = [] ∧ t.collect outside = (.ok (t.keep v.visited outside).1, (t.keep v.visited outside).2)) ∨
      ((∃ id, v.Stuck t.adjacency id) ∧ ∃ id, t.collect outside = (.error (.corrupt id), t))
  /-- The tables hold what a pool does, and a collection of any such pool does the same, if it lets go of the
  same handles. -/
  stored : ∃ p : Pool ν, t.Stores p
  pool : ∀ p : Pool ν, t.Stores p → match p.collect {} with
    | .ok (c, p') => (t.collect outside).1 = .ok c ∧
      (t.collect outside).2.Stores ((t.lost outside).foldl Pool.release p')
    | .error fault => t.collect outside = (.error fault, t)

/-- Collections of tables that agree keep exactly what can be reached from the handles. The handles that
the removed nodes own are let go of; nothing else that is kept changes. -/
theorem collect_reachable {t : Tables ν} (h : t.Agree) (outside : List Tether) :
    t.CollectsReachable outside := by
  have hfail : ∀ fault, (t.collect outside).1 = .error fault →
      (t.collect outside).2 = t ∧ ∃ id, fault = .corrupt id ∧ t.Reached id ∧ t.contains id = false := by
    intro fault hf
    rw [collect] at hf ⊢
    cases hm : t.adjacency.mark {} t.rooted with
    | error fault' =>
      obtain ⟨id, rfl, hid, hnone⟩ := Adjacency.mark_error hm
      simp only [hm, Except.error.injEq] at hf
      refine ⟨rfl, id, hf.symm, by rwa [reached_eq], ?_⟩
      rw [contains, Std.ExtTreeMap.contains_eq_isSome_getElem?, hnone]
      rfl
    | ok r => simp [hm] at hf
  have hok : ∀ c, (t.collect outside).1 = .ok c → t.Collected outside c (t.collect outside).2 :=
    fun _ => h.collected_of_collect
  refine ⟨⟨?_, ?_⟩, hfail, hok, Visit.step_wf _, ?_, ⟨_, h.stores_pool⟩, fun p hp => hp.collect outside⟩
  · rintro ⟨fault, hf⟩
    obtain ⟨_, id, -, hid⟩ := hfail fault hf
    exact ⟨id, hid⟩
  · rintro ⟨id, hid, hnone⟩
    cases hc : (t.collect outside).1 with
    | error fault => exact ⟨fault, rfl⟩
    | ok c =>
      have hlive := ((hok c hc).live id).2 hid
      rw [contains, Std.ExtTreeMap.contains_eq_isSome_getElem?, (hok c hc).edges id hid] at hlive
      rw [contains, Std.ExtTreeMap.contains_eq_isSome_getElem?, hlive] at hnone
      cases hnone
  · intro work v hwork hs hstop
    rcases Adjacency.stops_iff_mark hwork hs hstop with ⟨hw, hm⟩ | ⟨hstuck, id, hm⟩
    · exact .inl ⟨hw, by rw [collect, hm]⟩
    · exact .inr ⟨hstuck, id, by rw [collect, hm]⟩

/-- Two cells that point at each other, of which the second is held, and a third that points at itself
and at an address that was never given out. -/
def ring : Tables Cell :=
  ((((({} : Tables Cell).allocate (.alpha [2])).2.allocate (.beta [1])).2.allocate
    (.alpha [3, 9])).2.release 1).release 3

theorem ring_agree : ring.Agree := by
  have h₁ := (Stores.empty (ν := Cell)).allocate (by simp) (.alpha [2])
  have h₂ := h₁.2.allocate (by simp [Pool.allocate, Pool.acquire]) (.beta [1])
  have h₃ := h₂.2.allocate (by simp [Pool.allocate, Pool.acquire]) (.alpha [3, 9])
  exact ((h₃.2.release 1).release 3).agree

theorem collect_reachable_ring : ring.Agree ∧ ring.CollectsReachable [] :=
  ⟨ring_agree, collect_reachable ring_agree []⟩

/-- A cluster that only the body of a lambda holds, and nothing holds the lambda. -/
def bound : Tables Object :=
  ((({} : Tables Object).allocate (.cluster {})).2.allocate
    (.lambda { body := [.literal 1 .cluster 1] })).2.release 2

theorem bound_agree : bound.Agree := by
  have h₁ := (Stores.empty (ν := Object)).allocate (by simp) (.cluster {})
  have h₂ := h₁.2.allocate (by simp [Pool.allocate, Pool.acquire])
    (.lambda { body := [.literal 1 .cluster 1] })
  exact (h₂.2.release 2).agree

theorem mark_bound : bound.adjacency.mark {} bound.rooted = .ok (({} : NodeSet).insert 1) := by
  have hrooted : bound.rooted = [1] := by decide +kernel
  have hrow : bound.adjacency[1]?.map Edges.targets = some [] := by decide +kernel
  rw [hrooted, Adjacency.mark, dif_neg (by decide)]
  split
  · rename_i he
    rw [he] at hrow
    cases hrow
  · rename_i e he
    rw [he, Option.map_some, Option.some.injEq] at hrow
    rw [hrow, List.filter_nil, List.nil_append, Adjacency.mark]

/-- A collection keeps the cluster but not the handle on it, and the next one removes the cluster. -/
theorem handles_of_swept_go : bound.Agree ∧ bound.handleCount 1 = 1 ∧
    (bound.collect []).1 = .ok { roots := 1, retained := 1, swept := 1, prunedEdges := 0 } ∧
    (bound.collect []).2.contains 1 = true ∧ (bound.collect []).2.handleCount 1 = 0 ∧
    ((bound.collect []).2.collect []).1 =
      .ok { roots := 0, retained := 0, swept := 1, prunedEdges := 0 } := by
  have hfirst : bound.collect [] = (.ok (bound.keep (({} : NodeSet).insert 1) []).1,
      (bound.keep (({} : NodeSet).insert 1) []).2) := by rw [collect, mark_bound]
  have hsecond : (bound.keep (({} : NodeSet).insert 1) []).2.adjacency.mark {}
      (bound.keep (({} : NodeSet).insert 1) []).2.rooted = .ok {} := by
    have hrooted : (bound.keep (({} : NodeSet).insert 1) []).2.rooted = [] := by decide +kernel
    rw [hrooted, Adjacency.mark]
  have hnumbers : (bound.keep (({} : NodeSet).insert 1) []).1 =
      { roots := 1, retained := 1, swept := 1, prunedEdges := 0 } := by decide +kernel
  have hagain : ((bound.keep (({} : NodeSet).insert 1) []).2.keep {} []).1 =
      { roots := 0, retained := 0, swept := 1, prunedEdges := 0 } := by decide +kernel
  rw [hfirst]
  dsimp only
  rw [collect, hsecond]
  exact ⟨bound_agree, by decide +kernel, congrArg _ hnumbers, by decide +kernel, by decide +kernel,
    congrArg _ hagain⟩

end Tables

end Mosaic.Graph
