import Mosaic.Graph.Tables
import Mosaic.Proofs.Graph.Walk

/-!
# Tables and pools

A pool keeps each node in one entry with its edges; the tables keep them apart. `Stores t p` says that the
tables hold what the pool does, and each operation keeps it: the two give the same answers, and a failure
leaves both as they were (`Follows`). Tables hold what some pool does as soon as the typed tables and the
edges speak of the same addresses (`Agree`).
-/

namespace Mosaic.Graph

open Std (LawfulEqCmp)

theorem getElem?_foldl_modify {β γ : Type} (m : Std.ExtTreeMap NodeId β compare) (owner id : NodeId)
    (f : β → γ → β) (l : List γ) :
    (l.foldl (fun m c => m.modify owner fun row => f row c) m)[id]? =
      if owner = id then m[id]?.map fun row => l.foldl f row else m[id]? := by
  induction l generalizing m with
  | nil => by_cases h : owner = id <;> simp [h]
  | cons c l ih =>
    simp only [List.foldl_cons, ih, Std.ExtTreeMap.getElem?_modify, LawfulEqCmp.compare_eq_iff_eq]
    by_cases h : owner = id
    · subst h
      cases m[owner]? <;> simp
    · simp [h]

theorem keys_sorted {β : Type} (m : Std.ExtTreeMap NodeId β compare) : m.keys.Pairwise (· < ·) :=
  Std.ExtTreeMap.ordered_keys.imp fun hab => Nat.compare_eq_lt.1 hab

namespace Adjacency

variable (a : Adjacency) (owner id : NodeId) (targets : List NodeId)

theorem getElem?_addEdges : (a.addEdges owner targets)[id]? =
    if owner = id then a[id]?.map fun e => e.addAll targets else a[id]? :=
  getElem?_foldl_modify a owner id Edges.add targets

theorem getElem?_removeEdges : (a.removeEdges owner targets)[id]? =
    if owner = id then a[id]?.map fun e => e.removeAll targets else a[id]? :=
  getElem?_foldl_modify a owner id Edges.remove targets

theorem getElem?_addEdge (target : NodeId) : (a.addEdge owner target)[id]? =
    if owner = id then a[id]?.map fun e => e.add target else a[id]? :=
  a.getElem?_addEdges owner id [target]

end Adjacency

namespace Tables

variable {ν α : Type} [Node ν] {t : Tables ν} {p : Pool ν} {k : Kind ν α}

omit [Node ν] in
theorem nodesOf_insert (kind kind' : String) (nodes : NodeTable ν) :
    Tables.nodesOf { t with nodes := t.nodes.insert kind nodes } kind' =
      if kind = kind' then nodes else t.nodesOf kind' := by
  simp only [Tables.nodesOf, Std.ExtTreeMap.getD_insert, LawfulEqCmp.compare_eq_iff_eq]

omit [Node ν] in
theorem nodesOf_of_mem {kind : String} {nodes : NodeTable ν} (h : (kind, nodes) ∈ t.nodes.toList) :
    t.nodesOf kind = nodes := by
  rw [nodesOf, Std.ExtTreeMap.getD_eq_getD_getElem?,
    Std.ExtTreeMap.mem_toList_iff_getElem?_eq_some.1 h, Option.getD_some]

omit [Node ν] in
theorem mem_toList_of_contains {kind : String} {id : NodeId}
    (h : (t.nodesOf kind).contains id = true) : (kind, t.nodesOf kind) ∈ t.nodes.toList := by
  rw [Std.ExtTreeMap.mem_toList_iff_getElem?_eq_some]
  rw [nodesOf, Std.ExtTreeMap.getD_eq_getD_getElem?] at h ⊢
  cases hk : t.nodes[kind]? with
  | none => simp [hk] at h
  | some nodes => rfl

/-- The typed tables and the edges speak of the same addresses, each of which is in one typed table. -/
structure Agree (t : Tables ν) : Prop where
  contains_iff : ∀ id : NodeId,
    t.contains id = true ↔ ∃ kind, (t.nodesOf kind).contains id = true
  unique : ∀ (id : NodeId) kind kind', (t.nodesOf kind).contains id = true →
    (t.nodesOf kind').contains id = true → kind = kind'
  kindName : ∀ (id : NodeId) kind n, (t.nodesOf kind)[id]? = some n → Node.kindName n = kind

/-- The tables hold what the pool does. A handle count of zero is as good as none. -/
structure Stores (t : Tables ν) (p : Pool ν) : Prop where
  adjacency : ∀ id : NodeId, t.adjacency[id]? = p.entries[id]?.map Entry.edges
  nodesOf : ∀ kind (id : NodeId), (t.nodesOf kind)[id]? =
    (p.entries[id]?.map Entry.node).filter fun n => Node.kindName n = kind
  handles : ∀ id : NodeId, p.handles[id]? = t.roots[id]?.filter (0 < ·)
  next : t.next = p.next

/-- What an operation makes of the tables, if `r` is what it makes of the pool that they hold. -/
def Follows (t : Tables ν) (s : Except Fault Unit × Tables ν) : Except Fault (Pool ν) → Prop
  | .ok p => s.1 = .ok () ∧ s.2.Stores p
  | .error fault => s = (.error fault, t)

namespace Stores

theorem empty : Stores ({} : Tables ν) {} where
  adjacency _ := by simp
  nodesOf _ _ := by simp [Tables.nodesOf]
  handles _ := by simp
  next := rfl

theorem contains (h : t.Stores p) (id : NodeId) : t.contains id = p.contains id := by
  simp only [Tables.contains, Pool.contains, Std.ExtTreeMap.contains_eq_isSome_getElem?, h.adjacency,
    Option.isSome_map]

theorem handleCount (h : t.Stores p) (id : NodeId) : t.handleCount id = p.handleCount id := by
  simp only [Tables.handleCount, Pool.handleCount, Std.ExtTreeMap.getD_eq_getD_getElem?, h.handles]
  cases t.roots[id]? with
  | none => rfl
  | some n => cases n <;> rfl

theorem agree (h : t.Stores p) : t.Agree where
  contains_iff id := by
    simp only [h.contains, Pool.contains, Std.ExtTreeMap.contains_eq_isSome_getElem?, h.nodesOf]
    cases p.entries[id]? <;> simp
  unique id kind kind' hk hk' := by
    simp only [Std.ExtTreeMap.contains_eq_isSome_getElem?, h.nodesOf] at hk hk'
    cases he : p.entries[id]? <;> simp_all
  kindName id kind n hn := by
    simp only [h.nodesOf, Option.filter_eq_some_iff] at hn
    simpa using hn.2

/-! ## Reading -/

theorem find? (h : t.Stores p) (k : Kind ν α) (id : NodeId) :
    t.find? k id = p.entries[id]?.bind fun e => k.unwrap? e.node := by
  rw [Tables.find?, h.nodesOf]
  cases p.entries[id]? with
  | none => rfl
  | some e =>
    cases hu : k.unwrap? e.node with
    | none => cases hf : decide (Node.kindName e.node = k.name) <;> simp_all [Option.filter]
    | some a =>
      have hname : Node.kindName e.node = k.name := by
        rw [← k.wrap_unwrap _ _ hu, k.kindName_wrap]
      simp [Option.filter, hname, hu]

theorem missing (h : t.Stores p) (k : Kind ν α) (id : NodeId) : t.missing k id = p.missing k id := by
  simp only [Tables.missing, Pool.missing, h.contains]

theorem get (h : t.Stores p) (k : Kind ν α) (id : NodeId) : t.get k id = p.get k id := by
  have hf := h.find? k id
  unfold Tables.get Pool.get
  rw [hf]
  cases p.entries[id]?.bind fun e => k.unwrap? e.node with
  | none => exact congrArg Except.error (h.missing k id)
  | some a => rfl

/-! ## Handles -/

/-- Tables that differ in their handles only. -/
theorem of_handles (h : t.Stores p) {roots handles : Std.ExtTreeMap NodeId Nat compare}
    (hr : ∀ id : NodeId, handles[id]? = roots[id]?.filter (0 < ·)) :
    Stores { t with roots } { p with handles } :=
  ⟨h.adjacency, h.nodesOf, hr, h.next⟩

theorem acquire (h : t.Stores p) (id : NodeId) : (t.acquire id).Stores (p.acquire id) := by
  refine h.of_handles fun i => ?_
  simp only [Std.ExtTreeMap.getElem?_insert, h.handleCount, LawfulEqCmp.compare_eq_iff_eq]
  by_cases hi : id = i <;> simp [hi, Option.filter, h.handles]

theorem release (h : t.Stores p) (id : NodeId) : (t.release id).Stores (p.release id) := by
  have hcount : p.handleCount id = t.roots[id]?.getD 0 := by
    rw [← h.handleCount, Tables.handleCount, Std.ExtTreeMap.getD_eq_getD_getElem?]
  unfold Tables.release Pool.release
  rw [hcount]
  cases hn : t.roots[id]? with
  | none =>
    refine h.of_handles fun i => ?_
    simp only [Std.ExtTreeMap.getElem?_erase, LawfulEqCmp.compare_eq_iff_eq]
    by_cases hi : id = i
    · simp [← hi, hn]
    · simp [hi, h.handles]
  | some n =>
    by_cases h1 : 1 < n
    · have h0 : n - 1 ≠ 0 := by omega
      have hpos : 0 < n - 1 := by omega
      simp only [Option.getD_some, h1, h0, if_true, if_false]
      refine h.of_handles fun i => ?_
      simp only [Std.ExtTreeMap.getElem?_insert, LawfulEqCmp.compare_eq_iff_eq]
      by_cases hi : id = i <;> simp [hi, Option.filter, hpos, h.handles]
    · have h0 : n - 1 = 0 := by omega
      simp only [Option.getD_some, h1, h0, if_true, if_false]
      refine h.of_handles fun i => ?_
      simp only [Std.ExtTreeMap.getElem?_erase, LawfulEqCmp.compare_eq_iff_eq]
      by_cases hi : id = i <;> simp [hi, h.handles]

theorem foldl_release (h : t.Stores p) (ids : List NodeId) :
    (ids.foldl Tables.release t).Stores (ids.foldl Pool.release p) := by
  induction ids generalizing t p with
  | nil => exact h
  | cons id ids ih => exact ih (h.release id)

/-! ## Nodes -/

theorem allocate (h : t.Stores p) (hnext : p.entries[p.next]? = none) (n : ν) :
    (t.allocate n).1 = (p.allocate n).1 ∧
      (t.allocate n).2.Stores ((p.allocate n).2.acquire (p.allocate n).1) := by
  refine ⟨h.next, fun id => ?_, fun kind id => ?_, fun id => ?_, congrArg (· + 1) h.next⟩
  · simp only [Tables.allocate, Pool.allocate, Pool.acquire, Adjacency.getElem?_addEdges,
      Std.ExtTreeMap.getElem?_insert, LawfulEqCmp.compare_eq_iff_eq, h.next, h.adjacency]
    by_cases hi : p.next = id <;> simp [hi]
  · refine (congrArg (·[id]?) (nodesOf_insert (t := t) _ _ _)).trans ?_
    simp only [Pool.allocate, Pool.acquire, Std.ExtTreeMap.getElem?_insert, h.next,
      LawfulEqCmp.compare_eq_iff_eq]
    by_cases hk : Node.kindName n = kind
    · by_cases hi : p.next = id
      · simp [hi, hk, Option.filter]
      · simp [hi, hk, h.nodesOf, Std.ExtTreeMap.getElem?_insert]
    · by_cases hi : p.next = id
      · subst hi
        simp [hk, h.nodesOf, hnext, Option.filter]
      · simp [hk, hi, h.nodesOf]
  · simp only [Tables.allocate, Pool.allocate, Pool.acquire, Std.ExtTreeMap.getElem?_insert,
      LawfulEqCmp.compare_eq_iff_eq, h.next, h.handleCount, Pool.handleCount]
    by_cases hi : p.next = id <;> simp [hi, Option.filter, h.handles]

theorem update (h : t.Stores p) (k : Kind ν α) (id : NodeId) (f : α → α) :
    t.Follows (t.update k id f) (p.update k id f) := by
  unfold Tables.update Pool.update
  rw [h.find?, h.missing, Pool.missing, Pool.contains, Std.ExtTreeMap.contains_eq_isSome_getElem?]
  cases he : p.entries[id]? with
  | none => rfl
  | some e =>
    cases hu : k.unwrap? e.node with
    | none => simp [hu, Follows]
    | some a =>
      have hnode : k.wrap a = e.node := k.wrap_unwrap _ _ hu
      have hname : Node.kindName e.node = k.name := by rw [← hnode, k.kindName_wrap]
      simp only [Option.bind_some, hu, hnode]
      refine ⟨rfl, fun i => ?_, fun kind i => ?_, h.handles, h.next⟩
      · simp only [Std.ExtTreeMap.getElem?_insert, LawfulEqCmp.compare_eq_iff_eq]
        by_cases hi : id = i
        · subst hi
          split <;> simp [Adjacency.getElem?_addEdges, Adjacency.getElem?_removeEdges, h.adjacency, he]
        · split <;>
            simp [Adjacency.getElem?_addEdges, Adjacency.getElem?_removeEdges, h.adjacency, hi]
      · refine (congrArg (·[i]?) (nodesOf_insert (t := t) _ _ _)).trans ?_
        simp only [Std.ExtTreeMap.getElem?_insert, LawfulEqCmp.compare_eq_iff_eq]
        by_cases hk : k.name = kind
        · subst hk
          by_cases hi : id = i <;>
            simp [hi, h.nodesOf, Option.filter, k.kindName_wrap, Std.ExtTreeMap.getElem?_insert]
        · by_cases hi : id = i
          · subst hi
            simp [hk, h.nodesOf, he, Option.filter, k.kindName_wrap, hname]
          · simp [hk, hi, h.nodesOf]

theorem hold (h : t.Stores p) (k : Kind ν α) (id : NodeId) :
    t.Follows (t.hold k id) (p.hold k id) := by
  unfold Tables.hold Pool.hold Pool.get
  rw [h.find?, h.missing]
  cases p.entries[id]?.bind fun e => k.unwrap? e.node with
  | none => rfl
  | some a => exact ⟨rfl, h.acquire id⟩

theorem address (h : t.Stores p) (k : Kind ν α) (id : NodeId) :
    t.address k id = (p.get k id).map fun _ => id := by
  unfold Tables.address Pool.get
  rw [h.find?, h.missing]
  cases p.entries[id]?.bind fun e => k.unwrap? e.node <;> rfl

theorem link (h : t.Stores p) (owner target : NodeId) :
    t.Follows (t.link owner target) (p.link owner target) := by
  unfold Tables.link Pool.link
  simp only [List.find?_cons, List.find?_nil, h.contains, Pool.contains,
    Std.ExtTreeMap.contains_eq_isSome_getElem?]
  cases ho : p.entries[owner]? with
  | none => rfl
  | some e =>
    cases ht : p.entries[target]? with
    | none => rfl
    | some e' =>
      refine ⟨rfl, fun i => ?_, fun kind i => ?_, h.handles, h.next⟩
      · refine (t.adjacency.getElem?_addEdge owner i target).trans ?_
        simp only [Std.ExtTreeMap.getElem?_insert, LawfulEqCmp.compare_eq_iff_eq, h.adjacency]
        by_cases hi : owner = i
        · subst hi
          simp [ho]
        · simp [hi]
      · refine (h.nodesOf kind i).trans ?_
        simp only [Std.ExtTreeMap.getElem?_insert, LawfulEqCmp.compare_eq_iff_eq]
        by_cases hi : owner = i
        · subst hi
          simp [ho]
        · simp [hi]

end Stores

/-! ## Letting go of handles -/

section

omit [Node ν]

theorem exists_release (t : Tables ν) (id : NodeId) : ∃ roots, t.release id = { t with roots } := by
  unfold release
  split
  · exact ⟨t.roots, rfl⟩
  · exact ⟨_, rfl⟩

theorem exists_foldl_release (t : Tables ν) (ids : List NodeId) :
    ∃ roots, ids.foldl release t = { t with roots } := by
  induction ids generalizing t with
  | nil => exact ⟨t.roots, rfl⟩
  | cons id ids ih =>
    obtain ⟨roots, h⟩ := t.exists_release id
    obtain ⟨roots', h'⟩ := ih { t with roots }
    exact ⟨roots', by rw [List.foldl_cons, h, h']⟩

theorem handleCount_release (t : Tables ν) (id i : NodeId) :
    (t.release id).handleCount i = t.handleCount i - if id = i then 1 else 0 := by
  unfold release
  split
  · rename_i hnone
    by_cases hi : id = i
    · subst hi
      simp [handleCount, Std.ExtTreeMap.getD_eq_getD_getElem?, hnone]
    · simp [hi]
  · rename_i n hn
    by_cases hi : id = i
    · subst hi
      split <;> simp_all [handleCount, Std.ExtTreeMap.getD_eq_getD_getElem?]
    · split <;> simp [handleCount, Std.ExtTreeMap.getD_insert, Std.ExtTreeMap.getD_erase, hi]

theorem handleCount_foldl_release (t : Tables ν) (ids : List NodeId) (i : NodeId) :
    (ids.foldl release t).handleCount i = t.handleCount i - ids.count i := by
  induction ids generalizing t with
  | nil => rfl
  | cons id ids ih =>
    rw [List.foldl_cons, ih, handleCount_release, List.count_cons]
    by_cases hi : id = i
    · simp only [hi, if_true, beq_self_eq_true]
      omega
    · simp [hi]

end

/-! ## The pool that tables hold -/

/-- The node at an address, of whatever kind. -/
def node? (t : Tables ν) (id : NodeId) : Option ν := t.nodes.toList.findSome? fun (_, nodes) => nodes[id]?

/-- What the tables hold, in one table. -/
def pool (t : Tables ν) : Pool ν where
  entries := t.adjacency.filterMap fun id e => (t.node? id).map fun n => ⟨n, e⟩
  handles := t.roots.filter fun _ n => 0 < n
  kinds := t.nodes.keys
  next := t.next

theorem Agree.node?_eq (h : t.Agree) {id : NodeId} {kind : String} {n : ν}
    (hn : (t.nodesOf kind)[id]? = some n) : t.node? id = some n := by
  have hsome : (t.node? id).isSome = true := by
    rw [node?, List.isSome_findSome?, List.any_eq_true]
    have hk : (t.nodesOf kind).contains id = true := by
      simp [Std.ExtTreeMap.contains_eq_isSome_getElem?, hn]
    exact ⟨(kind, t.nodesOf kind), mem_toList_of_contains hk, by simp [hn]⟩
  obtain ⟨n', hn'⟩ := Option.isSome_iff_exists.1 hsome
  obtain ⟨⟨kind', nodes⟩, hmem, hnode⟩ := List.exists_of_findSome?_eq_some hn'
  obtain rfl := nodesOf_of_mem hmem
  have hkind : kind = kind' := h.unique id kind kind'
    (by simp [Std.ExtTreeMap.contains_eq_isSome_getElem?, hn])
    (by simp [Std.ExtTreeMap.contains_eq_isSome_getElem?, hnode])
  subst hkind
  rw [hn']
  exact hnode.symm.trans hn

/-- Tables that agree hold what a pool does. -/
theorem Agree.stores_pool (h : t.Agree) : t.Stores t.pool := by
  have hnode : ∀ id : NodeId, t.contains id = true → ∃ kind n, (t.nodesOf kind)[id]? = some n ∧
      t.node? id = some n := by
    intro id hid
    obtain ⟨kind, hk⟩ := (h.contains_iff id).1 hid
    rw [Std.ExtTreeMap.contains_eq_isSome_getElem?, Option.isSome_iff_exists] at hk
    obtain ⟨n, hn⟩ := hk
    exact ⟨kind, n, hn, h.node?_eq hn⟩
  have hentry : ∀ id : NodeId, t.pool.entries[id]? =
      t.adjacency[id]?.bind fun e => (t.node? id).map fun n => ⟨n, e⟩ := fun id => by
    rw [pool, Std.ExtTreeMap.getElem?_filterMap']
  refine ⟨fun id => ?_, fun kind id => ?_, fun id => ?_, rfl⟩
  · rw [hentry]
    cases he : t.adjacency[id]? with
    | none => rfl
    | some e =>
      obtain ⟨kind, n, -, hn⟩ := hnode id (by simp [contains, Std.ExtTreeMap.contains_eq_isSome_getElem?, he])
      simp [hn]
  · rw [hentry]
    cases he : t.adjacency[id]? with
    | none =>
      have hno : (t.nodesOf kind)[id]? = none := by
        cases hn : (t.nodesOf kind)[id]? with
        | none => rfl
        | some n =>
          have := (h.contains_iff id).2 ⟨kind, by simp [Std.ExtTreeMap.contains_eq_isSome_getElem?, hn]⟩
          simp [contains, Std.ExtTreeMap.contains_eq_isSome_getElem?, he] at this
      simp [hno]
    | some e =>
      obtain ⟨kind', n, hk, hn⟩ :=
        hnode id (by simp [contains, Std.ExtTreeMap.contains_eq_isSome_getElem?, he])
      have hname := h.kindName id kind' n hk
      by_cases hkind : kind' = kind
      · subst hkind
        simp [hn, hk, hname, Option.filter]
      · have hno : (t.nodesOf kind)[id]? = none := by
          cases hn' : (t.nodesOf kind)[id]? with
          | none => rfl
          | some n' =>
            exact absurd (h.unique id kind' kind
              (by simp [Std.ExtTreeMap.contains_eq_isSome_getElem?, hk])
              (by simp [Std.ExtTreeMap.contains_eq_isSome_getElem?, hn'])) hkind
        simp [hn, hno, hname, hkind, Option.filter]
  · rw [pool, Std.ExtTreeMap.getElem?_filter']

end Tables

end Mosaic.Graph
