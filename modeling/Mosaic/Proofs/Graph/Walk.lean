import Mosaic.Graph.Heap

/-!
# The walk of a collection

What the walk keeps: every address it was given, whatever an entry that it moved points at, and only
entries that were there before. It succeeds whenever the addresses it comes across have entries, which
is said by a set of addresses that is closed under the edges (`walk_succeeds`).
-/

namespace Mosaic.Graph.Pool

variable {ν : Type} {left kept left' kept' : Entries ν} {work : List NodeId}

theorem contains_of_getElem? {es : Entries ν} {id : NodeId} {e : Entry ν} (h : es[id]? = some e) :
    es.contains id = true :=
  Std.ExtTreeMap.mem_iff_isSome_getElem?.2 (by simp [h])

theorem exists_of_contains {es : Entries ν} {id : NodeId} (h : es.contains id = true) :
    ∃ e, es[id]? = some e :=
  Option.isSome_iff_exists.1 (Std.ExtTreeMap.mem_iff_isSome_getElem?.1 h)

theorem walk_sub (h : walk left kept work = .ok (left', kept')) {id : NodeId} {e : Entry ν}
    (he : kept'[id]? = some e) : kept[id]? = some e ∨ left[id]? = some e := by
  fun_induction walk left kept work with
  | case1 left kept => cases h; exact .inl he
  | case2 left kept id' work hk ih => exact ih h
  | case3 left kept id' work hk hl => cases h
  | case4 left kept id' work hk e' hl ih =>
    rcases ih h with hi | hi
    · rw [Std.ExtTreeMap.getElem?_insert] at hi
      split at hi
      · rename_i heq
        cases Std.LawfulEqCmp.eq_of_compare heq
        cases hi
        exact .inr hl
      · exact .inl hi
    · rw [Std.ExtTreeMap.getElem?_erase] at hi
      split at hi
      · cases hi
      · exact .inr hi

theorem walk_mono (h : walk left kept work = .ok (left', kept')) {id : NodeId} {e : Entry ν}
    (he : kept[id]? = some e) : kept'[id]? = some e := by
  fun_induction walk left kept work with
  | case1 left kept => cases h; exact he
  | case2 left kept id' work hk ih => exact ih h he
  | case3 left kept id' work hk hl => cases h
  | case4 left kept id' work hk e' hl ih =>
    refine ih h ?_
    rw [Std.ExtTreeMap.getElem?_insert, if_neg, he]
    intro heq
    cases Std.LawfulEqCmp.eq_of_compare heq
    exact hk (contains_of_getElem? he)

theorem walk_work (h : walk left kept work = .ok (left', kept')) :
    ∀ id ∈ work, kept'.contains id = true := by
  fun_induction walk left kept work with
  | case1 => simp
  | case2 left kept id work hk ih =>
    obtain ⟨e, he⟩ := exists_of_contains hk
    rintro id' (_ | ⟨_, hmem⟩)
    · exact contains_of_getElem? (walk_mono h he)
    · exact ih h id' hmem
  | case3 left kept id work hk hl => cases h
  | case4 left kept id work hk e hl ih =>
    rintro id' (_ | ⟨_, hmem⟩)
    · exact contains_of_getElem? (walk_mono h (Std.ExtTreeMap.getElem?_insert_self))
    · exact ih h id' (List.mem_append_right _ hmem)

theorem walk_closed (h : walk left kept work = .ok (left', kept')) {id : NodeId} {e : Entry ν}
    (he : kept'[id]? = some e) (hnew : kept[id]? = none) :
    ∀ t ∈ e.edges.targets, kept'.contains t = true := by
  fun_induction walk left kept work with
  | case1 left kept => cases h; simp [hnew] at he
  | case2 left kept id' work hk ih => exact ih h hnew
  | case3 left kept id' work hk hl => cases h
  | case4 left kept id' work hk e' hl ih =>
    by_cases heq : id' = id
    · subst heq
      have := walk_mono h (Std.ExtTreeMap.getElem?_insert_self (k := id') (v := e') (t := kept))
      rw [he] at this
      cases this
      exact fun t ht => walk_work h t (List.mem_append_left _ ht)
    · refine ih h ?_
      rw [Std.ExtTreeMap.getElem?_insert, if_neg (by simpa using heq), hnew]

/-- The walk succeeds if the addresses it can come across have entries. -/
theorem walk_succeeds (good : NodeId → Prop)
    (closed : ∀ id, good id → kept.contains id = true ∨
      ∃ e, left[id]? = some e ∧ ∀ t ∈ e.edges.targets, good t)
    (hwork : ∀ id ∈ work, good id) : ∃ r, walk left kept work = .ok r := by
  fun_induction walk left kept work with
  | case1 left kept => exact ⟨_, rfl⟩
  | case2 left kept id work hk ih =>
    exact ih closed fun id' h => hwork id' (List.mem_cons_of_mem _ h)
  | case3 left kept id work hk hl =>
    rcases closed id (hwork id (List.mem_cons_self ..)) with h | ⟨e, he, _⟩
    · exact absurd h hk
    · simp [hl] at he
  | case4 left kept id work hk e hl ih =>
    refine ih (fun id' h' => ?_) fun id' h' => ?_
    · by_cases heq : id = id'
      · subst heq
        exact .inl (by simp)
      · rcases closed id' h' with hc | ⟨e', he', ht⟩
        · exact .inl (by simp [hc])
        · refine .inr ⟨e', ?_, ht⟩
          rw [Std.ExtTreeMap.getElem?_erase, if_neg (by simpa using heq), he']
    · rcases List.mem_append.1 h' with h' | h'
      · rcases closed id (hwork id (List.mem_cons_self ..)) with hc | ⟨e', he', ht⟩
        · exact absurd hc hk
        · rw [hl] at he'
          cases he'
          exact ht id' h'
      · exact hwork id' (List.mem_cons_of_mem _ h')

/-! ## Collections -/

variable {p p' : Pool ν} {pins : NodeSet} {c : Collection}

theorem collect_eq_ok (h : p.collect pins = .ok (c, p')) :
    ∃ left kept, walk p.entries {} (p.roots pins).toList = .ok (left, kept) ∧
      p' = { p with entries := kept } := by
  unfold collect at h
  cases hw : walk p.entries {} (p.roots pins).toList with
  | error fault => simp [hw, Except.map] at h
  | ok r =>
    obtain ⟨left, kept⟩ := r
    simp only [hw, Except.map, Except.ok.injEq, Prod.mk.injEq] at h
    exact ⟨left, kept, rfl, h.2.symm⟩

theorem collect_sub (h : p.collect pins = .ok (c, p')) {id : NodeId} {e : Entry ν}
    (he : p'.entries[id]? = some e) : p.entries[id]? = some e := by
  obtain ⟨left, kept, hw, rfl⟩ := collect_eq_ok h
  rcases walk_sub hw he with h | h
  · simp at h
  · exact h

/-- A collection keeps what is pinned. -/
theorem collect_pinned (h : p.collect pins = .ok (c, p')) {id : NodeId} (hid : id ∈ pins) :
    p'.entries[id]? = p.entries[id]? := by
  obtain ⟨left, kept, hw, rfl⟩ := collect_eq_ok h
  obtain ⟨e, he⟩ := exists_of_contains (walk_work hw id (by simp [roots, hid]))
  exact he.trans (collect_sub h he).symm

theorem collect_closed (h : p.collect pins = .ok (c, p')) {id t : NodeId} {e : Entry ν}
    (he : p'.entries[id]? = some e) (ht : t ∈ e.edges.targets) : p'.entries[t]? = p.entries[t]? := by
  obtain ⟨left, kept, hw, rfl⟩ := collect_eq_ok h
  obtain ⟨e', he'⟩ := exists_of_contains (walk_closed hw he (by simp) t ht)
  exact he'.trans (collect_sub h he').symm

end Mosaic.Graph.Pool

namespace Mosaic.Graph.Heap

variable {ν : Type} {h g : Heap ν} {pins : Thunk NodeSet}

/-- Making room leaves the address counter alone and changes no entry that it keeps. -/
theorem collectIfDue_sub (hc : h.collectIfDue pins = .ok g) :
    g.pool.next = h.pool.next ∧ g.pool.handles = h.pool.handles ∧
      g.totals.allocations = h.totals.allocations ∧
      ∀ (id : NodeId) e, g.pool.entries[id]? = some e → h.pool.entries[id]? = some e := by
  unfold collectIfDue collect at hc
  split at hc
  · cases hp : h.pool.collect pins.get with
    | error fault => simp [hp, Except.map] at hc
    | ok r =>
      obtain ⟨c, p'⟩ := r
      simp only [hp, Except.map, Except.ok.injEq] at hc
      subst hc
      refine ⟨?_, ?_, rfl, fun id e => Pool.collect_sub hp⟩ <;>
        obtain ⟨left, kept, _, rfl⟩ := Pool.collect_eq_ok hp <;> rfl
  · cases hc
    exact ⟨rfl, rfl, rfl, fun _ _ he => he⟩

/-- Making room keeps what is pinned, and what an entry points at that it keeps. -/
theorem collectIfDue_keeps (hc : h.collectIfDue pins = .ok g) :
    (∀ id ∈ pins.get, g.pool.entries[id]? = h.pool.entries[id]?) ∧
      ∀ (id : NodeId) e, g.pool.entries[id]? = some e → ∀ t ∈ e.edges.targets,
        g.pool.entries[t]? = h.pool.entries[t]? := by
  unfold collectIfDue collect at hc
  split at hc
  · cases hp : h.pool.collect pins.get with
    | error fault => simp [hp, Except.map] at hc
    | ok r =>
      obtain ⟨c, p'⟩ := r
      simp only [hp, Except.map, Except.ok.injEq] at hc
      subst hc
      exact ⟨fun id hid => Pool.collect_pinned hp hid, fun id e he t ht => Pool.collect_closed hp he ht⟩
  · cases hc
    exact ⟨fun _ _ => rfl, fun _ _ _ _ _ => rfl⟩

end Mosaic.Graph.Heap
