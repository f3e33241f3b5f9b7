import Mathlib.Logic.Relation
import Mosaic.Graph.Tables

/-!
# Visits in any order

`Adjacency.mark` takes the addresses from the front of its list and pushes targets in order. A visit
takes any of the addresses that are left and pushes the new targets in any order. `Visit.From` is what
every step keeps: only what can be reached is visited or left, and what the visited nodes point at is
visited or left. So every visit that comes to its end has found what can be reached, and one that does
not end stops at an address without a row (`stops_iff_mark`); `mark` is one of the visits
(`mark_ok_steps`, `mark_error_steps`).
-/

namespace Mosaic.Graph

namespace Adjacency

/-- There is an edge from the one address to the other. -/
def Points (a : Adjacency) (owner target : NodeId) : Prop :=
  ∃ e : Edges, a[owner]? = some e ∧ target ∈ e.targets

/-- The address can be reached along edges. -/
def Reached (a : Adjacency) (start : NodeId → Prop) (id : NodeId) : Prop :=
  ∃ s, start s ∧ Relation.ReflTransGen a.Points s id

theorem Reached.start {a : Adjacency} {start : NodeId → Prop} {id : NodeId} (h : start id) :
    a.Reached start id := ⟨id, h, .refl⟩

theorem Reached.edge {a : Adjacency} {start : NodeId → Prop} {owner target : NodeId}
    (h : a.Reached start owner) (ht : a.Points owner target) : a.Reached start target := by
  obtain ⟨s, hs, hr⟩ := h
  exact ⟨s, hs, hr.tail ht⟩

end Adjacency

/-- How far a visit has come. -/
structure Visit where
  visited : NodeSet
  /-- The addresses that are left. One of them may be left twice, or have been visited. -/
  work : List NodeId

namespace Visit

variable {a : Adjacency} {start : List NodeId} {v v' : Visit} {id : NodeId}

/-- One step of a visit. -/
inductive Step (a : Adjacency) : Visit → Visit → Prop
  /-- An address that was visited before is passed over. -/
  | skip {v : Visit} {id : NodeId} (hid : id ∈ v.work) (hv : id ∈ v.visited) :
    Step a v { v with work := v.work.erase id }
  /-- What was not visited before is left, in any order. -/
  | visit {v : Visit} {id : NodeId} {e : Edges} {work : List NodeId} (hid : id ∈ v.work)
    (hv : id ∉ v.visited) (he : a[id]? = some e)
    (hwork : work.Perm
      (e.targets.filter (fun t => !(v.visited.insert id).contains t) ++ v.work.erase id)) :
    Step a v ⟨v.visited.insert id, work⟩

/-- The visit cannot go on with this address. -/
def Stuck (a : Adjacency) (v : Visit) (id : NodeId) : Prop :=
  id ∈ v.work ∧ id ∉ v.visited ∧ a[id]? = none

/-- The address was visited or is left. -/
def Known (v : Visit) (id : NodeId) : Prop := id ∈ v.visited ∨ id ∈ v.work

theorem known_skip (hid : id ∈ v.visited) (i : NodeId) :
    Known { v with work := v.work.erase id } i ↔ v.Known i := by
  by_cases hi : i = id
  · subst hi
    exact ⟨fun _ => .inl hid, fun _ => .inl hid⟩
  · simp only [Known, List.mem_erase_of_ne hi]

theorem known_visit {e : Edges} {work : List NodeId} (hid : id ∈ v.work)
    (hwork : work.Perm
      (e.targets.filter (fun t => !(v.visited.insert id).contains t) ++ v.work.erase id))
    (i : NodeId) : Known ⟨v.visited.insert id, work⟩ i ↔ v.Known i ∨ i ∈ e.targets := by
  simp only [Known, hwork.mem_iff, List.mem_append, List.mem_filter, Std.ExtTreeSet.mem_insert,
    Std.ExtTreeSet.contains_insert]
  by_cases hi : i = id
  · subst hi
    simp [hid]
  · have hne : compare id i ≠ .eq := by simpa using Ne.symm hi
    simp only [hne, false_or, List.mem_erase_of_ne hi]
    by_cases hv : i ∈ v.visited
    · simp [hv]
    · have hc : v.visited.contains i = false := Bool.eq_false_iff.2 hv
      simp [hv, hne, hc, or_comm]

/-- Every visit comes to an end: a step passes over an address that is left, or visits one more. -/
theorem step_wf (a : Adjacency) : WellFounded fun v' v => Step a v v' := by
  refine Subrelation.wf (r := InvImage (Prod.Lex (· < ·) (· < ·)) fun v : Visit =>
    ((a.unvisited v.visited).size, v.work.length)) ?_ (InvImage.wf _ (Prod.lex ⟨_, Nat.lt_wfRel.wf⟩
      ⟨_, Nat.lt_wfRel.wf⟩).wf)
  intro v' v h
  cases h with
  | @skip id hid hv =>
    refine .right _ ?_
    rw [List.length_erase_of_mem hid]
    exact Nat.sub_one_lt (Nat.ne_of_gt (List.length_pos_of_mem hid))
  | visit hid hv he hwork =>
    exact .left _ _ (Adjacency.size_unvisited_insert
      (Bool.eq_false_iff.2 (mt Std.ExtTreeSet.contains_iff_mem.1 hv)) he)

/-- What a visit from some addresses keeps. -/
structure From (a : Adjacency) (start : List NodeId) (v : Visit) : Prop where
  start_known : ∀ id ∈ start, v.Known id
  reached : ∀ id, v.Known id → a.Reached (· ∈ start) id
  closed : ∀ id ∈ v.visited, ∃ e, a[id]? = some e ∧ ∀ t ∈ e.targets, v.Known t

namespace From

theorem init (a : Adjacency) {start work : List NodeId} (h : work.Perm start) :
    From a start ⟨{}, work⟩ where
  start_known _ hid := .inr (h.mem_iff.2 hid)
  reached _ hid := .start (h.mem_iff.1 (hid.resolve_left Std.ExtTreeSet.not_mem_empty))
  closed _ hid := absurd hid Std.ExtTreeSet.not_mem_empty

theorem step (h : From a start v) (hs : Step a v v') : From a start v' := by
  cases hs with
  | skip hid hv =>
    refine ⟨fun i hi => ?_, fun i hi => ?_, fun i hi => ?_⟩
    · exact (known_skip hv i).2 (h.start_known i hi)
    · exact h.reached i ((known_skip hv i).1 hi)
    · obtain ⟨e, he, ht⟩ := h.closed i hi
      exact ⟨e, he, fun t hmem => (known_skip hv t).2 (ht t hmem)⟩
  | @visit id e work hid hv he hwork =>
    have hknown := known_visit hid hwork
    refine ⟨fun i hi => ?_, fun i hi => ?_, fun i hi => ?_⟩
    · exact (hknown i).2 (.inl (h.start_known i hi))
    · rcases (hknown i).1 hi with hi | hi
      · exact h.reached i hi
      · exact .edge (h.reached id (.inr hid)) ⟨e, he, hi⟩
    · by_cases hi' : i = id
      · subst hi'
        exact ⟨e, he, fun t ht => (hknown t).2 (.inr ht)⟩
      · have hmem : i ∈ v.visited := by simpa [Std.ExtTreeSet.mem_insert, Ne.symm hi'] using hi
        obtain ⟨e', he', ht⟩ := h.closed i hmem
        exact ⟨e', he', fun t hmem => (hknown t).2 (.inl (ht t hmem))⟩

theorem steps (h : From a start v) (hs : Relation.ReflTransGen (Step a) v v') : From a start v' := by
  induction hs with
  | refl => exact h
  | tail _ hs ih => exact ih.step hs

/-- At the end, what was visited is what can be reached. -/
theorem visited_iff (h : From a start v) (hw : v.work = []) (id : NodeId) :
    id ∈ v.visited ↔ a.Reached (· ∈ start) id := by
  have hknown : ∀ i, v.Known i → i ∈ v.visited := by simp [Known, hw]
  refine ⟨fun hid => h.reached id (.inl hid), fun hid => ?_⟩
  obtain ⟨s, hs, hr⟩ := hid
  induction hr with
  | refl => exact hknown _ (h.start_known _ hs)
  | tail _ ht ih =>
    obtain ⟨e, he, ht⟩ := ht
    obtain ⟨e', he', hknown'⟩ := h.closed _ ih
    rw [he] at he'
    cases he'
    exact hknown _ (hknown' _ ht)

/-- At the end, every address that can be reached has a row. -/
theorem isSome_of_done (h : From a start v) (hw : v.work = []) (hid : a.Reached (· ∈ start) id) :
    a[id]? ≠ none := by
  obtain ⟨e, he, _⟩ := h.closed id ((h.visited_iff hw id).2 hid)
  simp [he]

theorem ne_none_iff (h : From a start v) (hstop : v.work = [] ∨ ∃ id, v.Stuck a id) :
    v.work = [] ↔ ∀ id, a.Reached (· ∈ start) id → a[id]? ≠ none := by
  refine ⟨fun hw id => h.isSome_of_done hw, fun hall => hstop.resolve_right ?_⟩
  rintro ⟨id, hid, _, hnone⟩
  exact hall id (h.reached id (.inr hid)) hnone

end From

/-- A visit that cannot go on has nothing left, or is stuck. -/
theorem stops (h : ∀ v', ¬ Step a v v') : v.work = [] ∨ ∃ id, v.Stuck a id := by
  cases hw : v.work with
  | nil => exact .inl rfl
  | cons id work =>
    have hid : id ∈ v.work := by simp [hw]
    refine .inr ⟨id, hid, fun hv => h _ (.skip hid hv), ?_⟩
    cases he : a[id]? with
    | none => rfl
    | some e =>
      exact absurd (.visit hid (fun hv => h _ (.skip hid hv)) he (List.Perm.refl _)) (h _)

end Visit

namespace Adjacency

open Visit

variable {a : Adjacency} {start work : List NodeId} {visited r : NodeSet} {fault : Fault}

theorem mark_ok_steps (h : a.mark visited work = .ok r) :
    Relation.ReflTransGen (Step a) ⟨visited, work⟩ ⟨r, []⟩ := by
  fun_induction mark a visited work with
  | case1 visited => cases h; exact .refl
  | case2 visited id work hid ih =>
    have hs : Step a ⟨visited, id :: work⟩ ⟨visited, (id :: work).erase id⟩ :=
      .skip (List.mem_cons_self ..) (by simpa using hid)
    rw [List.erase_cons_head] at hs
    exact .head hs (ih h)
  | case3 visited id work hid he => cases h
  | case4 visited id work hid e he ih =>
    have hs : Step a ⟨visited, id :: work⟩ ⟨visited.insert id, _ ++ (id :: work).erase id⟩ :=
      .visit (List.mem_cons_self ..) (by simpa using hid) he (List.Perm.refl _)
    rw [List.erase_cons_head] at hs
    exact .head hs (ih h)

theorem mark_error_steps (h : a.mark visited work = .error fault) :
    ∃ v id, Relation.ReflTransGen (Step a) ⟨visited, work⟩ v ∧ v.Stuck a id ∧ fault = .corrupt id := by
  fun_induction mark a visited work with
  | case1 visited => cases h
  | case2 visited id work hid ih =>
    obtain ⟨v, i, hs, hstuck⟩ := ih h
    have hs' : Step a ⟨visited, id :: work⟩ ⟨visited, (id :: work).erase id⟩ :=
      .skip (List.mem_cons_self ..) (by simpa using hid)
    rw [List.erase_cons_head] at hs'
    exact ⟨v, i, .head hs' hs, hstuck⟩
  | case3 visited id work hid he =>
    cases h
    exact ⟨_, id, .refl, ⟨List.mem_cons_self .., by simpa using hid, he⟩, rfl⟩
  | case4 visited id work hid e he ih =>
    obtain ⟨v, i, hs, hstuck⟩ := ih h
    have hs' : Step a ⟨visited, id :: work⟩ ⟨visited.insert id, _ ++ (id :: work).erase id⟩ :=
      .visit (List.mem_cons_self ..) (by simpa using hid) he (List.Perm.refl _)
    rw [List.erase_cons_head] at hs'
    exact ⟨v, i, .head hs' hs, hstuck⟩

theorem mem_mark (h : a.mark {} start = .ok r) (id : NodeId) : id ∈ r ↔ a.Reached (· ∈ start) id :=
  ((From.init a (List.Perm.refl start)).steps (mark_ok_steps h)).visited_iff rfl id

theorem getElem?_ne_none_of_mark (h : a.mark {} start = .ok r) {id : NodeId}
    (hid : a.Reached (· ∈ start) id) : a[id]? ≠ none :=
  ((From.init a (List.Perm.refl start)).steps (mark_ok_steps h)).isSome_of_done rfl hid

theorem mark_error (h : a.mark {} start = .error fault) :
    ∃ id, fault = .corrupt id ∧ a.Reached (· ∈ start) id ∧ a[id]? = none := by
  obtain ⟨v, id, hs, hstuck, rfl⟩ := mark_error_steps h
  exact ⟨id, rfl, ((From.init a (List.Perm.refl start)).steps hs).reached id (.inr hstuck.1),
    hstuck.2.2⟩

/-- Every visit has the outcome of marking. -/
theorem stops_iff_mark (hwork : work.Perm start) {v : Visit}
    (hs : Relation.ReflTransGen (Step a) ⟨{}, work⟩ v) (hstop : ∀ v', ¬ Step a v v') :
    (v.work = [] ∧ a.mark {} start = .ok v.visited) ∨
      ((∃ id, v.Stuck a id) ∧ ∃ id, a.mark {} start = .error (.corrupt id)) := by
  have hv := (From.init a hwork).steps hs
  cases hm : a.mark {} start with
  | error fault =>
    obtain ⟨id, rfl, hr, hnone⟩ := mark_error hm
    refine .inr ⟨(stops hstop).resolve_left fun hw => ?_, id, rfl⟩
    exact hv.isSome_of_done hw hr hnone
  | ok r =>
    have hw : v.work = [] :=
      (hv.ne_none_iff (stops hstop)).2 fun id => getElem?_ne_none_of_mark hm
    refine .inl ⟨hw, congrArg _ (Std.ExtTreeSet.ext_mem fun id => ?_)⟩
    rw [mem_mark hm, hv.visited_iff hw]

end Adjacency

end Mosaic.Graph
