import Mosaic.Proofs.Machine.Step
import Mosaic.Proofs.Published.Run

/-!
# What the end of a block completes

A lambda that misses a name when it is made is set aside in the innermost frame
(`Machine.complete_or_parked`). The end of a block completes what is set aside there: the closures then
have all free names that are in scope (`Machine.covered_of_setDependencies`). That is all it completes. A
field assignment binds a name to a copy, which nothing has set aside, and the lambda that is completed
is the one that was copied.
-/

namespace Mosaic

open Mosaic.Graph (NodeId Pool)

/-- The closure has all free names that are in scope. -/
def Lambda.Covers (l : Lambda) (s : Scopes) : Prop :=
  ∀ name ∈ l.free, (s.lookup? name).isSome = true → name ∈ l.closure

/-- There is a lambda, and its closure has all its free names that are in scope. -/
def Machine.Covered (m : Machine) (id : NodeId) : Prop :=
  ∃ l, m.store.pool.get Object.lambdas id = .ok l ∧ l.Covers m.scopes

/-- There is a lambda, and its closure has all its free names. -/
def Machine.Complete (m : Machine) (id : NodeId) : Prop :=
  ∃ l, m.store.pool.get Object.lambdas id = .ok l ∧ l.isComplete = true

theorem Lambda.covers_of_isComplete {l : Lambda} {s : Scopes} (h : l.isComplete = true) : l.Covers s := by
  intro name hname _
  by_contra hc
  have hmissed := mem_unresolved.2 ⟨hname, Std.ExtTreeMap.getElem?_eq_none hc⟩
  rw [List.isEmpty_iff.1 h] at hmissed
  cases hmissed

theorem Lambda.covers_of_captured {l : Lambda} {s : Scopes} {ps : List (Name × Datum)}
    (h : MachineM.captured s l.unresolved = .ok ps) :
    Covers { l with closure := l.closure.insertMany ps } s := by
  intro name hname hs
  by_cases hc : name ∈ l.closure
  · simp only [Std.ExtTreeMap.mem_insertMany_list]
    exact .inl hc
  · obtain ⟨v, hv⟩ := Option.isSome_iff_exists.1 hs
    have hmissed : name ∈ l.unresolved :=
      mem_unresolved.2 ⟨hname, Std.ExtTreeMap.getElem?_eq_none hc⟩
    have hmem : (name, v) ∈ l.unresolved.filterMap fun n => (s.lookup? n).map fun v => (n, v) :=
      List.mem_filterMap.2 ⟨name, hmissed, by simp [hv]⟩
    rw [MachineM.map_of_captured h] at hmem
    obtain ⟨p, hp, hpv⟩ := List.mem_map.1 hmem
    obtain rfl : p.1 = name := congrArg Prod.fst hpv
    simp only [Std.ExtTreeMap.mem_insertMany_list, List.contains_iff_mem]
    exact .inr (List.mem_map_of_mem hp)

theorem Scopes.lookup?_takeParked {s s' : Scopes} {ids : List NodeId} (h : s.takeParked = .ok (ids, s'))
    (name : Name) : s'.lookup? name = s.lookup? name := by
  obtain ⟨c, cs, f, fs, hc, hf, hs'⟩ := modifyFrame_ok (takeParked_ok h).2
  simp only [Scopes.lookup?, Context.lookup?, hc, hf, hs', List.head?_cons, Option.bind_some,
    List.findSome?_cons, Frame.lookup?]

namespace Machine

variable {m : Machine} {id : NodeId}

theorem Complete.covered (h : m.Complete id) : m.Covered id :=
  let ⟨l, hl, hcomplete⟩ := h
  ⟨l, hl, Lambda.covers_of_isComplete hcomplete⟩

theorem Covered.withEntry {i : NodeId} (h : m.Covered i) (hne : i ≠ id) (e : Graph.Entry Object) :
    (m.withEntry id e).Covered i := by
  obtain ⟨l, hl, hcovers⟩ := h
  obtain ⟨e', he', hnode⟩ := Graph.Pool.get_eq_ok_iff.1 hl
  refine ⟨l, Graph.Pool.get_eq_ok_iff.2 ⟨e', ?_, hnode⟩, hcovers⟩
  rw [Machine.withEntry, Std.ExtTreeMap.getElem?_insert, if_neg fun heq => hne (Std.LawfulEqCmp.eq_of_compare heq).symm]
  exact he'

end Machine

namespace MachineM.Ends

variable {m : Machine} {id : NodeId} {ids : List NodeId}

theorem complete_covers : Ends (MachineM.complete id) m (fun _ => True) fun _ m' =>
    m'.scopes = m.scopes ∧ m'.Covered id ∧ ∀ i, m.Covered i → m'.Covered i := by
  refine fetchThen trivial fun l hl => ?_
  rw [capture_eq, bind_assoc]
  refine getThen (okThen trivial fun ps hps => ?_)
  have hcovers := Lambda.covers_of_captured hps
  split
  · refine update trivial fun e l' he hl' => ?_
    obtain ⟨e', he', hnode⟩ := Pool.get_eq_ok_iff.1 hl
    cases he.symm.trans he'
    cases hl'.symm.trans hnode
    have hid : (m.withEntry id (e.renew (.lambda { l with closure := l.closure.insertMany ps }))).Covered id :=
      ⟨_, Pool.get_eq_ok_iff.2 ⟨_, Std.ExtTreeMap.getElem?_insert_self, rfl⟩, hcovers⟩
    refine ⟨rfl, hid, fun i hi => ?_⟩
    by_cases heq : i = id
    · exact heq ▸ hid
    · exact hi.withEntry heq _
  · rename_i hnone
    obtain rfl : ps = [] := by simpa using hnone
    rw [Std.ExtTreeMap.insertMany_nil] at hcovers
    exact ret ⟨rfl, ⟨l, hl, hcovers⟩, fun _ hi => hi⟩

theorem completeAll_covers : Ends (MachineM.completeAll ids) m (fun _ => True) fun _ m' =>
    m'.scopes = m.scopes ∧ (∀ id ∈ ids, m'.Covered id) ∧ ∀ i, m.Covered i → m'.Covered i := by
  induction ids generalizing m with
  | nil => exact ret ⟨rfl, by simp, fun _ hi => hi⟩
  | cons id ids ih =>
    refine bind (keeping complete_covers) fun _ m₁ h₁ => ?_
    obtain ⟨hs₁, hid, hkept₁⟩ := h₁
    refine ih.imp (fun _ h => h) fun _ m₂ h₂ => ?_
    obtain ⟨hs₂, hids, hkept₂⟩ := h₂
    exact ⟨hs₂.trans hs₁, List.forall_mem_cons.2 ⟨hkept₂ id hid, hids⟩, fun i hi => hkept₂ i (hkept₁ i hi)⟩

theorem setDependencies_covers : Ends MachineM.setDependencies m (fun _ => True) fun e m' =>
    e = .done ∧ (∀ name, m'.scopes.lookup? name = m.scopes.lookup? name) ∧
      ∀ id ∈ m.scopes.parked, m'.Covered id := by
  refine getThen (okThen trivial fun r hr => modifyThen ?_)
  obtain ⟨ids, s⟩ := r
  have hlookup := Scopes.lookup?_takeParked hr
  obtain rfl := (Scopes.takeParked_ok hr).1
  refine bind completeAll_covers fun _ m₁ h₁ => ret ?_
  obtain ⟨hs, hids, -⟩ := h₁
  exact ⟨rfl, fun name => hs ▸ hlookup name, hids⟩

theorem makeLambda_completes {label : Name} {t : Template} :
    Ends (MachineM.makeLambda label t) m (fun _ => True) fun e m' =>
      ∃ id, e = .value (.object .lambda id) ∧ (m'.Complete id ∨ id ∈ m'.scopes.parked) := by
  rw [MachineM.makeLambda, capture_eq, bind_assoc]
  refine getThen (okThen trivial fun ps _ => allocateThen trivial fun pins id s ha => ?_)
  obtain ⟨g, -, rfl, rfl⟩ := Graph.Heap.allocate_eq_ok ha
  split
  · refine getThen (bind (setScopes (R := fun _ m' => g.pool.next ∈ m'.scopes.parked) trivial
      fun scopes hs => ?_) fun _ m' hparked => ret ⟨_, rfl, .inr hparked⟩)
    obtain ⟨c, cs, f, fs, -, -, hs⟩ := Scopes.modifyFrame_ok hs
    simp [Scopes.parked, hs]
  · rename_i hcomplete
    refine ret ⟨_, rfl, .inl ⟨_, Pool.get_eq_ok_iff.2 ⟨_, Std.ExtTreeMap.getElem?_insert_self, rfl⟩, ?_⟩⟩
    simpa only [Bool.not_eq_true, Bool.not_eq_false'] using hcomplete

end MachineM.Ends

namespace Machine

variable {m m' : Machine} {held : List NodeId} {line : Option Nat} {rest : Program}

/-- A lambda that misses a name when it is made is set aside in the innermost frame. -/
theorem complete_or_parked {params : List Name} {body : Program} {free : List Name}
    (hp : m.program = .op (.makeLambda params body free) line :: rest)
    (hnext : m.next? held = some (.ok () m')) :
    ∃ id, m'.operands = .value (.object .lambda id) :: m.operands.tail ∧ m'.program = rest ∧
      (m'.Complete id ∨ id ∈ m'.scopes.parked) := by
  obtain ⟨e, m₁, operands, rfl, performed⟩ := performed_of_next? hp hnext
  have hkept := Kept.of_perform performed
  obtain ⟨o, S, ho⟩ := List.exists_cons_of_length_pos operands
  rw [arguments, ho] at performed
  obtain ⟨id, rfl, h⟩ := (MachineM.Ends.okThen (R := fun e m' => ∃ id, e = .value (.object .lambda id) ∧
    (m'.Complete id ∨ id ∈ m'.scopes.parked)) trivial fun name _ => MachineM.Ends.makeLambda_completes).ok performed
  have hoperands : m₁.operands = m.operands.tail := hkept.operands.trans List.drop_one
  exact ⟨id, congrArg _ hoperands, hkept.program, h⟩

/-- At the end of a block the bindings stay as they are, and each lambda that is set aside in the
innermost frame gets a closure with all its free names that are in scope. -/
theorem covered_of_setDependencies (hp : m.program = .op .setDependencies line :: rest)
    (hnext : m.next? held = some (.ok () m')) :
    m'.program = rest ∧ (∀ name, m'.scopes.lookup? name = m.scopes.lookup? name) ∧
      ∀ id ∈ m.scopes.parked, m'.Covered id := by
  obtain ⟨e, m₁, -, rfl, performed⟩ := performed_of_next? hp hnext
  obtain ⟨rfl, hlookup, hcovered⟩ := MachineM.Ends.setDependencies_covers.ok performed
  exact ⟨(Kept.of_perform performed).program, hlookup, hcovered⟩

end Machine

end Mosaic
