import Mosaic.Proofs.Comprehension.Body

/-!
# Comprehensions are maps

A comprehension runs its body for the elements of its source, one after the other, and leaves a new cluster
with one slot for each, the value of the body (`Machine.Midway.comprehends`). What carries the induction is
that a round leads from a machine in which the results so far are in the cluster to another one
(`Machine.Gathers`). It is about the machines in a run of compiled code, where no lambda has an object written
in its body (`Machine.Midway`). Three things may keep it from its end: the body fails, or its value is a
reference to a field, which no slot can have, or the step limit stops the run.
-/

namespace Mosaic

open Mosaic.Graph (NodeId Node Pool)

variable {held : List NodeId} {m m' v v' e w : Machine} {g g' : Fragment} {E E' : Setting} {s s' : Store}
  {n i : Nat} {R body : Program} {S : List Operand} {id b : NodeId} {B : List NodeId} {c : Cluster} {var : Name}
  {source element : Value} {elements : List Value} {d : Datum} {ds : List Datum} {line : Option Nat}

/-! ## Sources -/

theorem Elements.of_hosts (h : Elements s source elements) (hs : Hosts E g s) (hs' : Hosts E' g' s')
    (hg : g.Good source) (hkept : ∀ id, source.node? = some id → g' id = g id) : Elements s' source elements := by
  cases h with
  | @cluster id c found =>
    obtain ⟨o, ho, -⟩ := hg (.cluster, id) rfl
    obtain ⟨e, he, hn, -⟩ := hs.entry id o ho
    obtain ⟨e', he', hn'⟩ := Pool.get_eq_ok_iff.1 found
    obtain rfl := Option.some.inj (he.symm.trans he')
    obtain rfl := hn.symm.trans hn'
    exact .cluster (hs'.get (k := Object.clusters) ((hkept id rfl).trans ho))
  | count whole small => exact .count whole small

namespace MachineM

variable {pins : Pins}

theorem openCluster_apply (ha : m.store.allocate (StoreM.pinsFor (.cluster {}) m.store
    ((pins.also fun _ => source.node?.toList ++ programNodes body).also fun _ => m.mentions)) (.cluster {}) =
      .ok (b, s)) :
    openCluster var body (.value source) pins m =
      schedule var 0 body source pins { m with store := s, builders := b :: m.builders } := by
  rw [openCluster, bind_apply, ofExcept_apply]
  dsimp only [Operand.toValue]
  rw [bind_apply, keeping_apply, onStore_apply, StoreM.allocate_apply, ha]
  dsimp only
  rw [bind_apply, modify_apply]

theorem addResult_apply (hb : m.builders = b :: B) {p : Pool Object}
    (hupdate : (m.store.pool.update Object.clusters b fun c => { c with items := c.items ++ [d] }) = .ok p) :
    addResult var i body (.value (.datum d)) (.value source) pins m =
      schedule var i body source pins { m with store := m.store.append b d } := by
  rw [addResult, bind_apply, ofExcept_apply]
  dsimp only [Operand.toValue]
  rw [bind_apply, ofExcept_apply]
  dsimp only [Value.toDatum]
  rw [bind_apply, ofExcept_apply]
  dsimp only
  rw [bind_apply, get_apply]
  simp only [hb]
  rw [bind_apply, onStore_apply, StoreM.update_apply, Store.append, hupdate, ← hb]

end MachineM

namespace Machine

/-! ## The first round -/

/-- The machine that has opened a cluster at the next address, with this store. -/
def opening (m : Machine) (R : Program) (S : List Operand) (s : Store) : Machine :=
  { m with program := R, operands := S, store := s, builders := m.next :: m.builders, steps := m.steps + 1 }

theorem Midway.opens (h : m.Midway held) (hp : m.program = .op (.iterate var 0 body) line :: R)
    (ho : m.operands = .value source :: S) (hels : Elements m.store source elements) :
    ∃ pins s, m.store.allocate pins (.cluster {}) = .ok (m.next, s) ∧
      m.Arrives held ((m.opening R S s).scheduled var body source elements 0) ∧
      s.pool.get Object.clusters m.next = .ok {} ∧ Elements s source elements := by
  obtain ⟨g, hg, hheld⟩ := h.sound
  have hhoused := (hg.taking hp).housed
  let m₁ := m.taking (.iterate var 0 body) R
  let pins := (Pins.of fun _ => held).also fun _ => source.node?.toList ++ programNodes body
  have hgood : g.Good source := hg.operands source (by simp [ho])
  have hpins : ∀ id ∈ pins.get, (g id).isSome = true := by
    intro id hid
    rcases Pins.mem_also.1 hid with hid | hid
    · exact hheld id (Pins.mem_of.1 hid)
    · rcases List.mem_append.1 hid with hid | hid
      · exact hgood.isSome (Option.mem_toList.1 hid)
      · exact hg.program id (by simp [hp, Item.nodes, Op.nodes, hid])
  obtain ⟨s, ha, hharbors, -, -⟩ := hhoused.twin.harbors.allocate (o := .cluster {}) (P := m₁.roots pins)
    (by simpa using (Housed.pinned m₁ pins).left) (hhoused.isSome_roots hpins) (by simp [Object.links])
    (by rintro _ ⟨⟩) rfl
  have hs := hharbors.hosts
  have hfresh : ∀ t, ¬ g.At t m.next := fun t ht => Nat.lt_irrefl _ (hg.lt_next ht.isSome)
  have hkept : ∀ id, source.node? = some id →
      Function.update (g.cut (m₁.roots pins)) m.next (some (.cluster {})) id = g id := by
    intro id hid
    have hsome := hgood.isSome hid
    have hroot : id ∈ m₁.roots pins := Housed.mem_roots.2 (.inl (Pins.mem_also.2 (.inr (by simp [hid]))))
    rw [Function.update_of_ne (Nat.ne_of_lt (hg.lt_next hsome)), Fragment.cut_of_reach (.root hroot)]
  have hclosed : Fragment.Closed (Function.update (g.cut (m₁.roots pins)) m.next (some (.cluster {}))) := by
    refine hg.closed.cut.update (fun t ht => ?_) (by simp [Object.links])
    obtain ⟨o, ho', -⟩ := ht
    exact absurd ⟨o, (Fragment.eq_of_cut ho').1, rfl⟩ (hfresh o.type)
  have hels' := hels.of_hosts hhoused.hosts hs hgood hkept
  refine ⟨_, s, ha, ?_, hs.get (k := Object.clusters) (Function.update_self ..), hels'⟩
  obtain ⟨effect, m₂, hschedule, hsettle⟩ : ∃ e m₂, MachineM.schedule var 0 body source (Pins.of fun _ => held)
      (m.opening R S s) = .ok e m₂ ∧ e.settle m₂ = (m.opening R S s).scheduled var body source elements 0 :=
    MachineM.exists_schedule hs hclosed
      (fun l hl => (hgood l hl).of_eq (hkept l.2 (by simp [Value.node?_eq_link?, hl]))) hels' rfl
  rw [← hsettle]
  refine Arrives.perform hp (by simp [Op.arity, ho]) ?_
  have hargs : m.arguments (.iterate var 0 body) = [.value source] := by simp [arguments, ho, Op.arity]
  have hdrop : m.operands.drop 1 = S := by simp [ho]
  rw [hargs]
  refine (MachineM.openCluster_apply (m := m₁) ha).trans ?_
  rw [← hschedule, opening, ← hdrop]
  rfl

/-! ## Later rounds -/

/-- After the body the value is added to the innermost cluster, which is that of the comprehension. -/
theorem Midway.collects (h : e.Midway held) (hp : e.program = .op (.iterate var (i + 1) body) line :: R)
    (ho : e.operands = .value source :: .value (.datum d) :: S) (hb : e.builders = b :: B)
    (hc : e.store.pool.get Object.clusters b = .ok c) (hels : Elements e.store source elements) :
    (Store.append e.store b d).pool.get Object.clusters b = .ok { c with items := c.items ++ [d] } ∧
      Elements (Store.append e.store b d) source elements ∧
      e.Arrives held (scheduled { e with
        program := R
        operands := S
        store := Store.append e.store b d
        steps := e.steps + 1 } var body source elements (i + 1)) := by
  obtain ⟨g, hg, -⟩ := h.sound
  obtain ⟨n₀, hveiled⟩ := h.veiled
  have hhosts := hg.housed.hosts
  have hgood : g.Good source := hg.operands source (by simp [ho])
  have hd : g.Good (.datum d) := hg.operands (.datum d) (by simp [ho])
  obtain ⟨o, hob, htype⟩ := hg.builders b (by simp [hb])
  obtain ⟨en, hen, hn⟩ := Pool.get_eq_ok_iff.1 hc
  obtain ⟨en', hen', rfl, -⟩ := hg.entry b o hob
  obtain rfl := Option.some.inj (hen.symm.trans hen')
  rw [hn] at hob
  obtain ⟨p, hupdate, -, hs⟩ := hhosts.update (k := Object.clusters)
    (f := fun c => { c with items := c.items ++ [d] }) hob nofun
  have happend : Store.append e.store b d = { e.store with pool := p } := by
    rw [Store.append, hupdate]
  have hkept : ∀ id, source.node? = some id →
      Function.update g b (some (.cluster { c with items := c.items ++ [d] })) id = g id := by
    intro id hid
    refine Function.update_of_ne ?_ _ _
    rintro rfl
    exact (hveiled.unreferenced (by simp [hb])).operands (.value source) (by simp [ho]) hid
  have hclosed : Fragment.Closed (Function.update g b (some (.cluster { c with items := c.items ++ [d] }))) := by
    have hcluster : g b = some (.cluster c) := hob
    refine hg.closed.update (fun t ht => (ht.type_eq hob).symm) fun l hl => ?_
    simp only [Object.links, List.filterMap_append, List.mem_append] at hl
    rcases hl with (hl | hl) | hl
    · exact hg.closed b _ hcluster l (by simp [Object.links, hl])
    · obtain ⟨d', hd', hlink⟩ := List.mem_filterMap.1 hl
      exact hd l (List.mem_singleton.1 hd' ▸ hlink)
    · exact hg.closed b _ hcluster l (by simp [Object.links, hl])
  rw [← happend] at hs
  have hels' := hels.of_hosts hhosts hs hgood hkept
  refine ⟨hs.get (k := Object.clusters) (Function.update_self ..), hels', ?_⟩
  have hdrop : e.operands.drop 2 = S := by simp [ho]
  rw [← hdrop]
  obtain ⟨effect, m₂, hschedule, hsettle⟩ : ∃ r m₂, MachineM.schedule var (i + 1) body source
      (Pins.of fun _ => held) { e.taking (.iterate var (i + 1) body) R with
        store := Store.append e.store b d } = .ok r m₂ ∧ r.settle m₂ = _ :=
    MachineM.exists_schedule hs hclosed
      (fun l hl => (hgood l hl).of_eq (hkept l.2 (by simp [Value.node?_eq_link?, hl]))) hels' hb
  have hargs : e.arguments (.iterate var (i + 1) body) = [.value (.datum d), .value source] := by
    simp [arguments, ho, Op.arity]
  have hperform : MachineM.perform (.iterate var (i + 1) body) (e.arguments (.iterate var (i + 1) body))
      (Pins.of fun _ => held) (e.taking (.iterate var (i + 1) body) R) = .ok effect m₂ := by
    rw [hargs]
    exact (MachineM.addResult_apply (m := e.taking (.iterate var (i + 1) body) R) hb hupdate).trans hschedule
  have harrives := Arrives.perform hp (by simp [Op.arity, ho]) hperform
  rwa [hsettle] at harrives

/-! ## All rounds -/

section

variable (held : List NodeId) (m : Machine) (var : Name) (body : Program) (source : Value) (elements : List Value)
  (R : Program) (S : List Operand)

/-- Before the round for an index, or before its end, the comprehension that `m` starts has gathered these
results. -/
structure Gathers (i : Nat) (ds : List Datum) (v : Machine) : Prop where
  reached : ∃ n, Steps held n m (v.scheduled var body source elements i)
  program : v.program = R
  operands : v.operands = S
  builders : v.builders = m.next :: m.builders
  depths : v.scopes.depths = m.scopes.depths
  cluster : v.store.pool.get Object.clusters m.next = .ok { items := ds }
  elements : Elements v.store source elements

end

theorem scheduled_of_some (h : elements[i]? = some element) :
    v.scheduled var body source elements i =
      { v with program := MachineM.round var i body source element ++ v.program } := by
  rw [scheduled, h]

theorem scheduled_of_none (h : elements[i]? = none) (hb : v.builders = b :: B) :
    v.scheduled var body source elements i =
      { v with operands := .value (.object .cluster b) :: v.operands, builders := B } := by
  simp [scheduled, h, hb]

theorem steps_scheduled : (v.scheduled var body source elements i).steps = v.steps := by
  unfold scheduled
  split <;> rfl

theorem mem_roundEnd (h : source.node? = some id) : id ∈ programNodes (roundEnd var i body source ++ R) :=
  mem_programNodes.2 ⟨.value source, by simp [roundEnd], by simp [Item.nodes, h]⟩

namespace Gathers

variable (h : m.Midway held) (hv : Gathers held m var body source elements R S i ds v)

include h hv

/-- The next round starts the body. -/
theorem binds (hel : elements[i]? = some element) : m.Arrives held (v.binding var body source i element) := by
  obtain ⟨n, hs⟩ := hv.reached
  have hmid := h.steps hs
  rw [scheduled_of_some hel] at hs hmid
  obtain ⟨-, k, ks, hdepths⟩ := hmid.ready (MachineM.round_append var i body source element v.program)
  exact .after hs (arrives_binding hdepths)

/-- While the body runs, the cluster is below those that the body opens, and has the same slots. -/
theorem shelters (hbody : IsCode body) (hs : Steps held n m (v.binding var body source i element))
    (he : (v.binding var body source i element).Amid held (roundEnd var i body source ++ R) e) :
    (∃ B, e.builders = B ++ m.next :: m.builders) ∧
      e.store.pool.get Object.clusters m.next = .ok { items := ds } := by
  have hmid := h.steps hs
  have hp : (v.binding var body source i element).program = body ++ (roundEnd var i body source ++ R) := by
    rw [← hv.program]
    rfl
  obtain ⟨Q, O, b, hin⟩ := hmid.amid hbody hp he
  obtain ⟨B, hB, -⟩ := hin.safe.builders
  refine ⟨⟨B, hB.trans (congrArg (B ++ ·) hv.builders)⟩, he.keeps_cluster hmid hbody hp (.inl ?_) hv.cluster⟩
  exact hv.builders.symm ▸ List.mem_cons_self ..

theorem iterates (hbody : IsCode body) (hs : Steps held n m (v.binding var body source i element)) {w : Value}
    (he : (v.binding var body source i element).Evaluates held (roundEnd var i body source ++ R) w e) :
    e.builders = m.next :: m.builders ∧ e.scopes.dropFrame.depths = m.scopes.depths ∧
      m.Arrives held { e with
        program := .op (.iterate var (i + 1) body) none :: R
        operands := .value source :: .value w :: S
        scopes := e.scopes.dropFrame
        steps := e.steps + 1 } := by
  have hmid := h.steps hs
  obtain ⟨hprogram, hoperands, hdepths, hbuilders⟩ := he.ended hmid hbody (by rw [← hv.program]; rfl)
  obtain ⟨k, hrun, -⟩ := he
  obtain ⟨-, j, js, hopen⟩ := (hmid.steps hrun).ready hprogram
  have hscopes : m.scopes.depths = j :: js := by
    obtain ⟨j', js', hm⟩ : ∃ j' js', v.scopes.depths = j' :: js' := by
      cases hc : v.scopes.contexts with
      | nil =>
        have hnone : (v.binding var body source i element).scopes.depths = [] := by
          simp [binding, Scopes.withFrame, Scopes.depths, hc]
        rw [hnone, hopen] at hdepths
        cases hdepths
      | cons c cs => exact ⟨_, _, by rw [Scopes.depths, hc]; rfl⟩
    have hbound := Scopes.depths_withFrame (Frame.define {} var element) hm
    rw [hopen] at hdepths
    obtain ⟨hj, hjs⟩ := List.cons.inj (hdepths.trans hbound)
    rw [← hv.depths, hm, Nat.succ.inj hj, hjs]
  refine ⟨hbuilders.trans hv.builders, (Scopes.depths_dropFrame hopen).trans hscopes.symm, ?_⟩
  have harrives : e.Arrives held _ := arrives_iterate hprogram hopen
  rw [hoperands, show (v.binding var body source i element).operands = S from hv.operands] at harrives
  exact .after (hs.trans hrun) harrives

/-- A round gathers one more result. -/
theorem next (hbody : IsCode body) (hel : elements[i]? = some element)
    (he : (v.binding var body source i element).Evaluates held (roundEnd var i body source ++ R) (.datum d) e) :
    m.Halts held (v.collecting e d).steps ∨
      Gathers held m var body source elements R S (i + 1) (ds ++ [d]) (v.collecting e d) := by
  have hle : (v.binding var body source i element).steps ≤ e.steps :=
    let ⟨_, hrun, _⟩ := he
    hrun.steps_le
  rcases hv.binds h hel with hhalts | ⟨n, hs⟩
  · exact .inl (hhalts.mono (Nat.le_add_right_of_le hle))
  obtain ⟨hbuilders, hdepths, harrives⟩ := hv.iterates h hbody hs he
  rcases harrives with hhalts | ⟨k, hs'⟩
  · exact .inl (hhalts.mono (Nat.le_succ _))
  have hamid : (v.binding var body source i element).Amid held (roundEnd var i body source ++ R) e :=
    let ⟨j, hrun, _, _, hbefore⟩ := he
    ⟨j, hrun, hbefore⟩
  obtain ⟨-, hcluster⟩ := hv.shelters h hbody hs hamid
  have hels : Elements e.store source elements := by
    cases hv.elements with
    | cluster found =>
      refine .cluster (hamid.keeps_cluster (h.steps hs) hbody (by rw [← hv.program]; rfl) (.inr ?_) found)
      exact mem_roundEnd rfl
    | count whole small => exact .count whole small
  obtain ⟨happended, hels', harrives⟩ := (h.steps hs').collects rfl rfl hbuilders hcluster hels
  have hcollecting : v.collecting e d = { e with
      program := R
      operands := S
      store := Store.append e.store m.next d
      scopes := e.scopes.dropFrame
      steps := e.steps + 2 } := by
    simp only [collecting, hbuilders, hv.program, hv.operands, List.head?_cons, Option.map_some, Option.getD_some]
  rw [hcollecting]
  rcases harrives with hhalts | ⟨j, hs''⟩
  · rw [steps_scheduled] at hhalts
    exact .inl (.after hs' hhalts)
  · exact .inr ⟨⟨_, hs'.trans hs''⟩, rfl, rfl, hbuilders, hdepths, happended, hels'⟩

theorem rounds (hbody : IsCode body) {rest tail : List Value} {ds' : List Datum}
    (hr : Rounds held var body source i rest v ds' v') (hrest : elements.drop i = rest ++ tail) :
    m.Halts held v'.steps ∨
      Gathers held m var body source elements R S (i + rest.length) (ds ++ ds') v' := by
  induction hr generalizing ds with
  | done => simpa using .inr hv
  | @next i element rest v e v' d ds' run hr ih =>
    have hel : elements[i]? = some element := by
      have hhead : (elements.drop i)[0]? = some element := by rw [hrest]; rfl
      simpa using hhead
    have htail : elements.drop (i + 1) = rest ++ tail := by
      rw [← List.drop_drop, hrest]
      rfl
    rw [hv.program] at run
    rcases hv.next h hbody hel run with hhalts | hnext
    · exact .inl (hhalts.mono hr.steps_le)
    · have hrounds := ih hnext htail
      rwa [List.append_assoc, List.singleton_append, Nat.add_assoc, Nat.add_comm 1 rest.length] at hrounds

end Gathers

/-! ## Comprehensions -/

/-- The body has results for the elements before the index, and there is one at it. -/
structure Sets (held : List NodeId) (v₀ : Machine) (var : Name) (body : Program) (source : Value)
    (elements : List Value) (i : Nat) (ds : List Datum) (v : Machine) (element : Value) : Prop where
  rounds : Rounds held var body source 0 (elements.take i) v₀ ds v
  element : elements[i]? = some element

/-- What becomes of a comprehension that `m` is about to start: the cluster at the next address is open in
`v₀`, which goes on with what comes after the comprehension. -/
structure Comprehends (held : List NodeId) (m v₀ : Machine) (var : Name) (body : Program) (source : Value)
    (elements : List Value) : Prop where
  /-- Nothing was at the address. -/
  fresh : m.store.pool.entries[m.next]? = none
  /-- The body is run for each element, in order. -/
  binds : ∀ {i ds v element}, Sets held v₀ var body source elements i ds v element →
    m.Arrives held (v.binding var body source i element)
  /-- While it runs the cluster has the results of the elements before, and those that the body opens are
  above it. -/
  shelters : ∀ {i ds v element e}, Sets held v₀ var body source elements i ds v element →
    (v.binding var body source i element).Amid held (roundEnd var i body source ++ v₀.program) e →
    m.Halts held (v.binding var body source i element).steps ∨
      (∃ B, e.builders = B ++ m.next :: m.builders) ∧
        e.store.pool.get Object.clusters m.next = .ok { items := ds }
  /-- If it fails, the run fails in the same way and at the same place. -/
  fails : ∀ {i ds v element failure e}, Sets held v₀ var body source elements i ds v element →
    (v.binding var body source i element).Breaks held (roundEnd var i body source ++ v₀.program) failure e →
    m.Halts held (v.binding var body source i element).steps ∨
      ∃ n m', Steps held n m m' ∧ m'.next? held = some (.error failure e)
  /-- If its value is a reference to a field, the run fails. -/
  refuses : ∀ {i ds v element name field e}, Sets held v₀ var body source elements i ds v element →
    (v.binding var body source i element).Evaluates held (roundEnd var i body source ++ v₀.program)
      (.fieldRef name field) e →
    m.Halts held (e.steps + 2) ∨
      ∃ n m' failure m'', Steps held n m m' ∧ m'.next? held = some (.error failure m'') ∧
        failure.cause = .cannotCopyFieldRef
  /-- If it has results for all elements, they are the slots of the cluster, and the cluster is the value. -/
  ends : ∀ {ds v}, Rounds held var body source 0 elements v₀ ds v →
    m.Halts held v.steps ∨
      (∃ n, Steps held n m { v with
        operands := .value (.object .cluster m.next) :: v.operands
        builders := m.builders }) ∧
      v.store.pool.get Object.clusters m.next = .ok { items := ds } ∧ ds.length = elements.length ∧
      v.program = v₀.program ∧ v.operands = v₀.operands ∧ v.scopes.depths = m.scopes.depths

/-- A comprehension is a map, in order. In the middle of a run, let the source be a cluster or a whole number
below the word size. A new cluster is opened. The body is run for each element after the results of those
before it are in the cluster, with the variable bound to the element, and neither it nor what it calls writes
to the cluster. When all elements are done the cluster has exactly their results, and the program, the
operands, the numbers of frames and the open clusters are as before. If the body fails, so does the run, and
the elements that are left are not looked at. All this holds as far as the step limit allows. -/
theorem Midway.comprehends (h : m.Midway held) (hp : m.program = .op (.iterate var 0 body) line :: R)
    (ho : m.operands = .value source :: S) (hels : Elements m.store source elements) :
    ∃ pins s, m.store.allocate pins (.cluster {}) = .ok (m.next, s) ∧
      Comprehends held m (m.opening R S s) var body source elements := by
  obtain ⟨pins, s, ha, hstart, hcluster, hels'⟩ := h.opens hp ho hels
  have hbody : IsCode body := (h.ready hp).1
  refine ⟨pins, s, ha, ?_⟩
  -- Whatever rounds there have been, the comprehension has gathered their results, unless the run has halted.
  have hgathers : ∀ {rest tail ds v}, Rounds held var body source 0 rest (m.opening R S s) ds v →
      elements = rest ++ tail →
      m.Halts held v.steps ∨ Gathers held m var body source elements R S rest.length ds v := by
    intro rest tail ds v hr hrest
    rcases hstart with hhalts | hreached
    · rw [steps_scheduled] at hhalts
      exact .inl (hhalts.mono hr.steps_le)
    · have hv : Gathers held m var body source elements R S 0 [] (m.opening R S s) :=
        ⟨hreached, rfl, rfl, rfl, rfl, hcluster, hels'⟩
      simpa using hv.rounds h hbody hr hrest
  have hsets : ∀ {i ds v element}, Sets held (m.opening R S s) var body source elements i ds v element →
      m.Halts held v.steps ∨ Gathers held m var body source elements R S i ds v := by
    intro i ds v element hset
    have hlt : i < elements.length := (List.getElem?_eq_some_iff.1 hset.element).1
    have hlen : (elements.take i).length = i := List.length_take_of_le (Nat.le_of_lt hlt)
    simpa only [hlen] using hgathers hset.rounds (List.take_append_drop i elements).symm
  have hbinds : ∀ {i ds v element}, Sets held (m.opening R S s) var body source elements i ds v element →
      m.Halts held (v.binding var body source i element).steps ∨
        Gathers held m var body source elements R S i ds v ∧
          ∃ n, Steps held n m (v.binding var body source i element) := by
    intro i ds v element hset
    rcases hsets hset with hhalts | hv
    · exact .inl (hhalts.mono (Nat.le_add_right _ 2))
    · exact (hv.binds h hset.element).imp id fun hs => ⟨hv, hs⟩
  constructor
  case fresh =>
    obtain ⟨g, hg, -⟩ := h.sound
    cases hentry : m.store.pool.entries[m.next]? with
    | none => rfl
    | some e => exact absurd (hg.entries m.next e hentry).1 (Nat.lt_irrefl _)
  case binds =>
    intro i ds v element hset
    exact (hbinds hset).imp id And.right
  case shelters =>
    intro i ds v element e hset hamid
    exact (hbinds hset).imp id fun ⟨hv, n, hs⟩ => hv.shelters h hbody hs hamid
  case fails =>
    rintro i ds v element failure e hset ⟨k, m₁, hs₁, hnext, -⟩
    exact (hbinds hset).imp id fun ⟨_, n, hs⟩ => ⟨n + k, m₁, hs.trans hs₁, hnext⟩
  case refuses =>
    intro i ds v element name field e hset he
    have hle : (v.binding var body source i element).steps ≤ e.steps :=
      let ⟨_, hrun, _⟩ := he
      hrun.steps_le
    rcases hbinds hset with hhalts | ⟨hv, n, hs⟩
    · exact .inl (hhalts.mono (Nat.le_add_right_of_le hle))
    obtain ⟨-, -, harrives⟩ := hv.iterates h hbody hs he
    rcases harrives with hhalts | ⟨k, hs'⟩
    · exact .inl (hhalts.mono (Nat.le_succ _))
    -- The next round cannot add the value.
    cases hover : e.config.overdrawn? (e.steps + 1) with
    | some limit => exact .inl (.after hs' (.of_overdrawn rfl hover))
    | none => exact .inr ⟨k, _, _, _, hs', next?_of_failed rfl hover (Nat.le_add_left 2 _) rfl, rfl⟩
  case ends =>
    intro ds v hr
    have hall : elements = elements ++ [] := (List.append_nil _).symm
    refine (hgathers hr hall).imp id fun hv => ?_
    obtain ⟨n, hs⟩ := hv.reached
    rw [scheduled_of_none (List.getElem?_length elements) hv.builders] at hs
    exact ⟨⟨n, hs⟩, hv.cluster, hr.length_eq, hv.program, hv.operands, hv.depths⟩

/-! ## Counting to one -/

/-- The numbers below one. -/
def counted : Expr := .comprehension "i" (.number (.ofNat 1)) (.var "i")

/-- The machine that is about to open the cluster for them. -/
def counter (config : Config) : Machine :=
  { ofConfig config with
    program := [.op (.iterate "i" 0 (Expr.var "i").compile) none]
    operands := [.value (.count 1)] }

theorem midway_counter (config : Config) : (counter config).Midway [] :=
  ⟨ofConfig config, _, counted, 1, sound_ofConfig config, ⟨0, [], rfl⟩, nofun, by simp [counted, Expr.Countable],
    .one rfl⟩

theorem next?_of_getVariable {name : Name} {x : Number} (hp : m.program = .op .getVariable line :: R)
    (ho : m.operands = .var name :: S) (hlookup : m.scopes.lookup? name = some (.number x))
    (hwithin : m.config.overdrawn? m.steps = none) :
    m.next? held = some (.ok () { m with
      program := R, operands := .value (.number x) :: S, steps := m.steps + 1 }) := by
  have hperform : MachineM.perform .getVariable (m.arguments .getVariable) (Pins.of fun _ => held)
      (m.taking .getVariable R) = .ok (.value (.number x)) (m.taking .getVariable R) := by
    simp only [arguments, ho]
    show MachineM.getVariable name _ _ = _
    rw [MachineM.getVariable, MachineM.bind_apply, MachineM.lookup_apply]
    simp only [taking, hlookup]
    rfl
  rw [next?_of_op hp, hwithin]
  simp only [ho, List.length_cons, if_neg (Nat.not_lt.2 (Nat.le_add_left _ _) : ¬ S.length + 1 < Op.getVariable.arity),
    hperform]
  simp only [Effect.settle, taking, ho]
  rfl

theorem exists_evaluates_var {name : Name} {x : Number} (hp : w.program = (Expr.var name).compile ++ R)
    (hlookup : w.scopes.lookup? name = some (.number x)) (hwithin : w.config.overdrawn? w.steps = none) :
    ∃ e, Evaluates held R w (.number x) e := by
  have hstep : w.next? held = some (.ok () { w with
      program := .op .getVariable none :: R, operands := .var name :: w.operands }) := next?_of_operand hp rfl
  refine ⟨_, 2, .head hstep (.one (next?_of_getVariable rfl rfl hlookup hwithin)), rfl, rfl, fun j m₁ hj hs hR => ?_⟩
  have hlen : m₁.program.length = R.length := congrArg List.length hR
  match j, hj with
  | 0, _ =>
    rw [hs.eq_of_zero, hp] at hlen
    simp [Expr.compile, Expr.compileAt] at hlen
    omega
  | 1, _ =>
    cases hs with
    | head first rest =>
      rw [hstep] at first
      cases first
      rw [rest.eq_of_zero] at hlen
      simp at hlen

/-- The body has a result if there is an operation left for it. -/
theorem exists_rounds_counter {config : Config} (hwithin : config.overdrawn? 3 = none) (s : Store) :
    ∃ v, Rounds [] "i" (Expr.var "i").compile (.count 1) 0 [.count 0] ((counter config).opening [] [] s)
      [.number (.ofNat 0)] v := by
  let w := ((counter config).opening [] [] s).binding "i" (Expr.var "i").compile (.count 1) 0 (.count 0)
  have hlookup : w.scopes.lookup? "i" = some (.count 0) := Scopes.lookup?_withFrame (s := {}) rfl "i" (.count 0)
  obtain ⟨e, he⟩ : ∃ e, Evaluates [] _ w (.count 0) e := exists_evaluates_var rfl hlookup hwithin
  exact ⟨_, .next he (.done _ _)⟩

/-! ## Rounds that are computed -/

theorem Rounds.append {i : Nat} {rest rest' : List Value} {ds ds' : List Datum} {v v₁ v' : Machine}
    (h : Rounds held var body source i rest v ds v₁)
    (h' : Rounds held var body source (i + rest.length) rest' v₁ ds' v') :
    Rounds held var body source i (rest ++ rest') v (ds ++ ds') v' := by
  induction h with
  | done => exact h'
  | next run _ ih => exact .next run (ih (by rwa [Nat.add_assoc, Nat.add_comm 1]))

/-- The machine when just so many items are left for the first time. -/
def until? (left : Nat) : Nat → Machine → Option Machine
  | 0, _ => none
  | fuel + 1, m =>
    if m.program.length = left then some m
    else
      match m.next? [] with
      | some (.ok () m') => until? left fuel m'
      | _ => none

theorem steps_of_until? {left fuel : Nat} (h : until? left fuel m = some e) :
    ∃ k, Steps [] k m e ∧ e.program.length = left ∧
      ∀ j m₁, j < k → Steps [] j m m₁ → m₁.program.length ≠ left := by
  induction fuel generalizing m with
  | zero => cases h
  | succ fuel ih =>
    unfold until? at h
    split at h
    next hleft =>
      cases h
      exact ⟨0, .refl _, hleft, fun j _ hj => absurd hj (Nat.not_lt_zero j)⟩
    next hleft =>
      split at h
      next m' hnext =>
        obtain ⟨k, hs, hlen, hbefore⟩ := ih h
        refine ⟨k + 1, .head hnext hs, hlen, fun j m₁ hj hs₁ => ?_⟩
        cases hs₁ with
        | refl => exact hleft
        | head first rest =>
          rw [hnext] at first
          cases first
          exact hbefore _ _ (Nat.lt_of_succ_lt_succ hj) rest
      next => cases h

/-- In the middle of a run, a body is used up when no more items are left than those below it. -/
theorem Midway.exists_evaluates {fuel : Nat} (h : m.Midway []) (hbody : IsCode body) (hp : m.program = body ++ R)
    (hu : until? R.length fuel m = some e) : ∃ w, Evaluates [] R m w e := by
  obtain ⟨k, hs, hlen, hbefore⟩ := steps_of_until? hu
  have hfirst : ∀ j m₁, j < k → Steps [] j m m₁ → m₁.program ≠ R := fun j m₁ hj hs₁ hR =>
    hbefore j m₁ hj hs₁ (congrArg List.length hR)
  obtain ⟨Q, O, b, hin⟩ := h.amid hbody hp ⟨k, hs, hfirst⟩
  obtain rfl : Q = [] := by simpa [hin.program] using hlen
  obtain ⟨-, ⟨w, hw⟩, -⟩ := hin.ended
  exact ⟨w, k, hs, hin.program, hw, hfirst⟩

/-- The results of the rounds for the elements, and the machine after them. -/
def rounds? (var : Name) (body : Program) (source : Value) (fuel : Nat) :
    Nat → List Value → Machine → Option (List Datum × Machine)
  | _, [], v => some ([], v)
  | i, element :: elements, v =>
    match until? (roundEnd var i body source ++ v.program).length fuel (v.binding var body source i element) with
    | none => none
    | some e =>
      match e.operands with
      | .value (.datum d) :: _ =>
        (rounds? var body source fuel (i + 1) elements (v.collecting e d)).map fun r => (d :: r.1, r.2)
      | _ => none

/-- Without a step limit, the rounds of a comprehension are what is computed. -/
theorem Comprehends.rounds {v₀ : Machine} {fuel : Nat} {rest : List Value} {ds' : List Datum}
    (hc : Comprehends [] m v₀ var body source elements) (h : m.Midway []) (hbody : IsCode body)
    (hlimit : m.config.maxSteps = none) (hr : Rounds [] var body source 0 (elements.take i) v₀ ds v)
    (hrest : elements.drop i = rest) (hv : rounds? var body source fuel i rest v = some (ds', v')) :
    Rounds [] var body source i rest v ds' v' := by
  induction rest generalizing i ds v ds' v' with
  | nil =>
    cases hv
    exact .done i v
  | cons element rest ih =>
    have hel : elements[i]? = some element := by
      have hhead : (elements.drop i)[0]? = some element := by rw [hrest]; rfl
      simpa using hhead
    obtain ⟨hlt, -⟩ := List.getElem?_eq_some_iff.1 hel
    have hmid : (v.binding var body source i element).Midway [] := by
      rcases hc.binds ⟨hr, hel⟩ with hhalts | ⟨n, hs⟩
      · obtain ⟨n, m₁, m₂, f, limit, -, -, -, hsome, -⟩ := hhalts
        simp [hlimit] at hsome
      · exact h.steps hs
    unfold rounds? at hv
    split at hv
    · cases hv
    next e hu =>
      split at hv
      next d S ho =>
        obtain ⟨⟨ds'', v''⟩, hv'', heq⟩ := Option.map_eq_some_iff.1 hv
        cases heq
        obtain ⟨w, hw⟩ := hmid.exists_evaluates hbody rfl hu
        obtain rfl : w = .datum d := by
          obtain ⟨-, -, -, ho', -⟩ := hw
          exact (by simpa [ho'] using ho : w = .datum d ∧ _).1
        have hround : Rounds [] var body source i [element] v [d] (v.collecting e d) := .next hw (.done _ _)
        have htake : Rounds [] var body source 0 (elements.take (i + 1)) v₀ (ds ++ [d]) (v.collecting e d) := by
          rw [List.take_add_one, hel]
          refine hr.append ?_
          rwa [Nat.zero_add, List.length_take_of_le (Nat.le_of_lt hlt)]
        have hdrop : elements.drop (i + 1) = rest := by
          rw [← List.drop_drop, hrest]
          rfl
        exact .next hw (ih htake hdrop hv'')
      next => cases hv

/-- A body that calls a lambda, which makes a comprehension of its own. -/
def tabled : Expr := .call (.lambda "f" ["n"] (.comprehension "j" (.var "n") (.var "j"))) [.var "i"]

/-- The machine that is about to open the cluster for the results for zero and one. -/
def tabling : Machine :=
  { ofConfig {} with
    program := [.op (.iterate "i" 0 tabled.compile) none]
    operands := [.value (.count 2)] }

theorem midway_tabling : tabling.Midway [] :=
  ⟨ofConfig {}, _, .comprehension "i" (.number (.ofNat 2)) tabled, 1, sound_ofConfig {}, ⟨0, [], rfl⟩, nofun,
    by simp [tabled, Expr.Countable, CountableAll], .one rfl⟩

theorem elements_tabling (s : Store) : Elements s (.count 2) [.count 0, .count 1] :=
  .count (x := .ofNat 2) (n := 2) (by decide +kernel) (by decide)

/-- Whatever is pinned when the cluster is opened, the body has a cluster as its result twice. -/
theorem rounds?_tabling {pins : Thunk Graph.NodeSet}
    (ha : tabling.store.allocate pins (.cluster {}) = .ok (tabling.next, s)) :
    ∃ v, rounds? "i" tabled.compile (.count 2) 60 0 [.count 0, .count 1] (tabling.opening [] [] s) =
        some ([.object .cluster 3, .object .cluster 5], v) ∧
      (v.store.pool.get Object.clusters 3).map Cluster.items = .ok [] ∧
      (v.store.pool.get Object.clusters 5).map Cluster.items = .ok [.number (.ofNat 0)] := by
  have hcomputed : (rounds? "i" tabled.compile (.count 2) 60 0 [.count 0, .count 1]
      (tabling.opening [] [] s)).map (fun r => (r.1, (r.2.store.pool.get Object.clusters 3).map Cluster.items,
        (r.2.store.pool.get Object.clusters 5).map Cluster.items)) =
      some ([.object .cluster 3, .object .cluster 5], .ok [], .ok [.number (.ofNat 0)]) := by
    cases ha
    decide +kernel
  obtain ⟨⟨ds, v⟩, hr, heq⟩ := Option.map_eq_some_iff.1 hcomputed
  obtain ⟨rfl, hnone, hzero⟩ : ds = _ ∧ _ = _ ∧ _ = _ := by simpa only [Prod.mk.injEq] using heq
  exact ⟨v, hr, hnone, hzero⟩

/-- The comprehension leaves a cluster of two clusters: that of the numbers below zero, and that of those
below one. -/
theorem comprehends_counter :
    tabling.Midway [] ∧ tabling.operands = [.value (.count 2)] ∧
    Elements tabling.store (.count 2) [.count 0, .count 1] ∧
    ∃ n m', Steps [] n tabling m' ∧ m'.program = [] ∧ m'.operands = [.value (.object .cluster 1)] ∧
      m'.store.pool.get Object.clusters 1 = .ok { items := [.object .cluster 3, .object .cluster 5] } ∧
      (m'.store.pool.get Object.clusters 3).map Cluster.items = .ok [] ∧
      (m'.store.pool.get Object.clusters 5).map Cluster.items = .ok [.number (.ofNat 0)] := by
  obtain ⟨pins, s, ha, hmap⟩ := midway_tabling.comprehends (R := []) (S := []) rfl rfl (elements_tabling _)
  obtain ⟨v, hv, hnone, hzero⟩ := rounds?_tabling ha
  have hrounds := hmap.rounds midway_tabling ⟨none, tabled, by simp [tabled, Expr.Countable, CountableAll], rfl⟩ rfl
    (.done 0 _) rfl hv
  refine ⟨midway_tabling, rfl, elements_tabling _, ?_⟩
  rcases hmap.ends hrounds with hhalts | ⟨⟨n, hs⟩, hcluster, -, hprogram, hoperands, -⟩
  · obtain ⟨k, m₁, m₂, failure, limit, -, -, -, hlimit, -⟩ := hhalts
    cases hlimit
  · exact ⟨n, _, hs, hprogram, congrArg _ hoperands, hcluster, hnone, hzero⟩

/-- How the run of an expression fails. -/
def failed (m : Machine) (e : Expr) : Option Cause :=
  match m.run [] 20 e.compile with
  | some (.error failure, _) => some failure.cause
  | _ => none

/-- The name `r` is bound to a reference to a field. -/
def referring : Machine := { scopes := ⟨[{ frames := [Frame.define {} "r" (.fieldRef "a" "f")] }]⟩ }

/-- A body that has a result for every element may still be part of a run that fails: the step limit stops the
run when the result is to be added, or the result is a reference to a field. A whole number that does not fit
a word is not a source at all. -/
theorem counter_fails :
    ((counter { maxSteps := some 5 }).Midway [] ∧
      (∀ s, ∃ v, Rounds [] "i" (Expr.var "i").compile (.count 1) 0 [.count 0]
        ((counter { maxSteps := some 5 }).opening [] [] s) [.number (.ofNat 0)] v) ∧
      failed (ofConfig { maxSteps := some 5 }) counted = some (.stepBudgetExceeded 5)) ∧
    (failed referring (.var "r") = none ∧
      failed referring (.comprehension "i" (.number (.ofNat 1)) (.var "r")) = some .cannotCopyFieldRef) ∧
    (Number.ofNat (2 ^ 65)).value.decode.wholeNumber? = some (2 ^ 65) ∧
      failed (ofConfig {}) (.comprehension "i" (.number (.ofNat (2 ^ 65))) .nil) =
        some (.typeMismatch "count" "non-integral number") := by
  refine ⟨⟨midway_counter _, exists_rounds_counter (by decide), ?_⟩, ⟨?_, ?_⟩, ?_, ?_⟩ <;> decide +kernel

end Machine

end Mosaic
