import Mosaic.Proofs.Isolation.Entry
import Mosaic.Proofs.Machine.Step

/-!
# Rounds of a comprehension

Between two rounds a comprehension has no machine of its own: the operation that adds a result also starts
the next round. So it is described by machines that are never there, as they would be if the operation
stopped in between: the cluster has the results so far, and the program and the operands are those of what
comes after the comprehension (`Machine.scheduled` is what such a machine is at the start of a round).
`Machine.Rounds` says what the body is run for, in which order, and with which results; nothing in it speaks
of the operations that do this. Each of these leads to where it should, unless the step limit has no room for
it (`Machine.Arrives`).
-/

namespace Mosaic

open Mosaic.Graph (NodeId)

/-! ## Frames of elements -/

namespace Scopes

/-- The scopes with one more frame. -/
def withFrame (s : Scopes) (f : Frame) : Scopes :=
  match s.contexts with
  | [] => s
  | c :: cs => ⟨{ c with frames := f :: c.frames } :: cs⟩

/-- The scopes without the innermost frame. -/
def dropFrame (s : Scopes) : Scopes :=
  match s.contexts with
  | [] => s
  | c :: cs => ⟨{ c with frames := c.frames.tail } :: cs⟩

variable {s : Scopes} {n : Nat} {ns : List Nat}

theorem depths_withFrame (f : Frame) (h : s.depths = n :: ns) : (s.withFrame f).depths = (n + 1) :: ns := by
  cases hs : s.contexts with
  | nil => simp [depths, hs] at h
  | cons c cs => simp_all [depths, withFrame]

theorem depths_dropFrame (h : s.depths = (n + 1) :: ns) : s.dropFrame.depths = n :: ns := by
  cases hs : s.contexts with
  | nil => simp [depths, hs] at h
  | cons c cs => simp_all [depths, dropFrame]

theorem lookup?_withFrame (h : s.depths = n :: ns) (name : Name) (v : Value) :
    (s.withFrame (Frame.define {} name v)).lookup? name = some v := by
  cases hs : s.contexts with
  | nil => simp [depths, hs] at h
  | cons c cs => simp [lookup?, withFrame, hs, Context.lookup?, Frame.lookup?_define]

theorem define_pushFrame (h : s.depths = n :: ns) (name : Name) (v : Value) :
    ∃ s', s.pushFrame = .ok s' ∧ s'.define name v = .ok (s.withFrame (Frame.define {} name v)) := by
  cases hs : s.contexts with
  | nil => simp [depths, hs] at h
  | cons c cs =>
    refine ⟨_, by rw [pushFrame, hs], ?_⟩
    simp only [define, modifyFrame, withFrame, hs]

theorem popFrame_eq (h : s.depths = (n + 1) :: ns) : ∃ f, s.popFrame = .ok (f, s.dropFrame) := by
  cases hs : s.contexts with
  | nil => simp [depths, hs] at h
  | cons c cs =>
    cases hf : c.frames with
    | nil => simp [depths, hs, hf] at h
    | cons f fs => exact ⟨f, by simp only [popFrame, dropFrame, hs, hf, List.tail_cons]⟩

end Scopes

/-! ## What a comprehension goes through -/

/-- The elements of a source: the items of a cluster, or the numbers below a whole number. -/
inductive Elements (s : Store) : Value → List Value → Prop
  | cluster {id : NodeId} {c : Cluster} (found : s.pool.get Object.clusters id = .ok c) :
    Elements s (.object .cluster id) (c.items.map .datum)
  | count {x : Number} {n : Nat} (whole : x.value.decode.wholeNumber? = some n) (small : n < 2 ^ 64) :
    Elements s (.number x) ((List.range n).map .count)

/-- What a round does after the body. -/
def roundEnd (var : Name) (index : Nat) (body : Program) (source : Value) : Program :=
  [.op .popFrame none, .value source, .op (.iterate var (index + 1) body) none]

theorem MachineM.round_append (var : Name) (index : Nat) (body : Program) (source element : Value) (R : Program) :
    MachineM.round var index body source element ++ R =
      .op .pushFrame none :: .value element :: .var var :: .op (.assign 1) none ::
        (body ++ (roundEnd var index body source ++ R)) := by
  simp [round, roundEnd]

/-- The store with one more slot at the end of a cluster. -/
def Store.append (s : Store) (id : NodeId) (d : Datum) : Store :=
  match s.pool.update Object.clusters id fun c => { c with items := c.items ++ [d] } with
  | .ok pool => { s with pool }
  | .error _ => s

namespace Machine

/-- The machine that runs the body for an element, with the variable bound to it in a frame of its own. -/
def binding (v : Machine) (var : Name) (body : Program) (source : Value) (index : Nat) (element : Value) :
    Machine :=
  { v with
    program := body ++ (roundEnd var index body source ++ v.program)
    scopes := v.scopes.withFrame (Frame.define {} var element)
    steps := v.steps + 2 }

/-- The machine after a round that `v` was before, if the body has led to `e` with the result `d`: the
innermost cluster has one more slot. -/
def collecting (v e : Machine) (d : Datum) : Machine :=
  { e with
    program := v.program
    operands := v.operands
    scopes := e.scopes.dropFrame
    store := (e.builders.head?.map fun b => Store.append e.store b d).getD e.store
    steps := e.steps + 2 }

/-- The machine that starts a round, or that has closed the cluster if there is none left. -/
def scheduled (v : Machine) (var : Name) (body : Program) (source : Value) (elements : List Value)
    (index : Nat) : Machine :=
  match elements[index]? with
  | some element => { v with program := MachineM.round var index body source element ++ v.program }
  | none =>
    { v with
      operands := (v.builders.head?.map fun b => Operand.value (.object .cluster b)).toList ++ v.operands
      builders := v.builders.tail }

variable {held : List NodeId}

/-- The code on top of the program `R` is run until it is used up, and leaves the value. -/
def Evaluates (held : List NodeId) (R : Program) (m : Machine) (w : Value) (e : Machine) : Prop :=
  ∃ k, Steps held k m e ∧ e.program = R ∧ e.operands = .value w :: m.operands ∧
    ∀ j m₁, j < k → Steps held j m m₁ → m₁.program ≠ R

/-- The code on top of the program `R` fails before it is used up. -/
def Breaks (held : List NodeId) (R : Program) (m : Machine) (failure : Failure) (e : Machine) : Prop :=
  ∃ k m₁, Steps held k m m₁ ∧ m₁.next? held = some (.error failure e) ∧
    ∀ j m₂, j ≤ k → Steps held j m m₂ → m₂.program ≠ R

/-- The machine is in the middle of the code on top of the program `R`, or at its end. -/
def Amid (held : List NodeId) (R : Program) (m e : Machine) : Prop :=
  ∃ k, Steps held k m e ∧ ∀ j m₁, j < k → Steps held j m m₁ → m₁.program ≠ R

/-- From the first machine to the second, the body is run for the elements, one after the other and once for
each, with the variable bound to the element, and has the results. -/
inductive Rounds (held : List NodeId) (var : Name) (body : Program) (source : Value) :
    Nat → List Value → Machine → List Datum → Machine → Prop
  | done (index : Nat) (v : Machine) : Rounds held var body source index [] v [] v
  | next {index : Nat} {element : Value} {elements : List Value} {v e v' : Machine} {d : Datum} {ds : List Datum}
    (run : Evaluates held (roundEnd var index body source ++ v.program)
      (v.binding var body source index element) (.datum d) e)
    (rest : Rounds held var body source (index + 1) elements (v.collecting e d) ds v') :
    Rounds held var body source index (element :: elements) v (d :: ds) v'

theorem Rounds.length_eq {var : Name} {body : Program} {source : Value} {index : Nat} {elements : List Value}
    {v v' : Machine} {ds : List Datum} (h : Rounds held var body source index elements v ds v') :
    ds.length = elements.length := by
  induction h with
  | done => rfl
  | next _ _ ih => exact congrArg (· + 1) ih

/-! ## Steps that the limit may stop -/

/-- The step limit, which is less than `N`, stops the run before it has counted `N` operations. -/
def Halts (held : List NodeId) (m : Machine) (N : Nat) : Prop :=
  ∃ n m₁ m₂ failure limit, Steps held n m m₁ ∧ m₁.next? held = some (.error failure m₂) ∧
    failure.cause = .stepBudgetExceeded limit ∧ m.config.maxSteps = some limit ∧ limit < N ∧ m₁.steps < N

/-- The run gets to the second machine, unless the step limit stops it on the way. -/
def Arrives (held : List NodeId) (m m' : Machine) : Prop :=
  m.Halts held m'.steps ∨ ∃ n, Steps held n m m'

variable {m m₁ m₂ : Machine} {n N : Nat} {op : Op} {line : Option Nat} {rest : Program}

theorem Halts.mono (h : m.Halts held n) (hle : n ≤ N) : m.Halts held N :=
  let ⟨k, m₁, m₂, f, limit, hs, hf, hcause, hlimit, hlt, hlt'⟩ := h
  ⟨k, m₁, m₂, f, limit, hs, hf, hcause, hlimit, Nat.lt_of_lt_of_le hlt hle, Nat.lt_of_lt_of_le hlt' hle⟩

theorem Halts.after (hs : Steps held n m m₁) (h : m₁.Halts held N) : m.Halts held N :=
  let ⟨k, m₂, m₃, f, limit, hs', hf, hcause, hlimit, hlt⟩ := h
  ⟨n + k, m₂, m₃, f, limit, hs.trans hs', hf, hcause, hs.config ▸ hlimit, hlt⟩

theorem Halts.of_overdrawn {limit : Nat} (hp : m.program = .op op line :: rest)
    (hover : m.config.overdrawn? m.steps = some limit) : m.Halts held (m.steps + 1) := by
  obtain ⟨hmax, hlt⟩ := Option.filter_eq_some_iff.1 hover
  exact ⟨0, m, _, _, limit, .refl m, next?_of_overdrawn hp hover, rfl, hmax, of_decide_eq_true hlt,
    Nat.lt_succ_self _⟩

theorem Steps.steps_le (h : Steps held n m m₁) : m.steps ≤ m₁.steps := by
  induction h with
  | refl => exact Nat.le_refl _
  | head first _ ih =>
    rcases (stepped_of_next? first).counted with ⟨-, hsteps, -⟩ | ⟨-, hsteps, -⟩ <;> omega

namespace Arrives

theorem of_steps (h : Steps held n m m₁) : m.Arrives held m₁ := .inr ⟨n, h⟩

theorem after (hs : Steps held n m m₁) (h : m₁.Arrives held m₂) : m.Arrives held m₂ :=
  h.imp (.after hs) fun ⟨k, hs'⟩ => ⟨n + k, hs.trans hs'⟩

theorem trans (h : m.Arrives held m₁) (h' : m₁.Arrives held m₂) (hle : m₁.steps ≤ m₂.steps) :
    m.Arrives held m₂ := by
  rcases h with hhalts | ⟨n, hs⟩
  · exact .inl (hhalts.mono hle)
  · exact h'.after hs

theorem steps (h : m.Arrives held m₁) (hs : Steps held n m₁ m₂) : m.Arrives held m₂ :=
  h.trans (.of_steps hs) hs.steps_le

theorem perform (hp : m.program = .op op line :: rest) (hlen : op.arity ≤ m.operands.length) {e : Effect}
    (hperform : MachineM.perform op (m.arguments op) (Pins.of fun _ => held) (m.taking op rest) =
      .ok e m₁) : m.Arrives held (e.settle m₁) := by
  have hkept : m₁.steps = m.steps + 1 := (Kept.of_perform hperform).steps
  have hsteps : (e.settle m₁).steps = m.steps + 1 := by cases e <;> exact hkept
  cases hover : m.config.overdrawn? m.steps with
  | some limit => exact .inl (hsteps ▸ Halts.of_overdrawn hp hover)
  | none =>
    refine .of_steps (.one ?_)
    rw [next?_of_op hp, hover]
    simp only [if_neg (Nat.not_lt.2 hlen), hperform]

end Arrives

theorem Rounds.steps_le {var : Name} {body : Program} {source : Value} {index : Nat} {elements : List Value}
    {v v' : Machine} {ds : List Datum} (h : Rounds held var body source index elements v ds v') :
    v.steps ≤ v'.steps := by
  induction h with
  | done => exact Nat.le_refl _
  | @next index element elements v e v' d ds run _ ih =>
    obtain ⟨k, hs, -⟩ := run
    have hbody : v.steps + 2 ≤ e.steps := hs.steps_le
    have hrest : e.steps + 2 ≤ v'.steps := ih
    omega

/-! ## The operations of a round -/

variable {v e : Machine} {var : Name} {index : Nat} {body R : Program} {source element : Value}
  {elements : List Value} {d : Datum} {k : Nat} {ks : List Nat}

theorem arrives_binding (hdepth : v.scopes.depths = k :: ks) :
    Arrives held { v with program := MachineM.round var index body source element ++ v.program }
      (v.binding var body source index element) := by
  obtain ⟨s, hpush, hdefine⟩ := Scopes.define_pushFrame hdepth var element
  let rest := body ++ (roundEnd var index body source ++ v.program)
  rw [MachineM.round_append]
  -- The frame is pushed.
  have hframe : Arrives held
      { v with program := .op .pushFrame none :: .value element :: .var var :: .op (.assign 1) none :: rest } { v with
        program := .value element :: .var var :: .op (.assign 1) none :: rest
        scopes := s
        steps := v.steps + 1 } := by
    refine Arrives.perform (e := .done) rfl (Nat.zero_le _) ?_
    show MachineM.perform .pushFrame _ _ _ = _
    simp only [MachineM.perform, MachineM.bind_apply, MachineM.get_apply, MachineM.setScopes_apply, taking, hpush]
    rfl
  refine hframe.trans (.after (.head rfl (.one rfl)) ?_) (Nat.le_succ _)
  -- The element is bound to the variable.
  refine Arrives.perform (e := .done) (show _ = .op (.assign 1) none :: rest from rfl) (Nat.le_add_left 2 _) ?_
  show MachineM.assign 1 (.value element) [.var var] _ _ = _
  rw [MachineM.assign, MachineM.bind_apply, MachineM.ofExcept_apply]
  have hone : MachineM.destructure element 1 = pure [element] := if_pos rfl
  show (MachineM.destructure element 1 >>= _) _ _ = _
  rw [hone, MachineM.bind_apply, MachineM.pure_apply]
  dsimp only
  rw [MachineM.bind_apply]
  simp only [List.zip_cons_cons, List.zip_nil_left, MachineM.bindAll, Operand.toVariable, MachineM.bind_apply,
    MachineM.ofExcept_apply, MachineM.get_apply, taking, hdefine, MachineM.setScopes_apply, MachineM.pure_apply]
  rfl

theorem arrives_iterate (hp : e.program = roundEnd var index body source ++ R)
    (hdepth : e.scopes.depths = (k + 1) :: ks) :
    e.Arrives held { e with
      program := .op (.iterate var (index + 1) body) none :: R
      operands := .value source :: e.operands
      scopes := e.scopes.dropFrame
      steps := e.steps + 1 } := by
  obtain ⟨f, hpop⟩ := Scopes.popFrame_eq hdepth
  have hdrop : e.Arrives held { e with
      program := .value source :: .op (.iterate var (index + 1) body) none :: R
      scopes := e.scopes.dropFrame
      steps := e.steps + 1 } := by
    refine Arrives.perform (e := .done) hp (Nat.zero_le _) ?_
    show MachineM.perform .popFrame _ _ _ = _
    simp only [MachineM.perform, MachineM.bind_apply, MachineM.get_apply, MachineM.ofExcept_apply, taking, hpop]
    rfl
  exact hdrop.steps (.one rfl)

end Machine

/-! ## What a round starts with -/

section

variable {E : Setting} {g : Fragment} {s : Store} {source : Value} {elements : List Value} {index : Nat}
  {pins : Pins} {m : Machine} {var : Name} {body : Program}

/-- The element at an index. -/
theorem MachineM.element?_apply (hm : Hosts E g m.store) (hg : g.Closed) (hs : g.Good source)
    (h : Elements m.store source elements) :
    MachineM.element? source index pins m = .ok elements[index]? m := by
  cases h with
  | @cluster id c found =>
    have hitem : ∀ d, c.items[index]? = some d → ∀ pins, StoreM.load d pins m.store = .ok (.datum d) m.store := by
      intro d hd pins
      cases d with
      | object t i =>
        obtain ⟨o, ho, ht⟩ := hs (.cluster, id) rfl
        obtain ⟨e, he, hn, -⟩ := hm.entry id o ho
        obtain ⟨e', he', hn'⟩ := Graph.Pool.get_eq_ok_iff.1 found
        obtain rfl := Option.some.inj (he.symm.trans he')
        have hlink : (t, i) ∈ o.links := by
          rw [← hn, hn']
          exact List.mem_append_left _ (List.mem_filterMap.2 ⟨_, List.mem_of_getElem? hd, rfl⟩)
        obtain ⟨p, hp, ht'⟩ := hg id o ho (t, i) hlink
        show (StoreM.fetchObject t i >>= fun _ => pure _) pins m.store = _
        rw [StoreM.bind_apply, StoreM.fetchObject_apply, hm.get (k := Object.ofType t) (a := ⟨p, ht'⟩) hp]
        rfl
      | _ => rfl
    show MachineM.onStore (StoreM.fetch Object.clusters id >>= fun c => c.items[index]?.mapM StoreM.load) pins m = _
    rw [MachineM.onStore_apply, StoreM.bind_apply, StoreM.fetch_apply, found]
    dsimp only
    rw [List.getElem?_map]
    cases hd : c.items[index]? with
    | none => rfl
    | some d =>
      rw [Option.mapM_some, map_eq_pure_bind, StoreM.bind_apply, hitem d hd]
      rfl
  | @count x n whole small =>
    have hindex : x.toIndex? = some n := by
      have hle : n ≤ 1 <<< 64 := by rw [Nat.one_shiftLeft]; omega
      have hmin : min n (1 <<< 64 - 1) = n := by rw [Nat.one_shiftLeft]; omega
      rw [Number.toIndex?, whole, Option.bind_some, if_pos hle, hmin]
    have hcount : MachineM.element? (.number x) index = return if index < n then some (.count index) else none := by
      simp only [MachineM.element?, hindex]
    rw [hcount, List.getElem?_map]
    by_cases hlt : index < n
    · simp only [if_pos hlt, List.getElem?_range hlt]
      rfl
    · have hnone : (List.range n)[index]? = none := List.getElem?_eq_none (by simpa using hlt)
      simp only [if_neg hlt, hnone]
      rfl

theorem MachineM.exists_schedule (hm : Hosts E g m.store) (hg : g.Closed) (hs : g.Good source)
    (h : Elements m.store source elements) {b : NodeId} {B : List NodeId} (hb : m.builders = b :: B) :
    ∃ e m', MachineM.schedule var index body source pins m = .ok e m' ∧
      e.settle m' = m.scheduled var body source elements index := by
  rw [MachineM.schedule_eq, MachineM.bind_apply, MachineM.element?_apply hm hg hs h]
  unfold Machine.scheduled
  cases elements[index]? with
  | some element => exact ⟨_, _, rfl, rfl⟩
  | none =>
    refine ⟨.value (.object .cluster b), { m with builders := B }, ?_, ?_⟩
    · dsimp only
      rw [MachineM.closeCluster, MachineM.bind_apply, MachineM.get_apply]
      simp only [hb]
      rfl
    · simp [Effect.settle, hb]

end

end Mosaic
