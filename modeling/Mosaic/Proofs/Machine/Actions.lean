import Mosaic.Machine.Run
import Mosaic.Proofs.Store.Actions

/-!
# Machine actions as functions

What the basic actions of a machine return, as equations between results, and the operations on
scopes as functions on lists of contexts.
-/

namespace Mosaic.MachineM

open Mosaic.Graph (NodeId)

variable {α β : Type} {pins : Pins} {m : Machine}

theorem pure_apply (a : α) : (pure a : MachineM α) pins m = .ok a m := rfl

theorem bind_apply (x : MachineM α) (f : α → MachineM β) :
    (x >>= f) pins m =
      match x pins m with
      | .ok a m' => f a pins m'
      | .error failure m' => .error failure m' := by
  rw [Action.bind_apply]
  cases x pins m <;> rfl

theorem get_apply : (get : MachineM Machine) pins m = .ok m m := rfl

theorem set_apply (m' : Machine) : (set m' : MachineM PUnit) pins m = .ok ⟨⟩ m' := rfl

theorem modify_apply (f : Machine → Machine) :
    (modify f : MachineM PUnit) pins m = .ok ⟨⟩ (f m) := rfl

theorem fail_apply (cause : Cause) : (fail cause : MachineM α) pins m = .error { cause } m := rfl

theorem tryCatch_apply (x : MachineM α) (handle : Failure → MachineM α) :
    (tryCatch x handle : MachineM α) pins m =
      match x pins m with
      | .ok a m' => .ok a m'
      | .error failure m' => handle failure pins m' := by
  show EStateM.tryCatch (x pins) (fun failure => handle failure pins) m = _
  unfold EStateM.tryCatch
  cases x pins m <;> rfl

theorem ofExcept_apply (x : Except Failure α) :
    ofExcept x pins m =
      match x with
      | .ok a => .ok a m
      | .error failure => .error failure m := by
  cases x <;> rfl

theorem keeping_apply (ids : List NodeId) (x : MachineM α) :
    keeping ids x pins m = x (pins.also fun _ => ids) m := rfl

theorem onStore_apply (x : StoreM α) :
    onStore x pins m =
      match x (pins.also fun _ => m.mentions) m.store with
      | .ok a store => .ok a { m with store }
      | .error failure store => .error failure { m with store } := rfl

theorem setScopes_apply (x : Except Failure Scopes) :
    setScopes x pins m =
      match x with
      | .ok scopes => .ok ⟨⟩ { m with scopes }
      | .error failure => .error failure m := by
  cases x <;> rfl

theorem lookup_apply (name : Name) :
    lookup name pins m =
      match m.scopes.lookup? name with
      | some v => .ok v m
      | none => .error { cause := .undefinedVariable name } m := by
  show (match m.scopes.lookup? name with | some v => pure v | none => fail _ : MachineM Value) pins m = _
  cases m.scopes.lookup? name <;> rfl

theorem exists_of_bind_ok {x : MachineM α} {f : α → MachineM β} {b : β} {m' : Machine}
    (h : (x >>= f) pins m = .ok b m') :
    ∃ a m₁, x pins m = .ok a m₁ ∧ f a pins m₁ = .ok b m' := by
  rw [bind_apply] at h
  cases hx : x pins m with
  | ok a m₁ => rw [hx] at h; exact ⟨a, m₁, rfl, h⟩
  | error failure m₁ => rw [hx] at h; cases h

theorem eq_of_ofExcept_ok {x : Except Failure α} {a : α} {m' : Machine} (h : ofExcept x pins m = .ok a m') :
    x = .ok a ∧ m' = m := by
  rw [ofExcept_apply] at h
  cases x with
  | ok b => cases h; exact ⟨rfl, rfl⟩
  | error failure => cases h

theorem exists_of_onStore_ok {x : StoreM α} {a : α} {m' : Machine}
    (h : onStore x pins m = .ok a m') :
    ∃ s, x (pins.also fun _ => m.mentions) m.store = .ok a s ∧ m' = { m with store := s } := by
  rw [onStore_apply] at h
  cases hx : x (pins.also fun _ => m.mentions) m.store with
  | ok a s => rw [hx] at h; cases h; exact ⟨s, rfl, rfl⟩
  | error failure s => rw [hx] at h; cases h

theorem exists_of_lookup_ok {name : Name} {v : Value} {m' : Machine}
    (h : lookup name pins m = .ok v m') : m.scopes.lookup? name = some v ∧ m' = m := by
  rw [lookup_apply] at h
  cases hl : m.scopes.lookup? name with
  | some w => rw [hl] at h; cases h; exact ⟨rfl, rfl⟩
  | none => rw [hl] at h; cases h

theorem eq_map_of_mapM_toValue {operands : List Operand} {vs : List Value}
    (h : operands.mapM Operand.toValue = .ok vs) : operands = vs.map Operand.value := by
  refine eq_map_of_mapM_ok (fun o v ho => ?_) h
  cases o <;> cases ho
  rfl

/-! ## Closures -/

/-- The data of those names that are in scope. -/
def captured (s : Scopes) (names : List Name) : Except Failure (List (Name × Datum)) :=
  (names.filterMap fun n => (s.lookup? n).map fun v => (n, v)).mapM fun (n, v) =>
    return (n, ← v.toDatum)

theorem capture_eq (names : List Name) :
    capture names = (do ofExcept (captured (← get).scopes names)) := rfl

theorem map_of_captured {s : Scopes} {names : List Name} {ps : List (Name × Datum)}
    (h : captured s names = .ok ps) :
    (names.filterMap fun n => (s.lookup? n).map fun v => (n, v)) =
      ps.map fun p => (p.1, Value.datum p.2) := by
  refine eq_map_of_mapM_ok ?_ h
  rintro ⟨n, v⟩ ⟨n', d⟩ h
  cases hv : v.toDatum with
  | error failure => simp only [hv] at h; cases h
  | ok d' =>
    simp only [hv] at h
    cases h
    rw [Value.eq_of_toDatum hv]

theorem mem_of_captured {s : Scopes} {names : List Name} {ps : List (Name × Datum)}
    (h : captured s names = .ok ps) {p : Name × Datum} (hp : p ∈ ps) :
    p.1 ∈ names ∧ s.lookup? p.1 = some (.datum p.2) := by
  have hmem := List.mem_map_of_mem (f := fun p : Name × Datum => (p.1, Value.datum p.2)) hp
  rw [← map_of_captured h] at hmem
  obtain ⟨n, hn, hv⟩ := List.mem_filterMap.1 hmem
  obtain ⟨v, hv, hpv⟩ := Option.map_eq_some_iff.1 hv
  cases hpv
  exact ⟨hn, hv⟩

theorem lookup?_of_captured {s : Scopes} {names : List Name} {ps : List (Name × Datum)}
    (h : captured s names = .ok ps) {p : Name × Datum} (hp : p ∈ ps) :
    s.lookup? p.1 = some (.datum p.2) :=
  (mem_of_captured h hp).2

theorem captured_error {s : Scopes} {names : List Name} {failure : Failure}
    (h : captured s names = .error failure) : failure.cause = .cannotCopyFieldRef := by
  obtain ⟨⟨n, v⟩, _, hv⟩ := exists_of_mapM_error h
  cases hd : v.toDatum with
  | ok d => simp only [hd] at hv; cases hv
  | error failure' =>
    simp only [hd] at hv
    cases hv
    exact Value.toDatum_error hd

/-! ## Calls -/

/-- Runs the body of a lambda in a context of its own. -/
def enterBody (l : Lambda) (args : List Value) (key : Option String) : MachineM Effect := do
  let frame ← onStore (calleeFrame l args)
  modify fun m =>
    { m with scopes := m.scopes.pushContext { frames := [frame], label := some l.label } }
  let memoize : Program := match key with
    | some key => [.op (.memoize key) none]
    | none => []
  return .items (l.body ++ .op .popContext none :: memoize)

theorem enter_apply (l : Lambda) (args : List Value) (key : Option String) :
    enter l args key pins m =
      match m.config.maxCallDepth with
      | some limit =>
        if limit < m.scopes.depth then .error { cause := .stackOverflow limit } m
        else enterBody l args key pins m
      | none => enterBody l args key pins m := by
  unfold enter
  rw [bind_apply, get_apply]
  cases hlimit : m.config.maxCallDepth with
  | none => simp only [hlimit]; rfl
  | some limit =>
    simp only [hlimit]
    split <;> rfl

theorem enter_eq (l : Lambda) (args : List Value) (key : Option String) :
    enter l args key = (do
      let m ← get
      match m.config.maxCallDepth with
      | some limit =>
        if limit < m.scopes.depth then fail (.stackOverflow limit) else enterBody l args key
      | none => enterBody l args key) := by
  funext pins m
  rw [enter_apply, bind_apply, get_apply]
  cases hlimit : m.config.maxCallDepth with
  | none => simp only [hlimit]
  | some limit =>
    simp only [hlimit]
    split <;> rfl

/-- What a call holds while its result is copied. -/
def heldByCall (callee : NodeId) (args : List Value) (v : Value) : List NodeId :=
  callee :: args.filterMap Value.node? ++ v.node?.toList

/-- Calls a lambda that takes so many arguments. -/
def answer (callee : NodeId) (l : Lambda) (args : List Value) : MachineM Effect := do
  let m ← get
  match if m.config.memoize then memoKey? callee args else none with
  | some key =>
    let (known, memo) := m.memo.ask key
    set { m with memo }
    match known with
    | some v => return .value (← keeping (heldByCall callee args v) (onStore (StoreM.copy v)))
    | none => enter l args (some key)
  | none => enter l args none

theorem invoke_eq (callee : NodeId) (args : List Value) :
    invoke callee args = (do
      let l ← onStore (StoreM.fetch Object.lambdas callee)
      if l.arity ≠ args.length then fail (.arityMismatch l.label l.arity args.length)
      else answer callee l args) := by
  unfold invoke
  refine bind_congr fun l => ?_
  split <;> rfl

theorem answer_eq (callee : NodeId) (l : Lambda) (args : List Value) :
    answer callee l args = (do
      let m ← get
      match if m.config.memoize then memoKey? callee args else none with
      | some key =>
        modify fun m => { m with memo := (m.memo.ask key).2 }
        match (m.memo.ask key).1 with
        | some v => return .value (← keeping (heldByCall callee args v) (onStore (StoreM.copy v)))
        | none => enter l args (some key)
      | none => enter l args none) := by
  funext pins m
  unfold answer
  rw [bind_apply, bind_apply, get_apply]
  dsimp only
  generalize (if m.config.memoize = true then memoKey? callee args else none) = key
  cases key <;> rfl

end Mosaic.MachineM

/-! ## Limits -/

namespace Mosaic

open Mosaic.Graph (NodeId)

/-- The limit on calls, if so many contexts exceed it. -/
def Config.overflow? (c : Config) (depth : Nat) : Option Nat := c.maxCallDepth.filter (· < depth)

/-- The limit on operations, if it has no room for one more. -/
def Config.overdrawn? (c : Config) (steps : Nat) : Option Nat := c.maxSteps.filter (· < steps + 1)

namespace Machine

/-- The lambda takes so many arguments, and the result of the call is not known. -/
def Misses (m : Machine) (callee : NodeId) (args : List Value) : Prop :=
  (∃ l, m.store.pool.get Object.lambdas callee = .ok l ∧ l.arity = args.length) ∧
  (m.config.memoize = true → ∀ key, memoKey? callee args = some key → m.memo.entries[key]? = none)

/-- The operation calls a lambda, and the result is not known. -/
def Enters (m : Machine) : Op → List Operand → Prop
  | .getVariable, [.var name] =>
    ∃ id, m.scopes.lookup? name = some (.object .lambda id) ∧ m.Misses id []
  | .call _, .value (.datum (.object .lambda id)) :: args =>
    ∃ vs, args.mapM Operand.toValue = .ok vs ∧ m.Misses id vs
  | _, _ => False

/-- The next item is an operation. -/
def AtOp (m : Machine) : Prop := ∃ op line rest, m.program = .op op line :: rest

/-- The next item is a call that is not answered from the memo. -/
def AtCall (m : Machine) : Prop :=
  ∃ op line rest, m.program = .op op line :: rest ∧ op.arity ≤ m.operands.length ∧
    m.Enters op (m.operands.take op.arity).reverse

end Machine

namespace MachineM

variable {l : Lambda} {args : List Value} {key : Option String} {pins : Pins} {m : Machine} {limit : Nat}

theorem enter_eq_of_within (h : m.config.overflow? m.scopes.depth = none) :
    enter l args key pins m = enterBody l args key pins m := by
  rw [enter_apply]
  unfold Config.overflow? at h
  cases hc : m.config.maxCallDepth with
  | none => rfl
  | some limit =>
    have hlimit : ¬ limit < m.scopes.depth := by simpa [hc] using h
    simp only [if_neg hlimit]

theorem enter_eq_of_overflow (h : m.config.overflow? m.scopes.depth = some limit) :
    enter l args key pins m = .error { cause := .stackOverflow limit } m := by
  obtain ⟨hc, hlimit⟩ := Option.filter_eq_some_iff.1 h
  rw [enter_apply, hc]
  simp only [if_pos (of_decide_eq_true hlimit)]

/-- A call whose result is not known comes to the limit, whatever the scopes of the caller are. -/
theorem invoke_of_misses {callee : NodeId} (h : m.Misses callee args) :
    ∃ l key memo, m.store.pool.get Object.lambdas callee = .ok l ∧ l.arity = args.length ∧
      memo.entries = m.memo.entries ∧ ∀ pins scopes,
        invoke callee args pins { m with scopes } = enter l args key pins { m with memo, scopes } := by
  obtain ⟨⟨l, hl, harity⟩, hmiss⟩ := h
  have hinvoke : ∀ pins scopes, invoke callee args pins { m with scopes } =
      answer callee l args pins { m with scopes } := by
    intro pins scopes
    rw [invoke_eq, bind_apply, onStore_apply, StoreM.fetch_apply, hl]
    simp only [harity, ne_eq, not_true, if_false]
  cases hk : (if m.config.memoize then memoKey? callee args else none) with
  | none =>
    refine ⟨l, none, m.memo, hl, harity, rfl, fun pins scopes => ?_⟩
    rw [hinvoke, answer_eq, bind_apply, get_apply]
    simp only [hk]
  | some key =>
    obtain ⟨hon, hkey⟩ : m.config.memoize = true ∧ memoKey? callee args = some key := by
      split at hk
      · exact ⟨by assumption, hk⟩
      · cases hk
    have hask : m.memo.ask key = (none, { m.memo with misses := m.memo.misses + 1 }) := by
      simp [Memo.ask, hmiss hon key hkey]
    refine ⟨l, some key, { m.memo with misses := m.memo.misses + 1 }, hl, harity, rfl, fun pins scopes => ?_⟩
    rw [hinvoke, answer_eq, bind_apply, get_apply]
    simp only [hk]
    rw [bind_apply, modify_apply]
    simp only [hask]

theorem perform_of_enters {op : Op} {operands : List Operand} (h : m.Enters op operands) :
    ∃ callee l args key memo, m.store.pool.get Object.lambdas callee = .ok l ∧ l.arity = args.length ∧
      memo.entries = m.memo.entries ∧
      ∀ pins, perform op operands pins m = enter l args key pins { m with memo } := by
  unfold Machine.Enters at h
  split at h
  · rename_i name
    obtain ⟨callee, hname, hmiss⟩ := h
    obtain ⟨l, key, memo, hl, harity, hmemo, hinvoke⟩ := invoke_of_misses hmiss
    refine ⟨callee, l, [], key, memo, hl, harity, hmemo, fun pins => ?_⟩
    rw [← hinvoke pins m.scopes]
    show getVariable name pins m = _
    rw [getVariable, bind_apply, lookup_apply, hname]
    dsimp only
    rw [bind_apply, onStore_apply, StoreM.fetch_apply, hl]
    simp only [harity, List.length_nil, if_true]
  · rename_i callee operands
    obtain ⟨args, hargs, hmiss⟩ := h
    obtain ⟨l, key, memo, hl, harity, hmemo, hinvoke⟩ := invoke_of_misses hmiss
    refine ⟨callee, l, args, key, memo, hl, harity, hmemo, fun pins => ?_⟩
    rw [← hinvoke pins m.scopes]
    show call _ pins m = _
    rw [call, List.mapM_cons, hargs]
    rfl
  · exact h.elim

end MachineM

end Mosaic

namespace Mosaic.MachineM

open Mosaic.Graph (NodeId)

/-! ## Comprehensions -/

/-- Closes the innermost open cluster. -/
def closeCluster : MachineM Effect := do
  match (← get).builders with
  | [] => fail noOpenCluster
  | builder :: builders =>
    modify fun m => { m with builders }
    return .value (.object .cluster builder)

theorem schedule_eq (var : Name) (index : Nat) (body : Program) (source : Value) :
    schedule var index body source = (do
      match ← element? source index with
      | some element => return .items (round var index body source element)
      | none => closeCluster) := by
  unfold schedule closeCluster
  refine bind_congr fun v? => ?_
  cases v? with
  | some element => rfl
  | none =>
    funext pins m
    dsimp only
    rw [bind_apply, bind_apply, get_apply]
    dsimp only
    cases m.builders <;> rfl

end Mosaic.MachineM

namespace Mosaic

/-- Does what an operation has left to be done. -/
def Effect.settle (m : Machine) : Effect → Machine
  | .value v => { m with operands := .value v :: m.operands }
  | .items program => { m with program := program ++ m.program }
  | .done => m

namespace MachineM

variable {pins : Pins} {m : Machine}

/-! ## Items -/

theorem tick_apply :
    tick pins m =
      match m.config.maxSteps with
      | some limit =>
        if limit < m.steps + 1 then
          .error { cause := .stepBudgetExceeded limit } { m with steps := m.steps + 1 }
        else .ok ⟨⟩ { m with steps := m.steps + 1 }
      | none => .ok ⟨⟩ { m with steps := m.steps + 1 } := by
  unfold tick
  rw [bind_apply, modify_apply]
  show (match m.config.maxSteps with
    | some limit => if limit < m.steps + 1 then fail _ else pure _
    | none => pure _ : MachineM Unit) pins _ = _
  cases m.config.maxSteps with
  | none => rfl
  | some limit => dsimp only; split <;> rfl

theorem tick_eq_of_within (h : m.config.overdrawn? m.steps = none) :
    tick pins m = .ok ⟨⟩ { m with steps := m.steps + 1 } := by
  rw [tick_apply]
  unfold Config.overdrawn? at h
  cases hc : m.config.maxSteps with
  | none => rfl
  | some limit =>
    have hlimit : ¬ limit < m.steps + 1 := by simpa [hc] using h
    simp only [if_neg hlimit]

theorem tick_eq_of_overdrawn {limit : Nat} (h : m.config.overdrawn? m.steps = some limit) :
    tick pins m = .error { cause := .stepBudgetExceeded limit } { m with steps := m.steps + 1 } := by
  obtain ⟨hc, hlimit⟩ := Option.filter_eq_some_iff.1 h
  rw [tick_apply, hc]
  simp only [if_pos (of_decide_eq_true hlimit)]

theorem runOp_apply (op : Op) :
    runOp op pins m =
      if m.operands.length < op.arity then
        .error { cause := .stackUnderflow op.name op.arity m.operands.length } m
      else
        match perform op (m.operands.take op.arity).reverse pins
            { m with operands := m.operands.drop op.arity } with
        | .ok e m' => .ok ⟨⟩ (e.settle m')
        | .error failure m' => .error failure m' := by
  unfold runOp
  rw [bind_apply, get_apply]
  by_cases h : m.operands.length < op.arity
  · have htake : (m.operands.take op.arity).length = m.operands.length := by simp; omega
    simp only [htake, if_pos h]
    rfl
  · have htake : ¬ (m.operands.take op.arity).length < op.arity := by simp; omega
    simp only [if_neg h, if_neg htake]
    rw [bind_apply, set_apply]
    simp only [bind_apply]
    cases perform op (m.operands.take op.arity).reverse pins
        { m with operands := m.operands.drop op.arity } with
    | error failure m' => rfl
    | ok e m' => cases e <;> rfl

theorem runItem_op_apply (op : Op) (line : Option Nat) :
    runItem (.op op line) pins m =
      match tick pins m with
      | .error failure m' => .error (failure.atLine line) m'
      | .ok _ m' =>
        match runOp op pins m' with
        | .error failure m'' =>
          .error ((failure.atLine line).withBacktrace m''.scopes.backtrace) m''
        | .ok _ m'' => .ok ⟨⟩ m'' := by
  show (tryCatch (tick) (fun failure => throw (failure.atLine line)) >>= fun _ =>
    tryCatch (runOp op) fun failure => do
      throw ((failure.atLine line).withBacktrace (← get).scopes.backtrace) : MachineM Unit) pins m = _
  rw [bind_apply, tryCatch_apply]
  cases tick pins m with
  | error failure m' => rfl
  | ok _ m' =>
    dsimp only
    rw [tryCatch_apply]
    cases runOp op pins m' <;> rfl

theorem runOp_eq (op : Op) :
    runOp op = (do
      let m ← get
      if m.operands.length < op.arity then
        fail (.stackUnderflow op.name op.arity m.operands.length)
      else do
        modify fun m => { m with operands := m.operands.drop op.arity }
        let e ← perform op (m.operands.take op.arity).reverse
        modify e.settle) := by
  funext pins m
  rw [runOp_apply, bind_apply, get_apply]
  dsimp only
  split
  · rfl
  · rw [bind_apply, modify_apply]
    dsimp only
    rw [bind_apply]
    cases perform op (m.operands.take op.arity).reverse pins
      { m with operands := m.operands.drop op.arity } <;> rfl

/-- Runs an operation; a failure gets the line and the active calls. -/
def runOpAt (op : Op) (line : Option Nat) : MachineM Unit := do
  try runOp op
  catch failure => throw ((failure.atLine line).withBacktrace (← get).scopes.backtrace)

theorem runItem_op_eq (op : Op) (line : Option Nat) :
    runItem (.op op line) = (do
      modify fun m => { m with steps := m.steps + 1 }
      let m ← get
      match m.config.maxSteps with
      | some limit =>
        if limit < m.steps then
          throw (({ cause := .stepBudgetExceeded limit } : Failure).atLine line)
        else runOpAt op line
      | none => runOpAt op line) := by
  funext pins m
  have hat : ∀ m, runOpAt op line pins m =
      match runOp op pins m with
      | .error failure m' =>
        .error ((failure.atLine line).withBacktrace m'.scopes.backtrace) m'
      | .ok _ m' => .ok ⟨⟩ m' := by
    intro m
    unfold runOpAt
    rw [tryCatch_apply]
    cases runOp op pins m <;> rfl
  rw [runItem_op_apply, tick_apply, bind_apply, modify_apply]
  dsimp only
  rw [bind_apply, get_apply]
  dsimp only
  cases m.config.maxSteps with
  | none => exact (hat _).symm
  | some limit =>
    by_cases hlimit : limit < m.steps + 1
    · simp only [if_pos hlimit]
      rfl
    · simp only [if_neg hlimit]
      exact (hat _).symm

end MachineM

end Mosaic
