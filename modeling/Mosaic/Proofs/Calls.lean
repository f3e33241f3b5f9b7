import Mosaic.Proofs.Comprehension.Rounds
import Mosaic.Proofs.Direct.Operations

/-!
# Calls of what cannot be called

A call whose callee is no mere name, or that has arguments, has an operation of its own, which looks at the
value of the callee: the run fails if that is no lambda, or one with another number of parameters
(`Machine.wrong_call_fails`). A call without arguments whose callee is a name has no such operation. It is
the lookup of the name, which calls a lambda without parameters and otherwise leaves the value that the
name is bound to, be it a number or a lambda with parameters.
-/

namespace Mosaic

open Mosaic.Graph (NodeId)

theorem MachineM.eq_of_getVariable_ok {name : Name} {pins : Pins} {m m' : Machine} {e : Effect} {w : Value}
    (h : getVariable name pins m = .ok e m') (hlookup : m.scopes.lookup? name = some w)
    (hw : ∀ id l, w = .object .lambda id → m.store.pool.get Object.lambdas id = .ok l → l.arity ≠ 0) :
    e = .value w ∧ m' = m := by
  rw [getVariable, bind_apply, lookup_apply, hlookup] at h
  cases w with
  | fieldRef => cases h; exact ⟨rfl, rfl⟩
  | datum d =>
    cases d with
    | object t id =>
      cases t with
      | lambda =>
        dsimp only at h
        rw [bind_apply, onStore_apply, StoreM.fetch_apply] at h
        cases hget : m.store.pool.get Object.lambdas id with
        | error fault => rw [hget] at h; cases h
        | ok l =>
          rw [hget] at h
          dsimp only at h
          rw [if_neg (hw id l rfl hget)] at h
          cases h
          exact ⟨rfl, rfl⟩
      | _ => cases h; exact ⟨rfl, rfl⟩
    | _ => cases h; exact ⟨rfl, rfl⟩

namespace Machine

variable {held : List NodeId} {m m₁ : Machine} {line : Option Nat} {R : Program} {v w : Value} {ws : List Value}

/-- The expressions are evaluated on top of the program `R`, one after the other, and have the values. -/
inductive EvaluatesAll (held : List NodeId) (line : Option Nat) (R : Program) :
    List Expr → Machine → List Value → Machine → Prop
  | nil (m : Machine) : EvaluatesAll held line R [] m [] m
  | cons {e : Expr} {es : List Expr} {m m₁ m₂ : Machine} {w : Value} {ws : List Value}
    (run : m.Evaluates held (compileAll line es ++ R) w m₁) (rest : EvaluatesAll held line R es m₁ ws m₂) :
    EvaluatesAll held line R (e :: es) m (w :: ws) m₂

theorem EvaluatesAll.length_eq {es : List Expr} (h : EvaluatesAll held line R es m ws m₁) :
    ws.length = es.length := by
  induction h with
  | nil => rfl
  | cons _ _ ih => exact congrArg (· + 1) ih

/-- The values are pushed, and the code is used up. -/
theorem EvaluatesAll.exists_steps {es : List Expr} (h : EvaluatesAll held line R es m ws m₁)
    (hp : m.program = compileAll line es ++ R) :
    ∃ n, Steps held n m m₁ ∧ m₁.program = R ∧ m₁.operands = (ws.map Operand.value).reverse ++ m.operands := by
  induction h with
  | nil m => exact ⟨0, .refl m, hp, rfl⟩
  | cons run _ ih =>
    obtain ⟨k, hs, hprogram, hoperands, -⟩ := run
    obtain ⟨n, hs', hp', ho'⟩ := ih hprogram
    refine ⟨k + n, hs.trans hs', hp', ?_⟩
    rw [ho', hoperands, List.map_cons, List.reverse_cons, List.append_assoc]
    rfl

/-- The value cannot be called with so many arguments, for this cause. -/
inductive CannotCall (m : Machine) (v : Value) (n : Nat) : Cause → Prop
  | noLambda (h : ∀ id, v ≠ .object .lambda id) : CannotCall m v n (.notCallable v.typeName)
  | arity {id : NodeId} {l : Lambda} (callee : v = .object .lambda id)
    (found : m.store.pool.get Object.lambdas id = .ok l) (ne : l.arity ≠ n) :
    CannotCall m v n (.arityMismatch l.label l.arity n)

/-- A call of such a value fails, whatever the arguments are, and changes nothing. -/
theorem CannotCall.call_fails {cause : Cause} (h : m.CannotCall v ws.length cause) (pins : Pins) :
    MachineM.call ((v :: ws).map Operand.value) pins m = .error { cause } m := by
  rw [MachineM.call, MachineM.mapM_toValue]
  cases h with
  | noLambda h =>
    cases v with
    | fieldRef => rfl
    | datum d =>
      cases d with
      | object t id =>
        cases t with
        | lambda => exact (h id rfl).elim
        | _ => rfl
      | _ => rfl
  | @arity id l callee found ne =>
    subst callee
    show MachineM.invoke id ws pins m = _
    rw [MachineM.invoke, MachineM.bind_apply, MachineM.onStore_apply, StoreM.fetch_apply, found]
    dsimp only
    rw [if_pos ne]
    rfl

/-- The operation of the call fails, or the step limit has no room for it. -/
theorem CannotCall.next? {cause : Cause} {S : List Operand} (hp : m.program = .op (.call ws.length) line :: R)
    (ho : m.operands = ((v :: ws).map Operand.value).reverse ++ S) (hlen : ws.length + 1 < 2 ^ 64)
    (h : m.CannotCall v ws.length cause) :
    ∃ f m', m.next? held = some (.error f m') ∧
      (f.cause = cause ∨ ∃ limit, m.config.maxSteps = some limit ∧ f.cause = .stepBudgetExceeded limit) := by
  cases hover : m.config.overdrawn? m.steps with
  | some limit =>
    exact ⟨_, _, next?_of_overdrawn hp hover, .inr ⟨limit, (Option.filter_eq_some_iff.1 hover).1, rfl⟩⟩
  | none =>
    have harity : (Op.call ws.length).arity = ((v :: ws).map Operand.value).reverse.length := by
      simpa [Op.arity] using Nat.mod_eq_of_lt hlen
    have hargs : m.arguments (.call ws.length) = (v :: ws).map Operand.value := by
      rw [arguments, harity, ho, List.take_left', List.reverse_reverse]
      rfl
    have h' : (m.taking (.call ws.length) R).CannotCall v ws.length cause := by
      cases h with
      | noLambda h => exact .noLambda h
      | arity callee found ne => exact .arity callee found ne
    refine ⟨_, _, next?_of_failed hp hover ?_ (hargs ▸ h'.call_fails _), .inl rfl⟩
    rw [harity, ho, List.length_append]
    exact Nat.le_add_right _ _

/-- A name that is evaluated has the value that it is bound to, but if that is a lambda without parameters,
which is called. -/
theorem eq_of_evaluates_var {name : Name} (hp : m.program = (Expr.var name).compileAt line ++ R)
    (h : m.Evaluates held R v m₁) (hlookup : m.scopes.lookup? name = some w)
    (hw : ∀ id l, w = .object .lambda id → m.store.pool.get Object.lambdas id = .ok l → l.arity ≠ 0) :
    v = w := by
  obtain ⟨k, hs, hprogram, hoperands, hfirst⟩ := h
  have hpush : m.next? held = some (.ok () { m with
      program := .op .getVariable line :: R, operands := .var name :: m.operands }) := next?_of_operand hp rfl
  have hne : ∀ {p : Program}, p = R → p.length = R.length := fun h => congrArg List.length h
  cases hs with
  | refl => exact absurd (hne (hp.symm.trans hprogram)) (by simp [Expr.compileAt]; omega)
  | head first rest =>
    rw [hpush] at first
    cases first
    cases rest with
    | refl => exact absurd (hne hprogram) (by simp)
    | head second rest =>
      cases stepped_of_next? second with
      | push program operand => cases program; cases operand
      | perform program _ _ performed =>
        cases program
        obtain ⟨rfl, rfl⟩ := MachineM.eq_of_getVariable_ok performed hlookup hw
        -- The code is used up now, and it is not used up twice.
        cases rest with
        | refl => exact (Operand.value.inj (List.cons.inj hoperands).1).symm
        | head third rest => exact (hfirst 2 _ (by omega) (.head hpush (.one second)) rfl).elim

/-- Wrong calls fail. If the callee of a call is no mere name, or there are arguments, and the callee and the
arguments are evaluated, then the run fails if the value of the callee is no lambda or a lambda with another
number of parameters. The value of a name is the one that it is bound to. -/
theorem wrong_call_fails {callee : Expr} {args : List Expr} {cause : Cause}
    (hcallee : args = [] → ∀ name, callee ≠ .var name) (hlen : args.length + 1 < 2 ^ 64)
    (hp : m.program = (Expr.call callee args).compileAt line ++ R)
    (hrun : EvaluatesAll held line (.op (.call args.length) line :: R) (callee :: args) m (v :: ws) m₁)
    (hwrong : m₁.CannotCall v args.length cause) :
    (∃ n f m', execute held n m = some (.error f, m') ∧
      (f.cause = cause ∨ ∃ limit, m.config.maxSteps = some limit ∧ f.cause = .stepBudgetExceeded limit)) ∧
    ∀ name w, callee = .var name → m.scopes.lookup? name = some w →
      (∀ id l, w = .object .lambda id → m.store.pool.get Object.lambdas id = .ok l → l.arity ≠ 0) → v = w := by
  have hcode : m.program = compileAll line (callee :: args) ++ .op (.call args.length) line :: R := by
    rw [hp, Expr.compileAt_call_of_ne line hcallee, compileAll]
    simp
  constructor
  · obtain ⟨n, hs, hprogram, hoperands⟩ := hrun.exists_steps hcode
    obtain hws : ws.length = args.length := Nat.succ.inj hrun.length_eq
    rw [← hws] at hprogram hwrong hlen
    obtain ⟨f, m', hf, hcause⟩ := hwrong.next? hprogram hoperands hlen
    exact ⟨n + 1, f, m', by rw [hs.execute_eq, execute_of_failed hf], hs.config ▸ hcause⟩
  · rintro name w rfl hlookup hw
    have hname : m.program = (Expr.var name).compileAt line ++
        (compileAll line args ++ .op (.call args.length) line :: R) := by
      rw [hcode, compileAll, List.append_assoc]
    cases hrun with
    | cons run _ => exact eq_of_evaluates_var hname run hlookup hw

/-- A lambda with a parameter is called without an argument. -/
def misapplied : Machine :=
  { ofConfig {} with program := (Expr.call (.lambda "f" ["a"] (.var "a")) []).compile }

/-- What is left of the program is a call without arguments. -/
def atBareCall (m : Machine) : Bool :=
  match m.program with
  | [.op (.call 0) none] => true
  | _ => false

theorem wrong_call_fails_misapplied : ∃ m₁,
    EvaluatesAll [] none [.op (.call 0) none] [.lambda "f" ["a"] (.var "a")] misapplied [.object .lambda 1] m₁ ∧
    m₁.CannotCall (.object .lambda 1) 0 (.arityMismatch "f" 1 0) ∧
    ∃ n f m', execute [] n misapplied = some (.error f, m') ∧ f.cause = .arityMismatch "f" 1 0 := by
  have hstate : (after? 2 misapplied).map (fun m => (m.atBareCall, m.operands,
      (m.store.pool.get Object.lambdas 1).toOption.map fun l => (l.label, l.arity))) =
        some (true, [Operand.value (.object .lambda 1)], some (("f" : Name), 1)) := by
    decide +kernel
  obtain ⟨m₁, hm₁, heq⟩ := Option.map_eq_some_iff.1 hstate
  obtain ⟨hbare, hrest⟩ := Prod.mk.inj heq
  obtain ⟨hoperands, hlambda⟩ := Prod.mk.inj hrest
  have hprogram : m₁.program = [.op (.call 0) none] := by
    unfold atBareCall at hbare
    split at hbare
    · assumption
    · cases hbare
  obtain ⟨l, hl, heq⟩ := Option.map_eq_some_iff.1 hlambda
  obtain ⟨hlabel, harity⟩ := Prod.mk.inj heq
  have hget : m₁.store.pool.get Object.lambdas 1 = .ok l := by
    cases hget : m₁.store.pool.get Object.lambdas 1 with
    | error fault => rw [hget] at hl; cases hl
    | ok l' => rw [hget] at hl; cases hl; rfl
  have hrun : EvaluatesAll [] none [.op (.call 0) none] [.lambda "f" ["a"] (.var "a")] misapplied
      [.object .lambda 1] m₁ := by
    refine .cons ⟨2, steps_of_after? hm₁, hprogram, hoperands, fun j m₂ hj hs hp => ?_⟩ (.nil _)
    match j, hj with
    | 0, _ =>
      rw [hs.eq_of_zero] at hp
      exact absurd (congrArg List.length hp) (by decide)
    | 1, _ =>
      cases hs with
      | head first rest =>
        cases first
        rw [rest.eq_of_zero] at hp
        exact absurd (congrArg List.length hp) (by decide)
  have hwrong : m₁.CannotCall (.object .lambda 1) 0 (.arityMismatch "f" 1 0) := by
    have := CannotCall.arity (n := 0) rfl hget (by rw [harity]; decide)
    rwa [hlabel, harity] at this
  have hcallee : ([] : List Expr) = [] → ∀ name, Expr.lambda "f" ["a"] (.var "a") ≠ .var name := fun _ _ => nofun
  obtain ⟨⟨n, f, m', hex, hcause⟩, -⟩ := wrong_call_fails (R := []) hcallee (by decide) rfl hrun hwrong
  refine ⟨m₁, hrun, hwrong, n, f, m', hex, hcause.resolve_right ?_⟩
  rintro ⟨limit, hlimit, -⟩
  cases hlimit

end Machine

end Mosaic
