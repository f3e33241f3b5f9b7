import Mosaic.Proofs.Balance.Run
import Mosaic.Proofs.Guise.Run
import Mosaic.Proofs.Machine.Step

/-!
# What limits do

A machine with limits runs as the machine without them until the next item exceeds a limit: an operation
for which no step is left, or a call that is not answered from the memo and finds too many contexts. There
it fails. A limit on the steps makes every run end, and in compiled code the limit on calls bounds the
number of contexts.
-/

namespace Mosaic

open Mosaic.Graph (NodeId)

namespace Machine

/-- The machine with another configuration. -/
def withConfig (m : Machine) (config : Config) : Machine := { m with config }

/-- The machine without limits. -/
def unlimited (m : Machine) : Machine :=
  m.withConfig { m.config with maxCallDepth := none, maxSteps := none }

/-- The next item exceeds a limit of the configuration, with this cause. An operation is counted before
it is performed. -/
inductive Exceeds (c : Config) (m : Machine) : Cause → Prop
  | steps {limit : Nat} (op : m.AtOp) (beyond : c.overdrawn? m.steps = some limit) :
    Exceeds c m (.stepBudgetExceeded limit)
  | calls {limit : Nat} (call : m.AtCall) (within : c.overdrawn? m.steps = none)
    (beyond : c.overflow? m.scopes.depth = some limit) : Exceeds c m (.stackOverflow limit)

variable {held : List NodeId} {m m' : Machine} {c : Config} {cause : Cause} {n : Nat} {program : Program}

theorem under_withConfig (m : Machine) (c : Config) : m.under { config := c } = m.withConfig c := by
  rw [under, withConfig, Graph.Heap.relined_keep, relined_keep, Scopes.above_nil, List.append_nil]

theorem AtCall.atOp (h : m.AtCall) : m.AtOp :=
  let ⟨op, line, rest, hp, _⟩ := h
  ⟨op, line, rest, hp⟩

/-- Whether a call is answered from the memo does not depend on the limits. -/
theorem Enters.withConfig {op : Op} {args : List Operand} (hmemo : c.memoize = m.config.memoize)
    (h : m.Enters op args) : (m.withConfig c).Enters op args := by
  unfold Enters Misses at h ⊢
  rwa [show (m.withConfig c).config.memoize = m.config.memoize from hmemo]

theorem fits_of_not_exceeds (hsteps : m.config.maxSteps = none) (hcalls : m.config.maxCallDepth = none)
    (hmemo : c.memoize = m.config.memoize) (h : ∀ cause, ¬ m.Exceeds c cause) :
    Guise.Fits { config := c } m where
  covers := .inl rfl
  program _ := rfl
  memoize := hmemo
  steps hop := by
    have hnone : m.config.overdrawn? m.steps = none := by simp [Config.overdrawn?, hsteps]
    rw [hnone]
    cases hc : c.overdrawn? m.steps with
    | none => rfl
    | some limit => exact (h _ (.steps hop hc)).elim
  calls hcall := by
    have hnone : m.config.overflow? m.scopes.depth = none := by simp [Config.overflow?, hcalls]
    have hdepth : (m.under { config := c }).scopes.depth = m.scopes.depth := by
      rw [under_withConfig]
      rfl
    show c.overflow? _ = _
    rw [hnone, hdepth]
    cases hs : c.overdrawn? m.steps with
    | some limit => exact (h _ (.steps hcall.atOp hs)).elim
    | none =>
      cases hc : c.overflow? m.scopes.depth with
      | none => rfl
      | some limit => exact (h _ (.calls hcall hs hc)).elim

theorem next?_of_exceeds (held : List NodeId) (hmemo : c.memoize = m.config.memoize) (h : m.Exceeds c cause) :
    ∃ f m', (m.withConfig c).next? held = some (.error f m') ∧ f.cause = cause ∧ m'.scopes = m.scopes := by
  cases h with
  | steps op beyond =>
    obtain ⟨op, line, rest, hp⟩ := op
    exact ⟨_, _, next?_of_overdrawn (m := m.withConfig c) hp beyond, rfl, rfl⟩
  | @calls limit call within beyond =>
    obtain ⟨op, line, rest, hp, hlen, henters⟩ := call
    have henters' : ((m.withConfig c).taking op rest).Enters op (m.arguments op) :=
      Enters.withConfig (m := m.taking op rest) hmemo henters
    obtain ⟨callee, l, args, key, memo, -, -, -, hperform⟩ := MachineM.perform_of_enters henters'
    have hfail := (hperform (Pins.of fun _ => held)).trans
      (MachineM.enter_eq_of_overflow beyond)
    exact ⟨_, _, next?_of_failed (m := m.withConfig c) hp within hlen hfail, rfl, rfl⟩

/-! ## Runs -/

section

variable (hsteps : m.config.maxSteps = none) (hcalls : m.config.maxCallDepth = none)
  (hmemo : c.memoize = m.config.memoize)

include hsteps hcalls hmemo

theorem fits_of_steps (hs : Steps held n m m') (h : ∀ cause, ¬ m'.Exceeds c cause) :
    Guise.Fits { config := c } m' := by
  have hconfig := hs.config
  exact fits_of_not_exceeds (hconfig ▸ hsteps) (hconfig ▸ hcalls) (hconfig ▸ hmemo) h

/-- Up to the first item that exceeds a limit, the steps are the same. -/
theorem steps_withConfig (hs : Steps held n m m')
    (h : ∀ k m₁, k < n → Steps held k m m₁ → ∀ cause, ¬ m₁.Exceeds c cause) :
    Steps held n (m.withConfig c) (m'.withConfig c) := by
  rw [← under_withConfig, ← under_withConfig]
  refine Steps.under (?_ : Steps (held ++ Guise.nodes { config := c }) n m m') fun k m₁ hk hs₁ => ?_
  · rwa [Guise.nodes_eq_nil rfl rfl, List.append_nil]
  · rw [Guise.nodes_eq_nil rfl rfl, List.append_nil] at hs₁
    exact fits_of_steps hsteps hcalls hmemo hs₁ (h k m₁ hk hs₁)

theorem execute_withConfig (h : ∀ n m₁, Steps held n m m₁ → ∀ cause, ¬ m₁.Exceeds c cause) (fuel : Nat) :
    execute held fuel (m.withConfig c) =
      (execute held fuel m).map fun (r, m') => (r, m'.withConfig c) := by
  have hrel := @execute_under { config := c } held m ?_ fuel
  · rw [Guise.nodes_eq_nil rfl rfl, List.append_nil, under_withConfig] at hrel
    generalize execute held fuel m = x at hrel ⊢
    generalize execute held fuel (m.withConfig c) = y at hrel ⊢
    cases hrel with
    | none => rfl
    | @some r r' hr =>
      obtain ⟨ended | ended, m₁⟩ := r <;> obtain ⟨ended' | ended', m₂⟩ := r'
      · obtain ⟨rfl, htells⟩ := hr
        rw [htells.eq rfl rfl, under_withConfig]
        rfl
      · exact hr.elim
      · exact hr.elim
      · obtain rfl : m₂ = m₁.under { config := c } := hr
        rw [under_withConfig]
        rfl
  · intro n m₁ hs
    rw [Guise.nodes_eq_nil rfl rfl, List.append_nil] at hs
    exact fits_of_steps hsteps hcalls hmemo hs (h n m₁ hs)

end

/-- Every run with a limit on the steps ends: an operation uses up a step, and any other item leaves a
shorter program. -/
theorem exists_execute {limit : Nat} (held : List NodeId) (m : Machine) (h : m.config.maxSteps = some limit) :
    ∃ fuel r, execute held fuel m = some r := by
  cases hn : m.next? held with
  | none => exact ⟨1, _, execute_of_ended (program_of_next?_none hn)⟩
  | some r =>
    cases r with
    | error f m' => exact ⟨1, _, execute_of_failed hn⟩
    | ok u m' =>
      have hstep := stepped_of_next? hn
      have hm' : m'.config.maxSteps = some limit := hstep.config ▸ h
      have hless : limit - m'.steps < limit - m.steps ∨
          limit - m'.steps = limit - m.steps ∧ m'.program.length < m.program.length := by
        rcases hstep.counted with ⟨-, hsteps, hwithin⟩ | ⟨-, hsteps, item, hp⟩
        · have hlimit : ¬ limit < m.steps + 1 := by simpa [Config.overdrawn?, h] using hwithin
          omega
        · simp [hsteps, hp]
      obtain ⟨fuel, r, hr⟩ := exists_execute held m' hm'
      exact ⟨fuel + 1, r, by rw [execute_of_next hn, hr]⟩
termination_by (limit - m.steps, m.program.length)
decreasing_by exact Prod.lex_def.2 hless

/-- The count of the steps stays within the limit. -/
theorem steps_le {limit : Nat} (hc : c.maxSteps = some limit) (hs : Steps held n m m')
    (h : ∀ k m₁, k < n → Steps held k m m₁ → ∀ cause, ¬ m₁.Exceeds c cause) (hm : m.steps ≤ limit) :
    m'.steps ≤ limit := by
  induction hs with
  | refl => exact hm
  | head first _ ih =>
    refine ih (fun k m₁ hk hs => h (k + 1) m₁ (Nat.succ_lt_succ hk) (.head first hs)) ?_
    rcases (stepped_of_next? first).counted with ⟨hop, hsteps, -⟩ | ⟨-, hsteps, -⟩
    · have hwithin := h 0 _ (Nat.succ_pos _) (.refl _) (.stepBudgetExceeded limit)
      by_contra hlt
      exact hwithin (.steps hop (by simp [Config.overdrawn?, hc]; omega))
    · omega

/-- In compiled code, contexts are entered by calls only. -/
theorem depth_of_inside {G : Prop} {A : NodeId → Prop} {R : Program} {S : List Operand} {E : List NodeId}
    {τ : Shape} {Q : Program} {O : List Operand} {b limit : Nat} (h : Inside G A R S E τ Q O b m)
    (hQ : Q ≠ []) (hlimit : m.config.maxCallDepth = some limit) (hn : m.next? held = some (.ok () m')) :
    m'.scopes.depth ≤ max m.scopes.depth (limit + 1) := by
  have hdepth := (stepped_of_next? hn).depth fun op line rest hp => ?_
  · rcases hdepth with hle | ⟨heq, hover⟩
    · omega
    · have hwithin : ¬ limit < m.scopes.depth := by simpa [Config.overflow?, hlimit] using hover
      omega
  · rintro rfl
    obtain ⟨item, Q, rfl⟩ := List.exists_cons_of_ne_nil hQ
    rw [h.program] at hp
    cases hp
    cases h.flow with
    | op _ sound _ _ _ _ => exact sound

theorem run_of_not_exceeds (h : ∀ n m₁, Steps held n (m.unlimited.started program) m₁ →
      ∀ cause, ¬ m₁.Exceeds m.config cause) (fuel : Nat) :
    m.run held fuel program =
      (m.unlimited.run held fuel program).map fun (r, m') => (r, m'.withConfig m.config) := by
  have hexecute := execute_withConfig (m := m.unlimited.started program) (c := m.config) rfl rfl rfl h fuel
  show (execute held fuel ((m.unlimited.started program).withConfig m.config)).map _ =
    ((execute held fuel (m.unlimited.started program)).map _).map _
  rw [hexecute]
  cases execute held fuel (m.unlimited.started program) with
  | none => rfl
  | some r =>
    obtain ⟨ended, m'⟩ := r
    have hresult : (m'.withConfig m.config).result m.scopes.checkpoint =
        m'.result m.unlimited.scopes.checkpoint := rfl
    simp only [Option.map_some, Option.some.injEq, hresult]
    cases ended.bind fun _ => m'.result m.unlimited.scopes.checkpoint <;> rfl

/-- A run fails at the first item that exceeds a limit. -/
theorem run_of_exceeds {m₁ : Machine} (hs : Steps held n (m.unlimited.started program) m₁)
    (h : ∀ k m₂, k < n → Steps held k (m.unlimited.started program) m₂ →
      ∀ cause, ¬ m₂.Exceeds m.config cause) (hexceeds : m₁.Exceeds m.config cause) :
    Steps held n (m.started program) (m₁.withConfig m.config) ∧
    ∃ f m', (m₁.withConfig m.config).next? held = some (.error f m') ∧ f.cause = cause ∧
      ∀ fuel, n < fuel → m.run held fuel program = some (.error f, m'.reset m.scopes.checkpoint) := by
  have hsteps : Steps held n (m.started program) (m₁.withConfig m.config) :=
    steps_withConfig (m := m.unlimited.started program) rfl rfl rfl hs h
  have hmemo : m.config.memoize = m₁.config.memoize := by
    rw [hs.config]
    rfl
  obtain ⟨f, m', hf, hcause, -⟩ := next?_of_exceeds held hmemo hexceeds
  exact ⟨hsteps, f, m', hf, hcause, fun fuel hfuel => run_of_failed hsteps hf hfuel⟩

theorem depth_le {e : Expr} {limit : Nat} (hlimit : m.config.maxCallDepth = some limit)
    (hm : m.Grounded) (hc : m.Compiled) (he : e.Countable) (hs : Steps held n (m.started e.compile) m') :
    m'.scopes.depth ≤ max m.scopes.depth (limit + 1) := by
  let P (m₁ : Machine) : Prop := (∃ k, Steps held k (m.started e.compile) m₁) ∧
    m₁.scopes.depth ≤ max m.scopes.depth (limit + 1)
  have hstep : ∀ m₁ m₂ : Machine, P m₁ → m₁.next? held = some (.ok () m₂) → P m₂ := by
    rintro m₁ m₂ ⟨⟨k, hk⟩, hle⟩ hn
    obtain ⟨Q, O, b, h⟩ := inside_of_steps hm hc he (False.elim : False → m.scopes.Open) hk
    have hQ : Q ≠ [] := by
      obtain ⟨item, rest, hp⟩ := exists_cons_of_next? hn
      rintro rfl
      simp [h.program] at hp
    have hconfig : m₁.config.maxCallDepth = some limit :=
      (congrArg Config.maxCallDepth hk.config).trans hlimit
    refine ⟨⟨k + 1, hk.trans (.one hn)⟩, ?_⟩
    exact Nat.le_trans (depth_of_inside h hQ hconfig hn) (Nat.max_le.2 ⟨hle, Nat.le_max_right _ _⟩)
  exact (hs.invariant hstep ⟨⟨0, .refl _⟩, Nat.le_max_left _ _⟩).2

/-- Limits only cut runs short. A run that exceeds no limit has the same outcome and the same final state
as without limits. Any other run fails at the first item that exceeds one, with its cause: if it is the
limit on the steps, exactly so many operations were performed before. The steps count the operations. With
a limit on the steps every run ends, and in the run of an expression on a machine whose lambdas have
compiled bodies there are never more contexts than at the start or one more than the limit on calls. -/
theorem limits_cut_short (held : List NodeId) (m : Machine) (program : Program) :
    ((∀ n m₁, Steps held n (m.unlimited.started program) m₁ → ∀ cause, ¬ m₁.Exceeds m.config cause) →
      ∀ fuel, m.run held fuel program =
        (m.unlimited.run held fuel program).map fun (r, m') => (r, m'.withConfig m.config)) ∧
    (∀ n m₁ cause, Steps held n (m.unlimited.started program) m₁ →
      (∀ k m₂, k < n → Steps held k (m.unlimited.started program) m₂ →
        ∀ cause, ¬ m₂.Exceeds m.config cause) →
      m₁.Exceeds m.config cause →
      Steps held n (m.started program) (m₁.withConfig m.config) ∧
      (∀ limit, cause = .stepBudgetExceeded limit → m₁.steps = limit) ∧
      ∃ f m', (m₁.withConfig m.config).next? held = some (.error f m') ∧ f.cause = cause ∧
        ∀ fuel, n < fuel → m.run held fuel program = some (.error f, m'.reset m.scopes.checkpoint)) ∧
    (∀ m₁ m₂ : Machine, m₁.next? held = some (.ok () m₂) →
      (m₁.AtOp → m₂.steps = m₁.steps + 1) ∧ (¬ m₁.AtOp → m₂.steps = m₁.steps)) ∧
    (∀ limit, m.config.maxSteps = some limit → ∃ fuel r, m.run held fuel program = some r) ∧
    ∀ limit (e : Expr), m.config.maxCallDepth = some limit → m.Grounded → m.Compiled → e.Countable →
      ∀ n m', Steps held n (m.started e.compile) m' →
        m'.scopes.depth ≤ max m.scopes.depth (limit + 1) := by
  refine ⟨run_of_not_exceeds, fun n m₁ cause hs h hexceeds => ?_, fun m₁ m₂ hn => ?_,
    fun limit hlimit => ?_, fun limit e hlimit hm hc he n m' hs => depth_le hlimit hm hc he hs⟩
  · obtain ⟨hsteps, hfails⟩ := run_of_exceeds hs h hexceeds
    refine ⟨hsteps, fun limit hcause => ?_, hfails⟩
    subst hcause
    cases hexceeds with
    | steps op beyond =>
      obtain ⟨hmax, hlt⟩ := Option.filter_eq_some_iff.1 beyond
      have hlt := of_decide_eq_true hlt
      have hle := steps_le hmax hs h (Nat.zero_le _)
      omega
  · rcases (stepped_of_next? hn).counted with ⟨hop, hsteps, -⟩ | ⟨hop, hsteps, -⟩
    · exact ⟨fun _ => hsteps, fun hnot => (hnot hop).elim⟩
    · exact ⟨fun h => (hop h).elim, fun _ => hsteps⟩
  · obtain ⟨fuel, r, hr⟩ := exists_execute held (m.started program) hlimit
    refine ⟨fuel, Option.isSome_iff_exists.1 ?_⟩
    show ((execute held fuel (m.started program)).map _).isSome = true
    rw [hr]
    rfl

/-! ## Runs that are cut short -/

/-- The operation that is next. -/
def op? (m : Machine) : Option Op :=
  match m.program with
  | .op op _ :: _ => some op
  | _ => none

theorem atOp_iff : m.AtOp ↔ m.op?.isSome = true := by
  constructor
  · rintro ⟨op, line, rest, hp⟩
    simp [op?, hp]
  · intro h
    unfold op? at h
    split at h
    · exact ⟨_, _, _, ‹_›⟩
    · cases h

/-- There is a step left for the next operation, and it is no call that could find too many contexts. -/
def within (c : Config) (m : Machine) : Bool :=
  m.op?.all fun op => (c.overdrawn? m.steps).isNone && ((c.overflow? m.scopes.depth).isNone || !mayCall op)
where
  mayCall : Op → Bool
    | .call _ | .getVariable => true
    | _ => false

theorem Enters.mayCall {op : Op} {args : List Operand} (h : m.Enters op args) : within.mayCall op = true := by
  unfold Enters at h
  split at h
  · rfl
  · rfl
  · exact h.elim

theorem not_exceeds_of_within (h : within c m = true) (cause : Cause) : ¬ m.Exceeds c cause := by
  have hnext : ∀ {op line rest}, m.program = .op op line :: rest → c.overdrawn? m.steps = none ∧
      (c.overflow? m.scopes.depth = none ∨ within.mayCall op = false) := by
    intro op line rest hp
    simpa [within, op?, hp] using h
  rintro (⟨⟨op, line, rest, hp⟩, hover⟩ | ⟨⟨op, line, rest, hp, -, henters⟩, -, hover⟩)
  · simp [(hnext hp).1] at hover
  · rcases (hnext hp).2 with hnone | hno
    · simp [hnone] at hover
    · simp [henters.mayCall] at hno

/-- The next so many items are within the limits, or the machine stops before. -/
def spared (c : Config) : Nat → Machine → Bool
  | 0, _ => true
  | n + 1, m => within c m && (m.next? []).all fun r =>
    match r with
    | .ok _ m' => spared c n m'
    | .error _ _ => true

theorem not_exceeds_of_spared {k : Nat} (h : spared c n m = true) (hs : Steps [] k m m') (hk : k < n)
    (cause : Cause) : ¬ m'.Exceeds c cause := by
  induction hs generalizing n with
  | refl =>
    cases n with
    | zero => exact absurd hk (Nat.not_lt_zero _)
    | succ n => exact not_exceeds_of_within (Bool.and_eq_true_iff.1 h).1 cause
  | head first _ ih =>
    cases n with
    | zero => exact absurd hk (Nat.not_lt_zero _)
    | succ n =>
      have hrest := (Bool.and_eq_true_iff.1 h).2
      rw [first] at hrest
      exact ih hrest (Nat.lt_of_succ_lt_succ hk)

theorem lt_of_after?_eq_none {k : Nat} (h : after? n m = none) (hs : Steps [] k m m') : k < n := by
  induction hs generalizing n with
  | refl =>
    cases n with
    | zero => cases h
    | succ n => exact Nat.succ_pos n
  | head first _ ih =>
    cases n with
    | zero => cases h
    | succ n =>
      rw [after?, first] at h
      exact Nat.succ_lt_succ (ih h)

/-- The lambda that the next item calls without arguments. -/
def callee? (m : Machine) : Option Lambda :=
  match m.program, m.operands with
  | .op (.call 0) _ :: _, .value (.datum (.object .lambda id)) :: _ =>
    (m.store.pool.get Object.lambdas id).toOption
  | _, _ => none

theorem atCall_of_callee? (hmemo : m.config.memoize = false) (h : m.callee?.map Lambda.arity = some 0) :
    m.AtCall := by
  obtain ⟨l, hl, harity⟩ := Option.map_eq_some_iff.1 h
  unfold callee? at hl
  split at hl
  case h_1 line rest id S hp ho =>
    have hget : m.store.pool.get Object.lambdas id = .ok l := by
      cases hg : m.store.pool.get Object.lambdas id with
      | ok l' => simpa [hg, Except.toOption] using hl
      | error f => simp [hg, Except.toOption] at hl
    refine ⟨.call 0, line, rest, hp, by simp [ho, Op.arity], ?_⟩
    rw [ho]
    exact ⟨[], rfl, ⟨l, hget, harity⟩, fun hm => by simp [hmemo] at hm⟩
  case h_2 => cases hl

/-- A machine that performs no more than four operations, and makes calls from the global context only. -/
def halted : Machine := ofConfig { memoize := false, maxCallDepth := some 1, maxSteps := some 4 }

/-- A sum with so many additions. -/
def sum : Nat → Expr
  | 0 => .number (.ofNat 1)
  | n + 1 => .binary .add (sum n) (.number (.ofNat 1))

/-- A call of a lambda that is made for it, with so many additions in its body. -/
def summed (n : Nat) : Expr := .call (.lambda "f" [] (sum n)) []

/-- A call within a call. -/
def calling : Expr := .call (.lambda "g" [] (summed 0)) []

/-- On this machine the call of a lambda that adds two numbers runs as without limits. With another addition
it fails after four operations, and the call of a lambda that calls another fails at the inner one. -/
theorem limits_cut_short_halted :
    (∀ fuel, halted.run [] fuel (summed 1).compile =
      (halted.unlimited.run [] fuel (summed 1).compile).map fun (r, m') => (r, m'.withConfig halted.config)) ∧
    (∃ f m', f.cause = .stepBudgetExceeded 4 ∧ halted.run [] 20 (summed 2).compile = some (.error f, m')) ∧
    (∃ f m', f.cause = .stackOverflow 1 ∧ halted.run [] 20 calling.compile = some (.error f, m')) ∧
    (∃ fuel r, halted.run [] fuel calling.compile = some r) ∧
    ∀ n m', Steps [] n (halted.started calling.compile) m' → m'.scopes.depth ≤ 2 := by
  refine ⟨(limits_cut_short [] halted (summed 1).compile).1 fun n m₁ hs => ?_, ?_, ?_,
    (limits_cut_short [] halted calling.compile).2.2.2.1 4 rfl, fun n m' hs => ?_⟩
  · have hspared : spared halted.config 8 (halted.unlimited.started (summed 1).compile) = true := by
      decide +kernel
    have hends : (after? 8 (halted.unlimited.started (summed 1).compile)).isNone = true := by decide +kernel
    exact not_exceeds_of_spared hspared hs (lt_of_after?_eq_none (Option.isNone_iff_eq_none.1 hends) hs)
  · have hspared : spared halted.config 8 (halted.unlimited.started (summed 2).compile) = true := by
      decide +kernel
    have hstate : (after? 8 (halted.unlimited.started (summed 2).compile)).map
        (fun m => (m.op?.isSome, m.steps)) = some (true, 4) := by
      decide +kernel
    obtain ⟨m₁, hm₁, hat⟩ := Option.map_eq_some_iff.1 hstate
    obtain ⟨hop, hsteps⟩ : m₁.op?.isSome = true ∧ m₁.steps = 4 := by simpa using hat
    obtain ⟨-, -, f, m', -, hf, hr⟩ := (limits_cut_short [] halted _).2.1 8 _ _ (steps_of_after? hm₁)
      (fun k m₂ hk hs => not_exceeds_of_spared hspared hs hk) (.steps (atOp_iff.2 hop) (by rw [hsteps]; rfl))
    exact ⟨f, _, hf, hr 20 (by decide)⟩
  · have hspared : spared halted.config 5 (halted.unlimited.started calling.compile) = true := by
      decide +kernel
    have hstate : (after? 5 (halted.unlimited.started calling.compile)).map
        (fun m => (m.callee?.map Lambda.arity, m.steps, m.scopes.depth)) = some (some 0, 3, 2) := by
      decide +kernel
    obtain ⟨m₁, hm₁, hat⟩ := Option.map_eq_some_iff.1 hstate
    obtain ⟨hcallee, hsteps, hdepth⟩ : m₁.callee?.map Lambda.arity = some 0 ∧ m₁.steps = 3 ∧ m₁.scopes.depth = 2 := by
      simpa using hat
    have hs := steps_of_after? hm₁
    obtain ⟨-, -, f, m', -, hf, hr⟩ := (limits_cut_short [] halted _).2.1 5 _ _ hs
      (fun k m₂ hk hs => not_exceeds_of_spared hspared hs hk)
      (.calls (atCall_of_callee? (congrArg Config.memoize hs.config) hcallee) (by rw [hsteps]; rfl)
        (by rw [hdepth]; rfl))
    exact ⟨f, _, hf, hr 20 (by decide)⟩
  · exact (limits_cut_short [] halted calling.compile).2.2.2.2 1 calling rfl
      (grounded_ofConfig _) (compiled_ofConfig _) (by simp [calling, summed, sum, Expr.Countable, CountableAll]) n m' hs

/-! ## Contexts that code leaves -/

/-- A machine that makes calls from the global context only. Its global `g` is a lambda whose body leaves
the context of its own call and the global one, and then calls a lambda that calls another, which fails. -/
def leaving : Machine :=
  { config := { maxCallDepth := some 1 }
    store := { pool := lambdas.foldl (fun p l => (p.allocate (.lambda l)).2) {} }
    scopes := ⟨[{ frames := [Frame.define {} "g" (.object .lambda 3)] }]⟩ }
where
  lambdas : List Lambda :=
    [{ label := "k", body := (Expr.binary .div (.number (.ofNat 1)) (.number (.ofNat 0))).compile },
      { label := "h", body := [.value (.object .lambda 1), .op (.call 0) none] },
      { label := "g", body := [.op .popContext none, .op .popContext none, .value (.object .lambda 2),
        .op (.call 0) none] }]

/-- If a lambda has a body that is not compiled, even the run of an expression can have more calls at once
than the limit. -/
theorem leaving_exceeds : leaving.config.maxCallDepth = some 1 ∧
    ∃ n m', Steps [] n (leaving.started (Expr.call (.var "g") []).compile) m' ∧
      m'.scopes.backtrace = ["h", "k"] := by
  refine ⟨rfl, 8, ?_⟩
  have hstate : (after? 8 (leaving.started (Expr.call (.var "g") []).compile)).map
      (fun m => m.scopes.backtrace) = some (["h", "k"] : List Name) := by
    decide +kernel
  obtain ⟨m', hm', hb⟩ := Option.map_eq_some_iff.1 hstate
  exact ⟨m', steps_of_after? hm', hb⟩

end Machine

end Mosaic
