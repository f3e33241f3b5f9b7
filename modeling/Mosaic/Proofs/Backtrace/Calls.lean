import Mosaic.Proofs.Backtrace.Labels

/-!
# The backtrace of a failed run

The calls that are active at a point of a run are those whose bodies were entered before and have not come to
their end (`Machine.ActiveCalls`). The labels of the contexts are those of the calls, above the labels that
were there at the start (`Machine.exists_activeCalls`), so the failure of a run tells its active calls
(`Machine.backtrace_of_failed_run`). It does not if the run fails because no step is left: then the backtrace is
empty, however many calls are active (`Machine.backtrace_of_failed_run_budget`).
-/

namespace Mosaic

open Mosaic.Graph (NodeId)

namespace Machine

variable {held : List NodeId} {start m m' m₁ m₂ : Machine} {e : Expr} {n : Nat} {calls calls' : List Name}

/-- After so many steps the machine is at `m`, with these calls entered and not yet left, the outermost
first. -/
inductive ActiveCalls (held : List NodeId) (start : Machine) : Nat → Machine → List Name → Prop
  | start : ActiveCalls held start 0 start []
  | enter {n : Nat} {m m' : Machine} {calls : List Name} {l : Lambda}
    (before : ActiveCalls held start n m calls) (step : m.next? held = some (.ok () m'))
    (enters : m.EntersBody m' l) : ActiveCalls held start (n + 1) m' (calls ++ [l.label])
  | leave {n : Nat} {m m' : Machine} {calls : List Name}
    (before : ActiveCalls held start n m calls) (step : m.next? held = some (.ok () m'))
    (leaves : m.LeavesBody) : ActiveCalls held start (n + 1) m' calls.dropLast
  | stay {n : Nat} {m m' : Machine} {calls : List Name}
    (before : ActiveCalls held start n m calls) (step : m.next? held = some (.ok () m'))
    (enters : ∀ l, ¬ m.EntersBody m' l) (leaves : ¬ m.LeavesBody) : ActiveCalls held start (n + 1) m' calls

/-! ## The calls are determined by the run -/

theorem Calls.unique {op : Op} {args : List Operand} {id id' : NodeId} (h : m.Calls op args id)
    (h' : m.Calls op args id') : id = id' := by
  unfold Calls at h h'
  split at h
  · cases h.symm.trans h'
    rfl
  · cases h.symm.trans h'
    rfl
  · exact h.elim

theorem EntersBody.unique {l l' : Lambda} (h : m.EntersBody m' l) (h' : m.EntersBody m' l') : l = l' := by
  obtain ⟨op, line, R, callee, -, hp, hcalls, hget, -⟩ := h
  obtain ⟨op', line', R', callee', -, hp', hcalls', hget', -⟩ := h'
  cases hp.symm.trans hp'
  obtain rfl := hcalls.unique hcalls'
  exact Except.ok.inj (hget.symm.trans hget')

theorem EntersBody.not_leavesBody {l : Lambda} (h : m.EntersBody m' l) : ¬ m.LeavesBody := by
  rintro ⟨line', R', hp'⟩
  obtain ⟨op, line, R, callee, -, hp, hcalls, -⟩ := h
  cases hp.symm.trans hp'
  exact hcalls

namespace ActiveCalls

theorem steps (h : ActiveCalls held start n m calls) : Steps held n start m := by
  induction h with
  | start => exact .refl _
  | enter _ step _ ih | leave _ step _ ih | stay _ step _ _ ih => exact ih.trans (.one step)

theorem unique (h : ActiveCalls held start n m calls) (h' : ActiveCalls held start n m' calls') :
    m = m' ∧ calls = calls' := by
  induction h generalizing m' calls' with
  | start =>
    cases h'
    exact ⟨rfl, rfl⟩
  | enter before step enters ih =>
    cases h' with
    | enter before' step' enters' =>
      obtain ⟨rfl, rfl⟩ := ih before'
      cases step.symm.trans step'
      exact ⟨rfl, by rw [enters.unique enters']⟩
    | leave before' step' leaves' =>
      obtain ⟨rfl, rfl⟩ := ih before'
      exact (enters.not_leavesBody leaves').elim
    | stay before' step' enters' =>
      obtain ⟨rfl, rfl⟩ := ih before'
      cases step.symm.trans step'
      exact (enters' _ enters).elim
  | leave before step leaves ih =>
    cases h' with
    | enter before' step' enters' =>
      obtain ⟨rfl, rfl⟩ := ih before'
      exact (enters'.not_leavesBody leaves).elim
    | leave before' step' =>
      obtain ⟨rfl, rfl⟩ := ih before'
      cases step.symm.trans step'
      exact ⟨rfl, rfl⟩
    | stay before' step' _ leaves' =>
      obtain ⟨rfl, rfl⟩ := ih before'
      exact (leaves' leaves).elim
  | stay before step enters leaves ih =>
    cases h' with
    | enter before' step' enters' =>
      obtain ⟨rfl, rfl⟩ := ih before'
      cases step.symm.trans step'
      exact (enters _ enters').elim
    | leave before' step' leaves' =>
      obtain ⟨rfl, rfl⟩ := ih before'
      exact (leaves leaves').elim
    | stay before' step' =>
      obtain ⟨rfl, rfl⟩ := ih before'
      cases step.symm.trans step'
      exact ⟨rfl, rfl⟩

end ActiveCalls

/-! ## Runs of compiled code -/

/-- Compiled code enters contexts by calls only. -/
theorem not_pushContext {G : Prop} {A : NodeId → Prop} {S O : List Operand} {E : List NodeId} {τ : Shape}
    {Q : Program} {b : Nat} (h : Inside G A [] S E τ Q O b m) (line : Option Nat) (R : Program) :
    m.program ≠ .op .pushContext line :: R := by
  intro hp
  have hQ := h.program
  rw [List.append_nil, hp] at hQ
  subst hQ
  cases h.flow with
  | op _ sound => exact sound

section

variable (hm : m.Grounded) (hc : m.Compiled) (he : e.Countable)

include hm hc he

theorem depth_lt_of_leavesBody (hs : Steps held n (m.started e.compile) m₁) (h : m₁.LeavesBody) :
    m.scopes.depth < m₁.scopes.depth := by
  obtain ⟨line, R, hp⟩ := h
  rcases surface_or_inCall hm hc he (.refl _) (surface_started m e) hs with
    ⟨d, K, hsurface⟩ | ⟨d, G, A, S, E, Q, O, b, m₀, memoize, hbody, rfl, hextends⟩
  · -- At the surface there is no call to be ended.
    rcases hsurface.kinds hp with hcalls | hop | hop | ⟨hshifts, -⟩
    · exact hcalls.elim
    · cases hop
    · cases hop
    · exact (hshifts trivial).elim
  · obtain ⟨k, ks, hdepths⟩ := hbody.inside.flow.opened ⟨0, [], rfl⟩
    have hown : m₀.scopes.depth ≠ 0 := by
      intro hzero
      have hnil : m₀.scopes.contexts = [] := List.eq_nil_of_length_eq_zero hzero
      simp [Scopes.depths, hnil] at hdepths
    have hlength : G.contexts.length = m.scopes.depth := hextends.length
    rw [depth_under]
    omega

/-- During a run the labels are those of the active calls, the innermost first, above those of the start. -/
theorem exists_activeCalls (hs : Steps held n (m.started e.compile) m₁) :
    ∃ calls, ActiveCalls held (m.started e.compile) n m₁ calls ∧
      m₁.scopes.labels = calls.reverse.map some ++ m.scopes.labels := by
  induction n generalizing m₁ with
  | zero =>
    rw [hs.eq_of_zero]
    exact ⟨[], .start, rfl⟩
  | succ n ih =>
    obtain ⟨m', hs', hn⟩ := hs.exists_of_succ
    obtain ⟨calls, hactive, hlabels⟩ := ih hs'
    obtain ⟨Q, O, b, hin⟩ := inside_of_steps hm hc he (False.elim : False → m.scopes.Open) hs'
    rcases labels_of_step (not_pushContext hin) hn with ⟨l, henters, h⟩ | ⟨hleaves, label, h⟩ |
      ⟨henters, hleaves, h⟩
    · exact ⟨calls ++ [l.label], hactive.enter hn henters, by simp [h, hlabels]⟩
    · -- The label that goes is that of the last call, as there are more contexts than at the start.
      have hdepth : m.scopes.labels.length < m'.scopes.labels.length := by
        simpa [Scopes.labels, Scopes.depth] using depth_lt_of_leavesBody hm hc he hs' hleaves
      have hcalls : calls ≠ [] := by
        rintro rfl
        simp [hlabels] at hdepth
      refine ⟨calls.dropLast, hactive.leave hn hleaves, ?_⟩
      obtain ⟨calls, call, rfl⟩ := (List.eq_nil_or_concat' calls).resolve_left hcalls
      rw [hlabels] at h
      simp at h
      simp [h.2]
    · exact ⟨calls, hactive.stay hn henters hleaves, h.trans hlabels⟩

theorem textual_of_steps (hs : Steps held n (m.started e.compile) m₁) : Textual m₁.program := by
  induction n generalizing m₁ with
  | zero =>
    rw [hs.eq_of_zero]
    exact e.textual_compileAt none
  | succ n ih =>
    obtain ⟨m', hs', hn⟩ := hs.exists_of_succ
    obtain ⟨Q, O, b, hin⟩ := inside_of_steps hm hc he (False.elim : False → m.scopes.Open) hs'
    exact textual_of_step hin (ih hs') hn

end

/-- The failure of a run tells its active calls. However the run of an expression fails on a machine whose
lambdas have compiled bodies, it fails at an item, and the backtrace of its failure is the list of the labels
that were there at the start and of the lambdas whose bodies were entered and not yet left, the outermost first.
Only if the item is an operation that no step is left for, the backtrace is empty. -/
theorem backtrace_of_failed_run (held : List NodeId) {m m' : Machine} {e : Expr} {fuel : Nat} {failure : Failure}
    (hm : m.Grounded) (hc : m.Compiled) (he : e.Countable)
    (hr : m.run held fuel e.compile = some (.error failure, m')) :
    ∃ n m₁ m₂ calls, m₁.next? held = some (.error failure m₂) ∧
      (∀ calls', ActiveCalls held (m.started e.compile) n m₁ calls' ↔ calls' = calls) ∧
      ((∃ limit, m₁.Exceeds m₁.config (.stepBudgetExceeded limit)) ∧ failure.backtrace = [] ∨
        (¬ ∃ limit, m₁.Exceeds m₁.config (.stepBudgetExceeded limit)) ∧
          failure.backtrace = m.scopes.backtrace ++ calls) := by
  obtain ⟨⟨ended, m₂⟩, hex, hr⟩ := Option.map_eq_some_iff.1 hr
  obtain ⟨n, m₁, -, hs, hend⟩ := execute_inv hex
  obtain ⟨Q, O, b, hin⟩ := inside_of_steps hm hc he (False.elim : False → m.scopes.Open) hs
  rcases hend with ⟨rfl, rfl, hp⟩ | ⟨f, rfl, hn⟩
  · -- A run that comes to its end has a result.
    obtain rfl : Q = [] := (List.append_eq_nil_iff.1 (hin.program.symm.trans hp)).1
    obtain ⟨-, ⟨v, hoperands⟩, hdepths, hbuilders⟩ := hin.ended
    have hresult := result_of_ended m hdepths rfl hoperands hbuilders
    simp [Except.bind, hresult] at hr
  · obtain ⟨rfl, -⟩ : f = failure ∧ _ := by simpa [Except.bind] using hr
    obtain ⟨calls, hactive, hlabels⟩ := exists_activeCalls hm hc he hs
    have hbacktrace : m₁.scopes.backtrace = m.scopes.backtrace ++ calls := by
      simp [Scopes.backtrace_eq, hlabels]
    refine ⟨n, m₁, m₂, calls, hn, fun calls' => ⟨fun h => (h.unique hactive).2, fun h => h ▸ hactive⟩, ?_⟩
    rw [← hbacktrace]
    exact backtrace_of_failed (not_pushContext hin) (textual_of_steps hm hc he hs) hn

/-- A block with two lambdas, of which the one calls the other, which divides by zero. -/
def nested : Expr :=
  .letIn [.bind ["g"] (.lambda "g" ["n"] (.binary .div (.var "n") (.number (.ofNat 0)))),
    .bind ["f"] (.lambda "f" ["n"] (.call (.var "g") [.var "n"]))] (.call (.var "f") [.number (.ofNat 1)])

theorem countable_nested : nested.Countable := by
  simp [nested, Expr.Countable, CountableAll, CountableBindings]

/-- The division fails in both calls. -/
theorem backtrace_of_failed_run_nested :
    (ofConfig {}).Grounded ∧ (ofConfig {}).Compiled ∧ nested.Countable ∧
    ∃ failure m' n m₁ m₂, (ofConfig {}).run [] 30 nested.compile = some (.error failure, m') ∧
      m₁.next? [] = some (.error failure m₂) ∧ failure.backtrace = (["f", "g"] : List Name) ∧
      ActiveCalls [] ((ofConfig {}).started nested.compile) n m₁ ["f", "g"] := by
  have hfails : ((ofConfig {}).run [] 30 nested.compile).map
      (fun r => (r.1.map fun _ => ()).mapError Failure.backtrace) = some (.error ["f", "g"]) := by
    decide +kernel
  obtain ⟨⟨failure | v, m'⟩, hr, hbacktrace⟩ := Option.map_eq_some_iff.1 hfails
  · replace hbacktrace : failure.backtrace = ["f", "g"] := Except.error.inj hbacktrace
    obtain ⟨n, m₁, m₂, calls, hn, hcalls, h⟩ := backtrace_of_failed_run []
      (grounded_ofConfig {}) (compiled_ofConfig {}) countable_nested hr
    refine ⟨grounded_ofConfig {}, compiled_ofConfig {}, countable_nested, failure, m', n, m₁, m₂, hr, hn,
      hbacktrace, (hcalls _).2 ?_⟩
    rcases h with ⟨-, hnil⟩ | ⟨-, hlabels⟩
    · cases hbacktrace.symm.trans hnil
    · exact hbacktrace.symm.trans hlabels
  · cases hbacktrace

/-- What a step fails with. -/
def failure? : EStateM.Result Failure Machine Unit → Option Failure
  | .ok _ _ => none
  | .error failure _ => some failure

/-- Without a step for the division the failure tells neither call. -/
theorem backtrace_of_failed_run_budget :
    ∃ failure m' n m₁ m₂,
      (ofConfig { maxSteps := some 12 }).run [] 30 nested.compile = some (.error failure, m') ∧
      m₁.next? [] = some (.error failure m₂) ∧ failure.backtrace = [] ∧
      ActiveCalls [] ((ofConfig { maxSteps := some 12 }).started nested.compile) n m₁ ["f", "g"] := by
  have hstops : (after? 22 ((ofConfig { maxSteps := some 12 }).started nested.compile)).map
      (fun m => (m.scopes.labels, (m.next? []).map fun r => (failure? r).map Failure.backtrace)) =
        some ((["g", "f"] : List Name).map some ++ [none], some (some [])) := by
    decide +kernel
  obtain ⟨m₁, hm₁, h⟩ := Option.map_eq_some_iff.1 hstops
  obtain ⟨hlabels, hn⟩ := Prod.mk.inj h
  obtain ⟨r, hn, hr⟩ := Option.map_eq_some_iff.1 hn
  have hs := steps_of_after? hm₁
  obtain ⟨calls, hactive, hcalls⟩ := exists_activeCalls (grounded_ofConfig _) (compiled_ofConfig _)
    countable_nested hs
  have hreverse := List.append_cancel_right (hcalls.symm.trans hlabels)
  obtain rfl : calls = ["f", "g"] :=
    List.reverse_injective (List.map_injective_iff.2 (fun _ _ => Option.some.inj) hreverse)
  cases r with
  | ok => cases hr
  | error failure m₂ =>
    exact ⟨failure, _, 22, m₁, m₂, run_of_failed hs hn (by decide), hn, Option.some.inj hr, hactive⟩

end Machine

end Mosaic
