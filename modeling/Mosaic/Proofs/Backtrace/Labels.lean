import Mosaic.Proofs.Backtrace.Actions
import Mosaic.Proofs.Cadence.Plain
import Mosaic.Proofs.Globals.Failed

/-!
# Labels of contexts

The backtrace of a failure is the list of the labels of the contexts. A step that enters the body of a lambda
adds its label, the end of a call drops one, and no other step of compiled code changes the labels
(`Machine.labels_of_step`). A step that fails leaves them alone, and the failure is bare until it gets them
(`Machine.backtrace_of_failed`). Only where no step is left, the failure does not get them.
-/

namespace Mosaic

open Mosaic.Graph (NodeId)

/-- The labels of the contexts, the innermost first. -/
def Scopes.labels (s : Scopes) : List (Option Name) := s.contexts.map Context.label

theorem Scopes.backtrace_eq (s : Scopes) : s.backtrace = s.labels.reverse.filterMap id := by
  rw [backtrace, labels, ← List.map_reverse, List.filterMap_map]
  rfl

theorem Scopes.Changes.labels {I : Prop} {W : Name → Prop} {s s' : Scopes} (h : s.Changes I W s') :
    s'.labels = s.labels := by
  rcases h with rfl | ⟨c, C, fs, hs, hs', -⟩
  · rfl
  · simp [Scopes.labels, hs, hs']

/-! ## Failures in texts -/

theorem Op.Unfolds.textual {op : Op} {p : Program} (h : op.Unfolds p)
    (hop : ∀ failure ∈ op.failures, failure.Textual) : Textual p := by
  cases op with
  | branch yes no =>
    obtain ⟨hyes, hno⟩ := List.forall_mem_append.1 hop
    rcases h with rfl | rfl
    · exact hyes
    · exact hno
  | iterate var index body =>
    rcases h with rfl | ⟨source, element, rfl⟩
    · exact textual_nil
    · have hstart : Textual [.op .pushFrame none, .value element, .var var, .op (.assign 1) none] := by
        simp [Textual, Item.failures, Op.failures]
      have hend : Textual [.op .popFrame none, .value source, .op (.iterate var (index + 1) body) none] :=
        textual_cons.2 ⟨by simp [Item.failures, Op.failures], textual_cons.2 ⟨by simp [Item.failures],
          textual_cons.2 ⟨hop, textual_nil⟩⟩⟩
      exact textual_append.2 ⟨textual_append.2 ⟨hstart, hop⟩, hend⟩
  | _ =>
    obtain rfl : p = [] := h
    exact textual_nil

theorem IsCode.textual {body : Program} (h : IsCode body) : Textual body := by
  obtain ⟨line, e, -, rfl⟩ := h
  exact e.textual_compileAt line

theorem IsMemoize.textual {p : Program} (h : IsMemoize p) : Textual p := by
  rcases h with rfl | ⟨key, rfl⟩
  · exact textual_nil
  · exact textual_op rfl

namespace Machine

variable {held : List NodeId} {m m' m₁ m₂ : Machine} {e : Expr} {n : Nat} {f : Failure}

/-! ## Steps -/

/-- The step enters the body of the lambda: an operation calls it, and its body is to be run next, and then
the end of the call. -/
def EntersBody (m m' : Machine) (l : Lambda) : Prop :=
  ∃ op line R callee memoize, m.program = .op op line :: R ∧ m.Calls op (m.arguments op) callee ∧
    m.store.pool.get Object.lambdas callee = .ok l ∧
    m'.program = (l.body ++ .op .popContext none :: memoize) ++ R

/-- The next item is the end of a call. -/
def LeavesBody (m : Machine) : Prop := ∃ line R, m.program = .op .popContext line :: R

theorem not_entersBody_of_not_calls {op : Op} {line : Option Nat} {R : Program}
    (hp : m.program = .op op line :: R) (hop : ¬ op.Calls) (l : Lambda) : ¬ m.EntersBody m' l := by
  rintro ⟨op', line', R', callee, memoize, hp', hcalls, -⟩
  cases hp.symm.trans hp'
  cases op with
  | getVariable | call => exact hop trivial
  | _ => exact hcalls

theorem textual_of_step {G : Prop} {A : NodeId → Prop} {τ : Shape} {Q : Program} {O : List Operand} {b : Nat}
    (hin : Inside G A [] [] [] τ Q O b m) (h : Textual m.program) (hn : m.next? held = some (.ok () m')) :
    Textual m'.program := by
  have hQ : m.program = Q := hin.program.trans (List.append_nil Q)
  cases stepped_of_next? hn with
  | push program operand =>
    rw [program] at h
    exact (textual_cons.1 h).2
  | @perform op line rest e m₁ program within operands performed =>
    rw [program] at h
    obtain ⟨hop, hrest⟩ := textual_cons.1 h
    rw [Effect.program_settle]
    by_cases hcalls : op.Calls
    · cases (MachineM.Ends.performCall hcalls).ok performed with
      | answered v stays => exact stays.program.symm ▸ hrest
      | entered callee l frame memoize called stored memo kept scopes limit =>
        obtain rfl := hQ.symm.trans program
        have hbody : IsCode l.body := (hin.safe.store.get (hin.calls called) stored).2 id l rfl
        have hend : Textual (.op .popContext none :: memoize) :=
          textual_cons.2 ⟨by simp [Item.failures, Op.failures], memo.textual⟩
        refine textual_append.2 ⟨textual_append.2 ⟨hbody.textual, hend⟩, ?_⟩
        exact kept.program.symm ▸ hrest
    · have hunfolds := MachineM.Unfolding.perform hcalls _ _ _ _ _ performed
      exact textual_append.2 ⟨hunfolds.textual hop, (Kept.of_perform performed).program.symm ▸ hrest⟩

/-- What a step does to the labels. -/
theorem labels_of_step (hop : ∀ line R, m.program ≠ .op .pushContext line :: R)
    (hn : m.next? held = some (.ok () m')) :
    (∃ l, m.EntersBody m' l ∧ m'.scopes.labels = some l.label :: m.scopes.labels) ∨
    (m.LeavesBody ∧ ∃ label, m.scopes.labels = label :: m'.scopes.labels) ∨
    ((∀ l, ¬ m.EntersBody m' l) ∧ ¬ m.LeavesBody ∧ m'.scopes.labels = m.scopes.labels) := by
  cases stepped_of_next? hn with
  | @push item rest o program operand =>
    have hitem : ∀ op line, item ≠ .op op line := by
      rintro op line rfl
      cases operand
    refine .inr (.inr ⟨?_, ?_, rfl⟩)
    · rintro l ⟨op, line, R, callee, memoize, hp, -⟩
      exact hitem op line (List.cons.inj (program.symm.trans hp)).1
    · rintro ⟨line, R, hp⟩
      exact hitem _ line (List.cons.inj (program.symm.trans hp)).1
  | @perform op line rest e m₁ program within operands performed =>
    have hends : ∀ {E Q}, MachineM.Ends (MachineM.perform op (m.arguments op)) (m.taking op rest) E Q →
        Q e m₁ := fun h => h.ok performed
    have hleaves : m.LeavesBody → op = .popContext := by
      rintro ⟨line', R, hp⟩
      cases program.symm.trans hp
      rfl
    rw [Effect.scopes_settle]
    by_cases hcalls : op.Calls
    · have hnot : ¬ m.LeavesBody := fun h => by rw [hleaves h] at hcalls; exact hcalls
      cases hends (MachineM.Ends.performCall hcalls) with
      | answered v stays =>
        refine .inr (.inr ⟨?_, hnot, congrArg Scopes.labels stays.scopes⟩)
        -- An answered call leaves nothing to be run.
        rintro l ⟨op', line', R, callee, memoize, hp, -, -, hp'⟩
        cases program.symm.trans hp
        have hlength := congrArg List.length (stays.program.symm.trans hp')
        simp [taking] at hlength
        omega
      | entered callee l frame memoize called stored memo kept scopes limit =>
        refine .inl ⟨l, ⟨op, line, rest, callee, memoize, program, called, stored, ?_⟩, ?_⟩
        · exact congrArg (_ ++ ·) kept.program
        · rw [scopes]
          rfl
    have henters (l : Lambda) : ¬ m.EntersBody (e.settle m₁) l := not_entersBody_of_not_calls program hcalls l
    by_cases hshifts : op.Shifts
    · have hstays : op ≠ .popContext → ¬ m.LeavesBody := fun hne h => hne (hleaves h)
      cases op with
      | getVariable | call => exact (hcalls trivial).elim
      | pushContext => exact (hop _ _ program).elim
      | popContext =>
        obtain ⟨-, -, c, hc⟩ := hends MachineM.Ends.popContext
        exact .inr (.inl ⟨⟨line, rest, program⟩, c.label, congrArg (List.map Context.label) hc⟩)
      | pushFrame =>
        obtain ⟨-, -, c, C, hc, hc'⟩ := hends MachineM.Ends.pushFrame
        refine .inr (.inr ⟨henters, hstays Op.noConfusion, ?_⟩)
        rw [Scopes.labels, Scopes.labels, show m.scopes.contexts = c :: C from hc, hc']
        rfl
      | popFrame =>
        obtain ⟨-, -, c, C, f, fs, hc, -, hc'⟩ := hends MachineM.Ends.popFrame
        refine .inr (.inr ⟨henters, hstays Op.noConfusion, ?_⟩)
        rw [Scopes.labels, Scopes.labels, show m.scopes.contexts = c :: C from hc, hc']
        rfl
      | _ => exact hshifts.elim
    · have hmoves := hends (MachineM.Moving.perform hshifts (op.spares_all _))
      exact .inr (.inr ⟨henters, fun h => by rw [hleaves h] at hshifts; exact hshifts trivial,
        hmoves.scopes.labels⟩)

/-- An operation that fails leaves the labels alone. -/
theorem labels_of_perform_error {op : Op} {args : List Operand} {pins : Pins} (hop : op ≠ .pushContext)
    (h : MachineM.perform op args pins m = .error f m') : m'.scopes.labels = m.scopes.labels := by
  have hends : ∀ {E Q}, MachineM.Ends (MachineM.perform op args) m E Q → E m' := fun hends =>
    hends.error h
  by_cases hcalls : op.Calls
  · exact congrArg Scopes.labels (hends (MachineM.Ends.performCall hcalls)).scopes
  by_cases hshifts : op.Shifts
  · cases op with
    | getVariable | call => exact (hcalls trivial).elim
    | pushContext => exact (hop rfl).elim
    | popContext => exact congrArg Scopes.labels (hends MachineM.Ends.popContext).scopes
    | pushFrame => exact congrArg Scopes.labels (hends MachineM.Ends.pushFrame).scopes
    | popFrame => exact congrArg Scopes.labels (hends MachineM.Ends.popFrame).scopes
    | _ => exact hshifts.elim
  · exact (hends (MachineM.Moving.perform hshifts (op.spares_all args))).scopes.labels

/-- A failure tells the calls that are active, unless no step was left for the operation. -/
theorem backtrace_of_failed (hop : ∀ line R, m.program ≠ .op .pushContext line :: R) (h : Textual m.program)
    (hn : m.next? held = some (.error f m')) :
    (∃ limit, m.Exceeds m.config (.stepBudgetExceeded limit)) ∧ f.backtrace = [] ∨
    (¬ ∃ limit, m.Exceeds m.config (.stepBudgetExceeded limit)) ∧ f.backtrace = m.scopes.backtrace := by
  have hbare : ∀ {f : Failure} {calls : List Name}, f.backtrace = [] →
      (f.withBacktrace calls).backtrace = calls := by
    intro f calls hf
    rw [Failure.withBacktrace, hf]
    rfl
  cases stopped_of_next? hn with
  | @error failure rest program =>
    have hfailure : failure.Textual := (textual_cons.1 (program ▸ h)).1 failure (List.mem_singleton_self _)
    refine .inr ⟨?_, hbare hfailure.2⟩
    rintro ⟨limit, hexceeds⟩
    cases hexceeds with
    | steps op beyond =>
      obtain ⟨op, line, rest', hp⟩ := op
      cases program.symm.trans hp
  | overdrawn program beyond => exact .inl ⟨⟨_, .steps ⟨_, _, _, program⟩ beyond⟩, rfl⟩
  | underflow program within operands =>
    refine .inr ⟨?_, hbare rfl⟩
    rintro ⟨limit, hexceeds⟩
    cases hexceeds with
    | steps op beyond => cases within.symm.trans beyond
  | @perform op line rest failure _ program within operands performed =>
    refine .inr ⟨?_, ?_⟩
    · rintro ⟨limit, hexceeds⟩
      cases hexceeds with
      | steps op beyond => cases within.symm.trans beyond
    · have hop' : op ≠ .pushContext := by
        rintro rfl
        exact hop _ _ program
      have hlabels := labels_of_perform_error hop' performed
      have hfailure : failure.Bare := (MachineM.bare_perform _ _ _ trivial).error performed
      rw [hbare (f := failure.atLine line) hfailure.2, Scopes.backtrace_eq, hlabels, ← Scopes.backtrace_eq]
      rfl

end Machine

end Mosaic
