import Mosaic.Proofs.Backtrace.Actions
import Mosaic.Proofs.Guise.Operations
import Mosaic.Proofs.Steps

/-!
# Runs in a guise

A step of the machine in the guise is the step of the machine without it, as long as the guise fits: the
limits must say the same of an operation and of a call in the guise as without. A failure has the same
cause; its line is what becomes of the line in the guise, and its backtrace is another only if there are
contexts below.
-/

namespace Mosaic

open Mosaic.Graph (NodeId)

namespace Guise

/-- In the guise the machine takes its next step as it does without. -/
structure Fits (G : Guise) (m : Machine) : Prop where
  covers : m.scopes.Covers G.contexts
  program : m.program = [] → G.program = []
  memoize : G.config.memoize = m.config.memoize
  steps : m.AtOp → G.config.overdrawn? m.steps = m.config.overdrawn? m.steps
  calls : m.AtCall → m.SameLimit G

theorem Fits.program_under {G : Guise} {m : Machine} (h : G.Fits m) (hp : m.program = []) :
    (m.under G).program = [] := by
  rw [Machine.under, hp, h.program hp]
  rfl

/-- The second failure is the first one in the guise. -/
structure Tells (G : Guise) (f f' : Failure) : Prop where
  cause : f'.cause = f.cause
  line : f'.line = G.lines f.line
  backtrace : G.contexts = [] → f'.backtrace = f.backtrace

end Guise

/-- Without changes to lines or contexts it is the same failure. -/
theorem Guise.Tells.eq {G : Guise} {f f' : Failure} (h : G.Tells f f') (hlines : G.lines = .keep)
    (hcontexts : G.contexts = []) : f' = f := by
  obtain ⟨cause, line, backtrace⟩ := f
  obtain ⟨cause', line', backtrace'⟩ := f'
  obtain ⟨rfl, hline, hbacktrace⟩ := h
  rw [hlines] at hline
  obtain rfl := hline
  obtain rfl := hbacktrace hcontexts
  rfl

/-- The second outcome is the first one in the guise. -/
def Guise.Ends (G : Guise) : Except Failure Unit × Machine → Except Failure Unit × Machine → Prop
  | (.ok _, m), (.ok _, m') => m' = m.under G
  | (.error f, m), (.error f', m') => m' = m.under G ∧ G.Tells f f'
  | _, _ => False

theorem Guise.nodes_eq_nil {G : Guise} (h : G.contexts = []) (hprogram : G.program = []) :
    G.nodes = [] := by
  rw [nodes, h, hprogram]
  rfl

namespace MachineM

variable {G : Guise} {m : Machine} {pins pins' : Pins}

theorem Disguised.runOp (hm : m.scopes.Covers G.contexts) (hmemo : G.config.memoize = m.config.memoize)
    {op : Op} (hlimit : op.arity ≤ m.operands.length →
      m.Enters op (m.operands.take op.arity).reverse → m.SameLimit G) :
    Disguised G id m (MachineM.runOp op) (MachineM.runOp (op.relined G.lines)) fun _ _ => True := by
  rw [runOp_eq, runOp_eq]
  refine getThen ?_
  rw [Op.arity_relined, Op.name_relined, show (m.under G).operands = m.operands from rfl]
  refine cond (fun _ => fail) fun hlen => modifyThen (by rfl) ?_
  have hperform := Performs.perform (m := { m with operands := m.operands.drop op.arity }) hm hmemo
    (hlimit (Nat.not_lt.1 hlen))
  refine bind hperform fun e m' _ _ pins _ => ⟨?_, trivial⟩
  have hsettle : (e.relined G.lines).settle (m'.under G) = (e.settle m').under G := by
    cases e <;> simp [Effect.relined, Effect.settle, Machine.under]
  rw [modify_apply, hsettle]

/-- The outcome of an item in the guise. -/
def InGuise (G : Guise) : EStateM.Result Failure Machine Unit → EStateM.Result Failure Machine Unit → Prop
  | .ok _ m, .ok _ m' => m' = m.under G
  | .error f m, .error f' m' => m' = m.under G ∧ G.Tells f f'
  | _, _ => False

theorem tells_of_added {f : Failure} (hf : f.Bare) (line : Option Nat) (s : Scopes) :
    G.Tells ((f.atLine line).withBacktrace s.backtrace)
      ((f.atLine (G.lines line)).withBacktrace (s.above G.contexts).backtrace) := by
  refine ⟨rfl, ?_, fun h => ?_⟩
  · show f.line.or (G.lines line) = G.lines (f.line.or line)
    rw [hf.1, Option.none_or, Option.none_or]
  · rw [h, Scopes.above_nil]
    rfl

theorem runItem_under {item : Item} (hpins : Pinned G pins pins') (hm : m.scopes.Covers G.contexts)
    (hmemo : G.config.memoize = m.config.memoize)
    (hsteps : ∀ op line, item = .op op line →
      G.config.overdrawn? m.steps = m.config.overdrawn? m.steps)
    (hlimit : ∀ op line, item = .op op line → op.arity ≤ m.operands.length →
      m.Enters op (m.operands.take op.arity).reverse → m.SameLimit G) :
    InGuise G (runItem item pins m) (runItem (item.relined G.lines) pins' (m.under G)) := by
  cases item with
  | value v => exact rfl
  | literal handle type id => exact rfl
  | var name => exact rfl
  | error failure =>
    refine ⟨rfl, rfl, rfl, fun h => ?_⟩
    · show (if failure.backtrace.isEmpty then (m.under G).scopes.backtrace else _) =
        if failure.backtrace.isEmpty then m.scopes.backtrace else _
      rw [Machine.under, h, Scopes.above_nil]
  | op op line =>
    have hsame : (m.under G).config.overdrawn? (m.under G).steps = m.config.overdrawn? m.steps :=
      hsteps op line rfl
    rw [Item.relined_op, runItem_op_apply, runItem_op_apply]
    cases ho : m.config.overdrawn? m.steps with
    | some limit =>
      rw [tick_eq_of_overdrawn ho, tick_eq_of_overdrawn (hsame.trans ho)]
      exact ⟨rfl, rfl, rfl, fun _ => rfl⟩
    | none =>
      rw [tick_eq_of_within ho, tick_eq_of_within (hsame.trans ho)]
      have hrun := Disguised.runOp (m := { m with steps := m.steps + 1 }) hm hmemo
        (hlimit op line rfl) pins pins' hpins
      dsimp only
      cases hr : runOp op pins { m with steps := m.steps + 1 } with
      | ok u m' =>
        rw [hr] at hrun
        rw [show runOp (op.relined G.lines) pins' { m.under G with steps := (m.under G).steps + 1 } = _
          from hrun.1]
        exact rfl
      | error f m' =>
        rw [hr] at hrun
        rw [show runOp (op.relined G.lines) pins' { m.under G with steps := (m.under G).steps + 1 } = _
          from hrun]
        exact ⟨rfl, tells_of_added ((bare_runOp op _ trivial).error hr) line m'.scopes⟩

end MachineM

namespace Machine

variable {G : Guise} {held : List NodeId} {m m' : Machine} {n : Nat}

/-- The next step, in the guise and without, where what the guise mentions is held instead. -/
theorem next?_under (h : G.Fits m) :
    Option.Rel (MachineM.InGuise G) (m.next? (held ++ G.nodes)) ((m.under G).next? held) := by
  cases hp : m.program with
  | nil =>
    rw [next?_of_nil hp, next?_of_nil (h.program_under hp)]
    exact .none
  | cons item rest =>
    have hp' : (m.under G).program = item.relined G.lines :: (relined G.lines rest ++ G.program) := by
      rw [under, hp]
      rfl
    have hpins : MachineM.Pinned G (Pins.of fun _ => held ++ G.nodes) (Pins.of fun _ => held) := by
      simp [MachineM.Pinned, Pins.mem_of]
    rw [next?_of_cons hp, next?_of_cons hp']
    refine .some (MachineM.runItem_under (m := { m with program := rest }) hpins
      h.covers h.memoize (fun op line hop => h.steps ⟨op, line, rest, hop ▸ hp⟩)
      fun op line hop hlen henters => h.calls ⟨op, line, rest, hop ▸ hp, hlen, henters⟩)

theorem next?_under_of_ok (h : G.Fits m) (hn : m.next? (held ++ G.nodes) = some (.ok () m')) :
    (m.under G).next? held = some (.ok () (m'.under G)) := by
  have hrel := @next?_under G held m h
  rw [hn] at hrel
  generalize (m.under G).next? held = r at hrel ⊢
  cases hrel with
  | @some _ r hr =>
    cases r with
    | ok u m₁ => rw [hr]
    | error f m₁ => exact hr.elim

theorem next?_under_of_error (h : G.Fits m) {f : Failure}
    (hn : m.next? (held ++ G.nodes) = some (.error f m')) :
    ∃ f', (m.under G).next? held = some (.error f' (m'.under G)) ∧ G.Tells f f' := by
  have hrel := @next?_under G held m h
  rw [hn] at hrel
  generalize (m.under G).next? held = r at hrel ⊢
  cases hrel with
  | @some _ r hr =>
    cases r with
    | ok u m₁ => exact hr.elim
    | error f' m₁ => exact ⟨f', by rw [hr.1], hr.2⟩

/-- What the machine does in the guise comes from what it does without. -/
theorem next?_of_under (h : G.Fits m) {r : EStateM.Result Failure Machine Unit}
    (hn : (m.under G).next? held = some r) :
    ∃ r₀, m.next? (held ++ G.nodes) = some r₀ ∧ MachineM.InGuise G r₀ r := by
  have hrel := @next?_under G held m h
  rw [hn] at hrel
  generalize m.next? (held ++ G.nodes) = r₀ at hrel ⊢
  cases hrel with
  | some hr => exact ⟨_, rfl, hr⟩

theorem Steps.under (hs : Steps (held ++ G.nodes) n m m')
    (hfits : ∀ k m₁, k < n → Steps (held ++ G.nodes) k m m₁ → G.Fits m₁) :
    Steps held n (m.under G) (m'.under G) := by
  induction hs with
  | refl => exact .refl _
  | head first _ ih =>
    refine .head (next?_under_of_ok (hfits 0 _ (Nat.succ_pos _) (.refl _)) first) (ih fun k m₁ hk hs => ?_)
    exact hfits (k + 1) m₁ (Nat.succ_lt_succ hk) (.head first hs)

/-- A run in the guise ends as the run without. -/
theorem execute_under (hfits : ∀ n m₁, Steps (held ++ G.nodes) n m m₁ → G.Fits m₁) (fuel : Nat) :
    Option.Rel G.Ends (execute (held ++ G.nodes) fuel m) (execute held fuel (m.under G)) := by
  induction fuel generalizing m with
  | zero => exact .none
  | succ fuel ih =>
    have hm := hfits 0 m (.refl m)
    cases hn : m.next? (held ++ G.nodes) with
    | none =>
      have hp := program_of_next?_none hn
      rw [execute_of_ended hp, execute_of_ended (hm.program_under hp)]
      exact .some rfl
    | some r =>
      cases r with
      | ok u m' =>
        rw [execute_of_next hn, execute_of_next (next?_under_of_ok hm hn)]
        exact ih fun n m₁ hs => hfits (n + 1) m₁ (.head hn hs)
      | error f m' =>
        obtain ⟨f', hf', htells⟩ := next?_under_of_error hm hn
        rw [execute_of_failed hn, execute_of_failed hf']
        exact .some ⟨rfl, htells⟩

end Machine

end Mosaic
