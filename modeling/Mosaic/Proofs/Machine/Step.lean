import Mosaic.Proofs.Machine.Moves
import Mosaic.Proofs.Steps

/-!
# What a step does

A step pushes the operand of an item, or it counts an operation, takes its operands, performs it, and
settles the effect. `Machine.Stepped` and `Machine.Stopped` list what the next item leads to, with and
without a failure. The items that an operation leaves to be run are in its text, but for the body of a call
(`Op.Unfolds`).
-/

namespace Mosaic

open Mosaic.Graph (NodeId)

/-- The operand that the item pushes. -/
def Item.operand? : Item → Option Operand
  | .value v => some (.value v)
  | .literal _ type id => some (.value (.object type id))
  | .var name => some (.var name)
  | .error _ | .op _ _ => none

/-! ## Items that are left to be run -/

/-- The items that the effect leaves to be run. -/
def Effect.code : Effect → Program
  | items p => p
  | value _ | done => []

@[simp] theorem Effect.program_settle (e : Effect) (m : Machine) : (e.settle m).program = e.code ++ m.program := by
  cases e <;> rfl

@[simp] theorem Effect.scopes_settle (e : Effect) (m : Machine) : (e.settle m).scopes = m.scopes := by
  cases e <;> rfl

/-- The items that the operation can leave to be run, if it does not call. -/
def Op.Unfolds : Op → Program → Prop
  | branch yes no, p => p = yes ∨ p = no
  | iterate var index body, p =>
    p = [] ∨ ∃ source element, p = MachineM.round var index body source element
  | _, p => p = []

namespace MachineM

/-- The items that the action leaves to be run are as `L` says. -/
def Unfolding (L : Program → Prop) (x : MachineM Effect) : Prop :=
  ∀ pins m e m', x pins m = .ok e m' → L e.code

namespace Unfolding

variable {L : Program → Prop} {α : Type} {x : MachineM α} {f : α → MachineM Effect}

theorem ends {x : MachineM Effect} (h : Unfolding L x) (m : Machine) :
    Ends x m (fun _ => True) fun e _ => L e.code := by
  intro pins
  cases hr : x pins m with
  | ok e m' => exact h pins m e m' hr
  | error failure m' => trivial

theorem ret {e : Effect} (he : L e.code) : Unfolding L (pure e) := fun _ _ _ _ h => by cases h; exact he

theorem fail {cause : Cause} : Unfolding L (MachineM.fail cause) := fun _ _ _ _ h => by cases h

theorem bind (hf : ∀ a, Unfolding L (f a)) : Unfolding L (x >>= f) := by
  intro pins m e m' h
  obtain ⟨a, m₁, -, ha⟩ := exists_of_bind_ok h
  exact hf a pins m₁ e m' ha

theorem schedule {var : Name} {index : Nat} {body : Program} {source : Value} :
    Unfolding (Op.Unfolds (.iterate var index body)) (MachineM.schedule var index body source) := by
  refine bind fun v? => ?_
  split
  · exact ret (.inr ⟨source, _, rfl⟩)
  · refine bind fun m => ?_
    split
    · exact fail
    · exact bind fun _ => ret (.inl rfl)

theorem perform {op : Op} (hop : ¬ op.Calls) (args : List Operand) :
    Unfolding op.Unfolds (MachineM.perform op args) := by
  unfold MachineM.perform
  split
  · exact (hop trivial).elim
  · exact bind fun _ => ret rfl
  · exact bind fun _ => bind fun _ => bind fun _ => ret rfl
  · exact bind fun _ => bind fun _ => ret rfl
  · exact bind fun _ => bind fun _ => bind fun _ => ret rfl
  · exact fail
  · exact bind fun _ => bind fun _ => bind fun _ => ret rfl
  · exact bind fun _ => bind fun _ => ret rfl
  · exact bind fun _ => bind fun _ => ret rfl
  · refine bind fun _ => bind fun _ => ?_
    split
    · exact bind fun _ => ret rfl
    · exact ret rfl
  · exact fail
  · exact bind fun _ => bind fun _ => bind fun _ => ret rfl
  · rename_i yes no test
    refine bind fun _ => bind fun b => ret ?_
    cases b
    · exact .inr rfl
    · exact .inl rfl
  · exact bind fun _ => bind fun _ => bind fun _ => schedule
  · refine bind fun _ => bind fun _ => bind fun _ => bind fun _ => ?_
    split
    · exact fail
    · exact bind fun _ => schedule
  · refine bind fun _ => bind fun _ => bind fun _ => ?_
    dsimp only
    split
    · exact bind fun _ => bind fun _ => ret rfl
    · exact ret rfl
  · exact bind fun _ => bind fun _ => bind fun _ => bind fun _ => ret rfl
  · exact (hop trivial).elim
  · exact bind fun _ => bind fun _ => ret rfl
  · exact fail

end Unfolding

end MachineM

namespace Machine

variable {held : List NodeId} {m m' : Machine} {f : Failure}

/-- The machine that performs the operation at the head of its program. -/
def taking (m : Machine) (op : Op) (rest : Program) : Machine :=
  { m with program := rest, operands := m.operands.drop op.arity, steps := m.steps + 1 }

/-- The operands of an operation, the first one first. -/
def arguments (m : Machine) (op : Op) : List Operand := (m.operands.take op.arity).reverse

/-- What a step leads to. -/
inductive Stepped (held : List NodeId) (m : Machine) : Machine → Prop
  | push {item : Item} {rest : Program} {o : Operand} (program : m.program = item :: rest)
    (operand : item.operand? = some o) :
    Stepped held m { m with program := rest, operands := o :: m.operands }
  | perform {op : Op} {line : Option Nat} {rest : Program} {e : Effect} {m₁ : Machine}
    (program : m.program = .op op line :: rest) (within : m.config.overdrawn? m.steps = none)
    (operands : op.arity ≤ m.operands.length)
    (performed : MachineM.perform op (m.arguments op) (Pins.of fun _ => held)
      (m.taking op rest) = .ok e m₁) : Stepped held m (e.settle m₁)

/-- How a step fails. -/
inductive Stopped (held : List NodeId) (m : Machine) : Failure → Machine → Prop
  | error {failure : Failure} {rest : Program} (program : m.program = .error failure :: rest) :
    Stopped held m (failure.withBacktrace m.scopes.backtrace) { m with program := rest }
  | overdrawn {op : Op} {line : Option Nat} {rest : Program} {limit : Nat}
    (program : m.program = .op op line :: rest) (beyond : m.config.overdrawn? m.steps = some limit) :
    Stopped held m (({ cause := .stepBudgetExceeded limit } : Failure).atLine line)
      { m with program := rest, steps := m.steps + 1 }
  | underflow {op : Op} {line : Option Nat} {rest : Program}
    (program : m.program = .op op line :: rest) (within : m.config.overdrawn? m.steps = none)
    (operands : m.operands.length < op.arity) :
    Stopped held m ((({ cause := .stackUnderflow op.name op.arity m.operands.length } : Failure).atLine
      line).withBacktrace m.scopes.backtrace) { m with program := rest, steps := m.steps + 1 }
  | perform {op : Op} {line : Option Nat} {rest : Program} {failure : Failure} {m₁ : Machine}
    (program : m.program = .op op line :: rest) (within : m.config.overdrawn? m.steps = none)
    (operands : op.arity ≤ m.operands.length)
    (performed : MachineM.perform op (m.arguments op) (Pins.of fun _ => held)
      (m.taking op rest) = .error failure m₁) :
    Stopped held m ((failure.atLine line).withBacktrace m₁.scopes.backtrace) m₁

theorem next?_of_operand {item : Item} {rest : Program} {o : Operand} (h : m.program = item :: rest)
    (ho : item.operand? = some o) :
    m.next? held = some (.ok () { m with program := rest, operands := o :: m.operands }) := by
  rw [next?_of_cons h]
  cases item <;> cases ho <;> rfl

theorem next?_of_op {op : Op} {line : Option Nat} {rest : Program} (h : m.program = .op op line :: rest) :
    m.next? held =
      match m.config.overdrawn? m.steps with
      | some limit => some (.error (({ cause := .stepBudgetExceeded limit } : Failure).atLine line)
          { m with program := rest, steps := m.steps + 1 })
      | none =>
        if m.operands.length < op.arity then
          some (.error ((({ cause := .stackUnderflow op.name op.arity m.operands.length } :
            Failure).atLine line).withBacktrace m.scopes.backtrace)
            { m with program := rest, steps := m.steps + 1 })
        else
          match MachineM.perform op (m.arguments op) (Pins.of fun _ => held)
              (m.taking op rest) with
          | .ok e m₁ => some (.ok () (e.settle m₁))
          | .error failure m₁ =>
            some (.error ((failure.atLine line).withBacktrace m₁.scopes.backtrace) m₁) := by
  rw [next?_of_cons h, MachineM.runItem_op_apply]
  cases ho : m.config.overdrawn? m.steps with
  | some limit =>
    rw [MachineM.tick_eq_of_overdrawn (m := { m with program := rest }) ho]
  | none =>
    rw [MachineM.tick_eq_of_within (m := { m with program := rest }) ho]
    dsimp only
    rw [MachineM.runOp_apply]
    dsimp only
    by_cases hlen : m.operands.length < op.arity
    · simp only [if_pos hlen]
    · simp only [if_neg hlen]
      unfold arguments taking
      cases MachineM.perform op (m.operands.take op.arity).reverse (Pins.of fun _ => held)
        { m with program := rest, operands := m.operands.drop op.arity, steps := m.steps + 1 } <;> rfl

theorem next?_of_overdrawn {op : Op} {line : Option Nat} {rest : Program} {limit : Nat}
    (h : m.program = .op op line :: rest) (hbeyond : m.config.overdrawn? m.steps = some limit) :
    m.next? held = some (.error (({ cause := .stepBudgetExceeded limit } : Failure).atLine line)
      { m with program := rest, steps := m.steps + 1 }) := by
  rw [next?_of_op h, hbeyond]

theorem next?_of_failed {op : Op} {line : Option Nat} {rest : Program} {failure : Failure} {m₁ : Machine}
    (h : m.program = .op op line :: rest) (hwithin : m.config.overdrawn? m.steps = none)
    (hlen : op.arity ≤ m.operands.length)
    (hperform : MachineM.perform op (m.arguments op) (Pins.of fun _ => held)
      (m.taking op rest) = .error failure m₁) :
    m.next? held = some (.error ((failure.atLine line).withBacktrace m₁.scopes.backtrace) m₁) := by
  rw [next?_of_op h, hwithin]
  simp only [if_neg (Nat.not_lt.2 hlen), hperform]

theorem next?_of_popContext {line : Option Nat} {rest : Program} {c : Context} {C : List Context}
    (h : m.program = .op .popContext line :: rest) (hwithin : m.config.overdrawn? m.steps = none)
    (hc : m.scopes.contexts = c :: C) :
    m.next? held = some (.ok () { m with program := rest, scopes := ⟨C⟩, steps := m.steps + 1 }) := by
  have hperform : MachineM.perform .popContext (m.arguments .popContext)
      (Pins.of fun _ => held) (m.taking .popContext rest) =
        .ok .done { m.taking .popContext rest with scopes := ⟨C⟩ } := by
    have hpop : m.scopes.popContext = .ok (c, ⟨C⟩) := by rw [Scopes.popContext, hc]
    simp only [MachineM.perform, MachineM.bind_apply, MachineM.get_apply, taking, hpop]
    rfl
  rw [next?_of_op h, hwithin]
  simp only [if_neg (Nat.not_lt.2 (Nat.zero_le _) : ¬ m.operands.length < Op.popContext.arity), hperform]
  rfl

theorem next?_of_memoize {key : String} {line : Option Nat} {rest : Program} {v : Value} {S : List Operand}
    (h : m.program = .op (.memoize key) line :: rest) (hwithin : m.config.overdrawn? m.steps = none)
    (ho : m.operands = .value v :: S) :
    m.next? held = some (.ok () { m with
      program := rest, memo := m.memo.insert key v, steps := m.steps + 1 }) := by
  have hperform : MachineM.perform (.memoize key) (m.arguments (.memoize key))
      (Pins.of fun _ => held) (m.taking (.memoize key) rest) =
        .ok (.value v) { m.taking (.memoize key) rest with memo := m.memo.insert key v } := by
    simp only [arguments, ho]
    rfl
  rw [next?_of_op h, hwithin]
  have harity : ¬ S.length + 1 < (Op.memoize key).arity := Nat.not_lt.2 (Nat.le_add_left _ _)
  simp only [ho, List.length_cons, if_neg harity, hperform]
  simp only [Effect.settle, taking, ho]
  rfl

theorem stepped_of_next? (h : m.next? held = some (.ok () m')) : m.Stepped held m' := by
  obtain ⟨item, rest, hp⟩ := exists_cons_of_next? h
  cases ho : item.operand? with
  | some o =>
    rw [next?_of_operand hp ho] at h
    cases h
    exact .push hp ho
  | none =>
    cases item with
    | value | literal | var => cases ho
    | error failure =>
      rw [next?_of_cons hp] at h
      cases h
    | op op line =>
      rw [next?_of_op hp] at h
      split at h
      · cases h
      · rename_i hwithin
        split at h
        · cases h
        · rename_i hlen
          split at h
          · rename_i hperform
            cases h
            exact .perform hp hwithin (Nat.le_of_not_lt hlen) hperform
          · cases h

theorem performed_of_next? {op : Op} {line : Option Nat} {rest : Program} (hp : m.program = .op op line :: rest)
    (h : m.next? held = some (.ok () m')) :
    ∃ e m₁, op.arity ≤ m.operands.length ∧ m' = e.settle m₁ ∧
      MachineM.perform op (m.arguments op) (Pins.of fun _ => held) (m.taking op rest) = .ok e m₁ := by
  cases stepped_of_next? h with
  | push program operand =>
    rw [hp] at program
    cases program
    cases operand
  | perform program within operands performed =>
    rw [hp] at program
    cases program
    exact ⟨_, _, operands, rfl, performed⟩

theorem stopped_of_next? (h : m.next? held = some (.error f m')) : m.Stopped held f m' := by
  obtain ⟨item, rest, hp⟩ := exists_cons_of_next? h
  cases ho : item.operand? with
  | some o =>
    rw [next?_of_operand hp ho] at h
    cases h
  | none =>
    cases item with
    | value | literal | var => cases ho
    | error failure =>
      rw [next?_of_cons hp] at h
      cases h
      exact .error hp
    | op op line =>
      rw [next?_of_op hp] at h
      split at h
      · rename_i limit hbeyond
        cases h
        exact .overdrawn hp hbeyond
      · rename_i hwithin
        split at h
        · rename_i hlen
          cases h
          exact .underflow hp hwithin hlen
        · rename_i hlen
          split at h
          · cases h
          · rename_i hperform
            cases h
            exact .perform hp hwithin (Nat.le_of_not_lt hlen) hperform

theorem Kept.of_perform {op : Op} {args : List Operand} {pins : Pins} {e : Effect}
    (h : MachineM.perform op args pins m = .ok e m') : m.Kept m' :=
  (MachineM.Ends.perform_kept op args).ok h

theorem Kept.of_perform_error {op : Op} {args : List Operand} {pins : Pins}
    (h : MachineM.perform op args pins m = .error f m') : m.Kept m' :=
  (MachineM.Ends.perform_kept op args).error h

theorem Stopped.config (h : m.Stopped held f m') : m'.config = m.config := by
  cases h with
  | perform program within operands performed => exact (Kept.of_perform_error performed).config
  | _ => rfl

namespace Stepped

theorem config (h : m.Stepped held m') : m'.config = m.config := by
  cases h with
  | push => rfl
  | perform program within operands performed =>
    rename_i e m₁
    cases e <;> exact (Kept.of_perform performed).config

theorem counted (h : m.Stepped held m') :
    m.AtOp ∧ m'.steps = m.steps + 1 ∧ m.config.overdrawn? m.steps = none ∨
      ¬ m.AtOp ∧ m'.steps = m.steps ∧ ∃ item, m.program = item :: m'.program := by
  cases h with
  | @push item rest o program operand =>
    refine .inr ⟨?_, rfl, item, program⟩
    rintro ⟨op, line, rest', hp⟩
    rw [program] at hp
    cases hp
    cases operand
  | @perform op line rest e m₁ program within operands performed =>
    refine .inl ⟨⟨op, line, rest, program⟩, ?_, within⟩
    cases e <;> exact (Kept.of_perform performed).steps

/-- A step goes at most one context deeper, and by a call only where the limit has room. -/
theorem depth (h : m.Stepped held m') (hop : ∀ op line rest, m.program = .op op line :: rest →
      op ≠ .pushContext) :
    m'.scopes.depth ≤ m.scopes.depth ∨
      m'.scopes.depth = m.scopes.depth + 1 ∧ m.config.overflow? m.scopes.depth = none := by
  cases h with
  | push => exact .inl (Nat.le_refl _)
  | @perform op line rest e m₁ program within operands performed =>
    rw [Effect.scopes_settle]
    have hscopes : (m.taking op rest).scopes = m.scopes := rfl
    have hends : ∀ {E Q}, MachineM.Ends (MachineM.perform op (m.arguments op)) (m.taking op rest) E Q →
        Q e m₁ := fun h => h.ok performed
    by_cases hcalls : op.Calls
    · cases hends (MachineM.Ends.performCall hcalls) with
      | answered v stays =>
        rw [stays.scopes]
        exact .inl (Nat.le_refl _)
      | entered callee l frame memoize called stored memo kept scopes limit =>
        rw [scopes]
        exact .inr ⟨rfl, limit⟩
    by_cases hshifts : op.Shifts
    · refine .inl ?_
      cases op with
      | getVariable | call => exact (hcalls trivial).elim
      | pushContext => exact (hop _ _ _ program rfl).elim
      | popContext =>
        obtain ⟨-, -, c, hc⟩ := hends MachineM.Ends.popContext
        rw [hscopes] at hc
        simp [Scopes.depth, hc]
      | pushFrame =>
        obtain ⟨-, -, c, cs, hc, hc'⟩ := hends MachineM.Ends.pushFrame
        rw [hscopes] at hc
        simp [Scopes.depth, hc, hc']
      | popFrame =>
        obtain ⟨-, -, c, cs, f, fs, hc, -, hc'⟩ := hends MachineM.Ends.popFrame
        rw [hscopes] at hc
        simp [Scopes.depth, hc, hc']
      | _ => exact hshifts.elim
    · have hmoves := hends (MachineM.Moving.perform hshifts (op.spares_all _))
      exact .inl (Nat.le_of_eq hmoves.scopes.length)

end Stepped

theorem Steps.config {n : Nat} (h : Steps held n m m') : m'.config = m.config := by
  induction h with
  | refl => rfl
  | head first _ ih => exact ih.trans (stepped_of_next? first).config

end Machine

end Mosaic
