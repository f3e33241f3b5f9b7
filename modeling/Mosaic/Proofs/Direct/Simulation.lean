import Mosaic.Proofs.Balance.Run
import Mosaic.Proofs.Direct.Stackless

/-!
# The machine follows the direct evaluator

`Follows held n m r K` compares a machine with an outcome of the evaluator. A value is reached by a
sequence of steps to a machine with the same store and scopes whose stacks are as `K` says, a failure is
that of a step, and if there is no outcome with fuel `n` the machine can take `n` steps. One lemma says
how an operation follows an action; the code of an expression then follows the expression by recursion
on it.
-/

namespace Mosaic

open Mosaic.Graph (NodeId)
open Mosaic.Machine (Steps)

/-! ## Machines in a run -/

/-- There are no limits, and nothing is remembered. -/
structure Config.Plain (c : Config) : Prop where
  memoize : c.memoize = false
  maxCallDepth : c.maxCallDepth = none
  maxSteps : c.maxSteps = none

/-- The machine is in a run of compiled code. -/
structure Running (A : NodeId → Prop) (m : Machine) : Prop where
  inside : ∃ τ Q O b, Inside False A [] [] [] τ Q O b m
  plain : m.config.Plain

/-- What is on the stacks. -/
structure Stacks (R : Program) (S : List Operand) (B : List NodeId) (m : Machine) : Prop where
  program : m.program = R
  operands : m.operands = S
  builders : m.builders = B

/-- The evaluator holds what `held` and the stacks hold. -/
def Holds (held : List NodeId) (R : Program) (S : List Operand) (B heldE : List NodeId) : Prop :=
  ∀ id, id ∈ heldE ↔
    id ∈ held ∨ id ∈ programNodes R ∨ id ∈ S.filterMap Operand.node? ∨ id ∈ B

namespace Running

variable {A : NodeId → Prop} {m m' : Machine} {held : List NodeId} {n : Nat}

theorem next (h : Running A m) (hn : m.next? held = some (.ok () m')) : Running A m' := by
  obtain ⟨τ, Q, O, b, hin⟩ := h.inside
  obtain ⟨item, rest, hp⟩ := Machine.exists_cons_of_next? hn
  have hQ : Q ≠ [] := by
    rintro rfl
    simp [hin.program] at hp
  obtain ⟨hconfig, Q', O', b', hin'⟩ := hin.step hQ hn
  exact ⟨⟨τ, Q', O', b', hin'⟩, hconfig ▸ h.plain⟩

theorem steps (h : Running A m) (hs : Steps held n m m') : Running A m' :=
  hs.invariant (fun _ _ h hn => h.next hn) h

end Running

/-! ## Following -/

/-- The machine does what the outcome of the evaluator says. -/
def Follows {α : Type} (held : List NodeId) (n : Nat) (m : Machine)
    (r : Option (EStateM.Result Failure Machine α)) (K : α → Machine → Prop) : Prop :=
  match r with
  | some (.ok a b) => ∃ k m', Steps held k m m' ∧ m'.bare = b ∧ K a m'
  | some (.error failure b) =>
    ∃ k m₁ m', Steps held k m m₁ ∧ m₁.next? held = some (.error failure m') ∧ m'.bare = b
  | none => ∃ k m', n ≤ k ∧ Steps held k m m'

namespace Follows

variable {held heldE heldF : List NodeId} {n n' k : Nat} {m m' : Machine} {α β : Type}
  {K : α → Machine → Prop} {r : Option (EStateM.Result Failure Machine α)}

theorem mono (h : Follows held n m r K) (hn : n' ≤ n) : Follows held n' m r K := by
  match r, h with
  | some (.ok _ _), h => exact h
  | some (.error _ _), h => exact h
  | none, ⟨k, m', hk, hs⟩ => exact ⟨k, m', Nat.le_trans hn hk, hs⟩

/-- What the machine does after some steps, it does. -/
theorem after (hs : Steps held k m m') (h : Follows held n m' r K) : Follows held (n + k) m r K := by
  match r, h with
  | some (.ok _ _), ⟨j, m₁, hj, hb, hk⟩ => exact ⟨k + j, m₁, hs.trans hj, hb, hk⟩
  | some (.error _ _), ⟨j, m₁, m₂, hj, hf, hb⟩ => exact ⟨k + j, m₁, m₂, hs.trans hj, hf, hb⟩
  | none, ⟨j, m₁, hn, hj⟩ => exact ⟨k + j, m₁, by omega, hs.trans hj⟩

theorem ret {a : α} (h : K a m) : Follows held n m ((pure a : EvalM α) heldE m.bare) K :=
  ⟨0, m, .refl m, rfl, h⟩

theorem bind {x : EvalM α} {f : α → EvalM β} {b : Machine} {L : β → Machine → Prop}
    (hx : Follows held n m (x heldE b) K)
    (hf : ∀ a m' k, x heldE b = some (.ok a m'.bare) → Steps held k m m' → K a m' →
      Follows held n m' (f a heldF m'.bare) L) :
    Follows held n m (match x heldE b with
      | some (.ok a b) => f a heldF b
      | some (.error failure b) => some (.error failure b)
      | none => none) L := by
  cases hr : x heldE b with
  | none => rw [hr] at hx; exact hx
  | some r =>
    cases r with
    | error failure b => rw [hr] at hx; exact hx
    | ok a b =>
      rw [hr] at hx
      obtain ⟨k, m', hs, rfl, hk⟩ := hx
      exact ((hf a m' k hr hs hk).after hs).mono (Nat.le_add_right n k)

end Follows

/-! ## Operations -/

namespace Effect

/-- The operands that an effect leaves. -/
def operands : Effect → List Operand
  | .value v => [.value v]
  | _ => []

/-- The items that an effect leaves. -/
def items? : Effect → Program
  | .items Q => Q
  | _ => []

theorem settle_eq (e : Effect) (m : Machine) :
    e.settle m = { m with operands := e.operands ++ m.operands, program := e.items? ++ m.program } := by
  cases e <;> rfl

end Effect

/-- The outcome of an operation at a line, once its effect is settled. -/
def settled (line : Option Nat) :
    EStateM.Result Failure Machine Effect → EStateM.Result Failure Machine Unit
  | .ok e m => .ok () (e.settle m)
  | .error failure m => .error ((failure.atLine line).withBacktrace m.scopes.backtrace) m

/-- The machine while it performs an operation that takes so many operands. -/
def Machine.performing (m : Machine) (n : Nat) : Machine :=
  { m with program := m.program.tail, operands := m.operands.drop n, steps := m.steps + 1 }

theorem Running.next?_op {A : NodeId → Prop} {m : Machine} (held : List NodeId) {op : Op}
    {line : Option Nat} {R : Program} {O S : List Operand} {B : List NodeId} (h : Running A m)
    (hs : Stacks (.op op line :: R) (O ++ S) B m) (hlen : O.length = op.arity) :
    m.next? held = some (settled line (MachineM.perform op O.reverse
      (Pins.of fun _ => held) (m.performing op.arity))) := by
  rw [Machine.next?_of_cons hs.program, MachineM.runItem_op_apply, MachineM.tick_apply]
  simp only [h.plain.maxSteps]
  have hlt : ¬ m.operands.length < op.arity := by simp [hs.operands]; omega
  have htake : m.operands.take op.arity = O := by rw [hs.operands, List.take_left' hlen]
  have hm : m.performing op.arity =
      { m with program := R, operands := m.operands.drop op.arity, steps := m.steps + 1 } := by
    rw [Machine.performing, hs.program, List.tail_cons]
  rw [MachineM.runOp_apply, if_neg hlt, htake, hm]
  dsimp only
  cases MachineM.perform op O.reverse (Pins.of fun _ => held)
    { m with program := R, operands := m.operands.drop op.arity, steps := m.steps + 1 } <;> rfl

theorem Follows.act {A : NodeId → Prop} {m : Machine} {held heldE ids : List NodeId} {op : Op}
    {line : Option Nat} {R : Program} {O S : List Operand} {B : List NodeId} {α β : Type} {n : Nat}
    {x : MachineM α} {y : α → MachineM Effect} {f : α → EvalM β} {L : β → Machine → Prop}
    (hm : Running A m) (hs : Stacks (.op op line :: R) (O ++ S) B m) (hlen : O.length = op.arity)
    (hp : ∀ pins, MachineM.perform op O.reverse pins (m.performing op.arity) =
      (x >>= y) pins (m.performing op.arity))
    (hx : Stackless x) (hh : Holds held R S B (ids ++ heldE))
    (hf : ∀ a pins pins' b, x pins' m.bare = .ok a b → b.bare = b →
      m.next? held = some (settled line (y a pins ((m.performing op.arity).atop b))) →
      Follows held n m (f a heldE b) L) :
    Follows held n m ((EvalM.act line ids x >>= f) heldE m.bare) L := by
  have hnext := hm.next?_op held hs hlen
  rw [hp, MachineM.bind_apply] at hnext
  have hstack : ∀ id, id ∈ (Pins.of fun _ => ids ++ heldE).get ↔
      id ∈ (Pins.of fun _ => held).get ∨ id ∈ (m.performing op.arity).stackNodes := by
    intro id
    simp only [Pins.mem_of, hh id, Machine.stackNodes, Machine.performing, hs.program, hs.operands,
      hs.builders, List.drop_left' hlen, List.mem_append, List.tail_cons, or_assoc]
  have hact := hx (Pins.of fun _ => held) (Pins.of fun _ => ids ++ heldE) (m.performing op.arity) hstack
  have hbare : (m.performing op.arity).bare = m.bare := rfl
  rw [hbare] at hact
  show Follows held n m (EvalM.bind (EvalM.act line ids x) f heldE m.bare) _
  unfold EvalM.bind EvalM.act
  cases hr : x (Pins.of fun _ => ids ++ heldE) m.bare with
  | error failure b =>
    rw [hr] at hact
    rw [hact.2] at hnext
    exact ⟨0, m, _, .refl m, hnext, hact.1⟩
  | ok a b =>
    rw [hr] at hact
    rw [hact.2] at hnext
    exact hf a _ _ b hr hact.1 hnext

/-! ## Code that does what the evaluator does -/

section Runs

variable {α β : Type}

/-- The addresses are those of the operands, the code and the open clusters. -/
def Covers (ids : List NodeId) (O : List Operand) (code : Program) (bs : List NodeId) : Prop :=
  ∀ id, id ∈ ids ↔ id ∈ O.filterMap Operand.node? ∨ id ∈ programNodes code ∨ id ∈ bs

theorem Covers.holds {held ids bs B heldE : List NodeId} {O S : List Operand} {c R : Program}
    (hc : Covers ids O c bs) (hh : Holds held R S B heldE) :
    Holds held (c ++ R) (O ++ S) (bs ++ B) (ids ++ heldE) := by
  intro id
  simp only [List.mem_append, hc id, hh id, programNodes_append, List.filterMap_append]
  grind

/-- On top of any stacks the code does what the evaluator does, and leaves the operands that `out` says.
It uses up the operands `O` and closes the clusters `bs`. -/
def Runs (held : List NodeId) (A : NodeId → Prop) (n : Nat) (bs : List NodeId) (O : List Operand)
    (code : Program) (x : EvalM α) (out : α → List Operand) : Prop :=
  ∀ (m : Machine) (R : Program) (S : List Operand) (B heldE : List NodeId), Running A m →
    Stacks (code ++ R) (O ++ S) (bs ++ B) m → Holds held R S B heldE →
    Follows held n m (x heldE m.bare) fun a m' => Stacks R (out a ++ S) B m'

namespace Runs

variable {held : List NodeId} {A : NodeId → Prop} {n n' : Nat} {bs ids : List NodeId}
  {O : List Operand} {code c : Program} {x : EvalM α} {f : α → EvalM β} {out : α → List Operand}
  {out' : β → List Operand} {line : Option Nat} {op : Op}

theorem mono (h : Runs held A n bs O code x out) (hn : n' ≤ n) : Runs held A n' bs O code x out :=
  fun m R S B heldE hm hs hh => (h m R S B heldE hm hs hh).mono hn

theorem ret {a : α} (h : out a = O) : Runs held A n [] O [] (pure a) out := by
  intro m R S B heldE _ hs _
  refine Follows.ret ?_
  rw [h]
  exact hs

theorem value {v : Value} (h : Runs held A n bs (.value v :: O) c x out) :
    Runs held A n bs O (.value v :: c) x out := by
  intro m R S B heldE hm hs hh
  have hn : m.next? held = some _ := Machine.next?_of_cons hs.program
  have hs' : Stacks (c ++ R) (.value v :: O ++ S) (bs ++ B)
      { m with program := c ++ R, operands := .value v :: m.operands } :=
    ⟨rfl, by rw [hs.operands]; rfl, hs.builders⟩
  exact ((h _ R S B heldE (hm.next hn) hs' hh).after (.one hn)).mono (Nat.le_succ n)

theorem var {name : Name} (h : Runs held A n bs (.var name :: O) c x out) :
    Runs held A n bs O (.var name :: c) x out := by
  intro m R S B heldE hm hs hh
  have hn : m.next? held = some _ := Machine.next?_of_cons hs.program
  have hs' : Stacks (c ++ R) (.var name :: O ++ S) (bs ++ B)
      { m with program := c ++ R, operands := .var name :: m.operands } :=
    ⟨rfl, by rw [hs.operands]; rfl, hs.builders⟩
  exact ((h _ R S B heldE (hm.next hn) hs' hh).after (.one hn)).mono (Nat.le_succ n)

theorem error {failure : Failure} :
    Runs held A n bs O (.error failure :: c) (EvalM.fail failure : EvalM α) out := by
  intro m R S B heldE _ hs _
  exact ⟨0, m, _, .refl m, Machine.next?_of_cons hs.program, rfl⟩

/-- Code that runs while what comes after it is held. -/
theorem hold (hc : Covers ids O c bs) (hx : Runs held A n [] [] code x out)
    (hf : ∀ a heldE m m', x heldE m = some (.ok a m') → Runs held A n bs (out a ++ O) c (f a) out') :
    Runs held A n bs O (code ++ c) (EvalM.holding ids x >>= f) out' := by
  intro m R S B heldE hm hs hh
  rw [List.append_assoc] at hs
  refine Follows.bind (hx m (c ++ R) (O ++ S) (bs ++ B) _ hm hs (hc.holds hh)) fun a m' k ha hk hs' => ?_
  rw [← List.append_assoc] at hs'
  exact hf a _ _ _ ha m' R S B heldE (hm.steps hk) hs' hh

theorem seq (hc : programNodes c = []) (hx : Runs held A n [] [] code x out)
    (hf : ∀ a heldE m m', x heldE m = some (.ok a m') → Runs held A n [] (out a) c (f a) out') :
    Runs held A n [] [] (code ++ c) (x >>= f) out' := by
  have hcovers : Covers [] [] c [] := by simp [Covers, hc]
  refine hold hcovers hx fun a heldE m m' ha => ?_
  rw [List.append_nil]
  exact hf a heldE m m' ha

theorem step {x : MachineM α} {g : α → Effect} {T : List Operand} (hlen : O.length = op.arity)
    (hp : ∀ pins m, m.config.Plain →
      MachineM.perform op O.reverse pins m = (g <$> x) pins m)
    (hx : Stackless x) (hc : Covers ids T c bs)
    (hf : ∀ a m pins b, Running A m → (∀ o ∈ O, o ∈ m.operands) → x pins m.bare = .ok a b →
      Runs held A n bs ((g a).operands ++ T) ((g a).items? ++ c) (f a) out') :
    Runs held A (n + 1) bs (O ++ T) (.op op line :: c) (EvalM.act line ids x >>= f) out' := by
  intro m R S B heldE hm hs hh
  have hh' := hc.holds hh
  rw [List.append_assoc] at hs
  refine Follows.act (y := fun a => pure (g a)) hm hs hlen
    (fun pins => ?_) hx hh' fun a _ pins b ha hb hnext => ?_
  · rw [hp pins (m.performing op.arity) hm.plain, map_eq_pure_bind]
  · have hO : ∀ o ∈ O, o ∈ m.operands := fun o ho => by
      rw [hs.operands]
      exact List.mem_append_left _ ho
    have hs' : Stacks (((g a).items? ++ c) ++ R) (((g a).operands ++ T) ++ S) (bs ++ B)
        ((g a).settle ((m.performing op.arity).atop b)) := by
      rw [Effect.settle_eq]
      refine ⟨?_, ?_, hs.builders⟩
      · simp [Machine.atop, Machine.performing, hs.program]
      · simp [Machine.atop, Machine.performing, hs.operands, List.drop_left' hlen]
    have hb' : ((g a).settle ((m.performing op.arity).atop b)).bare = b := by
      rw [Effect.settle_eq]
      exact hb
    have := hf a m pins b hm hO ha _ R S B heldE (hm.next hnext) hs' hh
    rw [hb'] at this
    exact this.after (.one hnext)

theorem actValue {x : MachineM Value} (hlen : O.length = op.arity)
    (hp : ∀ pins m, MachineM.perform op O.reverse pins m = (Effect.value <$> x) pins m)
    (hx : Stackless x) :
    Runs held A n [] O [.op op line] (EvalM.act line [] x) fun v => [.value v] := by
  have hc : Covers [] [] [] [] := by simp [Covers]
  rw [← List.append_nil O, ← EvalM.bind_pure (EvalM.act line [] x)]
  exact (step hlen (fun pins m _ => hp pins m) hx hc fun _ _ _ _ _ _ _ => ret rfl).mono
    (Nat.le_succ n)

theorem actDone {x : MachineM α} {T : List Operand} (hlen : O.length = op.arity)
    (hp : ∀ pins m, MachineM.perform op O.reverse pins m = ((fun _ => Effect.done) <$> x) pins m)
    (hx : Stackless x) (hc : Covers ids T c bs)
    (hf : ∀ a, Runs held A n bs T c (f a) out') :
    Runs held A n bs (O ++ T) (.op op line :: c) (EvalM.act line ids x >>= f) out' :=
  (step hlen (fun pins m _ => hp pins m) hx hc fun a _ _ _ _ _ _ => hf a).mono
    (Nat.le_succ n)

theorem vars {names : List Name}
    (h : Runs held A n bs ((names.map Operand.var).reverse ++ O) c x out) :
    Runs held A n bs O (names.map Item.var ++ c) x out := by
  induction names generalizing O with
  | nil => exact h
  | cons name names ih =>
    refine var (ih ?_)
    simpa using h

end Runs

end Runs

end Mosaic
