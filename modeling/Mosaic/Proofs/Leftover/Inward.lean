import Mosaic.Proofs.Globals.Failed
import Mosaic.Proofs.Leftover.Frugal

/-!
# Code that sets nothing aside in the outermost frame

A lambda with free names that is made outside of every block, and of the bodies of comprehensions and of
lambdas, is set aside in the outermost frame. `Expr.Settled` says that there is none in the expression.
`Inward S ns Q` says of a program, run with so many frames in each context, that it opens contexts by calls
only and remembers no results, and, if `S` holds, that it sets lambdas aside in other frames only. The code of
every expression does, with `S` if the expression is settled, and each step keeps it (`Machine.Thrifty.step`).
-/

namespace Mosaic

open Mosaic.Graph (NodeId)

/-! ## Expressions -/

mutual

/-- Every lambda outside of blocks and of the bodies of comprehensions and lambdas has no free names. -/
def Expr.Settled : Expr → Prop
  | .number _ | .text _ | .bool _ | .nil | .var _ | .letIn .. => True
  | .cluster items => SettledAll items
  | .binary _ lhs rhs => lhs.Settled ∧ rhs.Settled
  | .unary _ operand => operand.Settled
  | .primitive _ args => SettledAll args
  | .cond test yes no => test.Settled ∧ yes.Settled ∧ no.Settled
  | .lambda label params body => (Expr.lambda label params body).reads = []
  | .call callee args => callee.Settled ∧ SettledAll args
  | .field object _ => object.Settled
  | .comprehension _ source _ => source.Settled
  | .located _ e => e.Settled

def SettledAll : List Expr → Prop
  | [] => True
  | e :: es => e.Settled ∧ SettledAll es

end

/-! ## Programs -/

/-- The operation leaves the frames as they are, and only a lambda that it calls is run after it. -/
def Op.Level : Op → Prop
  | .pushContext | .popContext | .pushFrame | .popFrame | .branch .. | .iterate .. | .memoize _ => False
  | _ => True

/-- The program, run with so many frames in each context, remembers nothing, opens contexts by calls only, and
sets lambdas aside in the outermost frame only if `S` does not hold. -/
inductive Inward (S : Prop) : List Nat → Program → Prop
  | nil (ns : List Nat) : Inward S ns []
  | value {ns : List Nat} {Q : Program} (v : Value) (rest : Inward S ns Q) : Inward S ns (.value v :: Q)
  | var {ns : List Nat} {Q : Program} (name : Name) (rest : Inward S ns Q) : Inward S ns (.var name :: Q)
  | error {ns : List Nat} {Q : Program} (failure : Failure) : Inward S ns (.error failure :: Q)
  | pushFrame {n : Nat} {ns : List Nat} {Q : Program} (line : Option Nat) (rest : Inward S ((n + 2) :: ns) Q) :
    Inward S ((n + 1) :: ns) (.op .pushFrame line :: Q)
  | popFrame {n : Nat} {ns : List Nat} {Q : Program} (line : Option Nat) (rest : Inward S ((n + 1) :: ns) Q) :
    Inward S ((n + 2) :: ns) (.op .popFrame line :: Q)
  | popContext {n k : Nat} {ns : List Nat} {Q : Program} (line : Option Nat) (rest : Inward S (k :: ns) Q) :
    Inward S (n :: k :: ns) (.op .popContext line :: Q)
  | branch {ns : List Nat} {yes no Q : Program} (line : Option Nat) (taken : Inward S ns (yes ++ Q))
    (other : Inward S ns (no ++ Q)) : Inward S ns (.op (.branch yes no) line :: Q)
  | iterate {n index : Nat} {ns : List Nat} {var : Name} {Q : Program} (line inner : Option Nat) (e : Expr)
    (rest : Inward S ((n + 1) :: ns) Q) :
    Inward S ((n + 1) :: ns) (.op (.iterate var index (e.compileAt inner)) line :: Q)
  | level {ns : List Nat} {Q : Program} {op : Op} (line : Option Nat) (h : op.Level)
    (parks : S → op.Parks → ns ≠ [1]) (rest : Inward S ns Q) : Inward S ns (.op op line :: Q)

/-- The code can be run in front of every such program. -/
def Inwards (S : Prop) (ns : List Nat) (code : Program) : Prop :=
  ∀ Q : Program, Inward S ns Q → Inward S ns (code ++ Q)

namespace Inwards

variable {S : Prop} {ns : List Nat} {code code' : Program} {line : Option Nat}

theorem nil : Inwards S ns [] := fun _ hQ => hQ

theorem append (h : Inwards S ns code) (h' : Inwards S ns code') : Inwards S ns (code ++ code') := by
  intro Q hQ
  rw [List.append_assoc]
  exact h _ (h' Q hQ)

theorem value (v : Value) : Inwards S ns [.value v] := fun _ hQ => .value v hQ

theorem level {op : Op} (h : op.Level) (hparks : ¬ op.Parks) : Inwards S ns [.op op line] :=
  fun _ hQ => .level line h (fun _ hp => (hparks hp).elim) hQ

theorem vars (names : List Name) : Inwards S ns (names.map Item.var) := by
  induction names with
  | nil => exact nil
  | cons name names ih => exact fun Q hQ => .var name (ih Q hQ)

theorem fieldTargets (targets : List (Name × Name)) : Inwards S ns (Mosaic.fieldTargets line targets) := by
  induction targets with
  | nil => exact nil
  | cons target targets ih =>
    exact fun Q hQ => .var target.1 (.level line trivial (fun _ hp => hp.elim) (ih Q hQ))

theorem callPrimitive (name : Name) (args : Nat) : Inwards S ns [Mosaic.callPrimitive name args line] := by
  intro Q hQ
  unfold Mosaic.callPrimitive
  split
  · split
    · exact .level line trivial (fun _ hp => hp.elim) hQ
    · exact .error _
  · exact .error _

end Inwards

section

variable {S : Prop} {n : Nat} {ns : List Nat}

theorem elim_of_block {P : Prop} : S → (n + 2) :: ns = [1] → P := by
  intro _ heq
  simp at heq

mutual

/-- Where the innermost frame is the outermost one, the expression has to be settled. -/
theorem Expr.inward_compileAt (line : Option Nat) :
    ∀ (e : Expr) (n : Nat) (ns : List Nat), (S → (n + 1) :: ns = [1] → e.Settled) →
      Inwards S ((n + 1) :: ns) (e.compileAt line)
  | .number m, _, _, _ => .value (.number m)
  | .text s, _, _, _ => .value (.text s)
  | .bool b, _, _, _ => .value (.bool b)
  | .nil, _, _, _ => .value .nil
  | .var name, _, _, _ => fun _ hQ => .var name (.level line trivial (fun _ hp => hp.elim) hQ)
  | .cluster items, n, ns, h => (inward_compileAll line items n ns h).append (.level trivial id)
  | .binary _ lhs rhs, n, ns, h =>
    ((lhs.inward_compileAt line n ns fun hS heq => (h hS heq).1).append
      (rhs.inward_compileAt line n ns fun hS heq => (h hS heq).2)).append (.level trivial id)
  | .unary _ operand, n, ns, h => (operand.inward_compileAt line n ns h).append (.level trivial id)
  | .primitive name args, n, ns, h =>
    (inward_compileAll line args n ns h).append (.callPrimitive name args.length)
  | .cond test yes no, n, ns, h =>
    (test.inward_compileAt line n ns fun hS heq => (h hS heq).1).append fun Q hQ => .branch line
      (yes.inward_compileAt line n ns (fun hS heq => (h hS heq).2.1) Q hQ)
      (no.inward_compileAt line n ns (fun hS heq => (h hS heq).2.2) Q hQ)
  | .letIn bindings body, n, ns, _ => by
    intro Q hQ
    refine .pushFrame line ?_
    show Inward S ((n + 2) :: ns) ((compileBindings line bindings ++ _) ++ Q)
    rw [List.append_assoc]
    refine inward_compileBindings line bindings n ns _ (.level line trivial (fun _ hp => hp.elim) ?_)
    show Inward S ((n + 2) :: ns) ((body.compileAt line ++ _) ++ Q)
    rw [List.append_assoc]
    exact body.inward_compileAt line (n + 1) ns elim_of_block _ (.popFrame line hQ)
  | .lambda label params body, n, ns, h => by
    refine fun Q hQ => .var label (.level line trivial (fun hS hparks heq => hparks ?_) hQ)
    show Name.sorted (Expr.lambda label params body).reads = []
    rw [show (Expr.lambda label params body).reads = [] from h hS heq]
    rfl
  | .call callee args, n, ns, h => by
    rcases Expr.compileAt_call line callee args with ⟨name, _, _, hcode⟩ | hcode <;> rw [hcode]
    · exact fun _ hQ => .var name (.level line trivial (fun _ hp => hp.elim) hQ)
    · exact ((callee.inward_compileAt line n ns fun hS heq => (h hS heq).1).append
        (inward_compileAll line args n ns fun hS heq => (h hS heq).2)).append (.level trivial id)
  | .field object _, n, ns, h => (object.inward_compileAt line n ns h).append (.level trivial id)
  | .comprehension var source body, n, ns, h =>
    (source.inward_compileAt line n ns h).append fun _ hQ => .iterate line line body hQ
  | .located inner e, n, ns, h => e.inward_compileAt (some inner) n ns h

theorem inward_compileAll (line : Option Nat) :
    ∀ (es : List Expr) (n : Nat) (ns : List Nat), (S → (n + 1) :: ns = [1] → SettledAll es) →
      Inwards S ((n + 1) :: ns) (compileAll line es)
  | [], _, _, _ => .nil
  | e :: es, n, ns, h => (e.inward_compileAt line n ns fun hS heq => (h hS heq).1).append
      (inward_compileAll line es n ns fun hS heq => (h hS heq).2)

theorem inward_compileBindings (line : Option Nat) :
    ∀ (bs : List Binding) (n : Nat) (ns : List Nat), Inwards S ((n + 2) :: ns) (compileBindings line bs)
  | [], _, _ => .nil
  | .bind targets value :: bs, n, ns => by
    refine ((value.inward_compileAt line (n + 1) ns elim_of_block).append (.vars targets)).append fun Q hQ => ?_
    exact .level line trivial (fun _ hp => hp.elim) (inward_compileBindings line bs n ns Q hQ)
  | .setField targets value :: bs, n, ns => by
    refine ((value.inward_compileAt line (n + 1) ns elim_of_block).append (.fieldTargets targets)).append
      fun Q hQ => ?_
    exact .level line trivial (fun _ hp => hp.elim) (inward_compileBindings line bs n ns Q hQ)

end

theorem Inward.round {index : Nat} {Q : Program} {var : Name} {e : Expr} (hQ : Inward S ((n + 1) :: ns) Q)
    (inner : Option Nat) (source element : Value) :
    Inward S ((n + 1) :: ns) (MachineM.round var index (e.compileAt inner) source element ++ Q) := by
  simp only [MachineM.round, List.append_assoc, List.cons_append, List.nil_append]
  refine .pushFrame none (.value element (.var var (.level none trivial (fun _ hp => hp.elim) ?_)))
  refine e.inward_compileAt inner (n + 1) ns elim_of_block _ (.popFrame none (.value source ?_))
  exact .iterate none inner e hQ

theorem Inward.unfold {op : Op} {line : Option Nat} {Q p : Program} (h : Inward S ns (.op op line :: Q))
    (hshifts : ¬ op.Shifts) (hp : op.Unfolds p) : Inward S ns (p ++ Q) := by
  cases h with
  | pushFrame | popFrame | popContext => exact (hshifts trivial).elim
  | branch line taken other =>
    rcases hp with rfl | rfl
    · exact taken
    · exact other
  | iterate line inner e rest =>
    rcases hp with rfl | ⟨source, element, rfl⟩
    · exact rest
    · exact rest.round inner source element
  | level line hlevel parks rest =>
    obtain rfl : p = [] := by
      cases op with
      | branch | iterate => exact hlevel.elim
      | _ => exact hp
    exact rest

end

end Mosaic
