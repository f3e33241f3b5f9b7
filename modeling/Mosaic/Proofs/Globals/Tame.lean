import Mosaic.Proofs.Machine.Step

/-!
# Code that is tame

The code of an expression binds names only in frames that it has pushed itself. Of the names that were bound
before, it rebinds those whose fields it assigns (`Expr.assigned`). `Tame W d K Q` says this of the program
`Q`, run with `d` frames of its own and with the operands `K` on top of the stack: the rights to assign
fields are operands, and what they are rights to is in the text right before the assignment. What is done by
the lambdas that are called is not a part of it.
-/

namespace Mosaic

/-! ## Names whose fields are assigned -/

mutual

/-- The names whose fields the expression assigns outside the bodies of lambdas. -/
def Expr.assigned : Expr → List Name
  | .number _ | .text _ | .bool _ | .nil | .var _ | .lambda .. => []
  | .cluster items => assignedAll items
  | .binary _ lhs rhs => lhs.assigned ++ rhs.assigned
  | .unary _ operand => operand.assigned
  | .primitive _ args => assignedAll args
  | .cond test yes no => test.assigned ++ yes.assigned ++ no.assigned
  | .letIn bindings body => assignedBindings bindings ++ body.assigned
  | .call callee args => callee.assigned ++ assignedAll args
  | .field object _ => object.assigned
  | .comprehension _ source body => source.assigned ++ body.assigned
  | .located _ e => e.assigned

def assignedAll : List Expr → List Name
  | [] => []
  | e :: es => e.assigned ++ assignedAll es

def assignedBindings : List Binding → List Name
  | [] => []
  | .bind _ value :: bs => value.assigned ++ assignedBindings bs
  | .setField targets value :: bs => value.assigned ++ targets.map Prod.fst ++ assignedBindings bs

end

/-! ## Tame programs -/

/-- The operation neither pushes nor pops frames or contexts by itself, and binds and rebinds no name. -/
def Op.Mild : Op → Prop
  | .getVariable | .apply _ | .getField _ | .makeLambda .. | .setDependencies | .call _ | .memoize _ => True
  | _ => False

/-- The program binds names only in the frames that it pushes, of which there are `d` now, and else rebinds
only names in `W`. The operands `K` are on top of the stack, the last one first. -/
inductive Tame (W : Name → Prop) : Nat → List Operand → Program → Prop
  | nil (K : List Operand) : Tame W 0 K []
  | value {d : Nat} {K : List Operand} {Q : Program} (v : Value) (rest : Tame W d [] Q) :
    Tame W d K (.value v :: Q)
  | var {d : Nat} {K : List Operand} {Q : Program} (name : Name) (rest : Tame W d (.var name :: K) Q) :
    Tame W d K (.var name :: Q)
  | error {d : Nat} {K : List Operand} {Q : Program} (failure : Failure) : Tame W d K (.error failure :: Q)
  | fieldRef {d : Nat} {K : List Operand} {Q : Program} {binding field : Name} (line : Option Nat)
    (rest : Tame W d (.value (.fieldRef binding field) :: K) Q) :
    Tame W d (.var binding :: K) (.op (.getFieldRef field) line :: Q)
  | setField {d n : Nat} {K : List Operand} {Q : Program} (line : Option Nat) (known : n ≤ K.length)
    (spares : ∀ binding field, .value (.fieldRef binding field) ∈ K.take n → W binding)
    (rest : Tame W d [] Q) : Tame W d K (.op (.setField n) line :: Q)
  | assign {d n : Nat} {K : List Operand} {Q : Program} (line : Option Nat) (own : d ≠ 0)
    (rest : Tame W d [] Q) : Tame W d K (.op (.assign n) line :: Q)
  | pushFrame {d : Nat} {K : List Operand} {Q : Program} (line : Option Nat) (rest : Tame W (d + 1) [] Q) :
    Tame W d K (.op .pushFrame line :: Q)
  | popFrame {d : Nat} {K : List Operand} {Q : Program} (line : Option Nat) (rest : Tame W d [] Q) :
    Tame W (d + 1) K (.op .popFrame line :: Q)
  | branch {d : Nat} {K : List Operand} {yes no Q : Program} (line : Option Nat)
    (taken : Tame W d [] (yes ++ Q)) (other : Tame W d [] (no ++ Q)) :
    Tame W d K (.op (.branch yes no) line :: Q)
  | iterate {d index : Nat} {K : List Operand} {var : Name} {Q : Program} (line inner : Option Nat) (e : Expr)
    (spares : ∀ name ∈ e.assigned, W name) (rest : Tame W d [] Q) :
    Tame W d K (.op (.iterate var index (e.compileAt inner)) line :: Q)
  | mild {d : Nat} {K : List Operand} {Q : Program} {op : Op} (line : Option Nat) (h : op.Mild)
    (rest : Tame W d [] Q) : Tame W d K (.op op line :: Q)

namespace Tame

variable {W : Name → Prop} {d : Nat} {K L : List Operand} {Q : Program} {line : Option Nat}

theorem append (h : Tame W d K Q) : Tame W d (K ++ L) Q := by
  induction h with
  | nil K => exact .nil _
  | value v rest _ => exact .value v rest
  | var name _ ih => exact .var name ih
  | error failure => exact .error failure
  | fieldRef line _ ih => exact .fieldRef line ih
  | setField line known spares rest _ =>
    refine .setField line ?_ ?_ rest
    · exact Nat.le_trans known (List.length_append ▸ Nat.le_add_right ..)
    · rwa [List.take_append_of_le_length known]
  | assign line own rest _ => exact .assign line own rest
  | pushFrame line rest _ => exact .pushFrame line rest
  | popFrame line rest _ => exact .popFrame line rest
  | branch line taken other _ _ => exact .branch line taken other
  | iterate line inner e spares rest _ => exact .iterate line inner e spares rest
  | mild line h rest _ => exact .mild line h rest

theorem forget (h : Tame W d [] Q) : Tame W d K Q := h.append

theorem vars {names : List Name} (h : Tame W d [] Q) : Tame W d K (names.map Item.var ++ Q) := by
  induction names generalizing K with
  | nil => exact h.forget
  | cons name names ih => exact .var name ih

theorem fieldTargets {targets : List (Name × Name)}
    (h : Tame W d (targets.reverse.map (fun t => .value (.fieldRef t.1 t.2)) ++ K) Q) :
    Tame W d K (Mosaic.fieldTargets line targets ++ Q) := by
  induction targets generalizing K with
  | nil => exact h
  | cons target targets ih =>
    obtain ⟨binding, field⟩ := target
    refine .var binding (.fieldRef line (ih ?_))
    simpa using h

end Tame

/-! ## Compiled code -/

/-- The code can be run in front of every tame program. -/
def Gentle (W : Name → Prop) (code : Program) : Prop :=
  ∀ (d : Nat) (Q : Program), Tame W d [] Q → Tame W d [] (code ++ Q)

section

variable {W : Name → Prop} {code code' : Program} {op : Op} {line : Option Nat}

theorem Gentle.append (h : Gentle W code) (h' : Gentle W code') : Gentle W (code ++ code') := by
  intro d Q hQ
  rw [List.append_assoc]
  exact h d _ (h' d Q hQ)

theorem Gentle.nil : Gentle W [] := fun _ _ hQ => hQ

theorem Gentle.value (v : Value) : Gentle W [.value v] := fun _ _ hQ => .value v hQ

theorem Gentle.mild (h : op.Mild) : Gentle W [.op op line] := fun _ _ hQ => .mild line h hQ

theorem Gentle.opVar (name : Name) (h : op.Mild) : Gentle W [.var name, .op op line] :=
  fun _ _ hQ => .var name (.mild line h hQ)

theorem Gentle.callPrimitive (name : Name) (args : Nat) : Gentle W [Mosaic.callPrimitive name args line] := by
  intro d Q hQ
  unfold Mosaic.callPrimitive
  split
  · split
    · exact .mild line trivial hQ
    · exact .error _
  · exact .error _

mutual

/-- The code of an expression is tame, and rebinds at most the names whose fields it assigns. -/
theorem Expr.gentle_compileAt (line : Option Nat) :
    ∀ e : Expr, (∀ name ∈ e.assigned, W name) → Gentle W (e.compileAt line)
  | .number n, _ => .value (.number n)
  | .text s, _ => .value (.text s)
  | .bool b, _ => .value (.bool b)
  | .nil, _ => .value .nil
  | .var name, _ => .opVar name trivial
  | .cluster items, h => (gentle_compileAll line items h).append (.mild trivial)
  | .binary _ lhs rhs, h =>
    have h := List.forall_mem_append.1 h
    ((lhs.gentle_compileAt line h.1).append (rhs.gentle_compileAt line h.2)).append (.mild trivial)
  | .unary _ operand, h => (operand.gentle_compileAt line h).append (.mild trivial)
  | .primitive name args, h => (gentle_compileAll line args h).append (.callPrimitive name args.length)
  | .cond test yes no, h => by
    obtain ⟨⟨htest, hyes⟩, hno⟩ := (List.forall_mem_append.1 h).imp_left List.forall_mem_append.1
    refine (test.gentle_compileAt line htest).append fun d Q hQ => ?_
    exact .branch line (yes.gentle_compileAt line hyes d Q hQ) (no.gentle_compileAt line hno d Q hQ)
  | .letIn bindings body, h => by
    obtain ⟨hbindings, hbody⟩ := List.forall_mem_append.1 h
    intro d Q hQ
    -- The names of the block are bound in its own frame.
    refine .pushFrame line ?_
    show Tame W (d + 1) [] ((compileBindings line bindings ++ _) ++ Q)
    rw [List.append_assoc]
    refine gentle_compileBindings line bindings hbindings d _ (.mild line trivial ?_)
    show Tame W (d + 1) [] ((body.compileAt line ++ _) ++ Q)
    rw [List.append_assoc]
    exact body.gentle_compileAt line hbody _ _ (.popFrame line hQ)
  | .lambda label params body, _ => .opVar label trivial
  | .call callee args, h => by
    obtain ⟨hcallee, hargs⟩ := List.forall_mem_append.1 h
    rcases Expr.compileAt_call line callee args with ⟨name, _, _, hcode⟩ | hcode <;> rw [hcode]
    · exact .opVar name trivial
    · exact ((callee.gentle_compileAt line hcallee).append (gentle_compileAll line args hargs)).append
        (.mild trivial)
  | .field object _, h => (object.gentle_compileAt line h).append (.mild trivial)
  | .comprehension var source body, h => by
    obtain ⟨hsource, hbody⟩ := List.forall_mem_append.1 h
    exact (source.gentle_compileAt line hsource).append fun d Q hQ => .iterate line line body hbody hQ
  | .located inner e, h => e.gentle_compileAt (some inner) h

theorem gentle_compileAll (line : Option Nat) :
    ∀ es : List Expr, (∀ name ∈ assignedAll es, W name) → Gentle W (compileAll line es)
  | [], _ => .nil
  | e :: es, h =>
    have h := List.forall_mem_append.1 h
    (e.gentle_compileAt line h.1).append (gentle_compileAll line es h.2)

theorem gentle_compileBindings (line : Option Nat) :
    ∀ bs : List Binding, (∀ name ∈ assignedBindings bs, W name) → ∀ (d : Nat) (Q : Program),
      Tame W (d + 1) [] Q → Tame W (d + 1) [] (compileBindings line bs ++ Q)
  | [], _ => fun _ _ hQ => hQ
  | .bind targets value :: bs, h => by
    obtain ⟨hvalue, hbs⟩ := List.forall_mem_append.1 h
    intro d Q hQ
    simp only [compileBindings, List.append_assoc, List.cons_append]
    refine value.gentle_compileAt line hvalue _ _ (.vars ?_)
    exact .assign line (Nat.succ_ne_zero d) (gentle_compileBindings line bs hbs d Q hQ)
  | .setField targets value :: bs, h => by
    obtain ⟨⟨hvalue, htargets⟩, hbs⟩ := (List.forall_mem_append.1 h).imp_left List.forall_mem_append.1
    intro d Q hQ
    simp only [compileBindings, List.append_assoc, List.cons_append]
    refine value.gentle_compileAt line hvalue _ _ (.fieldTargets (.setField line (by simp) ?_
      (gentle_compileBindings line bs hbs d Q hQ)))
    intro binding field hmem
    obtain ⟨t, ht, heq⟩ := List.mem_map.1 (List.append_nil _ ▸ List.mem_of_mem_take hmem)
    cases heq
    exact htargets t.1 (List.mem_map_of_mem (List.mem_reverse.1 ht))

end

theorem Tame.round {d index : Nat} {Q : Program} {var : Name} {e : Expr} (hQ : Tame W d [] Q)
    (inner : Option Nat) (source element : Value) (spares : ∀ name ∈ e.assigned, W name) :
    Tame W d [] (MachineM.round var index (e.compileAt inner) source element ++ Q) := by
  simp only [MachineM.round, List.append_assoc, List.cons_append, List.nil_append]
  refine .pushFrame none (.value element (.var var (.assign none (Nat.succ_ne_zero d) ?_)))
  refine e.gentle_compileAt inner spares _ _ (.popFrame none (.value source ?_))
  exact .iterate none inner e spares hQ

theorem Tame.unfold {d : Nat} {K : List Operand} {Q p : Program} (h : Tame W d K (.op op line :: Q))
    (hshifts : ¬ op.Shifts) (hright : ∀ field, op ≠ .getFieldRef field) (hp : op.Unfolds p) :
    Tame W d [] (p ++ Q) := by
  cases h with
  | fieldRef => exact (hright _ rfl).elim
  | pushFrame | popFrame => exact (hshifts trivial).elim
  | setField line known spares rest =>
    obtain rfl : p = [] := hp
    exact rest
  | assign line own rest =>
    obtain rfl : p = [] := hp
    exact rest
  | branch line taken other =>
    rcases hp with rfl | rfl
    · exact taken
    · exact other
  | iterate line inner e spares rest =>
    rcases hp with rfl | ⟨source, element, rfl⟩
    · exact rest
    · exact rest.round inner source element spares
  | mild line hmild rest =>
    obtain rfl : p = [] := by
      cases op with
      | branch | iterate => exact hmild.elim
      | _ => exact hp
    exact rest

end

end Mosaic
