import Mosaic.Expr.Compile
import Mosaic.Program.Literal

/-!
# Compiled code names no nodes

The only values in the code of an expression are the scalars that the expression writes down. So it owns no
handles: a program names just the nodes that its handles are on.
-/

namespace Mosaic

mutual

@[simp] theorem Item.map_tethers : ∀ item : Item, item.tethers.map Prod.snd = item.nodes
  | .value v => by rw [Item.tethers, Item.nodes, List.map_map]; exact List.map_id _
  | .literal .. => rfl
  | .op op _ => Op.map_tethers op
  | .error _ | .var _ => rfl

@[simp] theorem Op.map_tethers : ∀ op : Op, op.tethers.map Prod.snd = op.nodes
  | .branch yes no => by
    rw [Op.tethers, Op.nodes, List.map_append, map_programTethers yes, map_programTethers no]
  | .iterate _ _ body => by rw [Op.tethers, Op.nodes, map_programTethers body]
  | .makeLambda _ body _ => by rw [Op.tethers, Op.nodes, map_programTethers body]
  | .getVariable | .pushContext | .popContext | .pushFrame | .popFrame | .assign _ | .apply _
  | .getField _ | .getFieldRef _ | .setField _ | .setDependencies | .call _ | .memoize _ => rfl

@[simp] theorem map_programTethers : ∀ p : List Item, (programTethers p).map Prod.snd = programNodes p
  | [] => rfl
  | item :: p => by
    rw [programTethers, programNodes, List.map_append, Item.map_tethers item, map_programTethers p]

end

theorem programTethers_eq_nil {p : Program} : programTethers p = [] ↔ programNodes p = [] := by
  rw [← map_programTethers, List.map_eq_nil_iff]

@[simp] theorem programNodes_nil : programNodes [] = [] := rfl

@[simp] theorem programNodes_cons (item : Item) (items : Program) :
    programNodes (item :: items) = item.nodes ++ programNodes items := rfl

@[simp] theorem programNodes_append (p q : Program) :
    programNodes (p ++ q) = programNodes p ++ programNodes q := by
  induction p with
  | nil => rfl
  | cons item p ih => simp [ih]

theorem mem_programNodes {p : Program} {id : Graph.NodeId} :
    id ∈ programNodes p ↔ ∃ item ∈ p, id ∈ item.nodes := by
  induction p with
  | nil => simp
  | cons item p ih => simp [ih]

@[simp] theorem programNodes_vars (names : List Name) : programNodes (names.map Item.var) = [] := by
  induction names with
  | nil => rfl
  | cons name names ih => simpa [Item.nodes] using ih

@[simp] theorem programNodes_fieldTargets (line : Option Nat) (targets : List (Name × Name)) :
    programNodes (fieldTargets line targets) = [] := by
  induction targets with
  | nil => rfl
  | cons target targets ih => simpa [fieldTargets, Item.nodes, Op.nodes] using ih

@[simp] theorem nodes_callPrimitive (name : Name) (args : Nat) (line : Option Nat) :
    (callPrimitive name args line).nodes = [] := by
  unfold callPrimitive
  split
  · split <;> rfl
  · rfl

/-- A call of a bare variable without arguments is the variable; else the callee and the arguments
come first. -/
theorem Expr.compileAt_call (line : Option Nat) (callee : Expr) (args : List Expr) :
    (∃ name, callee = .var name ∧ args = [] ∧
      (Expr.call callee args).compileAt line = [.var name, .op .getVariable line]) ∨
    (Expr.call callee args).compileAt line =
      callee.compileAt line ++ compileAll line args ++ [.op (.call args.length) line] := by
  cases args with
  | nil =>
    cases callee with
    | var name => exact .inl ⟨name, rfl, rfl, rfl⟩
    | _ => exact .inr rfl
  | cons arg args => exact .inr (by cases callee <;> rfl)

theorem Expr.compileAt_call_of_ne (line : Option Nat) {callee : Expr} {args : List Expr}
    (h : args = [] → ∀ name, callee ≠ .var name) :
    (Expr.call callee args).compileAt line =
      callee.compileAt line ++ compileAll line args ++ [.op (.call args.length) line] := by
  rcases Expr.compileAt_call line callee args with ⟨name, hvar, hargs, -⟩ | hcode
  · exact (h hargs name hvar).elim
  · exact hcode

mutual

@[simp] theorem Expr.programNodes_compileAt (line : Option Nat) :
    ∀ e : Expr, programNodes (e.compileAt line) = []
  | .number _ | .text _ | .bool _ | .nil => rfl
  | .var _ => rfl
  | .cluster items => by
    simp [Expr.compileAt, Item.nodes, Op.nodes, programNodes_compileAll line items]
  | .binary _ lhs rhs => by
    simp [Expr.compileAt, Item.nodes, Op.nodes, Expr.programNodes_compileAt line lhs,
      Expr.programNodes_compileAt line rhs]
  | .unary _ operand => by
    simp [Expr.compileAt, Item.nodes, Op.nodes, Expr.programNodes_compileAt line operand]
  | .primitive _ args => by simp [Expr.compileAt, programNodes_compileAll line args]
  | .cond test yes no => by
    simp [Expr.compileAt, Item.nodes, Op.nodes, Expr.programNodes_compileAt line test,
      Expr.programNodes_compileAt line yes, Expr.programNodes_compileAt line no]
  | .letIn bindings body => by
    simp [Expr.compileAt, Item.nodes, Op.nodes, programNodes_compileBindings line bindings,
      Expr.programNodes_compileAt line body]
  | .lambda _ params body => by
    simp [Expr.compileAt, Item.nodes, Op.nodes, Template.op, Template.ofReads,
      Expr.programNodes_compileAt line body]
  | .call callee args => by
    rcases Expr.compileAt_call line callee args with ⟨name, _, _, hcode⟩ | hcode <;> rw [hcode]
    · rfl
    · simp [Item.nodes, Op.nodes, Expr.programNodes_compileAt line callee,
        programNodes_compileAll line args]
  | .field object _ => by
    simp [Expr.compileAt, Item.nodes, Op.nodes, Expr.programNodes_compileAt line object]
  | .comprehension _ source body => by
    simp [Expr.compileAt, Item.nodes, Op.nodes, Expr.programNodes_compileAt line source,
      Expr.programNodes_compileAt line body]
  | .located inner e => by
    rw [Expr.compileAt]
    exact Expr.programNodes_compileAt (some inner) e

@[simp] theorem programNodes_compileAll (line : Option Nat) :
    ∀ es : List Expr, programNodes (compileAll line es) = []
  | [] => rfl
  | e :: es => by
    simp [compileAll, Expr.programNodes_compileAt line e, programNodes_compileAll line es]

@[simp] theorem programNodes_compileBindings (line : Option Nat) :
    ∀ bs : List Binding, programNodes (compileBindings line bs) = []
  | [] => rfl
  | .bind _ value :: bs => by
    simp [compileBindings, Item.nodes, Op.nodes, Expr.programNodes_compileAt line value,
      programNodes_compileBindings line bs]
  | .setField _ value :: bs => by
    simp [compileBindings, Item.nodes, Op.nodes, Expr.programNodes_compileAt line value,
      programNodes_compileBindings line bs]

end

end Mosaic
