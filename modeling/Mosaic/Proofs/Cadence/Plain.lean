import Mosaic.Proofs.Literals
import Mosaic.Proofs.Maps
import Mosaic.Proofs.Store.Actions

/-!
# Programs without objects

The text of a plain program names no node, and the failures in it, which are what its error items stop a
run with, have causes of a given kind. The code of an expression is plain, and none of its failures is one
of the graph.
-/

namespace Mosaic

open Mosaic.Graph (NodeId)

/-- If the bodies of the lambdas name no nodes, the objects own no handles. -/
theorem tethers_eq_nil {p : Graph.Pool Object}
    (h : ∀ (id : NodeId) e l, p.entries[id]? = some e → e.node = .lambda l → programNodes l.body = []) :
    p.tethers = [] := by
  rw [Graph.Pool.tethers, List.flatMap_eq_nil_iff]
  intro e he
  obtain ⟨id, he⟩ := mem_values.1 he
  cases hnode : e.node with
  | lambda l => exact programTethers_eq_nil.2 (h id e l he hnode)
  | _ => rfl

mutual

/-- The failures in the text of an item. -/
def Item.failures : Item → List Failure
  | .error failure => [failure]
  | .op op _ => op.failures
  | _ => []

def Op.failures : Op → List Failure
  | .branch yes no => programFailures yes ++ programFailures no
  | .iterate _ _ body => programFailures body
  | .makeLambda _ body _ => programFailures body
  | _ => []

/-- The failures in the text of a program. -/
def programFailures : List Item → List Failure
  | [] => []
  | item :: items => item.failures ++ programFailures items

end

@[simp] theorem programFailures_nil : programFailures [] = [] := rfl

@[simp] theorem programFailures_cons (item : Item) (items : Program) :
    programFailures (item :: items) = item.failures ++ programFailures items := rfl

@[simp] theorem programFailures_append (p q : Program) :
    programFailures (p ++ q) = programFailures p ++ programFailures q := by
  induction p with
  | nil => rfl
  | cons item p ih => simp [ih]

/-! ## Plain programs -/

section

variable {C : Cause → Prop} {p q : Program} {line : Option Nat}

/-- The text of the item names no node, and its failures have causes in `C`. -/
def Item.Plain (C : Cause → Prop) (item : Item) : Prop :=
  item.nodes = [] ∧ ∀ failure ∈ item.failures, C failure.cause

def Plain (C : Cause → Prop) (p : Program) : Prop := ∀ item ∈ p, item.Plain C

theorem plain_iff : Plain C p ↔ programNodes p = [] ∧ ∀ failure ∈ programFailures p, C failure.cause := by
  induction p with
  | nil => simp [Plain]
  | cons item p ih =>
    rw [Plain, List.forall_mem_cons, ← Plain, ih, Item.Plain, programNodes_cons, programFailures_cons,
      List.append_eq_nil_iff, List.forall_mem_append]
    exact and_and_and_comm

theorem plain_branch : (Item.op (.branch p q) line).Plain C ↔ Plain C p ∧ Plain C q := by
  rw [plain_iff, plain_iff, Item.Plain, Item.nodes, Op.nodes, Item.failures, Op.failures,
    List.append_eq_nil_iff, List.forall_mem_append]
  exact and_and_and_comm

theorem plain_iterate {var : Name} {index : Nat} :
    (Item.op (.iterate var index p) line).Plain C ↔ Plain C p := by
  rw [plain_iff, Item.Plain, Item.nodes, Op.nodes, Item.failures, Op.failures]

theorem plain_makeLambda {params free : List Name} :
    (Item.op (.makeLambda params p free) line).Plain C ↔ Plain C p := by
  rw [plain_iff, Item.Plain, Item.nodes, Op.nodes, Item.failures, Op.failures]

end

/-- An error item in the text of the program has the cause. -/
def Asks (p : Program) (cause : Cause) : Prop := ∃ failure ∈ programFailures p, failure.cause = cause

theorem plain_asks {p : Program} (h : programNodes p = []) : Plain (Asks p) p :=
  plain_iff.2 ⟨h, fun failure hf => ⟨failure, hf, rfl⟩⟩

/-! ## Compiled code -/

/-- A failure in a text: it is not one of the graph, and tells no calls. -/
def Failure.Textual (f : Failure) : Prop := f.cause.isGraph = false ∧ f.backtrace = []

def Textual (p : Program) : Prop := ∀ failure ∈ programFailures p, failure.Textual

/-- No failure in the text is one of the graph. -/
def Sober (p : Program) : Prop := ∀ failure ∈ programFailures p, failure.cause.isGraph = false

theorem Sober.not_asks {p : Program} (h : Sober p) {cause : Cause} (hc : cause.isGraph = true) :
    ¬ Asks p cause := by
  rintro ⟨failure, hf, rfl⟩
  rw [h failure hf] at hc
  cases hc

section Compile

variable {p q : Program}

theorem textual_append : Textual (p ++ q) ↔ Textual p ∧ Textual q := by
  rw [Textual, programFailures_append, List.forall_mem_append]
  rfl

theorem textual_cons {item : Item} :
    Textual (item :: p) ↔ (∀ failure ∈ item.failures, failure.Textual) ∧ Textual p := by
  rw [Textual, programFailures_cons, List.forall_mem_append]
  rfl

theorem textual_nil : Textual [] := by simp [Textual]

theorem textual_vars (names : List Name) : Textual (names.map Item.var) := by
  induction names with
  | nil => exact textual_nil
  | cons name names ih => exact textual_cons.2 ⟨by simp [Item.failures], ih⟩

theorem textual_fieldTargets (line : Option Nat) (targets : List (Name × Name)) :
    Textual (fieldTargets line targets) := by
  induction targets with
  | nil => exact textual_nil
  | cons target targets ih =>
    exact textual_cons.2 ⟨by simp [Item.failures], textual_cons.2 ⟨by simp [Item.failures, Op.failures], ih⟩⟩

theorem textual_op {op : Op} {line : Option Nat} (h : op.failures = []) : Textual [.op op line] :=
  textual_cons.2 ⟨by simp [Item.failures, h], textual_nil⟩

theorem textual_callPrimitive (name : Name) (args : Nat) (line : Option Nat) :
    Textual [callPrimitive name args line] := by
  refine textual_cons.2 ⟨?_, textual_nil⟩
  unfold callPrimitive
  split
  · split
    · simp [Item.failures, Op.failures]
    · exact List.forall_mem_singleton.2 ⟨rfl, rfl⟩
  · exact List.forall_mem_singleton.2 ⟨rfl, rfl⟩

mutual

theorem Expr.textual_compileAt (line : Option Nat) : ∀ e : Expr, Textual (e.compileAt line)
  | .number _ | .text _ | .bool _ | .nil => textual_cons.2 ⟨by simp [Item.failures], textual_nil⟩
  | .var _ => textual_cons.2 ⟨by simp [Item.failures], textual_op rfl⟩
  | .cluster items => textual_append.2 ⟨textual_compileAll line items, textual_op rfl⟩
  | .binary _ lhs rhs =>
    textual_append.2 ⟨textual_append.2 ⟨lhs.textual_compileAt line, rhs.textual_compileAt line⟩,
      textual_op rfl⟩
  | .unary _ operand => textual_append.2 ⟨operand.textual_compileAt line, textual_op rfl⟩
  | .primitive name args =>
    textual_append.2 ⟨textual_compileAll line args, textual_callPrimitive name args.length line⟩
  | .cond test yes no =>
    textual_append.2 ⟨test.textual_compileAt line, textual_cons.2 ⟨List.forall_mem_append.2
      ⟨yes.textual_compileAt line, no.textual_compileAt line⟩, textual_nil⟩⟩
  | .letIn bindings body =>
    textual_cons.2 ⟨by simp [Item.failures, Op.failures],
      textual_append.2 ⟨textual_compileBindings line bindings,
        textual_cons.2 ⟨by simp [Item.failures, Op.failures],
          textual_append.2 ⟨body.textual_compileAt line, textual_op rfl⟩⟩⟩⟩
  | .lambda _ _ body =>
    textual_cons.2 ⟨by simp [Item.failures], textual_cons.2 ⟨body.textual_compileAt line, textual_nil⟩⟩
  | .call callee args => by
    rcases Expr.compileAt_call line callee args with ⟨name, _, _, hcode⟩ | hcode <;> rw [hcode]
    · exact textual_cons.2 ⟨by simp [Item.failures], textual_op rfl⟩
    · exact textual_append.2 ⟨textual_append.2 ⟨callee.textual_compileAt line, textual_compileAll line args⟩,
        textual_op rfl⟩
  | .field object _ => textual_append.2 ⟨object.textual_compileAt line, textual_op rfl⟩
  | .comprehension _ source body =>
    textual_append.2 ⟨source.textual_compileAt line,
      textual_cons.2 ⟨body.textual_compileAt line, textual_nil⟩⟩
  | .located inner e => e.textual_compileAt (some inner)

theorem textual_compileAll (line : Option Nat) : ∀ es : List Expr, Textual (compileAll line es)
  | [] => textual_nil
  | e :: es => textual_append.2 ⟨e.textual_compileAt line, textual_compileAll line es⟩

theorem textual_compileBindings (line : Option Nat) : ∀ bs : List Binding, Textual (compileBindings line bs)
  | [] => textual_nil
  | .bind targets value :: bs =>
    textual_append.2 ⟨textual_append.2 ⟨value.textual_compileAt line, textual_vars targets⟩,
      textual_cons.2 ⟨by simp [Item.failures, Op.failures], textual_compileBindings line bs⟩⟩
  | .setField targets value :: bs =>
    textual_append.2 ⟨textual_append.2 ⟨value.textual_compileAt line, textual_fieldTargets line targets⟩,
      textual_cons.2 ⟨by simp [Item.failures, Op.failures], textual_compileBindings line bs⟩⟩

end

end Compile

theorem Expr.sober_compileAt (line : Option Nat) (e : Expr) : Sober (e.compileAt line) :=
  fun failure hf => (e.textual_compileAt line failure hf).1

end Mosaic
