import Mathlib.Algebra.Group.Nat.Defs
import Mosaic.Expr.Compile
import Mosaic.Machine.Basic
import Mosaic.Proofs.Literals
import Mosaic.Proofs.Store.Confined

/-!
# What code does to the stacks

A shape says what the stacks of a machine look like above some base: for each operand whether it is a
value or a variable, how many frames each context has, and how many clusters are open. `Flow G σ Q τ`
says that the program `Q` leads from the shape `σ` to the shape `τ` if it comes to its end, that every
operation in it finds its operands, and, if `G` holds, a frame to work in. The code of an expression
pushes one value and changes nothing else (`Expr.yields_compileAt`).
-/

namespace Mosaic

/-! ## Code -/

mutual

/-- No call has more arguments, and no binding more targets, than can be counted together with the
callee or the value. -/
def Expr.Countable : Expr → Prop
  | .number _ | .text _ | .bool _ | .nil | .var _ => True
  | .cluster items => CountableAll items
  | .binary _ lhs rhs => lhs.Countable ∧ rhs.Countable
  | .unary _ operand => operand.Countable
  | .primitive _ args => CountableAll args
  | .cond test yes no => test.Countable ∧ yes.Countable ∧ no.Countable
  | .letIn bindings body => CountableBindings bindings ∧ body.Countable
  | .lambda _ _ body => body.Countable
  | .call callee args => args.length + 1 < 2 ^ 64 ∧ callee.Countable ∧ CountableAll args
  | .field object _ => object.Countable
  | .comprehension _ source body => source.Countable ∧ body.Countable
  | .located _ e => e.Countable

def CountableAll : List Expr → Prop
  | [] => True
  | e :: es => e.Countable ∧ CountableAll es

def CountableBindings : List Binding → Prop
  | [] => True
  | .bind targets value :: bs =>
    targets.length + 1 < 2 ^ 64 ∧ value.Countable ∧ CountableBindings bs
  | .setField targets value :: bs =>
    targets.length + 1 < 2 ^ 64 ∧ value.Countable ∧ CountableBindings bs

end

/-- The program is the code of an expression. -/
def IsCode (body : Program) : Prop :=
  ∃ (line : Option Nat) (e : Expr), e.Countable ∧ body = e.compileAt line

/-- What may follow the end of a call: its result is remembered. -/
def IsMemoize (p : Program) : Prop := p = [] ∨ ∃ key, p = [.op (.memoize key) none]

/-! ## Shapes -/

/-- What an operand is. -/
inductive Slot where
  | value
  | var
deriving DecidableEq, Repr

def Operand.slot : Operand → Slot
  | value _ => .value
  | var _ => .var

/-- How many frames the contexts have, the innermost first, and how many clusters are open. -/
structure Depth where
  frames : List Nat
  builders : Nat

structure Shape where
  /-- The operands, the last one first. -/
  slots : List Slot
  depth : Depth

namespace Shape

def push (σ : Shape) (slot : Slot) : Shape := { σ with slots := slot :: σ.slots }

/-- There is an innermost frame. -/
def Open (σ : Shape) : Prop := ∃ n ns, σ.depth.frames = (n + 1) :: ns

end Shape

namespace Op

/-- What the operation takes, the last operand first. -/
def slots : Op → List Slot
  | getVariable | getFieldRef _ | makeLambda .. => [.var]
  | pushContext | popContext | pushFrame | popFrame | setDependencies => []
  | assign n => .replicate n .var ++ [.value]
  | setField n | call n => .replicate (n + 1) .value
  | apply f => .replicate f.arity .value
  | getField _ | branch .. | memoize _ => [.value]
  | iterate _ index _ => .replicate (if index = 0 then 1 else 2) .value

/-- What the operation puts on the stack in the end, after the items that it leaves to be run. -/
def yields : Op → List Slot
  | pushContext | popContext | pushFrame | popFrame | setDependencies | assign _ | setField _ => []
  | _ => [.value]

/-- How the operation changes the depth, if it can. -/
def move : Op → Depth → Option Depth
  | pushFrame, ⟨n :: ns, b⟩ => some ⟨(n + 1) :: ns, b⟩
  | popFrame, ⟨(n + 1) :: ns, b⟩ => some ⟨n :: ns, b⟩
  | popContext, ⟨_ :: ns, b⟩ => some ⟨ns, b⟩
  | iterate _ (_ + 1) _, ⟨ns, b + 1⟩ => some ⟨ns, b⟩
  | pushFrame, _ | popFrame, _ | popContext, _ | iterate _ (_ + 1) _, _ => none
  | _, d => some d

/-- Whether the operation works on the innermost open cluster. -/
def Closes : Op → Prop
  | iterate _ (_ + 1) _ => True
  | _ => False

theorem not_closes_of_move {op : Op} {d : Depth} (h : op.move d = some d) : ¬ op.Closes := by
  cases op with
  | iterate var index body =>
    cases index with
    | zero => exact id
    | succ index =>
      obtain ⟨ns, b⟩ := d
      cases b with
      | zero => cases h
      | succ b =>
        simp only [move, Option.some.injEq, Depth.mk.injEq, true_and] at h
        omega
  | _ => exact id

/-- What the operation mentions is code, and what it takes can be counted. Code does not enter
contexts by itself. -/
def Sound : Op → Prop
  | pushContext => False
  | branch yes no => IsCode yes ∧ IsCode no
  | iterate _ _ body | makeLambda _ body _ => IsCode body
  | assign n | setField n | call n => n + 1 < 2 ^ 64
  | _ => True

theorem length_slots {op : Op} (h : op.Sound) : op.slots.length = op.arity := by
  cases op with
  | assign n | setField n | call n =>
    simp only [slots, arity, List.length_append, List.length_replicate, List.length_singleton]
    exact (Nat.mod_eq_of_lt h).symm
  | iterate var index body => simp [slots, arity]
  | apply f => simp [slots, arity]
  | _ => rfl

end Op

/-- The program leads from one shape to another. -/
inductive Flow (G : Prop) : Shape → Program → Shape → Prop
  | nil (σ : Shape) : Flow G σ [] σ
  | value {σ τ : Shape} {Q : Program} (v : Value) (rest : Flow G (σ.push .value) Q τ) :
    Flow G σ (.value v :: Q) τ
  | var {σ τ : Shape} {Q : Program} (name : Name) (rest : Flow G (σ.push .var) Q τ) :
    Flow G σ (.var name :: Q) τ
  | error {σ τ : Shape} {Q : Program} {failure : Failure}
    (h : failure.cause.isStructural = false) (ready : G → σ.Open) : Flow G σ (.error failure :: Q) τ
  | op {σ τ : Shape} {Q : Program} {op : Op} {S : List Slot} (line : Option Nat) (sound : op.Sound)
    (slots : σ.slots = op.slots ++ S) (cluster : op.Closes → σ.depth.builders ≠ 0)
    (ready : G → σ.Open ∧ ∃ d, op.move σ.depth = some d)
    (rest : ∀ d, op.move σ.depth = some d → Flow G ⟨op.yields ++ S, d⟩ Q τ) :
    Flow G σ (.op op line :: Q) τ

/-- The code pushes a value and changes nothing else. -/
def Yields (G : Prop) (code : Program) : Prop :=
  ∀ (σ τ : Shape) (Q : Program), (G → σ.Open) → Flow G (σ.push .value) Q τ → Flow G σ (code ++ Q) τ

/-- The code pushes so many values and changes nothing else. -/
def YieldsAll (G : Prop) (n : Nat) (code : Program) : Prop :=
  ∀ (σ τ : Shape) (Q : Program), (G → σ.Open) →
    Flow G { σ with slots := .replicate n .value ++ σ.slots } Q τ → Flow G σ (code ++ Q) τ

namespace Flow

variable {G : Prop} {σ τ : Shape} {Q : Program} {op : Op} {line : Option Nat} {S : List Slot}

/-- If there is a frame at the end, there is one all along. -/
theorem opened (h : Flow True σ Q τ) (hτ : τ.Open) : σ.Open := by
  induction h with
  | nil => exact hτ
  | value _ _ ih | var _ _ ih => exact ih hτ
  | error _ ready => exact ready trivial
  | op _ _ _ _ ready _ _ => exact (ready trivial).1

theorem plain (sound : op.Sound) (hσ : G → σ.Open) (hm : op.move σ.depth = some σ.depth)
    (hs : σ.slots = op.slots ++ S)
    (rest : Flow G ⟨op.yields ++ S, σ.depth⟩ Q τ) : Flow G σ (.op op line :: Q) τ := by
  refine .op line sound hs (fun h => absurd h (Op.not_closes_of_move hm)) (fun h => ⟨hσ h, _, hm⟩)
    fun d hd => ?_
  rw [hm] at hd
  cases hd
  exact rest

theorem vars {names : List Name}
    (h : Flow G { σ with slots := .replicate names.length .var ++ σ.slots } Q τ) :
    Flow G σ (names.map Item.var ++ Q) τ := by
  induction names generalizing σ with
  | nil => exact h
  | cons name names ih =>
    refine .var name (ih (σ := σ.push .var) ?_)
    rw [List.length_cons, List.replicate_succ'] at h
    simpa [Shape.push] using h

theorem fieldTargets {targets : List (Name × Name)} (hσ : G → σ.Open)
    (h : Flow G { σ with slots := .replicate targets.length .value ++ σ.slots } Q τ) :
    Flow G σ (fieldTargets line targets ++ Q) τ := by
  induction targets generalizing σ with
  | nil => exact h
  | cons target targets ih =>
    obtain ⟨binding, field⟩ := target
    refine .var binding (plain trivial hσ rfl (S := σ.slots) rfl ?_)
    refine ih (σ := σ.push .value) hσ ?_
    rw [List.length_cons, List.replicate_succ'] at h
    simpa [Shape.push] using h

end Flow

/-! ## Compiled code -/

section Compile

variable {G : Prop}

theorem Yields.append {code : Program} {n : Nat} {codes : Program} (h : Yields G code)
    (hs : YieldsAll G n codes) : YieldsAll G (n + 1) (code ++ codes) := by
  intro σ τ Q hσ hQ
  rw [List.append_assoc]
  refine h _ _ _ hσ (hs (σ.push .value) _ _ hσ ?_)
  rw [List.replicate_succ'] at hQ
  simpa [Shape.push] using hQ

theorem YieldsAll.op {n : Nat} {code : Program} {op : Op} {line : Option Nat}
    (h : YieldsAll G n code) (sound : op.Sound) (hs : op.slots = .replicate n .value)
    (hy : op.yields = [.value]) (hm : ∀ d, op.move d = some d) : Yields G (code ++ [.op op line]) := by
  intro σ τ Q hσ hQ
  rw [List.append_assoc]
  refine h _ _ _ hσ (.plain sound hσ (hm _) (S := σ.slots) (by rw [hs]) ?_)
  rw [hy]
  exact hQ

theorem Yields.all {code : Program} (h : Yields G code) : YieldsAll G 1 code :=
  fun _ _ _ hσ hQ => h _ _ _ hσ hQ

theorem Yields.value (v : Value) : Yields G [.value v] :=
  fun _ _ _ _ hQ => .value v hQ

theorem Yields.variable (name : Name) (line : Option Nat) :
    Yields G [.var name, .op .getVariable line] :=
  fun _ _ _ hσ hQ => .var name (.plain trivial hσ rfl rfl hQ)

theorem yields_callPrimitive {name : Name} {args : Nat} {line : Option Nat} {code : Program}
    (h : YieldsAll G args code) : Yields G (code ++ [callPrimitive name args line]) := by
  unfold callPrimitive
  split
  · split
    · rename_i f _ hf
      refine YieldsAll.op h ?_ (by rw [Op.slots, hf]) rfl fun _ => rfl
      trivial
    · intro σ τ Q hσ hQ
      rw [List.append_assoc]
      exact h _ _ _ hσ (.error rfl hσ)
  · intro σ τ Q hσ hQ
    rw [List.append_assoc]
    exact h _ _ _ hσ (.error rfl hσ)

theorem YieldsAll.then {first code : Program} (h : YieldsAll G 0 first) (hc : Yields G code) :
    Yields G (first ++ code) := by
  intro σ τ Q hσ hQ
  rw [List.append_assoc]
  exact h σ τ _ hσ (hc σ τ Q hσ hQ)

theorem Yields.framed {code : Program} {line : Option Nat} (h : Yields G code) :
    Yields G (.op .pushFrame line :: (code ++ [.op .popFrame line])) := by
  intro σ τ Q hσ hQ
  obtain ⟨S, ns, b⟩ := σ
  refine .op line trivial rfl False.elim (fun hG => ⟨hσ hG, ?_⟩) fun d hd => ?_
  · obtain ⟨n, ns', hns⟩ := hσ hG
    cases hns
    exact ⟨_, rfl⟩
  cases ns with
  | nil => cases hd
  | cons n ns =>
    cases hd
    have hopen : G → Shape.Open ⟨S, (n + 1) :: ns, b⟩ := fun _ => ⟨n, ns, rfl⟩
    show Flow G _ ((code ++ [.op .popFrame line]) ++ Q) τ
    rw [List.append_assoc]
    refine h ⟨S, (n + 1) :: ns, b⟩ _ _ hopen
      (.op line trivial rfl False.elim (fun hG => ⟨hopen hG, _, rfl⟩) fun d hd => ?_)
    cases hd
    exact hQ

mutual

/-- The code of an expression pushes its value, and changes nothing else. -/
theorem Expr.yields_compileAt (line : Option Nat) :
    ∀ e : Expr, e.Countable → Yields G (e.compileAt line)
  | .number n, _ => Yields.value (.number n)
  | .text s, _ => Yields.value (.text s)
  | .bool b, _ => Yields.value (.bool b)
  | .nil, _ => Yields.value .nil
  | .var name, _ => Yields.variable name line
  | .cluster items, h => (yields_compileAll line items h).op trivial rfl rfl fun _ => rfl
  | .binary op lhs rhs, h => by
    have ha := (Expr.yields_compileAt line lhs h.1).append (Expr.yields_compileAt line rhs h.2).all
    exact ha.op trivial (by cases op <;> rfl) rfl fun _ => rfl
  | .unary op operand, h =>
    (Expr.yields_compileAt line operand h).all.op trivial (by cases op <;> rfl) rfl fun _ => rfl
  | .primitive name args, h => yields_callPrimitive (yields_compileAll line args h)
  | .cond test yes no, h =>
    (Expr.yields_compileAt line test h.1).all.op
      ⟨⟨line, yes, h.2.1, rfl⟩, ⟨line, no, h.2.2, rfl⟩⟩ rfl rfl fun _ => rfl
  | .letIn bindings body, h => by
    have hdeps : YieldsAll G 0 [.op .setDependencies line] :=
      fun _ _ _ hσ hQ => .plain trivial hσ rfl rfl hQ
    have hbody := (yields_compileBindings line bindings h.1).then
      (hdeps.then (Expr.yields_compileAt line body h.2))
    simpa [Expr.compileAt] using Yields.framed hbody
  | .lambda label params body, h =>
    fun _ _ _ hσ hQ => .var label (.plain ⟨line, body, h, rfl⟩ hσ rfl rfl hQ)
  | .call callee args, h => by
    rcases Expr.compileAt_call line callee args with ⟨name, _, _, hcode⟩ | hcode <;> rw [hcode]
    · exact Yields.variable name line
    · exact ((Expr.yields_compileAt line callee h.2.1).append (yields_compileAll line args h.2.2)).op
        h.1 rfl rfl fun _ => rfl
  | .field object name, h =>
    (Expr.yields_compileAt line object h).all.op trivial rfl rfl fun _ => rfl
  | .comprehension var source body, h =>
    (Expr.yields_compileAt line source h.1).all.op ⟨line, body, h.2, rfl⟩ rfl rfl fun _ => rfl
  | .located inner e, h => Expr.yields_compileAt (some inner) e h

theorem yields_compileAll (line : Option Nat) :
    ∀ es : List Expr, CountableAll es → YieldsAll G es.length (compileAll line es)
  | [], _ => fun _ _ _ _ hQ => hQ
  | e :: es, h => (Expr.yields_compileAt line e h.1).append (yields_compileAll line es h.2)

theorem yields_compileBindings (line : Option Nat) :
    ∀ bs : List Binding, CountableBindings bs → YieldsAll G 0 (compileBindings line bs)
  | [], _ => fun _ _ _ _ hQ => hQ
  | .bind targets value :: bs, h => by
    intro σ τ Q hσ hQ
    have hrest := yields_compileBindings line bs h.2.2 σ τ Q hσ hQ
    simp only [compileBindings, List.append_assoc, List.cons_append]
    refine Expr.yields_compileAt line value h.2.1 σ _ _ hσ (.vars ?_)
    refine .plain h.1 hσ rfl (S := σ.slots) ?_ hrest
    simp [Op.slots, Shape.push]
  | .setField targets value :: bs, h => by
    intro σ τ Q hσ hQ
    have hrest := yields_compileBindings line bs h.2.2 σ τ Q hσ hQ
    simp only [compileBindings, List.append_assoc, List.cons_append]
    refine Expr.yields_compileAt line value h.2.1 σ _ _ hσ (.fieldTargets hσ ?_)
    refine .plain h.1 hσ rfl (S := σ.slots) ?_ hrest
    simp [Op.slots, Shape.push, List.replicate_succ']

end

end Compile

end Mosaic
