import Mosaic.Proofs.Globals.Tame

/-!
# Code that spares a binding

After a name was bound in the frame of a block, the rest of the bindings spares it if it neither binds the name
again nor assigns a field of it, which would bind it to a copy. `Sparing x T d K Q` says this of the program `Q`
up to its end `T`, which is the end of the block. Above the frame of the block there are `d` frames that the code
has pushed itself, and there it may bind what it likes. As in tame code, the operands `K` are on top of the stack.
-/

namespace Mosaic

theorem not_mem_append_iff {x : Name} {l l' : List Name} : x ∉ l ++ l' ↔ x ∉ l ∧ x ∉ l' :=
  List.mem_append.not.trans not_or

/-- The program up to `T` leaves what the name `x` is bound to below `d` frames as it is, and does not end the
block of that frame. The operands `K` are on top of the stack, the last one first. -/
inductive Sparing (x : Name) (T : Program) : Nat → List Operand → Program → Prop
  | done (K : List Operand) : Sparing x T 0 K T
  | value {d : Nat} {K : List Operand} {Q : Program} (v : Value) (rest : Sparing x T d [] Q) :
    Sparing x T d K (.value v :: Q)
  | var {d : Nat} {K : List Operand} {Q : Program} (name : Name) (rest : Sparing x T d (.var name :: K) Q) :
    Sparing x T d K (.var name :: Q)
  | error {d : Nat} {K : List Operand} {Q : Program} (failure : Failure) (rest : Sparing x T d [] Q) :
    Sparing x T d K (.error failure :: Q)
  | fieldRef {d : Nat} {K : List Operand} {Q : Program} {binding field : Name} (line : Option Nat)
    (rest : Sparing x T d (.value (.fieldRef binding field) :: K) Q) :
    Sparing x T d (.var binding :: K) (.op (.getFieldRef field) line :: Q)
  | setField {d n : Nat} {K : List Operand} {Q : Program} (line : Option Nat) (known : n ≤ K.length)
    (spares : ∀ binding field, .value (.fieldRef binding field) ∈ K.take n → binding ≠ x)
    (rest : Sparing x T d [] Q) : Sparing x T d K (.op (.setField n) line :: Q)
  | assign {d : Nat} {K : List Operand} {Q : Program} (line : Option Nat) (names : List Name)
    (spares : d = 0 → x ∉ names) (rest : Sparing x T d [] Q) :
    Sparing x T d (names.reverse.map .var ++ K) (.op (.assign names.length) line :: Q)
  | pushFrame {d : Nat} {K : List Operand} {Q : Program} (line : Option Nat) (rest : Sparing x T (d + 1) [] Q) :
    Sparing x T d K (.op .pushFrame line :: Q)
  | popFrame {d : Nat} {K : List Operand} {Q : Program} (line : Option Nat) (rest : Sparing x T d [] Q) :
    Sparing x T (d + 1) K (.op .popFrame line :: Q)
  | branch {d : Nat} {K : List Operand} {yes no Q : Program} (line : Option Nat)
    (taken : Sparing x T d [] (yes ++ Q)) (other : Sparing x T d [] (no ++ Q)) (rest : Sparing x T d [] Q) :
    Sparing x T d K (.op (.branch yes no) line :: Q)
  | iterate {d index : Nat} {K : List Operand} {var : Name} {Q : Program} (line inner : Option Nat) (e : Expr)
    (spares : x ∉ e.assigned) (rest : Sparing x T d [] Q) :
    Sparing x T d K (.op (.iterate var index (e.compileAt inner)) line :: Q)
  | mild {d : Nat} {K : List Operand} {Q : Program} {op : Op} (line : Option Nat) (h : op.Mild)
    (own : op = .setDependencies → d ≠ 0) (rest : Sparing x T d [] Q) : Sparing x T d K (.op op line :: Q)

namespace Sparing

variable {x : Name} {T : Program} {d : Nat} {K L : List Operand} {Q : Program} {line : Option Nat}

theorem append (h : Sparing x T d K Q) : Sparing x T d (K ++ L) Q := by
  induction h with
  | done K => exact .done _
  | value v rest _ => exact .value v rest
  | var name _ ih => exact .var name ih
  | error failure rest _ => exact .error failure rest
  | fieldRef line _ ih => exact .fieldRef line ih
  | setField line known spares rest _ =>
    refine .setField line ?_ ?_ rest
    · exact Nat.le_trans known (List.length_append ▸ Nat.le_add_right ..)
    · rwa [List.take_append_of_le_length known]
  | assign line names spares rest _ =>
    rw [List.append_assoc]
    exact .assign line names spares rest
  | pushFrame line rest _ => exact .pushFrame line rest
  | popFrame line rest _ => exact .popFrame line rest
  | branch line taken other rest _ _ _ => exact .branch line taken other rest
  | iterate line inner e spares rest _ => exact .iterate line inner e spares rest
  | mild line h own rest _ => exact .mild line h own rest

theorem vars {names : List Name} (h : Sparing x T d (names.reverse.map .var ++ K) Q) :
    Sparing x T d K (names.map Item.var ++ Q) := by
  induction names generalizing K with
  | nil => exact h
  | cons name names ih =>
    refine .var name (ih ?_)
    simpa using h

theorem fieldTargets {targets : List (Name × Name)}
    (h : Sparing x T d (targets.reverse.map (fun t => .value (.fieldRef t.1 t.2)) ++ K) Q) :
    Sparing x T d K (Mosaic.fieldTargets line targets ++ Q) := by
  induction targets generalizing K with
  | nil => exact h
  | cons target targets ih =>
    obtain ⟨binding, field⟩ := target
    refine .var binding (.fieldRef line (ih ?_))
    simpa using h

theorem suffix (h : Sparing x T d K Q) : T <:+ Q := by
  induction h with
  | done => exact List.suffix_rfl
  | value _ _ ih | var _ _ ih | error _ _ ih | fieldRef _ _ ih | setField _ _ _ _ ih | assign _ _ _ _ ih
  | pushFrame _ _ ih | popFrame _ _ ih | branch _ _ _ _ _ _ ih | iterate _ _ _ _ _ ih | mild _ _ _ _ ih =>
    exact ih.trans (List.suffix_cons ..)

/-- At the end of the block, its frame is the innermost one. -/
theorem depth_eq (h : Sparing x T d K Q) (hQ : Q = T) : d = 0 := by
  have hlonger : ∀ {item : Item} {Q : Program}, T <:+ Q → item :: Q ≠ T := fun hsuffix heq => by
    have hle := hsuffix.length_le
    rw [← heq, List.length_cons] at hle
    exact Nat.not_succ_le_self _ hle
  cases h with
  | done => rfl
  | value _ rest | var _ rest | error _ rest | fieldRef _ rest | setField _ _ _ rest | assign _ _ _ rest
  | pushFrame _ rest | popFrame _ rest | branch _ _ _ rest | iterate _ _ _ _ rest | mild _ _ _ rest =>
    exact (hlonger rest.suffix hQ).elim

end Sparing

/-! ## Compiled code -/

/-- The code can be run in front of every program that spares the name. -/
def Spares (x : Name) (T : Program) (code : Program) : Prop :=
  ∀ (d : Nat) (Q : Program), Sparing x T d [] Q → Sparing x T d [] (code ++ Q)

section

variable {x : Name} {T code code' : Program} {op : Op} {line : Option Nat}

theorem Spares.append (h : Spares x T code) (h' : Spares x T code') : Spares x T (code ++ code') := by
  intro d Q hQ
  rw [List.append_assoc]
  exact h d _ (h' d Q hQ)

theorem Spares.nil : Spares x T [] := fun _ _ hQ => hQ

theorem Spares.value (v : Value) : Spares x T [.value v] := fun _ _ hQ => .value v hQ

theorem Spares.mild (h : op.Mild) (hne : op ≠ .setDependencies) : Spares x T [.op op line] :=
  fun _ _ hQ => .mild line h (fun heq => (hne heq).elim) hQ

theorem Spares.opVar (name : Name) (h : op.Mild) (hne : op ≠ .setDependencies) :
    Spares x T [.var name, .op op line] :=
  fun _ _ hQ => .var name (.mild line h (fun heq => (hne heq).elim) hQ)

theorem Spares.callPrimitive (name : Name) (args : Nat) : Spares x T [Mosaic.callPrimitive name args line] := by
  intro d Q hQ
  unfold Mosaic.callPrimitive
  split
  · split
    · exact .mild line trivial nofun hQ
    · exact .error _ hQ
  · exact .error _ hQ

mutual

/-- The code of an expression that assigns no field of the name spares it. -/
theorem Expr.spares_compileAt (line : Option Nat) : ∀ e : Expr, x ∉ e.assigned → Spares x T (e.compileAt line)
  | .number n, _ => .value (.number n)
  | .text s, _ => .value (.text s)
  | .bool b, _ => .value (.bool b)
  | .nil, _ => .value .nil
  | .var name, _ => .opVar name trivial nofun
  | .cluster items, h => (spares_compileAll line items h).append (.mild trivial nofun)
  | .binary _ lhs rhs, h =>
    have h := not_mem_append_iff.1 h
    ((lhs.spares_compileAt line h.1).append (rhs.spares_compileAt line h.2)).append (.mild trivial nofun)
  | .unary _ operand, h => (operand.spares_compileAt line h).append (.mild trivial nofun)
  | .primitive name args, h => (spares_compileAll line args h).append (.callPrimitive name args.length)
  | .cond test yes no, h => by
    obtain ⟨⟨htest, hyes⟩, hno⟩ := (not_mem_append_iff.1 h).imp_left not_mem_append_iff.1
    refine (test.spares_compileAt line htest).append fun d Q hQ => ?_
    exact .branch line (yes.spares_compileAt line hyes d Q hQ) (no.spares_compileAt line hno d Q hQ) hQ
  | .letIn bindings body, h => by
    obtain ⟨hbindings, hbody⟩ := not_mem_append_iff.1 h
    intro d Q hQ
    -- The block has a frame of its own, where it may bind any name.
    refine .pushFrame line ?_
    show Sparing x T (d + 1) [] ((compileBindings line bindings ++ _) ++ Q)
    rw [List.append_assoc]
    refine spares_compileBindings line bindings hbindings (d + 1) _ nofun (.mild line trivial nofun ?_)
    show Sparing x T (d + 1) [] ((body.compileAt line ++ _) ++ Q)
    rw [List.append_assoc]
    exact body.spares_compileAt line hbody _ _ (.popFrame line hQ)
  | .lambda label params body, _ => .opVar label trivial nofun
  | .call callee args, h => by
    obtain ⟨hcallee, hargs⟩ := not_mem_append_iff.1 h
    rcases Expr.compileAt_call line callee args with ⟨name, _, _, hcode⟩ | hcode <;> rw [hcode]
    · exact .opVar name trivial nofun
    · exact ((callee.spares_compileAt line hcallee).append (spares_compileAll line args hargs)).append
        (.mild trivial nofun)
  | .field object _, h => (object.spares_compileAt line h).append (.mild trivial nofun)
  | .comprehension var source body, h => by
    obtain ⟨hsource, hbody⟩ := not_mem_append_iff.1 h
    exact (source.spares_compileAt line hsource).append fun d Q hQ => .iterate line line body hbody hQ
  | .located inner e, h => e.spares_compileAt (some inner) h

theorem spares_compileAll (line : Option Nat) :
    ∀ es : List Expr, x ∉ assignedAll es → Spares x T (compileAll line es)
  | [], _ => .nil
  | e :: es, h =>
    have h := not_mem_append_iff.1 h
    (e.spares_compileAt line h.1).append (spares_compileAll line es h.2)

/-- In the frame of the block itself, the bindings must not bind the name. -/
theorem spares_compileBindings (line : Option Nat) :
    ∀ bs : List Binding, x ∉ assignedBindings bs → ∀ (d : Nat) (Q : Program),
      (d = 0 → x ∉ bs.flatMap Binding.targets) → Sparing x T d [] Q →
        Sparing x T d [] (compileBindings line bs ++ Q)
  | [], _ => fun _ _ _ hQ => hQ
  | .bind targets value :: bs, h => by
    obtain ⟨hvalue, hbs⟩ := not_mem_append_iff.1 h
    intro d Q hd hQ
    have hd : (d = 0 → x ∉ targets) ∧ (d = 0 → x ∉ bs.flatMap Binding.targets) :=
      ⟨fun h0 hmem => hd h0 (List.mem_append_left _ hmem), fun h0 hmem => hd h0 (List.mem_append_right _ hmem)⟩
    simp only [compileBindings, List.append_assoc, List.cons_append]
    refine value.spares_compileAt line hvalue _ _ (.vars (.assign line targets hd.1 ?_))
    exact spares_compileBindings line bs hbs d Q hd.2 hQ
  | .setField targets value :: bs, h => by
    obtain ⟨⟨hvalue, htargets⟩, hbs⟩ := (not_mem_append_iff.1 h).imp_left not_mem_append_iff.1
    intro d Q hd hQ
    simp only [compileBindings, List.append_assoc, List.cons_append]
    refine value.spares_compileAt line hvalue _ _ (.fieldTargets (.setField line (by simp) ?_
      (spares_compileBindings line bs hbs d Q hd hQ)))
    rintro binding field hmem rfl
    obtain ⟨t, ht, heq⟩ := List.mem_map.1 (List.append_nil _ ▸ List.mem_of_mem_take hmem)
    cases heq
    exact htargets (List.mem_map_of_mem (List.mem_reverse.1 ht))

end

theorem Sparing.round {d index : Nat} {Q : Program} {var : Name} {e : Expr} (hQ : Sparing x T d [] Q)
    (inner : Option Nat) (source element : Value) (spares : x ∉ e.assigned) :
    Sparing x T d [] (MachineM.round var index (e.compileAt inner) source element ++ Q) := by
  simp only [MachineM.round, List.append_assoc, List.cons_append, List.nil_append]
  refine .pushFrame none (.value element (.var var (.assign none [var] (fun h => (Nat.succ_ne_zero d h).elim) ?_)))
  refine e.spares_compileAt inner spares _ _ (.popFrame none (.value source ?_))
  exact .iterate none inner e spares hQ

end

end Mosaic
