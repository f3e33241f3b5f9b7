import Mosaic.Proofs.Dependencies.Demands
import Mosaic.Proofs.Machine.Step

/-!
# Code that is sighted

The code of an expression looks up the names that the expression demands, and those that the code itself has
bound in the frames that it has pushed. `Sighted D ns K Q` says this of the program `Q`: it looks up names in
`D` and names that its own frames bind, where `ns` lists for each of these frames, the innermost first, names
that it binds at least. As in tame code, the operands `K` are on top of the stack: the name that is looked up,
the names that are bound and the rights to assign fields are known from the text.
-/

namespace Mosaic

/-- The name is in `D`, or one of the frames binds it. -/
def Known (D : Name → Prop) (ns : List (List Name)) (n : Name) : Prop := D n ∨ ∃ l ∈ ns, n ∈ l

section

variable {D : Name → Prop} {ns : List (List Name)} {l l' : List Name} {n : Name}

theorem Known.of_nil (h : Known D [] n) : D n := h.resolve_right (by simp)

theorem Known.push (h : Known D ns n) : Known D (l :: ns) n :=
  h.imp_right fun ⟨l', hl', hn⟩ => ⟨l', List.mem_cons_of_mem _ hl', hn⟩

theorem Known.mono (h : Known D (l :: ns) n) (hl : l ⊆ l') : Known D (l' :: ns) n := by
  rcases h with h | ⟨k, hk, hn⟩
  · exact .inl h
  · rcases List.mem_cons.1 hk with rfl | hk
    · exact .inr ⟨l', List.mem_cons_self .., hl hn⟩
    · exact .inr ⟨k, List.mem_cons_of_mem _ hk, hn⟩

theorem Known.head (h : n ∈ l) : Known D (l :: ns) n := .inr ⟨l, List.mem_cons_self .., h⟩

end

/-- The operation looks up no name by itself, and leaves all frames as they are. -/
def Op.Blind : Op → Prop
  | .apply _ | .getField _ | .call _ | .memoize _ => True
  | _ => False

/-- The program looks up only names in `D` and in the frames that it pushes, of which there are those in `ns`
now. The operands `K` are on top of the stack, the last one first. -/
inductive Sighted (D : Name → Prop) : List (List Name) → List Operand → Program → Prop
  | nil (K : List Operand) : Sighted D [] K []
  | value {ns : List (List Name)} {K : List Operand} {Q : Program} (v : Value) (rest : Sighted D ns [] Q) :
    Sighted D ns K (.value v :: Q)
  | var {ns : List (List Name)} {K : List Operand} {Q : Program} (name : Name)
    (rest : Sighted D ns (.var name :: K) Q) : Sighted D ns K (.var name :: Q)
  | error {ns : List (List Name)} {K : List Operand} {Q : Program} (failure : Failure) :
    Sighted D ns K (.error failure :: Q)
  | getVariable {ns : List (List Name)} {K : List Operand} {Q : Program} {name : Name} (line : Option Nat)
    (seen : Known D ns name) (rest : Sighted D ns [] Q) :
    Sighted D ns (.var name :: K) (.op .getVariable line :: Q)
  | fieldRef {ns : List (List Name)} {K : List Operand} {Q : Program} {binding field : Name} (line : Option Nat)
    (seen : Known D ns binding) (rest : Sighted D ns (.value (.fieldRef binding field) :: K) Q) :
    Sighted D ns (.var binding :: K) (.op (.getFieldRef field) line :: Q)
  | setField {ns : List (List Name)} {K : List Operand} {Q : Program} {n : Nat} (line : Option Nat)
    (known : n ≤ K.length)
    (seen : ∀ binding field, .value (.fieldRef binding field) ∈ K.take n → Known D ns binding)
    (rest : Sighted D ns [] Q) : Sighted D ns K (.op (.setField n) line :: Q)
  | assign {ns : List (List Name)} {l : List Name} {K : List Operand} {Q : Program} (line : Option Nat)
    (names : List Name) (rest : Sighted D ((names.reverse ++ l) :: ns) [] Q) :
    Sighted D (l :: ns) (names.reverse.map .var ++ K) (.op (.assign names.length) line :: Q)
  | pushFrame {ns : List (List Name)} {K : List Operand} {Q : Program} (line : Option Nat)
    (rest : Sighted D ([] :: ns) [] Q) : Sighted D ns K (.op .pushFrame line :: Q)
  | popFrame {ns : List (List Name)} {l : List Name} {K : List Operand} {Q : Program} (line : Option Nat)
    (rest : Sighted D ns [] Q) : Sighted D (l :: ns) K (.op .popFrame line :: Q)
  | branch {ns : List (List Name)} {K : List Operand} {yes no Q : Program} (line : Option Nat)
    (taken : Sighted D ns [] (yes ++ Q)) (other : Sighted D ns [] (no ++ Q)) :
    Sighted D ns K (.op (.branch yes no) line :: Q)
  | iterate {ns : List (List Name)} {K : List Operand} {Q : Program} {var : Name} {index : Nat}
    (line inner : Option Nat) (e : Expr) (seen : ∀ name ∈ e.demands, name ≠ var → Known D ns name)
    (rest : Sighted D ns [] Q) : Sighted D ns K (.op (.iterate var index (e.compileAt inner)) line :: Q)
  | makeLambda {ns : List (List Name)} {K : List Operand} {Q : Program} {params free : List Name}
    {body : Program} (line : Option Nat) (seen : ∀ name ∈ free, Known D ns name) (rest : Sighted D ns [] Q) :
    Sighted D ns K (.op (.makeLambda params body free) line :: Q)
  | setDependencies {ns : List (List Name)} {l : List Name} {K : List Operand} {Q : Program} (line : Option Nat)
    (rest : Sighted D (l :: ns) [] Q) : Sighted D (l :: ns) K (.op .setDependencies line :: Q)
  | blind {ns : List (List Name)} {K : List Operand} {Q : Program} {op : Op} (line : Option Nat) (h : op.Blind)
    (rest : Sighted D ns [] Q) : Sighted D ns K (.op op line :: Q)

namespace Sighted

variable {D : Name → Prop} {ns : List (List Name)} {l : List Name} {K L : List Operand} {Q : Program}
  {line : Option Nat}

theorem append (h : Sighted D ns K Q) : Sighted D ns (K ++ L) Q := by
  induction h with
  | nil K => exact .nil _
  | value v rest _ => exact .value v rest
  | var name _ ih => exact .var name ih
  | error failure => exact .error failure
  | getVariable line seen rest _ => exact .getVariable line seen rest
  | fieldRef line seen _ ih => exact .fieldRef line seen ih
  | setField line known seen rest _ =>
    refine .setField line ?_ ?_ rest
    · exact Nat.le_trans known (List.length_append ▸ Nat.le_add_right ..)
    · rwa [List.take_append_of_le_length known]
  | assign line names rest _ =>
    rw [List.append_assoc]
    exact .assign line names rest
  | pushFrame line rest _ => exact .pushFrame line rest
  | popFrame line rest _ => exact .popFrame line rest
  | branch line taken other _ _ => exact .branch line taken other
  | iterate line inner e seen rest _ => exact .iterate line inner e seen rest
  | makeLambda line seen rest _ => exact .makeLambda line seen rest
  | setDependencies line rest _ => exact .setDependencies line rest
  | blind line h rest _ => exact .blind line h rest

theorem vars {names : List Name} (h : Sighted D ns (names.reverse.map .var ++ K) Q) :
    Sighted D ns K (names.map Item.var ++ Q) := by
  induction names generalizing K with
  | nil => exact h
  | cons name names ih =>
    refine .var name (ih ?_)
    simpa using h

theorem fieldTargets {targets : List (Name × Name)} (seen : ∀ t ∈ targets, Known D ns t.1)
    (h : Sighted D ns (targets.reverse.map (fun t => .value (.fieldRef t.1 t.2)) ++ K) Q) :
    Sighted D ns K (Mosaic.fieldTargets line targets ++ Q) := by
  induction targets generalizing K with
  | nil => exact h
  | cons target targets ih =>
    obtain ⟨htarget, htargets⟩ := List.forall_mem_cons.1 seen
    obtain ⟨binding, field⟩ := target
    refine .var binding (.fieldRef line htarget (ih htargets ?_))
    simpa using h

end Sighted

/-! ## Compiled code -/

/-- The code can be run in front of every sighted program, with these frames. -/
def Looks (D : Name → Prop) (ns : List (List Name)) (code : Program) : Prop :=
  ∀ Q, Sighted D ns [] Q → Sighted D ns [] (code ++ Q)

section

variable {D : Name → Prop} {ns : List (List Name)} {code code' : Program} {op : Op} {line : Option Nat}

theorem Looks.append (h : Looks D ns code) (h' : Looks D ns code') : Looks D ns (code ++ code') := by
  intro Q hQ
  rw [List.append_assoc]
  exact h _ (h' Q hQ)

theorem Looks.nil : Looks D ns [] := fun _ hQ => hQ

theorem Looks.value (v : Value) : Looks D ns [.value v] := fun _ hQ => .value v hQ

theorem Looks.blind (h : op.Blind) : Looks D ns [.op op line] := fun _ hQ => .blind line h hQ

theorem Looks.variable {name : Name} (h : Known D ns name) : Looks D ns [.var name, .op .getVariable line] :=
  fun _ hQ => .var name (.getVariable line h hQ)

theorem Looks.callPrimitive (name : Name) (args : Nat) : Looks D ns [Mosaic.callPrimitive name args line] := by
  intro Q hQ
  unfold Mosaic.callPrimitive
  split
  · split
    · exact .blind line trivial hQ
    · exact .error _
  · exact .error _

mutual

/-- The code of an expression looks up what the expression demands. -/
theorem Expr.looks_compileAt (line : Option Nat) :
    ∀ (e : Expr) (ns : List (List Name)), (∀ name ∈ e.demands, Known D ns name) → Looks D ns (e.compileAt line)
  | .number n, _, _ => .value (.number n)
  | .text s, _, _ => .value (.text s)
  | .bool b, _, _ => .value (.bool b)
  | .nil, _, _ => .value .nil
  | .var _, _, h => .variable (h _ (List.mem_singleton.2 rfl))
  | .cluster items, ns, h => (looks_compileAll line items ns h).append (.blind trivial)
  | .binary _ lhs rhs, ns, h =>
    have h := List.forall_mem_append.1 h
    ((lhs.looks_compileAt line ns h.1).append (rhs.looks_compileAt line ns h.2)).append (.blind trivial)
  | .unary _ operand, ns, h => (operand.looks_compileAt line ns h).append (.blind trivial)
  | .primitive name args, ns, h => (looks_compileAll line args ns h).append (.callPrimitive name args.length)
  | .cond test yes no, ns, h => by
    obtain ⟨⟨htest, hyes⟩, hno⟩ := (List.forall_mem_append.1 h).imp_left List.forall_mem_append.1
    refine (test.looks_compileAt line ns htest).append fun Q hQ => ?_
    exact .branch line (yes.looks_compileAt line ns hyes Q hQ) (no.looks_compileAt line ns hno Q hQ)
  | .letIn bindings body, ns, h => by
    intro Q hQ
    refine .pushFrame line ?_
    show Sighted D ([] :: ns) [] ((compileBindings line bindings ++ _) ++ Q)
    rw [List.append_assoc]
    refine looks_compileBindings line bindings ns [] body.demands (fun name hn => (h name hn).push)
      fun l hl => .setDependencies line ?_
    show Sighted D (l :: ns) [] ((body.compileAt line ++ _) ++ Q)
    rw [List.append_assoc]
    exact body.looks_compileAt line _ hl _ (.popFrame line hQ)
  | .lambda label params body, _, h =>
    fun _ hQ => .var label (.makeLambda line (fun name hn => h name (mem_free_ofReads.1 hn)) hQ)
  | .call callee args, ns, h => by
    obtain ⟨hcallee, hargs⟩ := List.forall_mem_append.1 h
    rcases Expr.compileAt_call line callee args with ⟨name, rfl, _, hcode⟩ | hcode <;> rw [hcode]
    · exact .variable (hcallee name (List.mem_singleton.2 rfl))
    · exact ((callee.looks_compileAt line ns hcallee).append (looks_compileAll line args ns hargs)).append
        (.blind trivial)
  | .field object _, ns, h => (object.looks_compileAt line ns h).append (.blind trivial)
  | .comprehension var source body, ns, h => by
    obtain ⟨hsource, hbody⟩ := List.forall_mem_append.1 h
    refine (source.looks_compileAt line ns hsource).append fun Q hQ => .iterate line line body ?_ hQ
    exact fun name hn hne => hbody name (List.mem_filter.2 ⟨hn, by simpa using hne⟩)
  | .located inner e, ns, h => e.looks_compileAt (some inner) ns h

theorem looks_compileAll (line : Option Nat) :
    ∀ (es : List Expr) (ns : List (List Name)), (∀ name ∈ demandsAll es, Known D ns name) →
      Looks D ns (compileAll line es)
  | [], _, _ => .nil
  | e :: es, ns, h =>
    have h := List.forall_mem_append.1 h
    (e.looks_compileAt line ns h.1).append (looks_compileAll line es ns h.2)

/-- The bindings of a block bind names in its frame, `l` to begin with, so that what comes after them can look
these names up, too. -/
theorem looks_compileBindings (line : Option Nat) :
    ∀ (bs : List Binding) (ns : List (List Name)) (l rest : List Name) {Q : Program},
      (∀ name ∈ blockDemands rest bs, Known D (l :: ns) name) →
      (∀ l', (∀ name ∈ rest, Known D (l' :: ns) name) → Sighted D (l' :: ns) [] Q) →
      Sighted D (l :: ns) [] (compileBindings line bs ++ Q)
  | [], _, l, _, _, h, hQ => hQ l h
  | .bind targets value :: bs, ns, l, rest, Q, h, hQ => by
    obtain ⟨hvalue, hbs⟩ := List.forall_mem_append.1 h
    simp only [compileBindings, List.append_assoc, List.cons_append]
    refine value.looks_compileAt line _ hvalue _ (.vars (.assign line targets ?_))
    refine looks_compileBindings line bs ns (targets.reverse ++ l) rest (fun name hn => ?_) hQ
    by_cases htarget : name ∈ targets
    · exact .head (List.mem_append_left _ (List.mem_reverse.2 htarget))
    · exact (hbs name (List.mem_filter.2 ⟨hn, by simpa using htarget⟩)).mono (List.subset_append_right _ l)
  | .setField targets value :: bs, ns, l, rest, Q, h, hQ => by
    obtain ⟨⟨hvalue, htargets⟩, hbs⟩ := (List.forall_mem_append.1 h).imp_left List.forall_mem_append.1
    simp only [compileBindings, List.append_assoc, List.cons_append]
    have hseen : ∀ t ∈ targets, Known D (l :: ns) t.1 := fun t ht => htargets t.1 (List.mem_map_of_mem ht)
    refine value.looks_compileAt line _ hvalue _ (.fieldTargets hseen (.setField line (by simp) ?_
      (looks_compileBindings line bs ns l rest hbs hQ)))
    intro binding field hmem
    obtain ⟨t, ht, heq⟩ := List.mem_map.1 (List.append_nil _ ▸ List.mem_of_mem_take hmem)
    cases heq
    exact hseen t (List.mem_reverse.1 ht)

end

theorem Sighted.round {index : Nat} {Q : Program} {var : Name} {e : Expr} (hQ : Sighted D ns [] Q)
    (inner : Option Nat) (source element : Value) (seen : ∀ name ∈ e.demands, name ≠ var → Known D ns name) :
    Sighted D ns [] (MachineM.round var index (e.compileAt inner) source element ++ Q) := by
  simp only [MachineM.round, List.append_assoc, List.cons_append, List.nil_append]
  have hbody : ∀ name ∈ e.demands, Known D ([var] :: ns) name := by
    intro name hn
    by_cases hvar : name = var
    · exact .head (List.mem_singleton.2 hvar)
    · exact (seen name hn hvar).push
  refine .pushFrame none (.value element (.var var (.assign none [var] ?_)))
  refine e.looks_compileAt inner _ hbody _ (.popFrame none (.value source ?_))
  exact .iterate none inner e seen hQ

end

end Mosaic
