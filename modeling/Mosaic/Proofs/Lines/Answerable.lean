import Mosaic.Proofs.Lines.Data
import Mosaic.Proofs.Machine.Step

/-!
# Code whose failures have lines

The operations of the code of an expression that stands in a line have that line or an inner one. The machine
adds operations without a line: it opens and closes frames, leaves contexts, goes on with comprehensions and
remembers results. `Answerable O P` says of a program and the operands below it that no other operation is
without a line, and that the values on the operand stack are data where they are taken as such, so that those
that the machine adds have no reason to fail. It holds of compiled code in front of any program that can take
the value (`Expr.answers_compileAt`), and of what an operation leaves to be run (`Op.Brings.answerable`).
-/

namespace Mosaic

open Mosaic.Graph (NodeId)

/-- The program is the code of an expression that stands in a line. -/
def Lined (body : Program) : Prop := ∃ (n : Nat) (e : Expr), e.Countable ∧ body = e.compileAt (some n)

namespace Op

/-- The machine adds operations of this kind while it runs. -/
def Added : Op → Prop
  | pushFrame | popFrame | popContext | memoize _ => True
  | assign n => n = 1
  | iterate _ index _ => index ≠ 0
  | _ => False

/-- What the operation holds is code that stands in a line. -/
def Inked : Op → Prop
  | branch yes no => Lined yes ∧ Lined no
  | iterate _ _ body | makeLambda _ body _ => Lined body
  | _ => True

/-- The source of a comprehension that is under way can be gone through. -/
def Sourced (args : List Operand) : Op → Prop
  | iterate _ (_ + 1) _ => ∃ result source, args = [.value result, .value source] ∧ source.Iterable
  | _ => True

end Op

/-- On these operands the program takes data, and every operation that has a reason to fail has a line. -/
inductive Answerable : List Operand → Program → Prop
  | nil {O : List Operand} : Answerable O []
  | value {O : List Operand} {v : Value} {Q : Program} (rest : Answerable (.value v :: O) Q) :
    Answerable O (.value v :: Q)
  | var {O : List Operand} {name : Name} {Q : Program} (rest : Answerable (.var name :: O) Q) :
    Answerable O (.var name :: Q)
  | error {O : List Operand} {failure : Failure} {Q : Program} (line : failure.line ≠ none) :
    Answerable O (.error failure :: Q)
  | op {O S args : List Operand} {op : Op} {line : Option Nat} {Q : Program} (stamp : line ≠ none ∨ op.Added)
    (inked : op.Inked) (operands : O = args.reverse ++ S) (length : args.length = op.arity)
    (data : op.TakesData args) (source : op.Sourced args) (done : op.yields = [] → Answerable S Q)
    (value : ∀ v, op.Brings (.value v) → Answerable (.value v :: S) Q) : Answerable O (.op op line :: Q)

/-- The code is answerable in front of every program that is with one more datum. -/
def Answers (code : Program) : Prop :=
  ∀ (S : List Operand) (Q : Program), (∀ d, Answerable (.value (.datum d) :: S) Q) → Answerable S (code ++ Q)

/-- It is in front of every program that is with so many data more. -/
def AnswersAll (n : Nat) (code : Program) : Prop :=
  ∀ (S : List Operand) (Q : Program),
    (∀ ds : List Datum, ds.length = n → Answerable ((ds.map fun d => Operand.value (.datum d)).reverse ++ S) Q) →
      Answerable S (code ++ Q)

theorem Op.Brings.isDatum {op : Op} {v : Value} (h : op.Brings (.value v)) (hop : ∀ field, op ≠ .getFieldRef field) :
    v.IsDatum := by
  cases h with
  | datum _ hv => exact hv
  | right => exact (hop _ rfl).elim

theorem Value.Iterable.isDatum {v : Value} (h : v.Iterable) : v.IsDatum := by
  cases v with
  | datum d => exact ⟨d, rfl⟩
  | fieldRef => exact h.elim

theorem Operand.isDatum_var (name : Name) : (Operand.var name).IsDatum := nofun

theorem Operand.isDatum_value {v : Value} (h : v.IsDatum) : (Operand.value v).IsDatum := by
  rintro w hw
  cases hw
  exact h

namespace Answerable

variable {S : List Operand} {Q : Program} {op : Op} {line : Option Nat}

theorem yields (args : List Operand) (stamp : line ≠ none ∨ op.Added) (inked : op.Inked)
    (length : args.length = op.arity) (hargs : ∀ o ∈ args, o.IsDatum) (hsource : op.Sourced args)
    (hy : op.yields = [.value]) (hop : ∀ field, op ≠ .getFieldRef field)
    (rest : ∀ d, Answerable (.value (.datum d) :: S) Q) : Answerable (args.reverse ++ S) (.op op line :: Q) := by
  refine .op stamp inked rfl length ?_ hsource (fun h => ?_) fun v hv => ?_
  · cases op <;> first | exact hargs | trivial
  · rw [hy] at h
    cases h
  · obtain ⟨d, rfl⟩ := hv.isDatum hop
    exact rest d

theorem done (args : List Operand) (stamp : line ≠ none ∨ op.Added) (inked : op.Inked)
    (length : args.length = op.arity) (data : op.TakesData args) (hsource : op.Sourced args) (hy : op.yields = [])
    (rest : Answerable S Q) : Answerable (args.reverse ++ S) (.op op line :: Q) := by
  refine .op stamp inked rfl length data hsource (fun _ => rest) fun v hv => ?_
  cases hv with
  | datum h => rw [hy] at h; cases h
  | right => cases hy

theorem pushFrame (stamp : line ≠ none ∨ Op.pushFrame.Added) (rest : Answerable S Q) :
    Answerable S (.op .pushFrame line :: Q) :=
  .done [] stamp trivial rfl nofun trivial rfl rest

theorem popFrame (stamp : line ≠ none ∨ Op.popFrame.Added) (rest : Answerable S Q) :
    Answerable S (.op .popFrame line :: Q) :=
  .done [] stamp trivial rfl nofun trivial rfl rest

theorem vars {names : List Name} (h : Answerable ((names.map Operand.var).reverse ++ S) Q) :
    Answerable S (names.map Item.var ++ Q) := by
  induction names generalizing S with
  | nil => exact h
  | cons name names ih => exact .var (ih (by simpa using h))

theorem fieldTargets {targets : List (Name × Name)} (hline : line ≠ none)
    (h : ∀ vs : List Value, vs.length = targets.length → Answerable ((vs.map Operand.value).reverse ++ S) Q) :
    Answerable S (fieldTargets line targets ++ Q) := by
  induction targets generalizing S with
  | nil => exact h [] rfl
  | cons target targets ih =>
    obtain ⟨binding, field⟩ := target
    have hbinding : ∀ o ∈ [Operand.var binding], o.IsDatum := by simpa using Operand.isDatum_var binding
    refine .var (.op (.inl hline) trivial rfl rfl hbinding trivial nofun fun v _ => ih fun vs hvs => ?_)
    simpa using h (v :: vs) (by simp [hvs])

end Answerable

/-! ## Compiled code -/

section

variable {n : Nat} {code codes : Program} {line : Option Nat}

theorem Answers.value (d : Datum) : Answers [.value (.datum d)] := fun _ _ hQ => .value (hQ d)

theorem Answers.all (h : Answers code) : AnswersAll 1 code :=
  fun S Q hQ => h S Q fun d => hQ [d] rfl

theorem Answers.append (h : Answers code) (hs : AnswersAll n codes) : AnswersAll (n + 1) (code ++ codes) := by
  intro S Q hQ
  rw [List.append_assoc]
  refine h S _ fun d => hs _ Q fun ds hds => ?_
  simpa using hQ (d :: ds) (by simp [hds])

theorem AnswersAll.op {op : Op} (h : AnswersAll n code) (hline : line ≠ none) (inked : op.Inked)
    (arity : op.arity = n) (hsource : ∀ args, op.Sourced args) (hy : op.yields = [.value])
    (hop : ∀ field, op ≠ .getFieldRef field) : Answers (code ++ [.op op line]) := by
  intro S Q hQ
  rw [List.append_assoc]
  refine h S _ fun ds hds => .yields _ (.inl hline) inked ?_ (fun o ho => ?_) (hsource _) hy hop hQ
  · rw [List.length_map, hds, arity]
  · obtain ⟨d, -, rfl⟩ := List.mem_map.1 ho
    exact Operand.isDatum_value (Value.isDatum d)

theorem AnswersAll.then (h : AnswersAll 0 code) (hs : Answers codes) : Answers (code ++ codes) := by
  intro S Q hQ
  rw [List.append_assoc]
  refine h S _ fun ds hds => ?_
  rw [List.eq_nil_of_length_eq_zero hds]
  exact hs S Q hQ

theorem Answers.framed (h : Answers code) (hline : line ≠ none) :
    Answers (.op .pushFrame line :: (code ++ [.op .popFrame line])) := by
  intro S Q hQ
  show Answerable S (.op .pushFrame line :: ((code ++ [.op .popFrame line]) ++ Q))
  rw [List.append_assoc]
  exact .pushFrame (.inl hline) (h S _ fun d => .popFrame (.inl hline) (hQ d))

theorem Answers.variable (name : Name) (hline : line ≠ none) : Answers [.var name, .op .getVariable line] := by
  have hname : ∀ o ∈ [Operand.var name], o.IsDatum := by simpa using Operand.isDatum_var name
  exact fun S Q hQ => .var (.yields [.var name] (.inl hline) trivial rfl hname trivial rfl nofun hQ)

theorem AnswersAll.callPrimitive (h : AnswersAll n code) (name : Name) (hline : line ≠ none) :
    Answers (code ++ [callPrimitive name n line]) := by
  have hfailure (failure : Failure) : Answers (code ++ [.error (failure.atLine line)]) := by
    intro S Q _
    rw [List.append_assoc]
    refine h S _ fun _ _ => .error ?_
    cases hl : failure.line <;> simp [Failure.atLine, hl, hline]
  unfold Mosaic.callPrimitive
  split
  · split
    · rename_i f _ hf
      exact h.op hline trivial hf (fun _ => trivial) rfl nofun
    · exact hfailure _
  · exact hfailure _

end

theorem arity_eq_of_lt {n : Nat} (h : n + 1 < 2 ^ 64) : (n + 1) % 1 <<< 64 = n + 1 := Nat.mod_eq_of_lt h

mutual

/-- The code of an expression that stands in a line. -/
theorem Expr.answers_compileAt (n : Nat) : ∀ e : Expr, e.Countable → Answers (e.compileAt (some n))
  | .number m, _ => .value (.number m)
  | .text s, _ => .value (.text s)
  | .bool b, _ => .value (.bool b)
  | .nil, _ => .value .nil
  | .var name, _ => .variable name nofun
  | .cluster items, h => (answers_compileAll n items h).op nofun trivial rfl (fun _ => trivial) rfl nofun
  | .binary op lhs rhs, h =>
    ((Expr.answers_compileAt n lhs h.1).append (Expr.answers_compileAt n rhs h.2).all).op nofun trivial
      (by cases op <;> rfl) (fun _ => trivial) rfl nofun
  | .unary op operand, h =>
    (Expr.answers_compileAt n operand h).all.op nofun trivial (by cases op <;> rfl) (fun _ => trivial) rfl nofun
  | .primitive name args, h => (answers_compileAll n args h).callPrimitive name nofun
  | .cond test yes no, h =>
    (Expr.answers_compileAt n test h.1).all.op nofun ⟨⟨n, yes, h.2.1, rfl⟩, ⟨n, no, h.2.2, rfl⟩⟩ rfl
      (fun _ => trivial) rfl nofun
  | .letIn bindings body, h => by
    have hdependencies : AnswersAll 0 [.op .setDependencies (some n)] :=
      fun S Q hQ => .done [] (.inl nofun) trivial rfl nofun trivial rfl (hQ [] rfl)
    have hbody := (answers_compileBindings n bindings h.1).then
      (hdependencies.then (Expr.answers_compileAt n body h.2))
    simpa [Expr.compileAt] using Answers.framed hbody (Option.some_ne_none n)
  | .lambda label params body, h => by
    have hlabel : ∀ o ∈ [Operand.var label], o.IsDatum := by simpa using Operand.isDatum_var label
    exact fun S Q hQ => .var (.yields [.var label] (.inl nofun) ⟨n, body, h, rfl⟩ rfl hlabel trivial rfl nofun hQ)
  | .call callee args, h => by
    rcases Expr.compileAt_call (some n) callee args with ⟨name, _, _, hcode⟩ | hcode <;> rw [hcode]
    · exact .variable name nofun
    · exact ((Expr.answers_compileAt n callee h.2.1).append (answers_compileAll n args h.2.2)).op nofun trivial
        (arity_eq_of_lt h.1) (fun _ => trivial) rfl nofun
  | .field object name, h =>
    (Expr.answers_compileAt n object h).all.op nofun trivial rfl (fun _ => trivial) rfl nofun
  | .comprehension var source body, h =>
    (Expr.answers_compileAt n source h.1).all.op nofun ⟨n, body, h.2, rfl⟩ rfl (fun _ => trivial) rfl nofun
  | .located inner e, h => Expr.answers_compileAt inner e h

theorem answers_compileAll (n : Nat) :
    ∀ es : List Expr, CountableAll es → AnswersAll es.length (compileAll (some n) es)
  | [], _ => fun _ _ hQ => hQ [] rfl
  | e :: es, h => (Expr.answers_compileAt n e h.1).append (answers_compileAll n es h.2)

theorem answers_compileBindings (n : Nat) :
    ∀ bs : List Binding, CountableBindings bs → AnswersAll 0 (compileBindings (some n) bs)
  | [], _ => fun _ _ hQ => hQ [] rfl
  | .bind targets value :: bs, h => by
    intro S Q hQ
    simp only [compileBindings, List.append_assoc, List.cons_append]
    refine Expr.answers_compileAt n value h.2.1 S _ fun d => .vars ?_
    have hdata : ∀ o ∈ Operand.value (.datum d) :: targets.map Operand.var, o.IsDatum := by
      simpa using ⟨Operand.isDatum_value (Value.isDatum d), fun name _ => Operand.isDatum_var name⟩
    have hlength : (Operand.value (.datum d) :: targets.map Operand.var).length = targets.length + 1 := by simp
    have hassign : Answerable ((Operand.value (.datum d) :: targets.map Operand.var).reverse ++ S)
        (.op (.assign targets.length) (some n) :: (compileBindings (some n) bs ++ Q)) :=
      .done _ (.inl nofun) trivial (hlength.trans (arity_eq_of_lt h.1).symm) hdata trivial rfl
        (answers_compileBindings n bs h.2.2 S Q hQ)
    simpa using hassign
  | .setField targets value :: bs, h => by
    intro S Q hQ
    simp only [compileBindings, List.append_assoc, List.cons_append]
    refine Expr.answers_compileAt n value h.2.1 S _ fun d => .fieldTargets nofun fun vs hvs => ?_
    have hlength : (Operand.value (.datum d) :: vs.map Operand.value).length = targets.length + 1 := by simp [hvs]
    have hassign : Answerable ((Operand.value (.datum d) :: vs.map Operand.value).reverse ++ S)
        (.op (.setField targets.length) (some n) :: (compileBindings (some n) bs ++ Q)) :=
      .done _ (.inl nofun) trivial (hlength.trans (arity_eq_of_lt h.1).symm) trivial trivial rfl
        (answers_compileBindings n bs h.2.2 S Q hQ)
    simpa using hassign

end

/-! ## What operations leave to be run -/

theorem Lined.answers {body : Program} (h : Lined body) : Answers body := by
  obtain ⟨n, e, he, rfl⟩ := h
  exact e.answers_compileAt n he

theorem Answers.body {body memoize : Program} (h : Lined body) (hmemo : IsMemoize memoize) :
    Answers (body ++ .op .popContext none :: memoize) := by
  intro S Q hQ
  rw [List.append_assoc]
  refine h.answers S _ fun d => .done [] (.inr trivial) trivial rfl nofun trivial rfl ?_
  rcases hmemo with rfl | ⟨key, rfl⟩
  · exact hQ d
  · have hd : ∀ o ∈ [Operand.value (.datum d)], o.IsDatum := by
      simpa using Operand.isDatum_value (Value.isDatum d)
    exact .yields [.value (.datum d)] (.inr trivial) trivial rfl hd trivial rfl nofun hQ

theorem Answers.round {var : Name} {index : Nat} {body : Program} {source element : Value} (h : Lined body)
    (hsource : source.Iterable) (hdatum : element.IsDatum) :
    Answers (MachineM.round var index body source element) := by
  intro S Q hQ
  have hbinding : ∀ o ∈ [Operand.value element, .var var], o.IsDatum := by
    simpa using ⟨Operand.isDatum_value hdatum, Operand.isDatum_var var⟩
  have hnext (d : Datum) : ∀ o ∈ [Operand.value (.datum d), .value source], o.IsDatum := by
    simpa using ⟨Operand.isDatum_value (Value.isDatum d), Operand.isDatum_value hsource.isDatum⟩
  rw [MachineM.round, List.append_assoc, List.append_assoc]
  refine .pushFrame (.inr trivial) (.value (.var (.done [.value element, .var var] (.inr rfl) trivial rfl hbinding
    trivial rfl ?_)))
  refine h.answers S _ fun d => .popFrame (.inr trivial) (.value ?_)
  exact .yields [.value (.datum d), .value source] (.inr (Nat.succ_ne_zero index)) h rfl (hnext d)
    ⟨_, source, rfl, hsource⟩ rfl (fun _ h => by cases h) hQ

/-- The operand that the effect leaves. -/
def Effect.pushed : Effect → List Operand
  | value v => [.value v]
  | items _ | done => []

@[simp] theorem Effect.operands_settle (e : Effect) (m : Machine) : (e.settle m).operands = e.pushed ++ m.operands := by
  cases e <;> rfl

/-- What is left after an operation, if the body that a call leaves stands in a line. -/
theorem Op.Brings.answerable {S : List Operand} {Q : Program} {op : Op} {e : Effect} (h : op.Brings e)
    (inked : op.Inked) (done : op.yields = [] → Answerable S Q)
    (value : ∀ v, op.Brings (.value v) → Answerable (.value v :: S) Q)
    (body : ∀ p, op.Calls → e = .items p → Answers p) :
    Answerable (e.pushed ++ S) (e.code ++ Q) := by
  have hvalue (hy : op.yields = [.value]) (d : Datum) : Answerable (.value (.datum d) :: S) Q :=
    value _ (.datum hy (Value.isDatum d))
  cases h with
  | done hy => exact done hy
  | datum hy hv => exact value _ (.datum hy hv)
  | right => exact value _ .right
  | yes => exact inked.1.answers S Q (hvalue rfl)
  | no => exact inked.2.answers S Q (hvalue rfl)
  | round hsource hdatum => exact Answers.round inked hsource hdatum S Q (hvalue rfl)
  | body hcalls => exact body _ hcalls rfl S Q (hvalue (by cases op <;> first | rfl | exact hcalls.elim))

end Mosaic
