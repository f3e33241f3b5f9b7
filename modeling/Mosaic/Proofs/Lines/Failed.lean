import Mosaic.Proofs.Backtrace.Actions
import Mosaic.Proofs.Cadence.Run
import Mosaic.Proofs.Globals.Failed
import Mosaic.Proofs.Lines.Bodies
import Mosaic.Proofs.Lines.Sites

/-!
# Failures have lines

A machine that runs the code of an expression in a line is `Answering`: its program is answerable, the values in
its scopes are data, and the bodies of its lambdas stand in lines. Every step keeps this
(`Machine.Answering.step`). So an operation that fails has a line, or the machine has added it; but those have
what they need, and fail only if code makes no sense or the graph fails (`MachineM.Unfailing.perform`), which
compiled code excludes.
-/

namespace Mosaic

open Mosaic.Graph (NodeId Kind)

/-! ## What the machine adds -/

/-- Only code that makes no sense, or a handle or an address that fails, can cause it. -/
def Cause.IsExcluded (cause : Cause) : Prop := cause.isStructural = true ∨ cause.isGraph = true

/-- However the result has failed, the cause is excluded. -/
def Unfailing {α : Type} (y : Except Failure α) : Prop := ∀ f, y = .error f → f.cause.IsExcluded

/-- However the action on the store fails, the cause is excluded. -/
abbrev StoreM.Unfailing {α : Type} (x : StoreM α) : Prop :=
  Action.Ensures (fun _ => True) (fun failure _ => failure.cause.IsExcluded) x fun _ => True

namespace StoreM.Unfailing

variable {α β : Type} {x : StoreM α} {f : α → StoreM β} {k : Kind Object α} {id : NodeId}

theorem ret {a : α} : Unfailing (pure a) := Action.Ensures.ret trivial

theorem bind (hx : Unfailing x) (hf : ∀ a, Unfailing (f a)) : Unfailing (x >>= f) :=
  Action.Ensures.bind hx fun a _ => hf a

theorem fetch : Unfailing (StoreM.fetch k id) :=
  Action.Ensures.fetch (fun _ _ _ _ => trivial) fun _ _ _ => .inr rfl

theorem update {g : α → α} : Unfailing (StoreM.update k id g) :=
  Action.Ensures.update (fun _ _ _ _ => trivial) fun _ _ _ => .inr rfl

theorem load (d : Datum) : Unfailing (StoreM.load d) := by
  cases d with
  | object t id => exact bind (bind fetch fun _ => ret) fun _ => ret
  | _ => exact ret

end StoreM.Unfailing

namespace Unfailing

theorem toValue (o : Operand) : Unfailing o.toValue := by
  cases o <;> rintro f ⟨⟩
  exact .inl rfl

theorem toVariable (o : Operand) : Unfailing o.toVariable := by
  cases o <;> rintro f ⟨⟩
  exact .inl rfl

theorem pushFrame (s : Scopes) : Unfailing s.pushFrame := by
  intro f h
  unfold Scopes.pushFrame at h
  split at h <;> cases h
  exact .inl rfl

theorem popFrame (s : Scopes) : Unfailing s.popFrame := by
  intro f h
  unfold Scopes.popFrame at h
  split at h
  · cases h
    exact .inl rfl
  · split at h <;> cases h
    exact .inl rfl

theorem popContext (s : Scopes) : Unfailing s.popContext := by
  intro f h
  unfold Scopes.popContext at h
  split at h <;> cases h
  exact .inl rfl

theorem define (s : Scopes) (name : Name) (v : Value) : Unfailing (s.define name v) := by
  intro f h
  unfold Scopes.define Scopes.modifyFrame at h
  split at h
  · cases h
    exact .inl rfl
  · split at h <;> cases h
    exact .inl rfl

end Unfailing

namespace MachineM

/-- However the action fails, the cause is excluded. -/
abbrev Unfailing {α : Type} (x : MachineM α) : Prop :=
  Action.Ensures (fun _ => True) (fun failure _ => failure.cause.IsExcluded) x fun _ => True

namespace Unfailing

variable {α β : Type} {x : MachineM α} {f : α → MachineM β}

theorem ret {a : α} : Unfailing (pure a) := Action.Ensures.ret trivial

theorem fail {cause : Cause} (h : cause.IsExcluded) : Unfailing (MachineM.fail cause : MachineM α) :=
  Action.Ensures.fail fun _ _ => h

theorem bind (hx : Unfailing x) (hf : ∀ a, Unfailing (f a)) : Unfailing (x >>= f) :=
  Action.Ensures.bind hx fun a _ => hf a

theorem okThen {y : Except Failure α} (hy : Mosaic.Unfailing y) (hf : ∀ a, y = .ok a → Unfailing (f a)) :
    Unfailing (MachineM.ofExcept y >>= f) :=
  Action.Ensures.okThen hf fun failure _ h _ => hy failure h

theorem getThen {f : Machine → MachineM α} (hf : ∀ m, Unfailing (f m)) : Unfailing ((get : MachineM Machine) >>= f) :=
  Action.Ensures.getThen fun m _ => hf m

theorem modify {g : Machine → Machine} : Unfailing (modify g : MachineM PUnit) :=
  Action.Ensures.modify fun _ _ => trivial

theorem setScopes {y : Except Failure Scopes} (hy : Mosaic.Unfailing y) : Unfailing (MachineM.setScopes y) :=
  okThen hy fun _ _ => modify

theorem onStore {x : StoreM α} (hx : StoreM.Unfailing x) : Unfailing (MachineM.onStore x) :=
  Action.Ensures.onStore hx (fun _ _ => trivial) (fun _ _ _ _ => trivial) fun _ _ _ _ h => h

/-- A single target is bound to the value itself. -/
theorem assign (v : Operand) (targets : List Operand) : Unfailing (MachineM.assign 1 v targets) := by
  have hbind : ∀ ps : List (Operand × Value), Unfailing (MachineM.bindAll ps) := by
    intro ps
    induction ps with
    | nil => exact ret
    | cons p ps ih =>
      refine okThen (.toVariable _) fun name _ => getThen fun m => ?_
      exact bind (setScopes (.define m.scopes name _)) fun _ => ih
  exact okThen (.toValue v) fun w _ => bind ret fun _ => bind (hbind _) fun _ => ret

/-- What can be gone through has elements, or has none left. -/
theorem element? {source : Value} (h : source.Iterable) (index : Nat) : Unfailing (MachineM.element? source index) := by
  unfold MachineM.element?
  split
  · refine onStore (.bind .fetch fun c => ?_)
    dsimp only
    cases c.items[index]? with
    | none => exact .ret
    | some d => exact .bind (.load d) fun _ => .ret
  · split
    · exact ret
    · rename_i hnone
      exact absurd h (by simp [Value.Iterable, hnone])
  · rename_i hcluster hnumber
    unfold Value.Iterable at h
    split at h
    · exact (hcluster _ rfl).elim
    · exact (hnumber _ rfl).elim
    · exact h.elim

theorem addResult {var : Name} {index : Nat} {body : Program} {result source : Value} (hresult : result.IsDatum)
    (hsource : source.Iterable) :
    Unfailing (MachineM.addResult var index body (.value result) (.value source)) := by
  obtain ⟨d, rfl⟩ := hresult
  refine okThen (.toValue _) fun v hv => okThen (.toValue _) fun w hw => okThen ?_ fun _ _ => getThen fun m => ?_
  all_goals cases hv; cases hw
  · rintro f ⟨⟩
  split
  · exact fail (.inl rfl)
  · refine bind (onStore .update) fun _ => bind (element? hsource index) fun v? => ?_
    split
    · exact ret
    · refine getThen fun m => ?_
      split
      · exact fail (.inl rfl)
      · exact fun _ _ _ => ⟨trivial, trivial⟩

/-- An operation that the machine adds has what it needs. -/
theorem perform {op : Op} (hop : op.Added) {args : List Operand} (length : args.length = op.arity)
    (hargs : op.TakesData args) (hsource : op.Sourced args) : Unfailing (MachineM.perform op args) := by
  cases op with
  | pushFrame => exact getThen fun m => bind (setScopes (.pushFrame m.scopes)) fun _ => ret
  | popFrame => exact getThen fun m => okThen (.popFrame m.scopes) fun _ _ => bind modify fun _ => ret
  | popContext => exact getThen fun m => okThen (.popContext m.scopes) fun _ _ => bind modify fun _ => ret
  | memoize key =>
    obtain ⟨v, rfl⟩ := List.length_eq_one_iff.1 length
    exact okThen (.toValue v) fun _ _ => bind modify fun _ => ret
  | assign n =>
    obtain rfl : n = 1 := hop
    cases args with
    | nil => cases length
    | cons v targets => exact assign v targets
  | iterate var index body =>
    cases index with
    | zero => exact (hop rfl).elim
    | succ index =>
      obtain ⟨result, source, rfl, hiterable⟩ := hsource
      exact addResult (hargs _ (by simp) _ rfl) hiterable
  | _ => exact hop.elim

end Unfailing

end MachineM

/-! ## Runs -/

theorem Expr.compileAt_ne_nil (line : Option Nat) : ∀ e : Expr, e.compileAt line ≠ []
  | .located inner e => Expr.compileAt_ne_nil (some inner) e
  | .call callee args => by
    rcases Expr.compileAt_call line callee args with ⟨name, _, _, hcode⟩ | hcode <;> simp [hcode]
  | .number _ | .text _ | .bool _ | .nil | .var _ | .cluster _ | .binary .. | .unary .. | .primitive .. | .cond ..
  | .letIn .. | .lambda .. | .field .. | .comprehension .. => by simp [Expr.compileAt]

theorem IsCode.ne_nil {body : Program} (h : IsCode body) : body ≠ [] := by
  obtain ⟨line, e, -, rfl⟩ := h
  exact e.compileAt_ne_nil line

/-- On these operands the program takes data, and every operation that has a reason to fail has a line; what the
machine keeps is data and code in lines. -/
structure Machine.Answering (m : Machine) : Prop where
  concrete : m.Concrete
  lined : m.store.Lined
  answerable : Answerable m.operands m.program

namespace Machine

variable {G : Prop} {A : NodeId → Prop} {τ : Shape} {T O : List Operand} {E held : List NodeId} {Q : Program} {b : Nat}
  {m m' : Machine} {f : Failure}

theorem arguments_of_operands {op : Op} {args S : List Operand} (ho : m.operands = args.reverse ++ S)
    (hlength : args.length = op.arity) : m.arguments op = args ∧ m.operands.drop op.arity = S := by
  rw [arguments, ho, ← hlength, ← List.length_reverse]
  simp

namespace Answering

theorem step (h : m.Answering) (hin : Inside G A [] T E τ Q O b m) (hn : m.next? held = some (.ok () m')) :
    m'.Answering := by
  obtain ⟨hconcrete, hlined, hanswerable⟩ := h
  cases stepped_of_next? hn with
  | @push item rest o program operand =>
    rw [program] at hanswerable
    refine ⟨hconcrete, hlined, ?_⟩
    cases hanswerable with
    | value hrest | var hrest => cases operand; exact hrest
    | error | op => cases operand
  | @perform op line rest e m₁ program within operands performed =>
    rw [program] at hanswerable
    generalize hoperands : m.operands = O at hanswerable
    cases hanswerable with
    | @op _ S args _ _ _ stamp inked hargs length data source done value =>
      obtain ⟨harguments, hdrop⟩ := arguments_of_operands (hoperands.trans hargs) length
      rw [harguments] at performed
      have hkept := Kept.of_perform performed
      obtain ⟨hconcrete₁, hbrings⟩ := (MachineM.Gives.perform data (m.taking op rest) hconcrete).ok performed
      have hlined₁ : m₁.store.Lined :=
        ((MachineM.lined_perform inked args (m.taking op rest) hlined).ok performed).1
      have hoperands₁ : m₁.operands = S := hkept.operands.trans hdrop
      have hprogram₁ : m₁.program = rest := hkept.program
      refine ⟨by cases e <;> exact hconcrete₁, by cases e <;> exact hlined₁, ?_⟩
      rw [Effect.operands_settle, Effect.program_settle, hoperands₁, hprogram₁]
      refine hbrings.answerable inked done value ?_
      -- The body that a call leaves is that of a stored lambda.
      rintro p hcalls rfl
      cases (MachineM.Ends.performCall hcalls).ok performed with
      | entered callee l frame memoize called stored memo kept scopes limit =>
        obtain rfl : Q = .op op line :: rest := by simpa [program] using hin.program.symm
        have hcode : IsCode l.body := (hin.safe.store.get (hin.calls (harguments ▸ called)) stored).2 id l rfl
        have hbody : l.body = [] ∨ Lined l.body := hlined.get stored
        exact Answers.body (hbody.resolve_left hcode.ne_nil) memo

/-- A step that fails tells a line, unless the graph has failed. -/
theorem failed (h : m.Answering) (hin : Inside True A [] T E τ Q O b m) (hmax : m.config.maxSteps = none)
    (hn : m.next? held = some (.error f m')) : f.line ≠ none ∨ f.cause.isGraph = true := by
  have hstopped := stopped_of_next? hn
  obtain ⟨item, rest, hp⟩ := exists_cons_of_next? hn
  have hanswerable := h.answerable
  rw [hp] at hanswerable
  rw [hstopped.line hp]
  generalize hoperands : m.operands = O' at hanswerable
  cases hstopped with
  | error program =>
    cases program.symm.trans hp
    cases hanswerable with
    | error hline => exact .inl hline
  | overdrawn program beyond => simp [Config.overdrawn?, hmax] at beyond
  | underflow program within operands =>
    cases program.symm.trans hp
    cases hanswerable with
    | op _ _ hargs length =>
      rw [hoperands, hargs, List.length_append, List.length_reverse] at operands
      omega
  | perform program within operands performed =>
    cases program.symm.trans hp
    cases hanswerable with
    | op stamp inked hargs length data source =>
      refine stamp.imp_right fun hadded => ?_
      obtain rfl : Q = _ := by simpa [program] using hin.program.symm
      have hsensible := hin.step (List.cons_ne_nil _ _) hn trivial
      rw [(arguments_of_operands (hoperands.trans hargs) length).1] at performed
      rcases (MachineM.Unfailing.perform hadded length data source _ trivial).error performed with hstructural | hgraph
      · exact (Bool.false_ne_true (hsensible.symm.trans hstructural)).elim
      · exact hgraph

end Answering

variable {config : Config} {n k fuel : Nat} {e : Expr}

theorem answering_started (config : Config) (n : Nat) (he : e.Countable) :
    ((ofConfig config).started (Expr.located n e).compile).Answering where
  concrete := by simp [Concrete, Scopes.All, started, ofConfig, Frame.All.empty]
  lined id entry h := by simp [started, ofConfig] at h
  answerable := by
    have hcode : Answerable [] (e.compileAt (some n) ++ []) := e.answers_compileAt n he [] [] fun _ => .nil
    rwa [List.append_nil] at hcode

theorem answering_of_steps (he : e.Countable)
    (hs : Steps held k ((ofConfig config).started (Expr.located n e).compile) m) : m.Answering := by
  induction k generalizing m with
  | zero =>
    rw [hs.eq_of_zero]
    exact answering_started config n he
  | succ k ih =>
    obtain ⟨m', hs', hn⟩ := hs.exists_of_succ
    obtain ⟨Q, O, b, hin⟩ := inside_of_steps (grounded_ofConfig config) (compiled_ofConfig config)
      (show (Expr.located n e).Countable from he) (False.elim : False → (ofConfig config).scopes.Open) hs'
    exact (ih hs').step hin hn

theorem line_ne_none_of_run (hmax : config.maxSteps = none) (he : e.Countable)
    (hr : (ofConfig config).run [] fuel (Expr.located n e).compile = some (.error f, m')) : f.line ≠ none := by
  have hcountable : (Expr.located n e).Countable := he
  have hgraph : f.cause.isGraph = false := isGraph_of_run_compile (by simp [Scopes.nodes, Context.nodes]) hr
  obtain ⟨m₂, hex⟩ := exists_execute_of_run (grounded_ofConfig config) (compiled_ofConfig config) hcountable hr
  obtain ⟨k, m₁, -, hs, hend⟩ := execute_inv hex
  obtain ⟨Q, O, b, hin⟩ := inside_of_steps (G := True) (grounded_ofConfig config) (compiled_ofConfig config) hcountable
    (fun _ => ⟨0, [], rfl⟩) hs
  obtain ⟨f', hf', hn⟩ := hend.resolve_left fun h => by cases h.1
  obtain rfl := Except.error.inj hf'
  have hconfig : m₁.config.maxSteps = none := hs.config ▸ hmax
  rcases (answering_of_steps he hs).failed hin hconfig hn with hline | hcause
  · exact hline
  · exact (Bool.false_ne_true (hgraph.symm.trans hcause)).elim

/-- Failures have the right line. However the run of an expression with a source position at its root fails on a
new machine without a step limit, the failure has a line, and it is the line of the innermost source position
around the subexpression of which a step has failed. In the body of a lambda that is a position around the lambda
in the tree, wherever it is called. -/
theorem line_of_failed_run (hmax : config.maxSteps = none) (he : e.Countable)
    (hr : (ofConfig config).run [] fuel (Expr.located n e).compile = some (.error f, m')) :
    ∃ s part line, (Expr.located n e).at? s = some part ∧ (Expr.located n e).lineAt none s = some line ∧
      f.line = some line ∧ StopsAt [] config fuel (Expr.located n e) f s := by
  obtain ⟨m₂, hex⟩ := exists_execute_of_run (grounded_ofConfig config) (compiled_ofConfig config)
    (show (Expr.located n e).Countable from he) hr
  exact exists_site_of_failed hex (line_ne_none_of_run hmax he hr)

/-- A comprehension on the fourth line calls the lambda of the second line, whose body divides by zero. -/
def distant : Expr :=
  .letIn [.bind ["f"] (.located 2 (.lambda "f" ["n"] (.binary .div (.var "n") (.number (.ofNat 0)))))]
    (.located 3 (.comprehension "x" (.number (.ofNat 2)) (.located 4 (.call (.var "f") [.var "x"]))))

/-- The failure has the line around the lambda, and not that of the call: the step that fails is the division. -/
theorem line_of_failed_run_distant :
    distant.Countable ∧ ∃ f m', (ofConfig {}).run [] 40 (Expr.located 1 distant).compile = some (.error f, m') ∧
      f.line = some 2 ∧ StopsAt [] {} 40 (Expr.located 1 distant) f [0, 0, 0, 0] ∧
      (Expr.located 1 distant).at? [0, 0, 0, 0] = some (.binary .div (.var "n") (.number (.ofNat 0))) ∧
      (Expr.located 1 distant).lineAt none [0, 0, 0, 0] = some 2 := by
  have hfails : ((ofConfig {}).run [] 40 (Expr.located 1 distant).compile).map
      (fun r => (r.1.map fun _ => ()).mapError Failure.line) = some (.error (some 2)) := by
    decide +kernel
  have htells : ((ofConfig {}).run [] 40 (Expr.located 1 distant).traced).map
      (fun r => (r.1.map fun _ => ()).mapError Failure.line) =
        some (.error (some (Encodable.encode [0, 0, 0, 0]))) := by
    decide +kernel
  have hcountable : distant.Countable := by simp [distant, Expr.Countable, CountableAll, CountableBindings]
  obtain ⟨⟨f | v, m'⟩, hr, hline⟩ := Option.map_eq_some_iff.1 hfails
  · replace hline : f.line = some 2 := Except.error.inj hline
    obtain ⟨s, part, line, -, -, -, hstops⟩ := line_of_failed_run rfl hcountable hr
    obtain ⟨k, -, -, m₂, m₂', item, rest, hk, -, -, hs, -, -, hn⟩ := id hstops
    rw [run_of_failed hs hn hk] at htells
    obtain rfl : s = [0, 0, 0, 0] :=
      Encodable.encode_injective (Option.some.inj (Except.error.inj (Option.some.inj htells)))
    exact ⟨hcountable, f, m', hr, hline, hstops, rfl, rfl⟩
  · cases hline

end Machine

end Mosaic
