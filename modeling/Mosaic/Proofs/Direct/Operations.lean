import Mosaic.Proofs.Direct.Simulation
import Mosaic.Proofs.Store.Reads

/-!
# Operations that run code

What the operations that push further items leave behind, as actions of the direct evaluator: a call
enters the body of a lambda, and a comprehension goes through its rounds.
-/

namespace Mosaic

open Mosaic.Graph (NodeId)
open Mosaic.Machine (Steps)

/-! ## Calls -/

namespace MachineM

variable {pins : Pins} {m : Machine}

theorem perform_popContext {args : List Operand} :
    perform .popContext args = (fun _ => Effect.done) <$> popContext := by
  simp only [popContext, map_eq_pure_bind, bind_assoc]
  rfl

theorem perform_pushFrame {args : List Operand} :
    perform .pushFrame args = (fun _ => Effect.done) <$> pushFrame := by
  simp only [pushFrame, map_eq_pure_bind, bind_assoc]
  rfl

theorem perform_popFrame {args : List Operand} :
    perform .popFrame args = (fun _ => Effect.done) <$> popFrame := by
  simp only [popFrame, map_eq_pure_bind, bind_assoc]
  rfl

theorem assign_eq {n : Nat} {v : Operand} {targets : List Operand} :
    assign n v targets = (fun _ => Effect.done) <$> assign n v targets := by
  simp only [assign, map_eq_pure_bind, bind_assoc, pure_bind]

theorem setField_eq {n : Nat} {v : Operand} {targets : List Operand} :
    setField n v targets = (fun _ => Effect.done) <$> setField n v targets := by
  simp only [setField, map_eq_pure_bind, bind_assoc, pure_bind]

theorem setDependencies_eq :
    setDependencies = (fun _ => Effect.done) <$> setDependencies := by
  simp only [setDependencies, map_eq_pure_bind, bind_assoc, pure_bind]

theorem getFieldRef_eq {binding field : Name} :
    getFieldRef binding field = Effect.value <$> fieldRef binding field := by
  simp only [getFieldRef, fieldRef, map_eq_pure_bind, bind_assoc]
  refine bind_congr fun v => ?_
  split <;> rfl

theorem makeLambda_eq {label : Name} {t : Template} :
    makeLambda label t = Effect.value <$> newLambda label t := by
  simp only [makeLambda, newLambda, map_eq_pure_bind, bind_assoc]
  refine bind_congr fun ps => bind_congr fun id => ?_
  split <;> simp only [bind_assoc, pure_bind]

/-- What runs after a call was entered. -/
def called (l : Lambda) : Effect := .items (l.body ++ [.op .popContext none])

theorem answer_apply (callee : NodeId) (l : Lambda) (args : List Value)
    (hm : m.config.Plain) :
    answer callee l args pins m = enterBody l args none pins m := by
  have henter : answer callee l args pins m = enter l args none pins m := by
    unfold answer
    rw [bind_apply, get_apply]
    simp only [hm.memoize]
    rfl
  rw [henter, enter_apply]
  simp only [hm.maxCallDepth]

theorem invoke_apply (callee : NodeId) (args : List Value) (hm : m.config.Plain) :
    invoke callee args pins m = (called <$> enterCall callee args) pins m := by
  rw [invoke_eq, map_eq_pure_bind, enterCall, bind_assoc, bind_apply, bind_apply, onStore_apply]
  cases StoreM.fetch Object.lambdas callee (pins.also fun _ => m.mentions) m.store with
  | error failure s => rfl
  | ok l s =>
    dsimp only
    split
    · rfl
    · rw [bind_assoc]
      exact answer_apply (m := { m with store := s }) callee l args hm

theorem getVariable_apply (name : Name) (hm : m.config.Plain) :
    getVariable name pins m = (Sum.elim Effect.value called <$> enterVariable name) pins m := by
  rw [map_eq_pure_bind, enterVariable, getVariable, bind_assoc, bind_apply, bind_apply, lookup_apply]
  cases m.scopes.lookup? name with
  | none => rfl
  | some v =>
    cases v with
    | fieldRef => rfl
    | datum d =>
      cases d with
      | object t id =>
        cases t with
        | lambda =>
          dsimp only
          rw [bind_assoc, bind_apply, bind_apply, onStore_apply]
          cases StoreM.fetch Object.lambdas id (pins.also fun _ => m.mentions) m.store with
          | error failure s => rfl
          | ok l s =>
            dsimp only
            split
            · rw [bind_assoc]
              exact (invoke_apply (m := { m with store := s }) id [] hm).trans
                (by rw [map_eq_pure_bind]; rfl)
            · rfl
        | _ => rfl
      | _ => rfl

theorem mapM_toValue (vs : List Value) : (vs.map Operand.value).mapM Operand.toValue = .ok vs := by
  induction vs with
  | nil => rfl
  | cons v vs ih =>
    rw [List.map_cons, List.mapM_cons, ih]
    rfl

theorem call_apply (f : Value) (args : List Value) (hm : m.config.Plain) :
    call ((f :: args).map Operand.value) pins m = (called <$> enterValue f args) pins m := by
  rw [call, mapM_toValue]
  cases f with
  | fieldRef => rfl
  | datum d =>
    cases d with
    | object t id =>
      cases t with
      | lambda => exact invoke_apply id args hm
      | _ => rfl
    | _ => rfl

theorem isCode_of_enterCall {A : NodeId → Prop} {callee : NodeId} {args : List Value} {l : Lambda}
    {m' : Machine} (hm : Closed IsCode A m.store) (hc : A callee)
    (h : enterCall callee args pins m = .ok l m') : IsCode l.body := by
  obtain ⟨l', m₁, hfetch, h⟩ := exists_of_bind_ok h
  obtain ⟨s, hget, rfl⟩ := exists_of_onStore_ok hfetch
  obtain ⟨hl, rfl⟩ := StoreM.get_of_fetch_ok hget
  split at h
  · cases h
  · obtain ⟨frame, m₂, _, h⟩ := exists_of_bind_ok h
    cases h
    exact (hm.get hc hl).2 id l rfl

end MachineM

namespace Running

variable {A : NodeId → Prop} {m : Machine}

theorem store (h : Running A m) : Closed IsCode A m.bare.store :=
  let ⟨_, _, _, _, hin⟩ := h.inside
  hin.safe.store

theorem valid_operand (h : Running A m) {v : Value} (hv : .value v ∈ m.operands) :
    Valid A m.next v := by
  obtain ⟨τ, Q, O, b, hin⟩ := h.inside
  rw [hin.operands, List.append_nil] at hv
  exact hin.valid _ hv

theorem valid_lookup? (h : Running A m) {name : Name} {v : Value}
    (hv : m.bare.scopes.lookup? name = some v) : Valid A m.next v := by
  obtain ⟨τ, Q, O, b, hin⟩ := h.inside
  exact hin.safe.scopes.lookup? hv

theorem isCode_of_enterValue (h : Running A m) {f : Value} (hf : .value f ∈ m.operands)
    {args : List Value} {l : Lambda} {pins : Pins} {m' : Machine}
    (hr : MachineM.enterValue f args pins m.bare = .ok l m') : IsCode l.body := by
  have hv := h.valid_operand hf
  unfold MachineM.enterValue at hr
  split at hr
  · exact MachineM.isCode_of_enterCall h.store (valid_object.1 hv).1 hr
  · cases hr

theorem isCode_of_enterVariable (h : Running A m) {name : Name} {l : Lambda} {pins : Pins}
    {m' : Machine} (hr : MachineM.enterVariable name pins m.bare = .ok (.inr l) m') :
    IsCode l.body := by
  obtain ⟨v, m₁, hlookup, hr⟩ := MachineM.exists_of_bind_ok hr
  obtain ⟨hv, rfl⟩ := MachineM.exists_of_lookup_ok hlookup
  have hvalid := h.valid_lookup? hv
  split at hr
  · obtain ⟨l', m₁, hfetch, hr⟩ := MachineM.exists_of_bind_ok hr
    obtain ⟨s, hget, rfl⟩ := MachineM.exists_of_onStore_ok hfetch
    obtain ⟨_, rfl⟩ := StoreM.get_of_fetch_ok hget
    split at hr
    · obtain ⟨l'', m₂, hl', hr⟩ := MachineM.exists_of_bind_ok hr
      cases hr
      exact MachineM.isCode_of_enterCall h.store (valid_object.1 hvalid).1 hl'
    · cases hr
  · cases hr

end Running

/-! ## Reading -/

theorem exists_element? (source : Value) (index : Nat) : ∃ g : Store → Except Failure (Option Value),
    ∀ pins m, MachineM.element? source index pins m =
      match g m.store with
      | .ok v => .ok v m
      | .error failure => .error failure m := by
  have hfail : ∀ cause, ∃ g : Store → Except Failure (Option Value), ∀ pins m,
      (MachineM.fail cause : MachineM (Option Value)) pins m =
        match g m.store with
        | .ok v => .ok v m
        | .error failure => .error failure m :=
    fun cause => ⟨fun _ => .error { cause }, fun _ _ => rfl⟩
  unfold MachineM.element?
  split
  · rename_i id
    obtain ⟨g, hg⟩ := StoreM.Reads.element id index
    refine ⟨g, fun pins m => ?_⟩
    rw [MachineM.onStore_apply, hg]
    cases g m.store <;> rfl
  · rename_i number
    cases number.toIndex? with
    | some count => exact ⟨fun _ => .ok _, fun _ _ => rfl⟩
    | none => exact hfail _
  · exact hfail _

/-! ## Bodies -/

theorem source?_of_isCode {body : Program} (h : IsCode body) :
    ∃ line e, source? body = some (line, e) ∧ e.Countable ∧ body = e.compileAt line := by
  obtain ⟨line, e, he, hbody⟩ := h
  have hex : ∃ p : Option Nat × Expr, p.2.Countable ∧ body = p.2.compileAt p.1 := ⟨(line, e), he, hbody⟩
  exact ⟨hex.choose.1, hex.choose.2, by rw [source?, dif_pos hex], hex.choose_spec⟩

theorem IsCode.programNodes_eq {body : Program} (h : IsCode body) : programNodes body = [] := by
  obtain ⟨line, e, _, rfl⟩ := h
  exact Expr.programNodes_compileAt line e

/-- The operand of a value. -/
def pushed (v : Value) : List Operand := [.value v]

section

variable {held : List NodeId} {A : NodeId → Prop} {n : Nat} {run : Option Nat → Expr → EvalM Value}
  {eval : EvalM Value} {var : Name} {code : Program} {source element : Value} {builder : NodeId}
  {fuel index : Nat} {line : Option Nat}

/-- The code of every expression does what `run` does. -/
def RunsAll (held : List NodeId) (A : NodeId → Prop) (n : Nat) (run : Option Nat → Expr → EvalM Value) :
    Prop :=
  ∀ line e, e.Countable → Runs held A n [] [] (e.compileAt line) (run line e) pushed

theorem Runs.body {l : Lambda} (hl : IsCode l.body) (hrun : RunsAll held A n run) :
    Runs held A n [] ((MachineM.called l).operands ++ []) ((MachineM.called l).items? ++ [])
      (EvalM.body run l) pushed := by
  obtain ⟨line, e, hs, he, hbody⟩ := source?_of_isCode hl
  show Runs held A n [] [] ((l.body ++ [.op .popContext none]) ++ []) _ pushed
  rw [List.append_nil, EvalM.body, hs, hbody]
  refine .seq rfl (hrun line e he) fun v _ _ _ _ => ?_
  exact .actDone (O := []) (T := [.value v]) rfl (fun _ _ => MachineM.perform_popContext ▸ rfl)
    Stackless.popContext (by simp [Covers, heldBy, Operand.node?]) fun _ => .ret rfl

theorem Runs.variable {name : Name} (hrun : RunsAll held A n run) :
    Runs held A (n + 1) [] [] [.var name, .op .getVariable line] (EvalM.var run line name) pushed := by
  refine .var (.step (O := [.var name]) (T := []) rfl
    (fun pins m hm => MachineM.getVariable_apply name hm) (Stackless.enterVariable name)
    (by simp [Covers]) fun a m pins b hm _ ha => ?_)
  cases a with
  | inl v => exact .ret rfl
  | inr l => exact .body (hm.isCode_of_enterVariable ha) hrun

/-! ## Rounds of a comprehension -/

/-- The cluster of a comprehension, which is closed at the end. -/
def closed (builder : NodeId) : Unit → List Operand := fun _ => [.value (.object .cluster builder)]

/-- The start of a round, or the end of the comprehension. -/
theorem Follows.schedule (line : Option Nat) {m m₂ : Machine} {R : Program} {S : List Operand} {B heldE : List NodeId}
    {pins : Pins} (hm : Running A m) (hs : Stacks R S (builder :: B) m₂) (hh : Holds held R S B heldE)
    (hnext : m.next? held =
      some (settled line (MachineM.schedule var index code source pins m₂)))
    (hround : ∀ fuel' element, fuel = fuel' + 1 → Runs held A fuel' [builder] []
      (MachineM.round var index code source element)
      (EvalM.round eval var source builder element
        (EvalM.rounds eval var source builder fuel' none (index + 1))) (closed builder)) :
    Follows held fuel m (EvalM.rounds eval var source builder fuel line index heldE m₂.bare)
      fun _ m' => Stacks R (closed builder () ++ S) B m' := by
  cases fuel with
  | zero => exact ⟨0, m, Nat.le_refl 0, .refl m⟩
  | succ fuel =>
    obtain ⟨g, hg⟩ := exists_element? source index
    have hstore : m₂.bare.store = m₂.store := rfl
    rw [MachineM.schedule, MachineM.bind_apply, hg] at hnext
    show Follows held (fuel + 1) m (EvalM.bind (EvalM.act line _ _) _ heldE m₂.bare) _
    unfold EvalM.bind EvalM.act
    rw [hg, hstore]
    cases hr : g m₂.store with
    | error failure =>
      rw [hr] at hnext
      exact ⟨0, m, m₂, .refl m, hnext, rfl⟩
    | ok v =>
      rw [hr] at hnext
      cases v with
      | none =>
        dsimp only at hnext
        rw [MachineM.bind_apply, MachineM.get_apply] at hnext
        simp only [hs.builders] at hnext
        exact ⟨1, _, .one hnext, rfl, hs.program, by rw [← hs.operands]; rfl, rfl⟩
      | some element =>
        dsimp only at hnext
        have hs' : Stacks (MachineM.round var index code source element ++ R) S (builder :: B)
            { m₂ with program := MachineM.round var index code source element ++ m₂.program } :=
          ⟨by rw [hs.program], hs.operands, hs.builders⟩
        exact (hround fuel element rfl _ R S B heldE (hm.next hnext) hs' hh).after (.one hnext)

theorem perform_next {pins : Pins} {m : Machine} {B : List NodeId} {v : Value}
    (hb : m.builders = builder :: B) :
    MachineM.perform (.iterate var (index + 1) code) [.value v, .value source] pins m =
      (MachineM.append builder v >>= fun _ =>
        MachineM.schedule var (index + 1) code source) pins m := by
  show MachineM.addResult var (index + 1) code (.value v) (.value source) pins m = _
  rw [MachineM.addResult, MachineM.append, bind_assoc, Operand.toValue, Operand.toValue,
    MachineM.bind_apply, MachineM.ofExcept_apply]
  dsimp only
  rw [MachineM.bind_apply, MachineM.ofExcept_apply]
  dsimp only
  rw [MachineM.bind_apply, MachineM.bind_apply, MachineM.ofExcept_apply]
  cases v.toDatum with
  | error failure => rfl
  | ok d =>
    dsimp only
    rw [MachineM.bind_apply, MachineM.get_apply]
    simp only [hb]

/-- The value of the body is added to the cluster, and the next round begins. -/
theorem Runs.next {v : Value}
    (hround : ∀ fuel' element, fuel = fuel' + 1 → Runs held A fuel' [builder] []
      (MachineM.round var (index + 1) code source element)
      (EvalM.round eval var source builder element
        (EvalM.rounds eval var source builder fuel' none (index + 2))) (closed builder)) :
    Runs held A fuel [builder] [.value source, .value v] [.op (.iterate var (index + 1) code) none]
      (do
        EvalM.act none [builder] (MachineM.append builder v)
        EvalM.rounds eval var source builder fuel none (index + 1)) (closed builder) := by
  intro m R S B heldE hm hs hh
  have hc : Covers [builder] [] [] [builder] := by simp [Covers]
  refine Follows.act (y := fun _ => MachineM.schedule var (index + 1) code source) hm hs rfl
    (fun pins => perform_next hs.builders) (Stackless.append builder v) (hc.holds hh) fun _ _ pins b _ hb hnext => ?_
  have hs' : Stacks R S (builder :: B) ((m.performing 2).atop b) :=
    ⟨by simp [Machine.atop, Machine.performing, hs.program],
      by simp [Machine.atop, Machine.performing, hs.operands], hs.builders⟩
  have := Follows.schedule none hm hs' hh hnext hround
  rwa [Machine.bare_atop, hb] at this

theorem Runs.first (hcode : IsCode code)
    (hround : ∀ builder fuel' element, fuel = fuel' + 1 → Runs held A fuel' [builder] []
      (MachineM.round var 0 code source element)
      (EvalM.round eval var source builder element
        (EvalM.rounds eval var source builder fuel' none 1)) (closed builder)) :
    Runs held A fuel [] [.value source] [.op (.iterate var 0 code) line]
      (do
        let builder ← EvalM.act line []
          (MachineM.keeping (heldBy [source]) (MachineM.onStore (StoreM.allocate (.cluster {}))))
        EvalM.rounds eval var source builder fuel line 0
        return .object .cluster builder) pushed := by
  intro m R S B heldE hm hs hh
  have hc : Covers [] [] [] [] := by simp [Covers]
  have hheld : source.node?.toList ++ programNodes code = heldBy [source] := by
    rw [hcode.programNodes_eq, List.append_nil]
    cases h : source.node? <;> simp [heldBy, h]
  refine Follows.act (y := fun builder => do
      modify fun m => { m with builders := builder :: m.builders }
      MachineM.schedule var 0 code source) hm hs rfl
    (fun pins => ?_) (.keeping _ (.onStore _)) (hc.holds hh) fun builder _ pins b _ hb hnext => ?_
  · rw [← hheld]
    rfl
  have hs' : Stacks R S (builder :: B)
      { (m.performing 1).atop b with builders := builder :: m.builders } :=
    ⟨by simp [Machine.atop, Machine.performing, hs.program],
      by simp [Machine.atop, Machine.performing, hs.operands], by rw [hs.builders]; rfl⟩
  have hrounds := Follows.schedule line hm hs' hh hnext (hround builder)
  have hbare : Machine.bare { (m.performing 1).atop b with builders := builder :: m.builders } = b := hb
  rw [hbare] at hrounds
  exact hrounds.bind fun _ m' _ _ _ hk => ⟨0, m', .refl m', rfl, hk⟩

theorem Runs.round_of_next (hcode : IsCode code) (hbody : Runs held A n [] [] code eval pushed)
    (hn : fuel ≤ n)
    (hround : ∀ fuel' element, fuel = fuel' + 1 → Runs held A fuel' [builder] []
      (MachineM.round var (index + 1) code source element)
      (EvalM.round eval var source builder element
        (EvalM.rounds eval var source builder fuel' none (index + 2))) (closed builder)) :
    Runs held A fuel [builder] [] (MachineM.round var index code source element)
      (EvalM.round eval var source builder element
        (EvalM.rounds eval var source builder fuel none (index + 1))) (closed builder) := by
  have hnodes := hcode.programNodes_eq
  rw [MachineM.round, List.append_assoc]
  refine .actDone (O := []) (T := []) rfl (fun _ _ => MachineM.perform_pushFrame ▸ rfl)
    Stackless.pushFrame (fun id => ?_) fun _ => .value (.var ?_)
  · simp [heldBy, hnodes, Item.nodes, Op.nodes]
    grind
  refine .actDone (O := [.var var, .value element]) (T := []) rfl
    (fun _ _ => MachineM.assign_eq ▸ rfl) (Stackless.assign _ _ _) (fun id => ?_) fun _ => ?_
  · simp [heldBy, hnodes, Item.nodes, Op.nodes, Operand.node?]
    grind
  change Runs held A fuel [builder] [] (code ++ _) _ _
  refine .hold (O := []) (fun id => ?_) (hbody.mono hn) fun v _ _ _ _ => ?_
  · simp [heldBy, Item.nodes, Op.nodes, hnodes]
    grind
  refine .actDone (O := []) (T := [.value v]) rfl (fun _ _ => MachineM.perform_popFrame ▸ rfl)
    Stackless.popFrame (fun id => ?_) fun _ => .value (.next hround)
  simp [heldBy, Item.nodes, Op.nodes, Operand.node?, hnodes]
  grind

theorem Runs.round (hcode : IsCode code) (hbody : Runs held A n [] [] code eval pushed) (hn : fuel ≤ n) :
    Runs held A fuel [builder] [] (MachineM.round var index code source element)
      (EvalM.round eval var source builder element
        (EvalM.rounds eval var source builder fuel none (index + 1))) (closed builder) := by
  induction fuel generalizing index element with
  | zero => exact .round_of_next hcode hbody hn fun fuel' _ h => nomatch h
  | succ fuel ih =>
    refine .round_of_next hcode hbody hn fun fuel' element' h => ?_
    cases h
    exact ih (Nat.le_of_succ_le hn)

theorem Runs.comprehension (hcode : IsCode code) (hbody : Runs held A n [] [] code eval pushed)
    (hn : fuel ≤ n) :
    Runs held A fuel [] [.value source] [.op (.iterate var 0 code) line]
      (do
        let builder ← EvalM.act line []
          (MachineM.keeping (heldBy [source]) (MachineM.onStore (StoreM.allocate (.cluster {}))))
        EvalM.rounds eval var source builder fuel line 0
        return .object .cluster builder) pushed := by
  refine .first hcode fun builder fuel' element h => ?_
  exact .round hcode hbody (by omega)

end

end Mosaic
