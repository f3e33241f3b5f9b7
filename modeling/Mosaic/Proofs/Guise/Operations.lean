import Mosaic.Proofs.Guise.Machine

/-!
# The operations in a guise

Every operation does the same in a guise. A call that runs a body must find the depth of the calls within
the limit, or beyond it, in the guise as without it.
-/

namespace Mosaic

open Mosaic.Graph (NodeId)

/-- The template with other source lines. -/
def Template.relined (ℓ : Lines) (t : Template) : Template := { t with body := Mosaic.relined ℓ t.body }

namespace Machine

/-- In the guise, the calls exceed the limit exactly if they do without it. -/
def SameLimit (G : Guise) (m : Machine) : Prop :=
  G.config.overflow? (m.under G).scopes.depth = m.config.overflow? m.scopes.depth

end Machine

namespace MachineM

/-- In the guise, `y` has the effect that `x` has on `m`, with other source lines. -/
abbrev Performs (G : Guise) (m : Machine) (x y : MachineM Effect) : Prop :=
  Disguised G (Effect.relined G.lines) m x y fun _ _ => True

variable {G : Guise} {m : Machine}

namespace Unaware

open Disguised (getThen okThen failThen modifyThen)

/-! ## Binding -/

theorem destructure (v : Value) (n : Nat) : Unaware G m (MachineM.destructure v n) := by
  unfold MachineM.destructure
  split
  · exact ret
  · split
    · refine onStore (StoreM.Blind.bind (StoreM.Blind.fetch Graph.Kind.Relines.clusters _) fun c => ?_)
      dsimp only
      split
      · exact fun _ _ => rfl
      · exact StoreM.Blind.mapM StoreM.Blind.load _
    · exact Disguised.fail

theorem modifyFrame (hm : m.scopes.Covers G.contexts) (f : Frame → Frame) :
    Disguised G id m (MachineM.setScopes (m.scopes.modifyFrame f))
      (MachineM.setScopes ((m.under G).scopes.modifyFrame f)) fun _ m' => m.Level m' := by
  refine setScopes (Scopes.modifyFrame_above hm f) fun s hs => ?_
  obtain ⟨c, cs, f, fs, hc, -, hs⟩ := Scopes.modifyFrame_ok hs
  rw [hs, hc]
  rfl

theorem bindAll (hm : m.scopes.Covers G.contexts) (ps : List (Operand × Value)) :
    Unaware G m (MachineM.bindAll ps) := by
  induction ps generalizing m with
  | nil => exact ret
  | cons p ps ih =>
    refine okThen fun name _ => getThen (Disguised.bind (modifyFrame hm _) fun _ m' h => ?_)
    exact (ih (h.covers hm)).imp fun _ _ h' => h.trans h'

/-! ## Fields -/

theorem writeField (hm : m.scopes.Covers G.contexts) (binding field : Name) (v : Value) :
    Unaware G m (MachineM.writeField binding field v) := by
  refine Disguised.bind (lookup hm binding) fun target m' ⟨_, hm'⟩ => ?_
  subst hm'
  refine okThen fun d _ => ?_
  dsimp only [id]
  split
  · refine bind (keeping (onStore (StoreM.Blind.copyWithField _ _ _ _))) fun copy m₁ h => getThen ?_
    refine setScopes (Scopes.assign_above (h.covers hm) _ _) fun s hs => ?_
    obtain ⟨c, cs, fs, hc, -, hs⟩ := Scopes.assign_ok hs
    rw [hs, hc]
    rfl
  · exact Disguised.fail

theorem writeAll (hm : m.scopes.Covers G.contexts) (ps : List (Operand × Value)) :
    Unaware G m (MachineM.writeAll ps) := by
  induction ps generalizing m with
  | nil => exact ret
  | cons p ps ih =>
    refine okThen fun w _ => ?_
    split
    · exact bind (keeping (writeField hm _ _ _)) fun _ m' h => ih (h.covers hm)
    · exact failThen

/-! ## Closures -/

theorem capture (hm : m.scopes.Covers G.contexts) (names : List Name) :
    Unaware G m (MachineM.capture names) := by
  have hfound : captured (m.under G).scopes names = captured m.scopes names := by
    have hlookup : ∀ n, (m.under G).scopes.lookup? n = m.scopes.lookup? n := Scopes.lookup?_above hm
    simp only [captured, hlookup]
  rw [capture_eq]
  refine getThen ?_
  rw [hfound]
  cases captured m.scopes names with
  | ok ps => exact ret
  | error failure => exact fun _ _ _ => rfl

theorem complete (hm : m.scopes.Covers G.contexts) (i : NodeId) :
    Unaware G m (MachineM.complete i) := by
  refine Disguised.bind (Disguised.onStore (StoreM.Relined.fetch Graph.Kind.Relines.lambdas i))
    fun l m' ⟨_, s, _, hs⟩ => ?_
  subst hs
  have hcapture := capture (m := { m with store := s }) hm l.unresolved
  refine Disguised.bind hcapture fun found m' h => Disguised.cond (fun _ => ?_) fun _ => ?_
  · let fill (l : Lambda) : Lambda := { l with closure := l.closure.insertMany found }
    have hfill : ∀ l : Lambda, fill (l.relined G.lines) = (fill l).relined G.lines := fun _ => rfl
    have hupdate : StoreM.Blind G.lines (StoreM.update Object.lambdas i fill) :=
      StoreM.Relined.update Graph.Kind.Relines.lambdas hfill i
    refine (Disguised.onStore hupdate).imp fun _ _ ⟨_, _, _, h'⟩ => ?_
    exact h' ▸ ⟨h.config, h.contexts, h.builders⟩
  · exact Disguised.ret ⟨h.config, h.contexts, h.builders⟩

theorem completeAll (hm : m.scopes.Covers G.contexts) (ids : List NodeId) :
    Unaware G m (MachineM.completeAll ids) := by
  induction ids generalizing m with
  | nil => exact ret
  | cons id ids ih => exact bind (keeping (complete hm id)) fun _ _ h => ih (h.covers hm)

/-! ## Comprehensions -/

theorem element? (source : Value) (index : Nat) : Unaware G m (MachineM.element? source index) := by
  unfold MachineM.element?
  split
  · refine onStore (StoreM.Blind.bind (StoreM.Blind.fetch Graph.Kind.Relines.clusters _) fun c => ?_)
    dsimp only
    cases c.items[index]? with
    | none => exact StoreM.Blind.ret
    | some d => exact StoreM.Blind.bind (StoreM.Blind.load d) fun _ => StoreM.Blind.ret
  · split
    · exact ret
    · exact Disguised.fail
  · exact Disguised.fail

end Unaware

namespace Performs

open Disguised (bind getThen okThen mapThen modifyThen)

theorem fail {cause : Cause} : Performs G m (MachineM.fail cause) (MachineM.fail cause) :=
  fun _ _ _ => rfl

theorem value {v : Value} : Performs G m (pure (.value v)) (pure (.value v)) :=
  Disguised.ret (r := Effect.relined G.lines) (a := .value v) trivial

theorem done : Performs G m (pure .done) (pure .done) :=
  Disguised.ret (r := Effect.relined G.lines) (a := .done) trivial

theorem items {p q : Program} (h : q = relined G.lines p) :
    Performs G m (pure (.items p)) (pure (.items q)) := by
  subst h
  exact Disguised.ret (r := Effect.relined G.lines) (a := .items p) trivial

theorem valueOf {x : StoreM Value} {ids : List NodeId} (hx : StoreM.Blind G.lines x) :
    Performs G m (do return .value (← MachineM.keeping ids (MachineM.onStore x)))
      (do return .value (← MachineM.keeping ids (MachineM.onStore x))) :=
  bind (.keeping (Unaware.onStore hx)) fun _ _ _ => value

theorem assign (hm : m.scopes.Covers G.contexts) (n : Nat) (v : Operand) (targets : List Operand) :
    Performs G m (MachineM.assign n v targets) (MachineM.assign n v targets) :=
  okThen fun w _ => bind (Unaware.destructure w n) fun _ _ h =>
    bind (Unaware.bindAll (h.covers hm) _) fun _ _ _ => done

theorem getFieldRef (hm : m.scopes.Covers G.contexts) (binding field : Name) :
    Performs G m (MachineM.getFieldRef binding field) (MachineM.getFieldRef binding field) := by
  refine bind (Unaware.lookup hm binding) fun target m' _ => ?_
  dsimp only [id]
  split
  · exact fun _ _ _ => rfl
  · exact value

theorem setField (hm : m.scopes.Covers G.contexts) (n : Nat) (v : Operand) (targets : List Operand) :
    Performs G m (MachineM.setField n v targets) (MachineM.setField n v targets) :=
  okThen fun w _ => bind (Unaware.destructure w n) fun _ _ h =>
    bind (Unaware.writeAll (h.covers hm) _) fun _ _ _ => done

/-! ## Closures -/

theorem makeLambda (hm : m.scopes.Covers G.contexts) (label : Name) (t : Template) :
    Performs G m (MachineM.makeLambda label t) (MachineM.makeLambda label (t.relined G.lines)) := by
  refine bind (Unaware.capture hm t.free) fun found m₁ h => ?_
  dsimp only [id]
  refine bind (.keeping (Disguised.onStore (StoreM.Relined.allocate _))) fun i m₂ ⟨_, s, _, hs⟩ => ?_
  subst hs
  refine Disguised.cond (fun _ => getThen ?_) fun _ => value
  exact bind (Unaware.modifyFrame (m := { m₁ with store := s }) (h.covers hm) _) fun _ _ _ => value

theorem setDependencies (hm : m.scopes.Covers G.contexts) :
    Performs G m MachineM.setDependencies MachineM.setDependencies := by
  refine getThen (mapThen (Scopes.takeParked_above hm) fun ⟨ids, s⟩ hp => ?_)
  obtain ⟨-, hs⟩ := Scopes.takeParked_ok hp
  obtain ⟨c, cs, f, fs, hc, -, hs⟩ := Scopes.modifyFrame_ok hs
  have hcovers : s.Covers G.contexts := .inr (by simp [hs])
  refine modifyThen ?_ ?_
  · rfl
  exact bind (Unaware.completeAll (m := { m with scopes := s }) hcovers ids) fun _ _ _ => done

/-! ## Calls -/

theorem enterBody (l : Lambda) (args : List Value) (key : Option String) :
    Performs G m (MachineM.enterBody l args key) (MachineM.enterBody (l.relined G.lines) args key) := by
  have hframe : StoreM.Blind G.lines (calleeFrame l args) :=
    StoreM.Blind.bind (StoreM.Blind.mapM (fun p : Name × Datum =>
      StoreM.Blind.bind (StoreM.Blind.load p.2) fun _ => StoreM.Blind.ret) _) fun _ => StoreM.Blind.ret
  refine bind (Disguised.onStore hframe) fun frame m₁ _ => ?_
  dsimp only [id]
  refine modifyThen (Scopes.pushContext_above _ ▸ rfl) (items ?_)
  cases key <;> simp [Lambda.relined, Item.relined_op, Op.relined, G.lines.line_none]

theorem enter (hlimit : m.SameLimit G) (l : Lambda) (args : List Value) (key : Option String) :
    Performs G m (MachineM.enter l args key) (MachineM.enter (l.relined G.lines) args key) := by
  intro pins pins' hpins
  have hunder : (m.under G).config.overflow? (m.under G).scopes.depth =
      m.config.overflow? m.scopes.depth := hlimit
  cases ho : m.config.overflow? m.scopes.depth with
  | none =>
    rw [enter_eq_of_within ho, enter_eq_of_within (hunder.trans ho)]
    exact enterBody l args key pins pins' hpins
  | some limit =>
    rw [enter_eq_of_overflow ho, enter_eq_of_overflow (hunder.trans ho)]
    rfl

theorem answer (hmemo : G.config.memoize = m.config.memoize) {callee : NodeId} {args : List Value}
    (hlimit : (m.config.memoize = true → ∀ key, memoKey? callee args = some key →
      m.memo.entries[key]? = none) → m.SameLimit G) (l : Lambda) :
    Performs G m (MachineM.answer callee l args) (MachineM.answer callee (l.relined G.lines) args) := by
  rw [answer_eq, answer_eq]
  refine getThen ?_
  have hkey : (if (m.under G).config.memoize then memoKey? callee args else none) =
      if m.config.memoize then memoKey? callee args else none := by
    rw [show (m.under G).config = G.config from rfl, hmemo]
  have hask : (m.under G).memo = m.memo := rfl
  rw [hkey, hask]
  cases hk : (if m.config.memoize then memoKey? callee args else none) with
  | none =>
    refine enter (hlimit fun hon key hkey' => ?_) l args none
    rw [if_pos hon, hkey'] at hk
    cases hk
  | some key =>
    refine modifyThen ?_ ?_
    · rfl
    cases hv : m.memo.entries[key]? with
    | some v =>
      have hknown : (m.memo.ask key).1 = some v := by simp [Memo.ask, hv]
      simp only [hknown]
      exact valueOf (StoreM.Blind.copy v)
    | none =>
      have hknown : (m.memo.ask key).1 = none := by simp [Memo.ask, hv]
      simp only [hknown]
      refine enter (m := { m with memo := (m.memo.ask key).2 }) (hlimit fun hon key' hkey' => ?_) l args
        (some key)
      rw [if_pos hon, hkey'] at hk
      cases hk
      exact hv

theorem invoke (hmemo : G.config.memoize = m.config.memoize) {callee : NodeId} {args : List Value}
    (hlimit : m.Misses callee args → m.SameLimit G) :
    Performs G m (MachineM.invoke callee args) (MachineM.invoke callee args) := by
  rw [invoke_eq]
  refine bind (Disguised.onStore (StoreM.Relined.fetch Graph.Kind.Relines.lambdas callee))
    fun l m₁ ⟨pins, s, hl, hs⟩ => ?_
  subst hs
  obtain ⟨hget, rfl⟩ := StoreM.get_of_fetch_ok hl
  refine Disguised.cond (fun _ => fail) fun harity => ?_
  exact answer hmemo (fun hmiss => hlimit ⟨⟨l, hget, Decidable.not_not.1 harity⟩, hmiss⟩) l

theorem getVariable (hm : m.scopes.Covers G.contexts) (hmemo : G.config.memoize = m.config.memoize)
    {name : Name} (hlimit : m.Enters .getVariable [.var name] → m.SameLimit G) :
    Performs G m (MachineM.getVariable name) (MachineM.getVariable name) := by
  refine bind (Unaware.lookup hm name) fun v m₁ ⟨hv, h₁⟩ => ?_
  subst h₁
  dsimp only [id]
  split
  · rename_i i _
    refine bind (Disguised.onStore (StoreM.Relined.fetch Graph.Kind.Relines.lambdas i))
      fun l m₂ ⟨pins, s, hl, hs⟩ => ?_
    subst hs
    obtain ⟨hget, rfl⟩ := StoreM.get_of_fetch_ok hl
    exact Disguised.cond (fun _ => invoke hmemo fun hmiss => hlimit ⟨i, hv, hmiss⟩) fun _ => value
  · exact value

theorem call (hmemo : G.config.memoize = m.config.memoize) {n : Nat} {operands : List Operand}
    (hlimit : m.Enters (.call n) operands → m.SameLimit G) :
    Performs G m (MachineM.call operands) (MachineM.call operands) := by
  refine okThen fun vs hvs => ?_
  split
  · exact fail
  · rename_i i args
    obtain ⟨o, os, rfl⟩ : ∃ o os, operands = o :: os := by
      cases operands with
      | nil => cases hvs
      | cons o os => exact ⟨o, os, rfl⟩
    refine invoke hmemo fun hmiss => hlimit ?_
    rw [List.mapM_cons] at hvs
    cases o with
    | var name => cases hvs
    | value v =>
      cases hos : os.mapM Operand.toValue with
      | error failure => rw [hos] at hvs; cases hvs
      | ok ws =>
        rw [hos] at hvs
        cases hvs
        exact ⟨args, hos, hmiss⟩
  · exact fail

theorem memoize (key : String) (v : Value) :
    Performs G m (MachineM.memoize key v) (MachineM.memoize key v) :=
  modifyThen (by rfl) value

/-! ## Comprehensions -/

theorem closeCluster : Performs G m MachineM.closeCluster MachineM.closeCluster := by
  refine getThen ?_
  rw [show (m.under G).builders = m.builders from rfl]
  split
  · exact fail
  · exact modifyThen (by rfl) value

theorem schedule (var : Name) (index : Nat) (body : Program) (source : Value) :
    Performs G m (MachineM.schedule var index body source)
      (MachineM.schedule var index (relined G.lines body) source) := by
  rw [schedule_eq, schedule_eq]
  refine bind (Unaware.element? source index) fun v? m₁ _ => ?_
  dsimp only [id]
  split
  · refine items ?_
    simp [MachineM.round, Item.relined, Op.relined, G.lines.line_none]
  · exact closeCluster

theorem openCluster (var : Name) (body : Program) (source : Operand) :
    Performs G m (MachineM.openCluster var body source)
      (MachineM.openCluster var (relined G.lines body) source) :=
  okThen fun v _ => by
    rw [programNodes_relined]
    exact bind (.keeping (Unaware.onStore (StoreM.Blind.allocate rfl))) fun _ _ _ =>
      modifyThen (by rfl) (schedule var 0 body v)

theorem addResult (var : Name) (index : Nat) (body : Program) (result source : Operand) :
    Performs G m (MachineM.addResult var index body result source)
      (MachineM.addResult var index (relined G.lines body) result source) := by
  refine okThen fun v _ => okThen fun w _ => okThen fun d _ => getThen ?_
  rw [show (m.under G).builders = m.builders from rfl]
  split
  · exact fail
  · exact bind (Unaware.onStore (StoreM.Blind.update Graph.Kind.Relines.clusters _ _)) fun _ _ _ =>
      schedule var index body w

/-! ## All operations -/

theorem popContext (hm : m.scopes.Covers G.contexts) (args : List Operand) :
    Performs G m (perform .popContext args) (perform .popContext args) :=
  getThen (mapThen (Scopes.popContext_above hm) fun _ _ => modifyThen (by rfl) done)

theorem popFrame (hm : m.scopes.Covers G.contexts) (args : List Operand) :
    Performs G m (perform .popFrame args) (perform .popFrame args) :=
  getThen (mapThen (Scopes.popFrame_above hm) fun _ _ => modifyThen (by rfl) done)

theorem pushFrame (hm : m.scopes.Covers G.contexts) (args : List Operand) :
    Performs G m (perform .pushFrame args) (perform .pushFrame args) :=
  getThen (bind (Disguised.setScopes (K := fun _ _ => True) (Scopes.pushFrame_above hm) fun _ _ => trivial)
    fun _ _ _ => done)

/-- In a guise, an operation does with its operands what it does without. -/
theorem perform (hm : m.scopes.Covers G.contexts) (hmemo : G.config.memoize = m.config.memoize)
    {op : Op} {args : List Operand} (hlimit : m.Enters op args → m.SameLimit G) :
    Performs G m (MachineM.perform op args) (MachineM.perform (op.relined G.lines) args) := by
  cases op with
  | getVariable =>
    rcases args with _ | ⟨_ | name, _ | _⟩
    · exact fail
    · exact fun _ _ _ => rfl
    · exact fail
    · exact getVariable hm hmemo hlimit
    · exact fail
  | pushContext => exact modifyThen (by rfl) done
  | popContext => exact popContext hm args
  | pushFrame => exact pushFrame hm args
  | popFrame => exact popFrame hm args
  | assign n =>
    rcases args with _ | ⟨v, targets⟩
    · exact fail
    · exact assign hm n v targets
  | apply f => exact okThen fun vs _ => valueOf (StoreM.Blind.apply f vs)
  | getField name =>
    rcases args with _ | ⟨o, _ | _⟩
    · exact fail
    · exact okThen fun v _ => valueOf (StoreM.Blind.getField v name)
    · exact fail
  | getFieldRef field =>
    rcases args with _ | ⟨o, _ | _⟩
    · exact fail
    · exact okThen fun name _ => getFieldRef hm name field
    · exact fail
  | setField n =>
    rcases args with _ | ⟨v, targets⟩
    · exact fail
    · exact setField hm n v targets
  | branch yes no =>
    rcases args with _ | ⟨o, _ | _⟩
    · exact fail
    · refine okThen fun v _ => okThen fun b _ => items ?_
      cases b <;> rfl
    · exact fail
  | iterate var index body =>
    rcases index with _ | index <;> rcases args with _ | ⟨o, _ | ⟨o', _ | _⟩⟩
    · exact fail
    · exact openCluster var body o
    · exact addResult var 0 body o o'
    · exact fail
    · exact fail
    · exact fail
    · exact addResult var (index + 1) body o o'
    · exact fail
  | makeLambda params body free =>
    rcases args with _ | ⟨o, _ | _⟩
    · exact fail
    · exact okThen fun name _ => makeLambda hm name ⟨params, body, free⟩
    · exact fail
  | setDependencies => exact setDependencies hm
  | call n => exact call hmemo hlimit
  | memoize key =>
    rcases args with _ | ⟨o, _ | _⟩
    · exact fail
    · exact okThen fun v _ => memoize key v
    · exact fail

end Performs

end MachineM

end Mosaic
