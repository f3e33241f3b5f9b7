import Mosaic.Proofs.Machine.Moves
import Mosaic.Proofs.Store.Logic

/-!
# What holds of every operation

A property of actions that the basic actions have, and that a composed action has if its parts have it, holds
of what an operation does. The basic actions may be about machines of which something is known: then this has
to stay so whatever an action changes. `MachineM.Logic` is such a property with its rules, and there is one
lemma for each action. The operations that open and close frames and contexts by themselves, and the one that
adds to the memo, are basic actions too, but their rules depend on what is known, so they are left out.
-/

namespace Mosaic

open Mosaic.Graph (NodeId)

/-- The operation may set a lambda aside. -/
def Op.Parks : Op → Prop
  | makeLambda _ _ free => free ≠ []
  | _ => False

/-- The operation may copy objects. -/
def Op.MayCopy : Op → Prop
  | getVariable | call _ | setField _ | apply .patch => True
  | _ => False

/-- A property that what only goes on with results has on the machines of which something is known, and that all
ways to compose actions keep. -/
structure MachineM.Rules where
  Known : Machine → Prop
  Holds : ∀ {α : Type}, MachineM α → Prop
  ofExcept : ∀ {α : Type} {y : Except Failure α}, Bare y → Holds (MachineM.ofExcept y)
  bind : ∀ {α β : Type} {x : MachineM α} {f : α → MachineM β}, Holds x → (∀ a, Holds (f a)) → Holds (x >>= f)
  getThen : ∀ {α : Type} {f : Machine → MachineM α}, (∀ m, Known m → Holds (f m)) →
    Holds ((get : MachineM Machine) >>= f)
  modify : ∀ {g : Machine → Machine}, (∀ m, Known m → Known (g m)) → Holds (modify g : MachineM PUnit)
  keeping : ∀ {α : Type} {ids : List NodeId} {x : MachineM α}, Holds x → Holds (MachineM.keeping ids x)

/-- What is invariant may be what is known, if a bare failure is as `E` says. -/
def MachineM.Rules.ensuring (I : Machine → Prop) (E : Failure → Machine → Prop)
    (bare : ∀ failure m, failure.Bare → I m → E failure m) : MachineM.Rules where
  Known := I
  Holds x := Action.Ensures I E x fun _ => True
  ofExcept {_ y} hy m hm := by
    cases y with
    | ok a => exact .ret ⟨hm, trivial⟩
    | error failure => exact .fail (bare failure m (hy failure rfl) hm)
  bind hx hf := hx.bind fun a _ => hf a
  getThen := .getThen
  modify := .modify
  keeping hx := hx.keeping

/-- A property that the basic actions have on the machines of which something is known, and that all ways to
compose actions keep. If `J` holds, lambdas may be set aside. -/
structure MachineM.Logic (J : Prop) extends MachineM.Rules where
  /-- What is done with the store. -/
  store : StoreM.Interface
  /-- What is known of the scopes. -/
  Proper : Scopes → Prop
  onStore : ∀ {α : Type} {x : StoreM α}, store.Holds x → Holds (MachineM.onStore x)
  scopes : ∀ {m : Machine}, Known m → Proper m.scopes
  withScopes : ∀ {m : Machine} {s : Scopes}, Known m → Proper s → Known { m with scopes := s }
  withBuilders : ∀ {m : Machine} (builders : List NodeId), Known m → Known { m with builders }
  ask : ∀ {m : Machine} (key : String), Known m → Known { m with memo := (m.memo.ask key).2 }
  define : ∀ {s s' : Scopes} {name : Name} {v : Value}, Proper s → s.define name v = .ok s' → Proper s'
  assign : ∀ {s s' : Scopes} {name : Name} {v : Value}, Proper s → s.assign name v = .ok s' → Proper s'
  park : J → ∀ {s s' : Scopes} {id : NodeId}, Proper s → s.park id = .ok s' → Proper s'
  takeParked : ∀ {s s' : Scopes} {ids : List NodeId}, Proper s → s.takeParked = .ok (ids, s') → Proper s'
  pushContext : ∀ {s : Scopes} (c : Context), Proper s → Proper (s.pushContext c)

namespace MachineM.Logic

variable {J : Prop} (L : MachineM.Logic J) {α β : Type}

theorem ret {a : α} : L.Holds (pure a) := L.ofExcept .ok

theorem fail {cause : Cause} : L.Holds (MachineM.fail cause : MachineM α) := L.ofExcept .error

theorem failThen {cause : Cause} {f : β → MachineM α} : L.Holds (MachineM.fail cause >>= f) :=
  L.ofExcept .error

/-- An action that goes on with a result, which is known. -/
theorem okThen {y : Except Failure α} {f : α → MachineM β} (hy : Bare y) (h : ∀ a, y = .ok a → L.Holds (f a)) :
    L.Holds (MachineM.ofExcept y >>= f) := by
  cases y with
  | ok a => exact h a rfl
  | error failure =>
    have hbare : Bare (.error failure : Except Failure β) := fun _ hf => by cases hf; exact hy failure rfl
    exact L.ofExcept hbare

theorem setScopes {y : Except Failure Scopes} (hy : Bare y) (h : ∀ s, y = .ok s → L.Proper s) :
    L.Holds (MachineM.setScopes y) :=
  L.okThen hy fun s hs => L.modify fun _ hm => L.withScopes hm (h s hs)

theorem lookup (name : Name) : L.Holds (MachineM.lookup name) := by
  refine L.getThen fun m _ => ?_
  split
  · exact L.ret
  · exact L.fail

/-! ## Operations -/

theorem destructure (v : Value) (n : Nat) : L.Holds (MachineM.destructure v n) := by
  unfold MachineM.destructure
  split
  · exact L.ret
  · split
    · refine L.onStore (L.store.bind (L.store.fetch _ _) fun c => ?_)
      dsimp only
      split
      · exact L.store.failThen
      · exact L.store.mapM L.store.load _
    · exact L.fail

theorem bindAll (ps : List (Operand × Value)) : L.Holds (MachineM.bindAll ps) := by
  induction ps with
  | nil => exact L.ret
  | cons p ps ih =>
    refine L.bind (L.ofExcept (.toVariable _)) fun name => L.getThen fun m hm => ?_
    exact L.bind (L.setScopes (.modifyFrame m.scopes _) fun s hs => L.define (L.scopes hm) hs) fun _ => ih

theorem assignOp (n : Nat) (v : Operand) (targets : List Operand) : L.Holds (MachineM.assign n v targets) :=
  L.bind (L.ofExcept (.toValue v)) fun w => L.bind (L.destructure w n) fun _ => L.bind (L.bindAll _) fun _ => L.ret

theorem getFieldRef (binding field : Name) : L.Holds (MachineM.getFieldRef binding field) := by
  refine L.bind (L.lookup binding) fun target => ?_
  split
  · exact L.failThen
  · exact L.ret

theorem writeField (hcopying : L.store.Copying) (binding field : Name) (v : Value) :
    L.Holds (MachineM.writeField binding field v) := by
  refine L.bind (L.lookup binding) fun target => L.bind (L.ofExcept (.toDatum v)) fun d => ?_
  split
  · refine L.bind (L.keeping (L.onStore (hcopying.copyWithField _ _ _ _))) fun _ => L.getThen fun m hm => ?_
    exact L.setScopes (.assign m.scopes _ _) fun s hs => L.assign (L.scopes hm) hs
  · exact L.fail

theorem writeAll (hcopying : L.store.Copying) (ps : List (Operand × Value)) : L.Holds (MachineM.writeAll ps) := by
  induction ps with
  | nil => exact L.ret
  | cons p ps ih =>
    refine L.bind (L.ofExcept (.toValue _)) fun target => ?_
    split
    · exact L.bind (L.keeping (L.writeField hcopying _ _ _)) fun _ => ih
    · exact L.failThen

theorem setField (hcopying : L.store.Copying) (n : Nat) (v : Operand) (targets : List Operand) :
    L.Holds (MachineM.setField n v targets) :=
  L.bind (L.ofExcept (.toValue v)) fun w => L.bind (L.destructure w n) fun _ =>
    L.bind (L.writeAll hcopying _) fun _ => L.ret

theorem capture (names : List Name) : L.Holds (MachineM.capture names) :=
  L.getThen fun _ _ => L.ofExcept (.mapM (fun (_, v) => .bind (.toDatum v) fun _ => .ok) _)

/-- A lambda without free names is complete, so it is not set aside. -/
theorem makeLambda (label : Name) {t : Template} (ht : L.store.Fit t) (hfree : t.free ≠ [] → J) :
    L.Holds (MachineM.makeLambda label t) := by
  refine L.bind (L.capture t.free) fun found =>
    L.bind (L.keeping (L.onStore (L.store.lambda _ _ ht))) fun i => ?_
  dsimp only
  split
  · rename_i hincomplete
    have hne : t.free ≠ [] := by
      intro hnil
      simp [Lambda.isComplete, Lambda.unresolved, Lambda.ofTemplate, hnil] at hincomplete
    refine L.getThen fun m hm => L.bind (L.setScopes (.modifyFrame m.scopes _) fun s hs => ?_) fun _ => L.ret
    exact L.park (hfree hne) (L.scopes hm) hs
  · exact L.ret

theorem complete (i : NodeId) : L.Holds (MachineM.complete i) := by
  refine L.bind (L.onStore (L.store.fetch _ _)) fun l => L.bind (L.capture l.unresolved) fun found => ?_
  split
  · exact L.onStore (L.store.close _ _)
  · exact L.ret

theorem completeAll (ids : List NodeId) : L.Holds (MachineM.completeAll ids) := by
  induction ids with
  | nil => exact L.ret
  | cons i ids ih => exact L.bind (L.keeping (L.complete i)) fun _ => ih

theorem setDependencies : L.Holds MachineM.setDependencies := by
  refine L.getThen fun m hm => L.okThen (.map (.modifyFrame m.scopes _) _) fun ⟨ids, s⟩ hs => ?_
  refine L.bind (L.modify fun _ hm' => L.withScopes hm' (L.takeParked (L.scopes hm) hs)) fun _ => ?_
  exact L.bind (L.completeAll _) fun _ => L.ret

theorem element? (source : Value) (index : Nat) : L.Holds (MachineM.element? source index) := by
  unfold MachineM.element?
  split
  · refine L.onStore (L.store.bind (L.store.fetch _ _) fun c => ?_)
    dsimp only
    cases c.items[index]? with
    | none => exact L.store.ret
    | some d => exact L.store.bind (L.store.load d) fun _ => L.store.ret
  · split
    · exact L.ret
    · exact L.fail
  · exact L.fail

theorem schedule (var : Name) (index : Nat) (body : Program) (source : Value) :
    L.Holds (MachineM.schedule var index body source) := by
  rw [schedule_eq]
  refine L.bind (L.element? source index) fun v? => ?_
  split
  · exact L.ret
  · refine L.getThen fun m _ => ?_
    split
    · exact L.fail
    · exact L.bind (L.modify fun m hm => L.withBuilders _ hm) fun _ => L.ret

theorem openCluster (var : Name) (body : Program) (source : Operand) :
    L.Holds (MachineM.openCluster var body source) :=
  L.bind (L.ofExcept (.toValue source)) fun _ => L.bind (L.keeping (L.onStore (L.store.cluster _))) fun _ =>
    L.bind (L.modify fun _ hm => L.withBuilders _ hm) fun _ => L.schedule _ _ _ _

theorem addResult (var : Name) (index : Nat) (body : Program) (result source : Operand) :
    L.Holds (MachineM.addResult var index body result source) := by
  refine L.bind (L.ofExcept (.toValue result)) fun v => L.bind (L.ofExcept (.toValue source)) fun w => ?_
  refine L.bind (L.ofExcept (.toDatum v)) fun d => L.getThen fun m _ => ?_
  split
  · exact L.fail
  · exact L.bind (L.onStore (L.store.append _ _)) fun _ => L.schedule _ _ _ _

/-! ## Calls -/

theorem enterBody (l : Lambda) (args : List Value) (key : Option String) :
    L.Holds (MachineM.enterBody l args key) := by
  have hframe : L.store.Holds (calleeFrame l args) :=
    L.store.bind (L.store.mapM (fun _ => L.store.bind (L.store.load _) fun _ => L.store.ret) _) fun _ => L.store.ret
  refine L.bind (L.onStore hframe) fun frame => L.bind (L.modify fun m hm => ?_) fun _ => L.ret
  exact L.withScopes hm (L.pushContext _ (L.scopes hm))

theorem enter (l : Lambda) (args : List Value) (key : Option String) : L.Holds (MachineM.enter l args key) := by
  rw [enter_eq]
  refine L.getThen fun m _ => ?_
  split
  · split
    · exact L.fail
    · exact L.enterBody l args key
  · exact L.enterBody l args key

theorem answer (hcopying : L.store.Copying) (callee : NodeId) (l : Lambda) (args : List Value) :
    L.Holds (MachineM.answer callee l args) := by
  rw [answer_eq]
  refine L.getThen fun m _ => ?_
  split
  · refine L.bind (L.modify fun m hm => L.ask _ hm) fun _ => ?_
    split
    · exact L.bind (L.keeping (L.onStore (hcopying.copy _))) fun _ => L.ret
    · exact L.enter _ _ _
  · exact L.enter _ _ _

theorem invoke (hcopying : L.store.Copying) (callee : NodeId) (args : List Value) :
    L.Holds (MachineM.invoke callee args) := by
  rw [invoke_eq]
  refine L.bind (L.onStore (L.store.fetch _ _)) fun l => ?_
  split
  · exact L.fail
  · exact L.answer hcopying _ _ _

theorem getVariable (hcopying : L.store.Copying) (name : Name) : L.Holds (MachineM.getVariable name) := by
  refine L.bind (L.lookup name) fun v => ?_
  split
  · refine L.bind (L.onStore (L.store.fetch _ _)) fun l => ?_
    split
    · exact L.invoke hcopying _ _
    · exact L.ret
  · exact L.ret

theorem call (hcopying : L.store.Copying) (operands : List Operand) : L.Holds (MachineM.call operands) := by
  refine L.bind (L.ofExcept (.mapM .toValue _)) fun vs => ?_
  split
  · exact L.fail
  · exact L.invoke hcopying _ _
  · exact L.fail

/-- The property holds of every operation whose rule does not depend on what is known. -/
theorem perform {op : Op} (hshifts : op.Shifts → op.Calls) (hmemo : ∀ key, op ≠ .memoize key)
    (hparks : op.Parks → J) (hcopying : op.MayCopy → L.store.Copying)
    (hfit : ∀ params body free, op = .makeLambda params body free → L.store.Fit ⟨params, body, free⟩)
    (args : List Operand) : L.Holds (MachineM.perform op args) := by
  unfold MachineM.perform
  split
  · exact L.bind (L.ofExcept (.toVariable _)) fun _ => L.getVariable (hcopying trivial) _
  · exact (hshifts trivial).elim
  · exact (hshifts trivial).elim
  · exact (hshifts trivial).elim
  · exact (hshifts trivial).elim
  · exact L.fail
  · exact L.assignOp _ _ _
  · refine L.bind (L.ofExcept (.mapM .toValue _)) fun _ =>
      L.bind (L.keeping (L.onStore (L.store.apply ?_ _))) fun _ => L.ret
    rintro rfl
    exact hcopying trivial
  · exact L.bind (L.ofExcept (.toValue _)) fun _ =>
      L.bind (L.keeping (L.onStore (L.store.getField _ _))) fun _ => L.ret
  · exact L.bind (L.ofExcept (.toVariable _)) fun _ => L.getFieldRef _ _
  · exact L.fail
  · exact L.setField (hcopying trivial) _ _ _
  · refine L.bind (L.ofExcept (.toValue _)) fun v => L.bind (L.ofExcept (.toBool v)) fun b => ?_
    exact L.ret
  · exact L.openCluster _ _ _
  · exact L.addResult _ _ _ _ _
  · exact L.bind (L.ofExcept (.toVariable _)) fun _ => L.makeLambda _ (hfit _ _ _ rfl) hparks
  · exact L.setDependencies
  · exact L.call (hcopying trivial) _
  · exact (hmemo _ rfl).elim
  · exact L.fail

/-- If nothing has to be known of the scopes and the memo, it holds of the operations that open and close frames
and contexts by themselves, and of the one that adds to the memo. -/
theorem performShift (hproper : ∀ s, L.Proper s)
    (hmemo : ∀ (m : Machine) (memo : Memo), L.Known m → L.Known { m with memo }) {op : Op}
    (hop : op.Shifts ∧ ¬ op.Calls ∨ ∃ key, op = .memoize key) (args : List Operand) :
    L.Holds (MachineM.perform op args) := by
  rcases hop with ⟨hshifts, hcalls⟩ | ⟨key, rfl⟩
  · cases op with
    | getVariable | call => exact (hcalls trivial).elim
    | pushContext => exact L.bind (L.modify fun m hm => L.withScopes hm (hproper _)) fun _ => L.ret
    | popContext =>
      refine L.getThen fun m _ => L.bind (L.ofExcept (.popContext m.scopes)) fun _ => ?_
      exact L.bind (L.modify fun m hm => L.withScopes hm (hproper _)) fun _ => L.ret
    | pushFrame =>
      exact L.getThen fun m _ => L.bind (L.setScopes (.pushFrame m.scopes) fun s _ => hproper s) fun _ => L.ret
    | popFrame =>
      refine L.getThen fun m _ => L.bind (L.ofExcept (.popFrame m.scopes)) fun _ => ?_
      exact L.bind (L.modify fun m hm => L.withScopes hm (hproper _)) fun _ => L.ret
    | _ => exact hshifts.elim
  · rcases args with _ | ⟨v, _ | _⟩
    · exact L.fail
    · refine L.bind (L.ofExcept (.toValue v)) fun w => L.bind (L.modify fun m hm => ?_) fun _ => L.ret
      exact hmemo m _ hm
    · exact L.fail

/-- If nothing has to be known of the scopes and the memo, it holds of every operation. -/
theorem performAny (hproper : ∀ s, L.Proper s)
    (hmemo : ∀ (m : Machine) (memo : Memo), L.Known m → L.Known { m with memo }) {op : Op} (hparks : op.Parks → J)
    (hcopying : op.MayCopy → L.store.Copying)
    (hfit : ∀ params body free, op = .makeLambda params body free → L.store.Fit ⟨params, body, free⟩)
    (args : List Operand) : L.Holds (MachineM.perform op args) := by
  by_cases hshift : op.Shifts ∧ ¬ op.Calls ∨ ∃ key, op = .memoize key
  · exact L.performShift hproper hmemo hshift args
  · exact L.perform (fun hs => by_contra fun hc => hshift (.inl ⟨hs, hc⟩))
      (fun key hkey => hshift (.inr ⟨key, hkey⟩)) hparks hcopying hfit args

end MachineM.Logic

end Mosaic
