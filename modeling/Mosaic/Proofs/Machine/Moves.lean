import Mathlib.Data.List.Forall2
import Mosaic.Proofs.Published.Actions

/-!
# What operations do to the scopes

The operations that neither open nor close a frame or a context change at most the frames of the innermost
context: a binding adds names to the innermost frame, and the assignment of fields rebinds names that are
bound already. `Moving I W m x` says that, however the action `x` ends, the machine is changed in this way
only, where `I` says whether names may be added and `W` which names may be rebound. The stacks of operands
and of what is to be run, and the count of the steps, are left alone.
-/

namespace Mosaic

open Mosaic.Graph (NodeId)

/-! ## Frames -/

/-- The frames bind the same names, and to the same values but for the names in `W`. -/
structure Frame.Agrees (W : Name → Prop) (f f' : Frame) : Prop where
  bound : ∀ name, (f'.lookup? name).isSome = (f.lookup? name).isSome
  value : ∀ name, ¬ W name → f'.lookup? name = f.lookup? name

namespace Frame.Agrees

variable {W : Name → Prop} {f f' f'' : Frame}

theorem refl (f : Frame) : f.Agrees W f := ⟨fun _ => rfl, fun _ _ => rfl⟩

theorem trans (h : f.Agrees W f') (h' : f'.Agrees W f'') : f.Agrees W f'' :=
  ⟨fun name => (h'.bound name).trans (h.bound name),
    fun name hname => (h'.value name hname).trans (h.value name hname)⟩

theorem define {name : Name} (v : Value) (hname : W name) (hf : (f.lookup? name).isSome = true) :
    f.Agrees W (f.define name v) := by
  refine ⟨fun n => ?_, fun n hn => ?_⟩
  · rw [lookup?_define]
    split
    · rename_i h
      rw [← h, hf]
      rfl
    · rfl
  · have hne : name ≠ n := by
      rintro rfl
      exact hn hname
    rw [lookup?_define, if_neg hne]

end Frame.Agrees

/-- The innermost frame may get more names if `I` holds, and names in `W` may be rebound. -/
def Context.Changes (I : Prop) (W : Name → Prop) : List Frame → List Frame → Prop
  | [], [] => True
  | f :: fs, f' :: fs' => (I ∨ f.Agrees W f') ∧ List.Forall₂ (Frame.Agrees W) fs fs'
  | _, _ => False

namespace Context.Changes

variable {I : Prop} {W : Name → Prop} {f : Frame} {fs fs' fs'' : List Frame}

theorem agrees_refl (fs : List Frame) : List.Forall₂ (Frame.Agrees W) fs fs := by
  induction fs with
  | nil => exact .nil
  | cons f fs ih => exact .cons (.refl f) ih

theorem agrees_trans (h : List.Forall₂ (Frame.Agrees W) fs fs')
    (h' : List.Forall₂ (Frame.Agrees W) fs' fs'') : List.Forall₂ (Frame.Agrees W) fs fs'' := by
  induction h generalizing fs'' with
  | nil => exact h'
  | cons h _ ih =>
    cases h' with
    | cons h' hs' => exact .cons (h.trans h') (ih hs')

theorem trans (h : Context.Changes I W fs fs') (h' : Context.Changes I W fs' fs'') :
    Context.Changes I W fs fs'' := by
  cases fs <;> cases fs' <;> cases fs''
  case nil.nil.nil => trivial
  case cons.cons.cons =>
    refine ⟨?_, agrees_trans h.2 h'.2⟩
    rcases h.1 with hi | h₁
    · exact .inl hi
    · exact h'.1.imp_right h₁.trans
  all_goals first | exact h.elim | exact h'.elim

theorem assign {name : Name} {v : Value} (hname : W name)
    (h : Context.assign? name v fs = some fs') : List.Forall₂ (Frame.Agrees W) fs fs' := by
  obtain ⟨inner, f, outer, rfl, -, hf, rfl⟩ := Context.exists_of_assign? h
  have hinner : List.Forall₂ (Frame.Agrees W) inner inner := agrees_refl inner
  have hdefine : f.Agrees W (f.define name v) := .define v hname (Option.isSome_iff_ne_none.2 hf)
  exact List.rel_append hinner (.cons hdefine (agrees_refl outer))

theorem of_agrees (h : List.Forall₂ (Frame.Agrees W) fs fs') : Context.Changes I W fs fs' := by
  cases h with
  | nil => trivial
  | cons h hs => exact ⟨.inr h, hs⟩

end Context.Changes

/-- At most the frames of the innermost context are changed. -/
def Scopes.Changes (I : Prop) (W : Name → Prop) (s s' : Scopes) : Prop :=
  s' = s ∨ ∃ c cs fs, s.contexts = c :: cs ∧ s'.contexts = { c with frames := fs } :: cs ∧
    Context.Changes I W c.frames fs

namespace Scopes.Changes

variable {I : Prop} {W : Name → Prop} {s s' s'' : Scopes}

theorem trans (h : s.Changes I W s') (h' : s'.Changes I W s'') : s.Changes I W s'' := by
  rcases h with rfl | ⟨c, cs, fs, hs, hs', hfs⟩
  · exact h'
  · rcases h' with rfl | ⟨c', cs', fs', hs₁, hs'', hfs'⟩
    · exact .inr ⟨c, cs, fs, hs, hs', hfs⟩
    · rw [hs'] at hs₁
      cases hs₁
      exact .inr ⟨c, cs, fs', hs, hs'', hfs.trans hfs'⟩

theorem length (h : s.Changes I W s') : s'.contexts.length = s.contexts.length := by
  rcases h with rfl | ⟨c, cs, fs, hs, hs', _⟩
  · rfl
  · rw [hs, hs']
    rfl

theorem modifyFrame {g : Frame → Frame} (hs : s.modifyFrame g = .ok s')
    (hg : I ∨ ∀ f : Frame, f.Agrees W (g f)) : s.Changes I W s' := by
  obtain ⟨c, cs, f, fs, hc, hf, hc'⟩ := modifyFrame_ok hs
  refine .inr ⟨c, cs, g f :: fs, hc, hc', ?_⟩
  rw [hf]
  exact ⟨hg.imp_right fun h => h f, Context.Changes.agrees_refl fs⟩

theorem assign {name : Name} {v : Value} (hname : W name) (hs : s.assign name v = .ok s') :
    s.Changes I W s' := by
  obtain ⟨c, cs, fs, hc, hf, hc'⟩ := assign_ok hs
  exact .inr ⟨c, cs, fs, hc, hc', .of_agrees (Context.Changes.assign hname hf)⟩

end Scopes.Changes

/-! ## Actions -/

/-- What every operation leaves alone. -/
structure Machine.Kept (m m' : Machine) : Prop where
  config : m'.config = m.config
  program : m'.program = m.program
  operands : m'.operands = m.operands
  steps : m'.steps = m.steps

namespace Machine.Kept

variable {m m' m'' : Machine}

theorem refl (m : Machine) : m.Kept m := ⟨rfl, rfl, rfl, rfl⟩

theorem trans (h : m.Kept m') (h' : m'.Kept m'') : m.Kept m'' :=
  ⟨h'.config.trans h.config, h'.program.trans h.program, h'.operands.trans h.operands,
    h'.steps.trans h.steps⟩

end Machine.Kept

/-- Besides what is kept, at most the frames of the innermost context are changed, and the store, the memo
and the open clusters. -/
structure Machine.Moves (I : Prop) (W : Name → Prop) (m m' : Machine) : Prop extends Machine.Kept m m' where
  scopes : m.scopes.Changes I W m'.scopes

namespace Machine.Moves

variable {I : Prop} {W : Name → Prop} {m m' m'' : Machine}

theorem refl (m : Machine) : m.Moves I W m := ⟨.refl m, .inl rfl⟩

theorem trans (h : m.Moves I W m') (h' : m'.Moves I W m'') : m.Moves I W m'' :=
  ⟨h.toKept.trans h'.toKept, h.scopes.trans h'.scopes⟩

theorem withScopes {s : Scopes} (h : m.scopes.Changes I W s) : m.Moves I W { m with scopes := s } :=
  ⟨⟨rfl, rfl, rfl, rfl⟩, h⟩

end Machine.Moves

namespace MachineM

/-- However the action ends, the machine is changed in this way only. -/
def Moving {α : Type} (I : Prop) (W : Name → Prop) (m : Machine) (x : MachineM α) : Prop :=
  Ends x m (m.Moves I W) fun _ m' => m.Moves I W m'

namespace Moving

variable {I : Prop} {W : Name → Prop} {α β : Type} {m : Machine} {x : MachineM α}
  {f : α → MachineM β} {y : MachineM β}

theorem ret {a : α} : Moving I W m (pure a) := Ends.ret (.refl m)

theorem fail {cause : Cause} : Moving I W m (MachineM.fail cause : MachineM α) := Ends.fail (.refl m)

theorem failThen {cause : Cause} : Moving I W m (MachineM.fail cause >>= f) := fun _ => .refl m

theorem bind (hx : Moving I W m x) (hf : ∀ a m', m.Moves I W m' → Moving I W m' (f a)) :
    Moving I W m (x >>= f) :=
  Ends.bind hx fun a m' h => (hf a m' h).imp (fun _ h' => h.trans h') fun _ _ h' => h.trans h'

theorem keeping {ids : List NodeId} (hx : Moving I W m x) : Moving I W m (MachineM.keeping ids x) :=
  Ends.keeping hx

theorem okThen {e : Except Failure α} (hf : ∀ a, e = .ok a → Moving I W m (f a)) :
    Moving I W m (MachineM.ofExcept e >>= f) :=
  Ends.okThen (.refl m) hf

theorem getThen {f : Machine → MachineM α} (h : Moving I W m (f m)) :
    Moving I W m ((get : MachineM Machine) >>= f) :=
  Ends.getThen h

theorem modifyThen {g : Machine → Machine} {f : PUnit → MachineM α} (hg : m.Moves I W (g m))
    (h : Moving I W (g m) (f ⟨⟩)) : Moving I W m ((modify g : MachineM PUnit) >>= f) :=
  Ends.modifyThen (h.imp (fun _ h' => hg.trans h') fun _ _ h' => hg.trans h')

theorem setScopes {e : Except Failure Scopes} (h : ∀ s, e = .ok s → m.scopes.Changes I W s) :
    Moving I W m (MachineM.setScopes e) :=
  Ends.setScopes (.refl m) fun s hs => .withScopes (h s hs)

theorem onStore {x : StoreM α} : Moving I W m (MachineM.onStore x) :=
  Action.Ends.onStore fun _ => .intro (fun _ _ _ => ⟨⟨rfl, rfl, rfl, rfl⟩, .inl rfl⟩)
    fun _ _ _ => ⟨⟨rfl, rfl, rfl, rfl⟩, .inl rfl⟩

theorem lookup {name : Name} : Moving I W m (MachineM.lookup name) := by
  refine getThen ?_
  split
  · exact ret
  · exact fail

/-! ## Operations -/

theorem destructure (v : Value) (n : Nat) : Moving I W m (MachineM.destructure v n) := by
  unfold MachineM.destructure
  split
  · exact ret
  · split
    · exact onStore
    · exact fail

theorem bindAll (ps : List (Operand × Value)) : Moving True W m (MachineM.bindAll ps) := by
  induction ps generalizing m with
  | nil => exact ret
  | cons p ps ih =>
    refine okThen fun name _ => getThen (bind (setScopes fun s hs => ?_) fun _ _ _ => ih)
    exact .modifyFrame hs (.inl trivial)

theorem assign (n : Nat) (v : Operand) (targets : List Operand) :
    Moving True W m (MachineM.assign n v targets) :=
  okThen fun w _ => bind (destructure w n) fun _ _ _ => bind (bindAll _) fun _ _ _ => ret

theorem getFieldRef (binding field : Name) : Moving I W m (MachineM.getFieldRef binding field) := by
  refine bind lookup fun target m' _ => ?_
  split
  · exact failThen
  · exact ret

theorem writeField {binding : Name} (hbinding : W binding) (field : Name) (v : Value) :
    Moving I W m (MachineM.writeField binding field v) := by
  refine bind lookup fun target m' _ => okThen fun d _ => ?_
  split
  · exact bind (keeping onStore) fun copy m₁ _ => getThen (setScopes fun s hs => .assign hbinding hs)
  · exact fail

theorem writeAll {ps : List (Operand × Value)}
    (hps : ∀ p ∈ ps, ∀ binding field, p.1 = .value (.fieldRef binding field) → W binding) :
    Moving I W m (MachineM.writeAll ps) := by
  induction ps generalizing m with
  | nil => exact ret
  | cons p ps ih =>
    obtain ⟨target, v⟩ := p
    refine okThen fun w hw => ?_
    split
    · rename_i binding field
      have htarget : target = .value (.fieldRef binding field) := by
        cases target <;> cases hw
        rfl
      exact bind (keeping (writeField (hps (target, v) (by simp) binding field htarget) field v))
        fun _ _ _ => ih fun q hq => hps q (by simp [hq])
    · exact failThen

/-- A field is assigned by rebinding the name that the right to assign it was taken from. -/
theorem setField {targets : List Operand}
    (ht : ∀ binding field, .value (.fieldRef binding field) ∈ targets → W binding) (n : Nat)
    (v : Operand) : Moving I W m (MachineM.setField n v targets) :=
  okThen fun w _ => bind (destructure w n) fun _ _ _ =>
    bind (writeAll fun _ hp binding field h => ht binding field (h ▸ (List.of_mem_zip hp).1)) fun _ _ _ =>
      ret

theorem capture (names : List Name) : Moving I W m (MachineM.capture names) := by
  rw [capture_eq]
  refine getThen ?_
  cases captured m.scopes names <;> exact fun _ => .refl m

theorem makeLambda (label : Name) (t : Template) : Moving I W m (MachineM.makeLambda label t) := by
  refine bind (capture t.free) fun found m₁ _ => bind (keeping onStore) fun i m₂ _ => ?_
  dsimp only
  split
  · refine getThen (bind (setScopes fun s hs => ?_) fun _ _ _ => ret)
    exact .modifyFrame hs (.inr fun _ => ⟨fun _ => rfl, fun _ _ => rfl⟩)
  · exact ret

theorem complete (i : NodeId) : Moving I W m (MachineM.complete i) := by
  refine bind onStore fun l _ _ => bind (capture l.unresolved) fun found _ _ => ?_
  split
  · exact onStore
  · exact ret

theorem completeAll (ids : List NodeId) : Moving I W m (MachineM.completeAll ids) := by
  induction ids generalizing m with
  | nil => exact ret
  | cons i ids ih => exact bind (keeping (complete i)) fun _ _ _ => ih

theorem setDependencies : Moving I W m MachineM.setDependencies := by
  refine getThen (okThen fun ⟨ids, s⟩ hs => modifyThen ?_ (bind (completeAll ids) fun _ _ _ => ret))
  obtain ⟨-, hs⟩ := Scopes.takeParked_ok hs
  exact .withScopes (.modifyFrame hs (.inr fun _ => ⟨fun _ => rfl, fun _ _ => rfl⟩))

theorem element? (source : Value) (index : Nat) : Moving I W m (MachineM.element? source index) := by
  unfold MachineM.element?
  split
  · exact onStore
  · split
    · exact ret
    · exact fail
  · exact fail

theorem schedule (var : Name) (index : Nat) (body : Program) (source : Value) :
    Moving I W m (MachineM.schedule var index body source) := by
  rw [schedule_eq]
  refine bind (element? source index) fun v? _ _ => ?_
  split
  · exact ret
  · refine getThen ?_
    split
    · exact fail
    · exact modifyThen ⟨⟨rfl, rfl, rfl, rfl⟩, .inl rfl⟩ ret

theorem openCluster (var : Name) (body : Program) (source : Operand) :
    Moving I W m (MachineM.openCluster var body source) :=
  okThen fun v _ => bind (keeping onStore) fun _ _ _ =>
    modifyThen ⟨⟨rfl, rfl, rfl, rfl⟩, .inl rfl⟩ (schedule var 0 body v)

theorem addResult (var : Name) (index : Nat) (body : Program) (result source : Operand) :
    Moving I W m (MachineM.addResult var index body result source) := by
  refine okThen fun v _ => okThen fun w _ => okThen fun d _ => getThen ?_
  split
  · exact fail
  · exact bind onStore fun _ _ _ => schedule var index body w

end Moving

end MachineM

namespace Op

/-- The operation may open or close a frame or a context. -/
def Shifts : Op → Prop
  | getVariable | call _ | pushContext | popContext | pushFrame | popFrame => True
  | _ => False

/-- The operation binds names in the innermost frame. -/
def Binds : Op → Prop
  | assign _ => True
  | _ => False

/-- The operation rebinds the names in `W` only, given the operands. The first one is the value. -/
def Spares (W : Name → Prop) (args : List Operand) : Op → Prop
  | setField _ => ∀ binding field, .value (.fieldRef binding field) ∈ args.tail → W binding
  | _ => True

theorem spares_all (op : Op) (args : List Operand) : op.Spares (fun _ => True) args := by
  cases op with
  | setField => exact fun _ _ _ => trivial
  | _ => exact trivial

end Op

/-- What an operation does that neither opens nor closes a frame or a context. -/
theorem MachineM.Moving.perform {m : Machine} {W : Name → Prop} {op : Op} {args : List Operand}
    (hop : ¬ op.Shifts) (hw : op.Spares W args) : Moving op.Binds W m (MachineM.perform op args) := by
  cases op with
  | getVariable | call | pushContext | popContext | pushFrame | popFrame => exact absurd trivial hop
  | assign n =>
    rcases args with _ | ⟨v, targets⟩
    · exact fail
    · exact assign n v targets
  | apply f => exact okThen fun vs _ => bind (keeping onStore) fun _ _ _ => ret
  | getField name =>
    rcases args with _ | ⟨o, _ | _⟩
    · exact fail
    · exact okThen fun v _ => bind (keeping onStore) fun _ _ _ => ret
    · exact fail
  | getFieldRef field =>
    rcases args with _ | ⟨o, _ | _⟩
    · exact fail
    · exact okThen fun name _ => getFieldRef name field
    · exact fail
  | setField n =>
    rcases args with _ | ⟨v, targets⟩
    · exact fail
    · exact setField hw n v
  | branch yes no =>
    rcases args with _ | ⟨o, _ | _⟩
    · exact fail
    · exact okThen fun v _ => okThen fun b _ => ret
    · exact fail
  | iterate var index body =>
    rcases index with _ | index <;> rcases args with _ | ⟨o, _ | ⟨o', _ | _⟩⟩
    · exact fail
    · exact openCluster var body o
    · exact addResult var 0 body o o'
    · exact fail
    · exact fail
    · exact fail
    · exact addResult var (index + 1) body o o'
    · exact fail
  | makeLambda params body free =>
    rcases args with _ | ⟨o, _ | _⟩
    · exact fail
    · exact okThen fun name _ => makeLambda name ⟨params, body, free⟩
    · exact fail
  | setDependencies => exact setDependencies
  | memoize key =>
    rcases args with _ | ⟨o, _ | _⟩
    · exact fail
    · exact okThen fun v _ => modifyThen ⟨⟨rfl, rfl, rfl, rfl⟩, .inl rfl⟩ ret
    · exact fail

/-! ## Calls -/

/-- Besides what is kept, the scopes are left alone. -/
structure Machine.Stays (m m' : Machine) : Prop extends Machine.Kept m m' where
  scopes : m'.scopes = m.scopes

namespace Machine.Stays

variable {m m' m'' : Machine}

theorem refl (m : Machine) : m.Stays m := ⟨.refl m, rfl⟩

end Machine.Stays

/-- What a call leads to: a value at once, or the body of a lambda that `K` holds of in a context of its
own, if the limit has room for one more. -/
inductive Machine.Called (K : NodeId → Prop) (m : Machine) : Effect → Machine → Prop
  | answered {m' : Machine} (v : Value) (stays : m.Stays m') : Called K m (.value v) m'
  | entered {m' : Machine} (callee : NodeId) (l : Lambda) (frame : Frame) (memoize : Program)
    (called : K callee) (stored : m.store.pool.get Object.lambdas callee = .ok l)
    (memo : IsMemoize memoize) (kept : m.Kept m')
    (scopes : m'.scopes = m.scopes.pushContext { frames := [frame], label := some l.label })
    (limit : m.config.overflow? m.scopes.depth = none) :
    Called K m (.items (l.body ++ .op .popContext none :: memoize)) m'

theorem Machine.Called.kept {K : NodeId → Prop} {m m' : Machine} {e : Effect} (h : m.Called K e m') :
    m.Kept m' := by
  cases h with
  | answered v stays => exact stays.toKept
  | entered callee l frame memoize called stored memo kept scopes limit => exact kept

namespace MachineM

/-- The action calls, or it fails and leaves the scopes alone. -/
abbrev Calling (K : NodeId → Prop) (m : Machine) (x : MachineM Effect) : Prop :=
  Ends x m m.Stays (m.Called K)

namespace Calling

variable {K : NodeId → Prop} {m : Machine} {callee : NodeId} {l : Lambda}

theorem fail {cause : Cause} : Calling K m (MachineM.fail cause) := Ends.fail (.refl m)

theorem value {v : Value} : Calling K m (pure (.value v)) := Ends.ret (.answered v (.refl m))

theorem valueOf {x : StoreM Value} {ids : List NodeId} :
    Calling K m (do return .value (← MachineM.keeping ids (MachineM.onStore x))) := by
  intro pins
  rw [bind_apply, keeping_apply, onStore_apply]
  cases x ((pins.also fun _ => ids).also fun _ => m.mentions) m.store with
  | ok v s => exact .answered v ⟨⟨rfl, rfl, rfl, rfl⟩, rfl⟩
  | error failure s => exact ⟨⟨rfl, rfl, rfl, rfl⟩, rfl⟩

theorem fetchThen {f : Lambda → MachineM Effect}
    (hf : ∀ l, m.store.pool.get Object.lambdas callee = .ok l → Calling K m (f l)) :
    Calling K m (MachineM.onStore (StoreM.fetch Object.lambdas callee) >>= f) := by
  intro pins
  rw [bind_apply, onStore_apply, StoreM.fetch_apply]
  cases hl : m.store.pool.get Object.lambdas callee with
  | ok l => exact hf l hl pins
  | error fault => exact .refl m

theorem enter (hK : K callee) (hl : m.store.pool.get Object.lambdas callee = .ok l) (args : List Value)
    (key : Option String) : Calling K m (MachineM.enter l args key) := by
  intro pins
  cases ho : m.config.overflow? m.scopes.depth with
  | some limit =>
    rw [enter_eq_of_overflow ho]
    exact .refl m
  | none =>
    rw [enter_eq_of_within ho]
    unfold enterBody
    rw [bind_apply, onStore_apply]
    cases calleeFrame l args (pins.also fun _ => m.mentions) m.store with
    | error failure s => exact ⟨⟨rfl, rfl, rfl, rfl⟩, rfl⟩
    | ok frame s =>
      cases key with
      | none => exact .entered callee l frame [] hK hl (.inl rfl) ⟨rfl, rfl, rfl, rfl⟩ rfl ho
      | some key =>
        exact .entered callee l frame [.op (.memoize key) none] hK hl (.inr ⟨key, rfl⟩)
          ⟨rfl, rfl, rfl, rfl⟩ rfl ho

theorem answer (hK : K callee) (hl : m.store.pool.get Object.lambdas callee = .ok l) (args : List Value) :
    Calling K m (MachineM.answer callee l args) := by
  rw [answer_eq]
  refine Ends.getThen ?_
  split
  · rename_i key _
    -- Only the memo is another one, and nothing that is said of a call looks at it.
    refine Ends.modifyThen (Ends.imp (E := Machine.Stays { m with memo := (m.memo.ask key).2 })
      (Q := Machine.Called K { m with memo := (m.memo.ask key).2 }) ?_
      (fun _ h => ⟨⟨h.config, h.program, h.operands, h.steps⟩, h.scopes⟩) fun e m' h => ?_)
    · split
      · exact valueOf
      · exact enter (m := { m with memo := (m.memo.ask key).2 }) hK hl args (some key)
    · cases h with
      | answered v stays =>
        exact .answered v ⟨⟨stays.config, stays.program, stays.operands, stays.steps⟩, stays.scopes⟩
      | entered callee l frame memoize called stored memo kept scopes limit =>
        exact .entered callee l frame memoize called stored memo
          ⟨kept.config, kept.program, kept.operands, kept.steps⟩ scopes limit
  · exact enter hK hl args none

theorem invoke (hK : K callee) (args : List Value) : Calling K m (MachineM.invoke callee args) := by
  rw [invoke_eq]
  refine fetchThen fun l hl => ?_
  split
  · exact fail
  · exact answer hK hl args

theorem getVariable {name : Name} (hK : ∀ id, m.scopes.lookup? name = some (.object .lambda id) → K id) :
    Calling K m (MachineM.getVariable name) := by
  refine Ends.bind (Q := fun v m' => m' = m ∧ m.scopes.lookup? name = some v) (fun pins => ?_)
    fun v m' ⟨hm', hv⟩ => ?_
  · rw [lookup_apply]
    cases hl : m.scopes.lookup? name with
    | some v => exact ⟨rfl, rfl⟩
    | none => exact .refl m
  · subst hm'
    split
    · refine fetchThen fun l hl => ?_
      split
      · exact invoke (hK _ hv) _
      · exact value
    · exact value

theorem call {operands : List Operand}
    (hK : ∀ id, operands.head? = some (.value (.object .lambda id)) → K id) :
    Calling K m (MachineM.call operands) := by
  refine Ends.okThen (.refl m) fun vs hvs => ?_
  split
  · exact fail
  · refine invoke (hK _ ?_) _
    cases operands with
    | nil => cases hvs
    | cons o os =>
      rw [List.mapM_cons] at hvs
      cases o with
      | var name => cases hvs
      | value v =>
        cases hos : os.mapM Operand.toValue <;> rw [hos] at hvs <;> cases hvs
        rfl
  · exact fail

end Calling

end MachineM

/-- The operation may call a lambda. -/
def Op.Calls : Op → Prop
  | getVariable | call _ => True
  | _ => False

/-- The operation calls this lambda. -/
def Machine.Calls (m : Machine) : Op → List Operand → NodeId → Prop
  | .getVariable, [.var name], id => m.scopes.lookup? name = some (.object .lambda id)
  | .call _, operands, id => operands.head? = some (.value (.object .lambda id))
  | _, _, _ => False

namespace MachineM.Ends

variable {m : Machine} {op : Op} {args : List Operand}

theorem performCall (hop : op.Calls) : Calling (m.Calls op args) m (MachineM.perform op args) := by
  cases op with
  | getVariable =>
    rcases args with _ | ⟨_ | name, _ | _⟩
    · exact Calling.fail
    · exact fun _ => .refl m
    · exact Calling.fail
    · exact Calling.getVariable fun _ h => h
    · exact Calling.fail
  | call n => exact Calling.call fun _ h => h
  | _ => exact hop.elim

theorem popContext : Ends (MachineM.perform .popContext args) m m.Stays fun e m' =>
    e = .done ∧ m.Kept m' ∧ ∃ c, m.scopes.contexts = c :: m'.scopes.contexts :=
  getThen (okThen (.refl m) fun ⟨c, _⟩ hs => modifyThen (ret
    ⟨rfl, ⟨rfl, rfl, rfl, rfl⟩, c, Scopes.popContext_ok hs⟩))

theorem pushFrame : Ends (MachineM.perform .pushFrame args) m m.Stays fun e m' =>
    e = .done ∧ m.Kept m' ∧ ∃ c cs, m.scopes.contexts = c :: cs ∧
      m'.scopes.contexts = { c with frames := {} :: c.frames } :: cs := by
  refine getThen (bind (setScopes (.refl m) fun s hs => ?_) fun _ _ h => ret ⟨rfl, h⟩)
  exact ⟨⟨rfl, rfl, rfl, rfl⟩, Scopes.pushFrame_ok hs⟩

theorem popFrame : Ends (MachineM.perform .popFrame args) m m.Stays fun e m' =>
    e = .done ∧ m.Kept m' ∧ ∃ c cs f fs, m.scopes.contexts = c :: cs ∧ c.frames = f :: fs ∧
      m'.scopes.contexts = { c with frames := fs } :: cs := by
  refine getThen (okThen (.refl m) fun ⟨f, s⟩ hs => modifyThen (ret ⟨rfl, ⟨rfl, rfl, rfl, rfl⟩, ?_⟩))
  obtain ⟨c, cs, fs, hc, hf, hs⟩ := Scopes.popFrame_ok hs
  exact ⟨c, cs, f, fs, hc, hf, hs⟩

theorem getFieldRef {binding field : Name} :
    Ends (MachineM.perform (.getFieldRef field) [.var binding]) m m.Stays fun e m' =>
      e = .value (.fieldRef binding field) ∧ m.Stays m' := by
  refine okThen (.refl m) fun name hname => ?_
  cases hname
  refine Ends.bind (Q := fun _ m' => m' = m) (fun pins => ?_) fun v m' hm' => ?_
  · rw [lookup_apply]
    cases m.scopes.lookup? binding with
    | some v => exact rfl
    | none => exact .refl m
  · subst hm'
    split
    · exact fun _ => .refl _
    · exact ret ⟨rfl, .refl _⟩

/-- No operation touches the program, the other operands or the count of the steps. -/
theorem perform_kept (op : Op) (args : List Operand) :
    Ends (MachineM.perform op args) m m.Kept fun _ m' => m.Kept m' := by
  by_cases hcalls : op.Calls
  · exact (performCall hcalls).imp (fun _ h => h.toKept) fun _ _ h => h.kept
  by_cases hshifts : op.Shifts
  · cases op with
    | getVariable | call => exact (hcalls trivial).elim
    | pushContext => exact modifyThen (ret ⟨rfl, rfl, rfl, rfl⟩)
    | popContext => exact popContext.imp (fun _ h => h.toKept) fun _ _ h => h.2.1
    | pushFrame => exact pushFrame.imp (fun _ h => h.toKept) fun _ _ h => h.2.1
    | popFrame => exact popFrame.imp (fun _ h => h.toKept) fun _ _ h => h.2.1
    | _ => exact hshifts.elim
  · exact Ends.imp (Moving.perform hshifts (op.spares_all args)) (fun _ h => h.toKept) fun _ _ h => h.toKept

end MachineM.Ends

end Mosaic
