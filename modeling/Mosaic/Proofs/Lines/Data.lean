import Mosaic.Proofs.Balance.Operations
import Mosaic.Proofs.Machine.Moves

/-!
# Where values are data

The right to assign a field is a value, too, but one that only the targets of an assignment are. The fields of
objects, the results of primitives and the copies of values are data (`StoreM.Gives`), and so are the values in
the scopes of a machine, if its operations take data (`MachineM.Gives.perform`). What an operation leaves is
then a datum, or items that are given data (`Op.Brings`).
-/

namespace Mosaic

open Mosaic.Graph (NodeId)

/-- It is not the right to assign a field. -/
def Value.IsDatum (v : Value) : Prop := ∃ d, v = .datum d

theorem Value.isDatum (d : Datum) : (Value.datum d).IsDatum := ⟨d, rfl⟩

/-! ## Scalars -/

section

variable {α : Type} {y : Except Failure α} {g : α → Except Failure Value}

theorem isDatum_of_bind (hg : ∀ a v, g a = .ok v → v.IsDatum) (v : Value) (h : (y >>= g) = .ok v) : v.IsDatum := by
  cases y with
  | ok a => exact hg a v h
  | error failure => cases h

theorem isDatum_of_ok {w : Value} (hw : w.IsDatum) (v : Value) (h : (.ok w : Except Failure Value) = .ok v) :
    v.IsDatum := by
  cases h
  exact hw

end

namespace Primitive

variable {a b v : Value}

theorem isDatum_of_unary {f : Number → Number} : ∀ v, unary f a = .ok v → v.IsDatum :=
  isDatum_of_bind fun _ => isDatum_of_ok (Value.isDatum _)

theorem isDatum_of_binary {f : Number → Number → Number} : ∀ v, binary f a b = .ok v → v.IsDatum :=
  isDatum_of_bind fun _ => isDatum_of_bind fun _ => isDatum_of_ok (Value.isDatum _)

theorem isDatum_of_comparison {holds : Ordering → Bool} : ∀ v, comparison holds a b = .ok v → v.IsDatum :=
  isDatum_of_bind fun _ => isDatum_of_bind fun _ => isDatum_of_ok (Value.isDatum _)

theorem isDatum_of_logical {f : Bool → Bool → Bool} : ∀ v, logical f a b = .ok v → v.IsDatum :=
  isDatum_of_bind fun _ => isDatum_of_bind fun _ => isDatum_of_ok (Value.isDatum _)

theorem isDatum_of_quotient : ∀ v, quotient a b = .ok v → v.IsDatum := by
  refine isDatum_of_bind fun x => isDatum_of_bind fun y v h => ?_
  dsimp only at h
  split at h
  · cases h
  · exact isDatum_of_ok (Value.isDatum _) v h

theorem isDatum_of_squareRoot : ∀ v, squareRoot a = .ok v → v.IsDatum := by
  refine isDatum_of_bind fun x v h => ?_
  dsimp only at h
  split at h
  · cases h
  · exact isDatum_of_ok (Value.isDatum _) v h

end Primitive

/-! ## Actions on the store -/

/-- If the action succeeds, its result is as `Q` says. -/
abbrev StoreM.Gives {α : Type} (x : StoreM α) (Q : α → Prop) : Prop :=
  Action.Ensures (fun _ => True) (fun _ _ => True) x Q

namespace StoreM.Gives

export Action.Ensures (ret bind keeping mapM)

variable {α β : Type} {x : StoreM α} {f : α → StoreM β} {Q : α → Prop} {R : β → Prop}

theorem fail {cause : Cause} : Gives (StoreM.fail cause) Q := Action.Ensures.fail fun _ _ => trivial

theorem any : Gives x fun _ => True := fun _ _ _ => .intro (fun _ _ _ => ⟨trivial, trivial⟩) fun _ _ _ => trivial

/-- Only the last action counts. -/
theorem last (hf : ∀ a, Gives (f a) R) : Gives (x >>= f) R :=
  bind any fun a _ => hf a

theorem ofExcept {y : Except Failure α} (h : ∀ a, y = .ok a → Q a) : Gives (StoreM.ofExcept y) Q :=
  Action.Ensures.ofExcept h fun _ _ _ _ => trivial

/-! ## Data -/

theorem load (d : Datum) : Gives (StoreM.load d) Value.IsDatum := by
  cases d with
  | object t id => exact last fun _ => ret (Value.isDatum _)
  | _ => exact ret (Value.isDatum _)

theorem loadOption (t : ObjectType) (id? : Option NodeId) : Gives (StoreM.loadOption t id?) Value.IsDatum := by
  cases id? with
  | none => exact ret (Value.isDatum _)
  | some id => exact load (.object t id)

theorem makeCluster (items : List Value) : Gives (StoreM.makeCluster items) Value.IsDatum :=
  last fun _ => keeping (last fun _ => ret (Value.isDatum _))

theorem clusterOf (t : ObjectType) (ids : List NodeId) : Gives (StoreM.clusterOf t ids) Value.IsDatum :=
  last fun _ => makeCluster _

theorem ownField (o : Object) (name : Name) : Gives (StoreM.ownField o name) Value.IsDatum := by
  cases o with
  | tile t =>
    show Gives (StoreM.tileField t name) _
    unfold StoreM.tileField
    split
    · exact clusterOf _ _
    · exact clusterOf _ _
    · exact loadOption _ _
    · exact ret (Value.isDatum _)
    · exact last fun _ => makeCluster _
    · exact fail
  | vertex v =>
    show Gives (StoreM.vertexField v name) _
    unfold StoreM.vertexField
    split
    · exact ret (Value.isDatum _)
    · exact ret (Value.isDatum _)
    · exact loadOption _ _
    · exact ret (Value.isDatum _)
    · exact fail
  | edge e =>
    show Gives (StoreM.edgeField e name) _
    unfold StoreM.edgeField
    split
    · exact last fun _ => loadOption _ _
    · exact last fun _ => loadOption _ _
    · exact loadOption _ _
    · refine last fun ends => ?_
      split
      · exact last fun _ => last fun _ => ret (Value.isDatum _)
      · exact ret (Value.isDatum _)
    · exact fail
  | patch p =>
    show Gives (StoreM.patchField p name) _
    unfold StoreM.patchField
    split
    · exact clusterOf _ _
    · exact last fun _ => makeCluster _
    · exact fail
  | cluster c =>
    show Gives (StoreM.clusterField c name) _
    unfold StoreM.clusterField
    split
    · exact ret (Value.isDatum _)
    · split
      · exact load _
      · exact fail
  | lambda l =>
    show Gives (StoreM.lambdaField l name) _
    unfold StoreM.lambdaField
    split
    · exact ret (Value.isDatum _)
    · exact fail

theorem getField (v : Value) (name : Name) : Gives (StoreM.getField v name) Value.IsDatum := by
  unfold StoreM.getField
  split
  · refine last fun o => ?_
    split
    · exact load _
    · exact ownField o name
  · exact fail

theorem itemAt (cluster index : Value) : Gives (Primitive.itemAt cluster index) Value.IsDatum := by
  refine last fun _ => last fun _ => last fun _ => ?_
  dsimp only
  split
  · exact load _
  · exact fail

theorem regularTile (sides : Value) : Gives (Primitive.regularTile sides) Value.IsDatum := by
  refine last fun _ => ?_
  split
  · exact last fun _ => ret (Value.isDatum _)
  · exact fail

theorem apply (f : Primitive) (args : List Value) : Gives (f.apply args) Value.IsDatum := by
  unfold Primitive.apply
  split
  all_goals first
    | exact ofExcept (Primitive.isDatum_of_binary)
    | exact ofExcept (Primitive.isDatum_of_unary)
    | exact ofExcept (Primitive.isDatum_of_comparison)
    | exact ofExcept (Primitive.isDatum_of_logical)
    | exact ofExcept (Primitive.isDatum_of_quotient)
    | exact ofExcept (Primitive.isDatum_of_squareRoot)
    | exact ret (Value.isDatum _)
    | exact fail
    | exact makeCluster _
    | exact itemAt _ _
    | exact regularTile _
    | exact last fun _ => ret (Value.isDatum _)
    | exact last fun _ => last fun _ => ret (Value.isDatum _)
    | exact last fun _ => last fun _ => last fun _ => ret (Value.isDatum _)
    | exact ofExcept (isDatum_of_bind fun _ => isDatum_of_ok (Value.isDatum _))

theorem copy (v : Value) : Gives (StoreM.copy v) Value.IsDatum := by
  have hvalue : Gives ((CopyM.copyValue v).run {}) fun r => r.1.IsDatum := by
    cases v with
    | fieldRef => exact fail
    | datum d =>
      cases d with
      | object t id =>
        rw [CopyM.copyValue_run]
        exact last fun _ => bind (load _) fun _ hv => ret hv
      | _ => exact ret (Value.isDatum _)
  exact bind hvalue fun _ hv => ret hv

end StoreM.Gives

theorem StoreM.Gives.calleeFrame (l : Lambda) {args : List Value} (hargs : ∀ v ∈ args, v.IsDatum) :
    Gives (MachineM.calleeFrame l args) fun f => f.All Value.IsDatum fun _ => True := by
  have hclosure := mapM (g := fun p : Name × Datum => do return (p.1, ← StoreM.load p.2))
    (P := fun p => p.2.IsDatum) (fun p => bind (load p.2) fun _ hv => ret hv) l.closure.toList
  refine bind hclosure fun ps hps => ret ?_
  exact (Frame.All.empty.defineAll hps).bindArguments fun p hp => hargs p.2 (List.of_mem_zip hp).2

/-! ## Machines -/

/-- The values in the scopes are data. -/
def Machine.Concrete (m : Machine) : Prop := m.scopes.All Value.IsDatum fun _ => True

/-- The operand is a datum, if it is a value. -/
def Operand.IsDatum (o : Operand) : Prop := ∀ v, o = .value v → v.IsDatum

/-- The values that an operation takes are data, but for the targets of an assignment. -/
def Op.TakesData (args : List Operand) : Op → Prop
  | setField _ => True
  | _ => ∀ o ∈ args, o.IsDatum

/-- The value is a cluster, or a number that can be counted to. -/
def Value.Iterable : Value → Prop
  | .datum (.object .cluster _) => True
  | .datum (.number n) => n.toIndex?.isSome = true
  | _ => False

/-- What an operation that takes data may leave to be done. -/
inductive Op.Brings : Op → Effect → Prop
  | done {op : Op} (yields : op.yields = []) : Brings op .done
  | datum {op : Op} {v : Value} (yields : op.yields = [.value]) (datum : v.IsDatum) : Brings op (.value v)
  | right {binding field : Name} : Brings (.getFieldRef field) (.value (.fieldRef binding field))
  | yes {yes no : Program} : Brings (.branch yes no) (.items yes)
  | no {yes no : Program} : Brings (.branch yes no) (.items no)
  | round {var : Name} {index : Nat} {body : Program} {source element : Value} (source_iterable : source.Iterable)
    (element_datum : element.IsDatum) :
    Brings (.iterate var index body) (.items (MachineM.round var index body source element))
  | body {op : Op} {p : Program} (calls : op.Calls) : Brings op (.items p)

namespace MachineM

/-- On a concrete machine, if the action succeeds, its result is as `Q` says, and the machine is concrete. -/
abbrev Gives {α : Type} (x : MachineM α) (Q : α → Prop) : Prop :=
  Action.Ensures Machine.Concrete (fun _ _ => True) x Q

namespace Gives

export Action.Ensures (ret bind keeping getThen modify)

variable {α β : Type} {x : MachineM α} {f : α → MachineM β} {Q : α → Prop} {R : β → Prop}

theorem fail {cause : Cause} : Gives (MachineM.fail cause) Q := Action.Ensures.fail fun _ _ => trivial

theorem okThen {y : Except Failure α} (ok : ∀ a, y = .ok a → Gives (f a) R) :
    Gives (MachineM.ofExcept y >>= f) R :=
  Action.Ensures.okThen ok fun _ _ _ _ => trivial

theorem setScopes {y : Except Failure Scopes} (h : ∀ s, y = .ok s → s.All Value.IsDatum fun _ => True) :
    Gives (MachineM.setScopes y) fun _ => True :=
  Action.Ensures.setScopes (fun s _ hs _ => h s hs) fun _ _ _ _ => trivial

theorem onStore {x : StoreM α} (hx : StoreM.Gives x Q) : Gives (MachineM.onStore x) Q :=
  Action.Ensures.onStore hx (fun _ _ => trivial) (fun _ _ hm _ => hm) fun _ _ _ _ _ => trivial

theorem lookup (name : Name) : Gives (MachineM.lookup name) Value.IsDatum := by
  refine getThen fun m hm => ?_
  split
  · exact ret (Scopes.All.lookup? hm ‹_›)
  · exact fail

/-! ## Binding -/

theorem destructure {v : Value} (hv : v.IsDatum) (n : Nat) :
    Gives (MachineM.destructure v n) fun vs => ∀ w ∈ vs, w.IsDatum := by
  unfold MachineM.destructure
  split
  · exact ret (by simpa using hv)
  · split
    · refine onStore (.last fun c => ?_)
      dsimp only
      split
      · exact .last fun _ => .mapM StoreM.Gives.load _
      · exact .mapM StoreM.Gives.load _
    · exact fail

theorem bindAll {ps : List (Operand × Value)} (hps : ∀ p ∈ ps, p.2.IsDatum) :
    Gives (MachineM.bindAll ps) fun _ => True := by
  induction ps with
  | nil => exact ret trivial
  | cons p ps ih =>
    obtain ⟨hp, hps⟩ := List.forall_mem_cons.1 hps
    refine okThen fun name _ => getThen fun m hm => ?_
    exact bind (setScopes fun s hs => Scopes.All.define hm hp hs) fun _ _ => ih hps

theorem assign (n : Nat) {v : Operand} (hv : v.IsDatum) (targets : List Operand) :
    Gives (MachineM.assign n v targets) (Op.Brings (.assign n)) := by
  refine okThen fun w hw => ?_
  have hw : w.IsDatum := by
    cases v <;> cases hw
    exact hv _ rfl
  refine bind (destructure hw n) fun vs hvs => bind (bindAll fun p hp => hvs p.2 (List.of_mem_zip hp).2) fun _ _ => ?_
  exact ret (.done rfl)

theorem getFieldRef (binding field : Name) :
    Gives (MachineM.getFieldRef binding field) (Op.Brings (.getFieldRef field)) := by
  refine bind (lookup binding) fun target _ => ?_
  split
  · exact fun _ _ _ => trivial
  · exact ret .right

theorem writeField (binding field : Name) (v : Value) :
    Gives (MachineM.writeField binding field v) fun _ => True := by
  refine bind (lookup binding) fun target _ => okThen fun d _ => ?_
  split
  · refine bind (keeping (onStore .any)) fun copy _ => getThen fun m hm => ?_
    exact setScopes fun s hs => Scopes.All.assign hm (Value.isDatum _) hs
  · exact fail

theorem writeAll (ps : List (Operand × Value)) : Gives (MachineM.writeAll ps) fun _ => True := by
  induction ps with
  | nil => exact ret trivial
  | cons p ps ih =>
    refine okThen fun target _ => ?_
    split
    · exact bind (keeping (writeField _ _ _)) fun _ _ => ih
    · exact fun _ _ _ => trivial

theorem setField (n : Nat) (v : Operand) (targets : List Operand) :
    Gives (MachineM.setField n v targets) (Op.Brings (.setField n)) := by
  refine okThen fun w _ => bind (P := fun _ => True) ?_ fun vs _ => bind (writeAll _) fun _ _ => ret (.done rfl)
  unfold MachineM.destructure
  split
  · exact ret trivial
  · split
    · exact onStore .any
    · exact fail

/-! ## Closures -/

theorem capture (names : List Name) : Gives (MachineM.capture names) fun _ => True := by
  rw [capture_eq]
  refine getThen fun m _ m' hm pins => ?_
  rw [ofExcept_apply]
  cases captured m.scopes names with
  | ok ps => exact ⟨hm, trivial⟩
  | error failure => trivial

theorem complete (id : NodeId) : Gives (MachineM.complete id) fun _ => True := by
  refine bind (onStore .any) fun l _ => bind (capture _) fun found _ => ?_
  split
  · exact onStore .any
  · exact ret trivial

theorem completeAll (ids : List NodeId) : Gives (MachineM.completeAll ids) fun _ => True := by
  induction ids with
  | nil => exact ret trivial
  | cons id ids ih => exact bind (keeping (complete id)) fun _ _ => ih

theorem makeLambda (label : Name) (t : Template) :
    Gives (MachineM.makeLambda label t) (Op.Brings (.makeLambda t.params t.body t.free)) := by
  refine bind (capture _) fun found _ => bind (keeping (onStore .any)) fun id _ => ?_
  dsimp only
  split
  · refine getThen fun m hm => bind (setScopes fun s hs => Scopes.All.park hm trivial hs) fun _ _ => ?_
    exact ret (.datum rfl (Value.isDatum _))
  · exact ret (.datum rfl (Value.isDatum _))

theorem setDependencies : Gives MachineM.setDependencies (Op.Brings .setDependencies) := by
  refine getThen fun m hm => okThen fun ⟨parked, s⟩ hs => ?_
  refine bind (modify fun _ _ => (Scopes.All.takeParked hm hs).2) fun _ _ => ?_
  exact bind (completeAll _) fun _ _ => ret (.done rfl)

/-! ## Calls -/

section

variable {op : Op} (hop : op.Calls)

include hop

theorem datum {v : Value} (hv : v.IsDatum) : Gives (pure (.value v)) op.Brings :=
  ret (.datum (by cases op <;> first | rfl | exact hop.elim) hv)

theorem enter (l : Lambda) {args : List Value} (hargs : ∀ v ∈ args, v.IsDatum) (key : Option String) :
    Gives (MachineM.enter l args key) op.Brings := by
  have hbody : Gives (enterBody l args key) op.Brings := by
    refine bind (onStore (StoreM.Gives.calleeFrame l hargs)) fun frame hframe => ?_
    refine bind (modify fun m hm => ?_) fun _ _ => ret (.body hop)
    exact Scopes.All.pushContext hm (by simpa using hframe)
  rw [enter_eq]
  refine getThen fun m _ => ?_
  split
  · split
    · exact fail
    · exact hbody
  · exact hbody

theorem invoke (callee : NodeId) {args : List Value} (hargs : ∀ v ∈ args, v.IsDatum) :
    Gives (MachineM.invoke callee args) op.Brings := by
  rw [invoke_eq]
  refine bind (onStore .any) fun l _ => ?_
  split
  · exact fail
  rw [answer_eq]
  refine getThen fun m _ => ?_
  split
  · refine bind (modify fun _ hm => hm) fun _ _ => ?_
    split
    · exact bind (keeping (onStore (.copy _))) fun _ hv => datum hop hv
    · exact enter hop l hargs _
  · exact enter hop l hargs _

theorem getVariable (name : Name) : Gives (MachineM.getVariable name) op.Brings := by
  refine bind (lookup name) fun v hv => ?_
  split
  · refine bind (onStore .any) fun l _ => ?_
    split
    · exact invoke hop _ (by simp)
    · exact datum hop hv
  · exact datum hop hv

theorem call {operands : List Operand} (ho : ∀ o ∈ operands, o.IsDatum) :
    Gives (MachineM.call operands) op.Brings := by
  refine okThen fun vs hvs => ?_
  have hdata : ∀ v ∈ vs, v.IsDatum := fun v hv =>
    ho (.value v) (eq_map_of_mapM_toValue hvs ▸ List.mem_map_of_mem hv) v rfl
  split
  · exact fail
  · exact invoke hop _ (List.forall_mem_cons.1 hdata).2
  · exact fail

end

/-! ## Comprehensions -/

/-- Only what can be gone through has elements. -/
theorem element? (source : Value) (index : Nat) :
    Gives (MachineM.element? source index) fun v? => ∀ v, v? = some v → source.Iterable ∧ v.IsDatum := by
  unfold MachineM.element?
  split
  · refine onStore (.last fun c => ?_)
    dsimp only
    cases c.items[index]? with
    | none => exact .ret nofun
    | some d =>
      refine .bind (StoreM.Gives.load d) fun v hv => .ret fun w hw => ?_
      cases hw
      exact ⟨trivial, hv⟩
  · split
    · rename_i n count hn
      refine ret fun v hv => ?_
      split at hv
      · cases hv
        exact ⟨Option.isSome_iff_exists.2 ⟨count, hn⟩, Value.isDatum _⟩
      · cases hv
    · exact fail
  · exact fail

theorem schedule (var : Name) (index : Nat) (body : Program) (source : Value) :
    Gives (MachineM.schedule var index body source) (Op.Brings (.iterate var index body)) := by
  refine bind (element? source index) fun v? hv? => ?_
  split
  · obtain ⟨hsource, hv⟩ := hv? _ rfl
    exact ret (.round hsource hv)
  · refine getThen fun m hm => ?_
    split
    · exact fail
    · exact fun _ _ _ => ⟨hm, .datum rfl (Value.isDatum _)⟩

theorem openCluster (var : Name) (body : Program) (source : Operand) :
    Gives (MachineM.openCluster var body source) (Op.Brings (.iterate var 0 body)) :=
  okThen fun _ _ => bind (keeping (onStore .any)) fun _ _ => bind (modify fun _ hm => hm) fun _ _ => schedule _ _ _ _

theorem addResult (var : Name) (index : Nat) (body : Program) (result source : Operand) :
    Gives (MachineM.addResult var index body result source) (Op.Brings (.iterate var index body)) := by
  refine okThen fun _ _ => okThen fun _ _ => okThen fun _ _ => getThen fun m _ => ?_
  split
  · exact fail
  · exact bind (onStore .any) fun _ _ => schedule _ _ _ _

/-! ## Frames and contexts -/

theorem popContext : Gives (MachineM.perform .popContext []) (Op.Brings .popContext) := by
  refine getThen fun m hm => okThen fun ⟨c, s⟩ hs => ?_
  exact bind (modify fun _ _ => Scopes.All.popContext hm hs) fun _ _ => ret (.done rfl)

theorem pushFrame : Gives (MachineM.perform .pushFrame []) (Op.Brings .pushFrame) := by
  exact getThen fun m hm => bind (setScopes fun s hs => Scopes.All.pushFrame hm hs) fun _ _ => ret (.done rfl)

theorem popFrame : Gives (MachineM.perform .popFrame []) (Op.Brings .popFrame) := by
  refine getThen fun m hm => okThen fun ⟨f, s⟩ hs => ?_
  exact bind (modify fun _ _ => Scopes.All.popFrame hm hs) fun _ _ => ret (.done rfl)

/-! ## All operations -/

/-- What an operation leaves to be done, on a machine that stays concrete. -/
theorem perform {op : Op} {args : List Operand} (hargs : op.TakesData args) :
    Gives (MachineM.perform op args) op.Brings := by
  unfold MachineM.perform
  split
  · exact okThen fun _ _ => getVariable (show Op.getVariable.Calls from trivial) _
  · exact bind (modify fun m hm => Scopes.All.pushContext hm (by simpa using Frame.All.empty)) fun _ _ =>
      ret (.done rfl)
  · exact popContext
  · exact pushFrame
  · exact popFrame
  · exact fail
  · exact assign _ (hargs _ (List.mem_cons_self ..)) _
  · exact okThen fun _ _ => bind (keeping (onStore (.apply _ _))) fun _ hv => ret (.datum rfl hv)
  · exact okThen fun _ _ => bind (keeping (onStore (.getField _ _))) fun _ hv => ret (.datum rfl hv)
  · exact okThen fun _ _ => getFieldRef _ _
  · exact fail
  · exact setField _ _ _
  · refine okThen fun _ _ => okThen fun b _ => ?_
    cases b
    · exact ret .no
    · exact ret .yes
  · exact openCluster _ _ _
  · exact addResult _ _ _ _ _
  · exact okThen fun _ _ => makeLambda _ ⟨_, _, _⟩
  · exact setDependencies
  · rename_i n
    exact call (show (Op.call n).Calls from trivial) hargs
  · rename_i key v
    refine okThen fun w hw => bind (modify fun _ hm => hm) fun _ _ => ret (.datum rfl ?_)
    cases v <;> cases hw
    exact hargs _ (List.mem_singleton_self _) _ rfl
  · exact fail

end Gives

end MachineM

end Mosaic
