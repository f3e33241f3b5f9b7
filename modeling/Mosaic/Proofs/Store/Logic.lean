import Mosaic.Proofs.Bare
import Mosaic.Proofs.Composed

/-!
# What holds of every action on the store

A property of actions that the basic actions have, and that a composed action has if its parts have it, holds
of every action on the store: of copies, of the fields that objects have by themselves and of the primitives.
`StoreM.Logic` is such a property with its rules, and there is one lemma for each action. A property that not
all allocations and updates have may still hold of what the operations of a machine do with its store:
`StoreM.Interface` has the rules for that.
-/

namespace Mosaic

open Mosaic.Graph (NodeId Kind)

/-- A property that looking at the store has and that all ways to compose actions keep. -/
structure StoreM.Rules where
  Holds : ∀ {α : Type}, StoreM α → Prop
  ofExcept : ∀ {α : Type} {y : Except Failure α}, Bare y → Holds (StoreM.ofExcept y)
  bind : ∀ {α β : Type} {x : StoreM α} {f : α → StoreM β}, Holds x → (∀ a, Holds (f a)) → Holds (x >>= f)
  keeping : ∀ {α : Type} {ids : List NodeId} {x : StoreM α}, Holds x → Holds (StoreM.keeping ids x)
  fetch : ∀ {α : Type} (k : Kind Object α) (id : NodeId), Holds (StoreM.fetch k id)

/-- A property that all has by which the operations of a machine change its store, copies apart. -/
structure StoreM.Interface extends StoreM.Rules where
  /-- What is known of the lambdas that are made. -/
  Fit : Template → Prop
  lambda : ∀ (label : Name) {t : Template} (closure : Fields), Fit t →
    Holds (StoreM.allocate (.lambda { Lambda.ofTemplate label t with closure }))
  close : ∀ (id : NodeId) (found : List (Name × Datum)),
    Holds (StoreM.update Object.lambdas id fun l => { l with closure := l.closure.insertMany found })
  cluster : ∀ items : List Datum, Holds (StoreM.allocate (.cluster { items }))
  append : ∀ (id : NodeId) (d : Datum),
    Holds (StoreM.update Object.clusters id fun c => { c with items := c.items ++ [d] })
  makeTile : ∀ ps : List Point, Holds (StoreM.makeTile ps)

/-- The property has what copies objects, too. -/
structure StoreM.Interface.Copying (L : StoreM.Interface) : Prop where
  copy : ∀ v : Value, L.Holds (StoreM.copy v)
  copyWithField : ∀ (t : ObjectType) (id : NodeId) (field : Name) (d : Datum),
    L.Holds (StoreM.copyWithField t id field d)
  makePatch : ∀ tiles : List NodeId, L.Holds (StoreM.makePatch tiles)

/-- A property that the basic actions have and that all ways to compose actions keep. -/
structure StoreM.Logic extends StoreM.Rules where
  getThen : ∀ {α : Type} {f : Store → StoreM α}, (∀ s, Holds (f s)) → Holds ((get : StoreM Store) >>= f)
  allocate : ∀ o : Object, Holds (StoreM.allocate o)
  update : ∀ {α : Type} (k : Kind Object α) (id : NodeId) (f : α → α), Holds (StoreM.update k id f)

/-! ## Invariants -/

namespace Action.Ensures

variable {I : Store → Prop} {E : Failure → Store → Prop} {α : Type} {k : Kind Object α} {id : NodeId} {o : Object}

theorem fetch {P : α → Prop} (ok : ∀ s a, I s → s.pool.get k id = .ok a → P a)
    (error : ∀ fault s, I s → E { cause := .graph fault } s) : Ensures I E (StoreM.fetch k id) P := by
  intro s hs pins
  rw [StoreM.fetch_apply]
  cases ha : s.pool.get k id with
  | ok a => exact ⟨hs, ok s a hs ha⟩
  | error fault => exact error fault s hs

theorem allocate (ok : ∀ pins s id s', I s → s.allocate pins o = .ok (id, s') → I s')
    (error : ∀ fault s, I s → E { cause := .graph fault } s) :
    Ensures I E (StoreM.allocate o) fun _ => True := by
  intro s hs pins
  rw [StoreM.allocate_apply]
  cases ha : s.allocate (StoreM.pinsFor o s pins) o with
  | ok r => exact ⟨ok _ s r.1 r.2 hs ha, trivial⟩
  | error fault => exact error fault s hs

theorem update {f : α → α} (ok : ∀ s pool, I s → s.pool.update k id f = .ok pool → I { s with pool })
    (error : ∀ fault s, I s → E { cause := .graph fault } s) :
    Ensures I E (StoreM.update k id f) fun _ => True := by
  intro s hs pins
  rw [StoreM.update_apply]
  cases hu : s.pool.update k id f with
  | ok pool => exact ⟨ok s pool hs hu, trivial⟩
  | error fault => exact error fault s hs

end Action.Ensures

/-- Looking at the store keeps what is invariant, if a bare failure is as `E` says. -/
def StoreM.Rules.ensuring (I : Store → Prop) (E : Failure → Store → Prop)
    (bare : ∀ failure s, failure.Bare → I s → E failure s) : StoreM.Rules where
  Holds x := Action.Ensures I E x fun _ => True
  ofExcept hy := .ofExcept (fun _ _ => trivial) fun failure s hf => bare failure s (hy failure hf)
  bind hx hf := hx.bind fun a _ => hf a
  keeping hx := hx.keeping
  fetch _ _ := .fetch (fun _ _ _ _ => trivial) fun _ s => bare _ s .of_cause

/-! ## Actions that only look at the store -/

namespace StoreM.Rules

variable (L : StoreM.Rules) {α β : Type}

theorem ret {a : α} : L.Holds (pure a) := L.ofExcept .ok

theorem fail {cause : Cause} : L.Holds (StoreM.fail cause : StoreM α) := L.ofExcept .error

theorem failThen {cause : Cause} {f : β → StoreM α} : L.Holds (StoreM.fail cause >>= f) :=
  L.ofExcept .error

def composable : Composable StoreM where
  Holds := L.Holds
  ret := L.ret
  bind := L.bind

theorem mapM {f : β → StoreM α} (hf : ∀ b, L.Holds (f b)) (l : List β) : L.Holds (l.mapM f) :=
  Composable.mapM (C := L.composable) fun b _ => hf b

theorem fetchObject (t : ObjectType) (id : NodeId) : L.Holds (StoreM.fetchObject t id) :=
  L.bind (L.fetch _ id) fun _ => L.ret

theorem load (d : Datum) : L.Holds (StoreM.load d) := by
  cases d with
  | object t id => exact L.bind (L.fetchObject t id) fun _ => L.ret
  | _ => exact L.ret

theorem loadOption (t : ObjectType) (id? : Option NodeId) : L.Holds (StoreM.loadOption t id?) := by
  cases id? with
  | none => exact L.ret
  | some id => exact L.load (.object t id)

theorem tilePoints (t : Tile) : L.Holds (StoreM.tilePoints t) :=
  L.mapM (fun id => L.bind (L.fetch Object.vertices id) fun _ => L.ret) t.vertices

theorem endpoints (e : Edge) : L.Holds (StoreM.endpoints e) := by
  unfold StoreM.endpoints
  split
  · exact L.ret
  · exact L.bind (L.fetch Object.tiles _) fun _ => L.ret

theorem vertexField (v : Vertex) (name : Name) : L.Holds (StoreM.vertexField v name) := by
  unfold StoreM.vertexField
  split
  · exact L.ret
  · exact L.ret
  · exact L.loadOption _ _
  · exact L.ret
  · exact L.fail

theorem edgeField (e : Edge) (name : Name) : L.Holds (StoreM.edgeField e name) := by
  unfold StoreM.edgeField
  split
  · exact L.bind (L.endpoints e) fun _ => L.loadOption _ _
  · exact L.bind (L.endpoints e) fun _ => L.loadOption _ _
  · exact L.loadOption _ _
  · refine L.bind (L.endpoints e) fun ends => ?_
    split
    · exact L.bind (L.fetch Object.vertices _) fun _ => L.bind (L.fetch Object.vertices _) fun _ => L.ret
    · exact L.ret
  · exact L.fail

theorem clusterField (c : Cluster) (name : Name) : L.Holds (StoreM.clusterField c name) := by
  unfold StoreM.clusterField
  split
  · exact L.ret
  · split
    · exact L.load _
    · exact L.fail

theorem lambdaField (l : Lambda) (name : Name) : L.Holds (StoreM.lambdaField l name) := by
  unfold StoreM.lambdaField
  split
  · exact L.ret
  · exact L.fail

theorem coordinate (d : Datum) : L.Holds (StoreM.coordinate d) :=
  L.bind (L.load d) fun v => L.bind (L.ofExcept (.toNumber v)) fun _ => L.ret

theorem itemsOf (v : Value) : L.Holds (Primitive.itemsOf v) :=
  L.bind (L.ofExcept (.toObject _ v)) fun _ => L.bind (L.fetch Object.clusters _) fun _ => L.ret

theorem pointsOf (v : Value) : L.Holds (StoreM.pointsOf v) := by
  refine L.bind (L.ofExcept (.toObject _ v)) fun _ => L.bind (L.fetch Object.clusters _) fun c => ?_
  refine L.mapM (fun d => L.bind (L.load d) fun v => L.bind (L.ofExcept (.toObject _ v)) fun _ => ?_) _
  refine L.bind (L.fetch Object.clusters _) fun c => ?_
  split
  · exact L.bind (L.coordinate _) fun _ => L.bind (L.coordinate _) fun _ => L.ret
  · exact L.fail

theorem itemAt (cluster index : Value) : L.Holds (Primitive.itemAt cluster index) := by
  refine L.bind (L.ofExcept (.toObject _ cluster)) fun _ => L.bind (L.ofExcept (.toNumber index)) fun _ => ?_
  refine L.bind (L.fetch Object.clusters _) fun _ => ?_
  dsimp only
  split
  · exact L.load _
  · exact L.fail

/-! ## Copies -/

/-- The property holds of the copying action, whatever was copied before. -/
def Copies (x : CopyM α) : Prop := ∀ copies, L.Holds (x.run copies)

variable {L}

namespace Copies

theorem ret {a : α} : L.Copies (pure a) := fun _ => L.ret

theorem bind {x : CopyM α} {g : α → CopyM β} (hx : L.Copies x) (hg : ∀ a, L.Copies (g a)) :
    L.Copies (x >>= g) := by
  intro copies
  rw [StateT.run_bind]
  exact L.bind (hx copies) fun r => hg r.1 r.2

theorem renameNodes {f : ObjectType → NodeId → CopyM NodeId} (hf : ∀ t id, L.Copies (f t id)) (o : Object) :
    L.Copies (o.renameNodes f) :=
  Composable.renameNodes (C := ⟨L.Copies, ret, bind⟩) fun t id _ => hf t id

theorem copyValue (hcopy : ∀ t id, L.Copies (CopyM.copyObject t id)) (v : Value) :
    L.Copies (CopyM.copyValue v) := by
  intro copies
  cases v with
  | fieldRef => exact L.fail
  | datum d =>
    cases d with
    | object t id =>
      rw [CopyM.copyValue_run]
      exact L.bind (hcopy t id copies) fun _ => L.bind (L.load _) fun _ => L.ret
    | _ => exact L.ret

/-- Copies are made with those that were made before, and begin with none. -/
theorem copy (hcopy : ∀ t id, L.Copies (CopyM.copyObject t id)) (v : Value) : L.Holds (StoreM.copy v) :=
  L.bind (copyValue hcopy v {}) fun _ => L.ret

theorem copyObject (hcopy : ∀ t id, L.Copies (CopyM.copyObject t id)) (t : ObjectType) (id : NodeId) :
    L.Holds (StoreM.copyObject t id) :=
  L.bind (hcopy t id {}) fun _ => L.ret

end Copies

end StoreM.Rules

/-! ## Fields and primitives -/

namespace StoreM.Interface

variable (L : StoreM.Interface)

theorem makeCluster (items : List Value) : L.Holds (StoreM.makeCluster items) :=
  L.bind (L.ofExcept (.mapM .toDatum items)) fun _ => L.keeping (L.bind (L.cluster _) fun _ => L.ret)

theorem clusterOf (t : ObjectType) (ids : List NodeId) : L.Holds (StoreM.clusterOf t ids) :=
  L.bind (L.mapM (fun id => L.load (.object t id)) ids) fun _ => L.makeCluster _

theorem makePoints (ps : List Point) : L.Holds (StoreM.makePoints ps) := by
  induction ps with
  | nil => exact L.ret
  | cons p ps ih => exact L.bind (L.makeCluster _) fun _ => L.keeping (L.bind ih fun _ => L.ret)

theorem ownField (o : Object) (name : Name) : L.Holds (StoreM.ownField o name) := by
  cases o with
  | tile t =>
    show L.Holds (StoreM.tileField t name)
    unfold StoreM.tileField
    split
    · exact L.clusterOf _ _
    · exact L.clusterOf _ _
    · exact L.loadOption _ _
    · exact L.ret
    · exact L.bind (L.tilePoints t) fun _ => L.makeCluster _
    · exact L.fail
  | vertex v => exact L.vertexField v name
  | edge e => exact L.edgeField e name
  | patch p =>
    show L.Holds (StoreM.patchField p name)
    unfold StoreM.patchField
    split
    · exact L.clusterOf _ _
    · exact L.bind (L.makePoints _) fun _ => L.makeCluster _
    · exact L.fail
  | cluster c => exact L.clusterField c name
  | lambda l => exact L.lambdaField l name

theorem getField (v : Value) (name : Name) : L.Holds (StoreM.getField v name) := by
  unfold StoreM.getField
  split
  · refine L.bind (L.fetchObject _ _) fun o => ?_
    split
    · exact L.load _
    · exact L.ownField o name
  · exact L.fail

theorem regularTile (sides : Value) : L.Holds (Primitive.regularTile sides) := by
  refine L.bind (L.ofExcept (.toNumber sides)) fun _ => ?_
  split
  · exact L.bind (L.makeTile _) fun _ => L.ret
  · exact L.fail

theorem patchOf (hcopying : L.Copying) (v : Value) : L.Holds (Primitive.patchOf v) :=
  L.bind (L.itemsOf v) fun _ =>
    L.bind (L.mapM (fun d => L.bind (L.load d) fun v => L.ofExcept (.toObject _ v)) _) fun _ =>
      L.bind (L.keeping (hcopying.makePatch _)) fun _ => L.ret

theorem apply {f : Primitive} (hpatch : f = .patch → L.Copying) (args : List Value) : L.Holds (f.apply args) := by
  unfold Primitive.apply
  split
  all_goals first
    | exact L.ofExcept (.binary _ _ _)
    | exact L.ofExcept (.unary _ _)
    | exact L.ofExcept (.comparison _ _ _)
    | exact L.ofExcept (.logical _ _ _)
    | exact L.ofExcept (.quotient _ _)
    | exact L.ofExcept (.squareRoot _)
    | exact L.ofExcept (.bind (.toBool _) fun _ => .ok)
    | exact L.ret
    | exact L.fail
    | exact L.makeCluster _
    | exact L.itemAt _ _
    | exact L.regularTile _
    | exact L.patchOf (hpatch rfl) _
    | exact L.bind (L.itemsOf _) fun _ => L.ret
    | exact L.bind (L.pointsOf _) fun _ => L.bind (L.makeTile _) fun _ => L.ret

end StoreM.Interface

/-! ## All actions -/

namespace StoreM.Logic

variable (L : StoreM.Logic) {α β : Type}

theorem allocateAll (os : List Object) : L.Holds (StoreM.allocateAll os) := by
  induction os with
  | nil => exact L.ret
  | cons o os ih => exact L.bind (L.allocate o) fun _ => L.keeping (L.bind ih fun _ => L.ret)

/-! ## Copies -/

namespace Copies

variable {L}

theorem copyNode (depth : Nat) (t : ObjectType) (id : NodeId) : L.Copies (CopyM.copyNode depth t id) := by
  induction depth generalizing t id with
  | zero => exact fun _ => L.fail
  | succ depth ih =>
    intro copies
    cases hcopy : copies[id]? with
    | some copy =>
      rw [CopyM.copyNode_run_of_some hcopy]
      exact L.bind (L.fetchObject t copy) fun _ => L.ret
    | none =>
      rw [CopyM.copyNode_run_of_none hcopy]
      refine L.bind (L.keeping (L.allocate _)) fun copy => ?_
      refine L.bind ?_ fun r => L.bind (L.update _ _ _) fun _ => L.ret
      exact L.bind (L.fetchObject t id) fun source => Rules.Copies.renameNodes ih source _

theorem copyObject (t : ObjectType) (id : NodeId) : L.Copies (CopyM.copyObject t id) := by
  intro copies
  rw [CopyM.copyObject_run]
  exact L.getThen fun s => copyNode (s.pool.size + 1) t id copies

end Copies

theorem copy (v : Value) : L.Holds (StoreM.copy v) := Rules.Copies.copy Copies.copyObject v

theorem copyObject (t : ObjectType) (id : NodeId) : L.Holds (StoreM.copyObject t id) :=
  Rules.Copies.copyObject Copies.copyObject t id

theorem copyWithField (t : ObjectType) (id : NodeId) (field : Name) (d : Datum) :
    L.Holds (StoreM.copyWithField t id field d) :=
  L.bind (L.copyObject t id) fun _ => L.bind (L.update _ _ _) fun _ => L.ret

/-! ## Tiles and patches -/

theorem makeTile (ps : List Point) : L.Holds (StoreM.makeTile ps) := by
  unfold StoreM.makeTile
  by_cases hlen : ps.length < 3
  · simp only [hlen, if_true]
    exact L.failThen
  simp only [hlen, if_false]
  split
  · exact L.fail
  · exact L.bind (L.allocate _) fun _ => L.keeping (L.bind (L.allocateAll _) fun _ => L.keeping
      (L.bind (L.allocateAll _) fun _ => L.bind (L.update _ _ _) fun _ => L.ret))

theorem placeTiles (patch : NodeId) (table : Locations) (tiles : List NodeId) :
    L.Holds (StoreM.placeTiles patch table tiles) := by
  induction tiles generalizing table with
  | nil => exact L.ret
  | cons tile tiles ih =>
    refine L.bind (L.copyObject .tile tile) fun _ => L.keeping (L.bind (L.update _ _ _) fun _ => ?_)
    exact L.bind (L.fetch Object.tiles _) fun _ => L.bind (L.tilePoints _) fun _ => L.bind (ih _) fun _ => L.ret

theorem makePatch (tiles : List NodeId) : L.Holds (StoreM.makePatch tiles) :=
  L.bind (L.allocate _) fun _ => L.keeping (L.bind (L.placeTiles _ _ _) fun _ =>
    L.bind (L.update _ _ _) fun _ => L.ret)

/-- What a machine does with its store. -/
def interface : StoreM.Interface where
  toRules := L.toRules
  Fit _ := True
  lambda _ _ _ _ := L.allocate _
  close _ _ := L.update _ _ _
  cluster _ := L.allocate _
  append _ _ := L.update _ _ _
  makeTile := L.makeTile

theorem copying_interface : L.interface.Copying := ⟨L.copy, L.copyWithField, L.makePatch⟩

end StoreM.Logic

end Mosaic
