import Mosaic.Primitive.Apply
import Mosaic.Proofs.Composed
import Mosaic.Proofs.Guise.Lines

/-!
# Store actions do not look at source lines

`Relined ℓ r x y` says that on a store with other lines, the action `y` does what `x` does on the store as
it is: the outcome is the same up to `r`, and the store it leaves has the other lines again. Most actions
are blind to lines: they are their own counterpart, with the same result.
-/

namespace Mosaic.StoreM

open Mosaic.Graph (NodeId Kind)

/-- An outcome with other lines. -/
def outcome {α β : Type} (ℓ : Lines) (r : α → β) :
    EStateM.Result Failure Store α → EStateM.Result Failure Store β
  | .ok a s => .ok (r a) (s.relined ℓ)
  | .error failure s => .error failure (s.relined ℓ)

/-- With other lines in the store, `y` does what `x` does. -/
def Relined {α β : Type} (ℓ : Lines) (r : α → β) (x : StoreM α) (y : StoreM β) : Prop :=
  ∀ (pins : Pins) (s : Store), y pins (s.relined ℓ) = outcome ℓ r (x pins s)

/-- The action does the same whatever lines there are in the store. -/
abbrev Blind {α : Type} (ℓ : Lines) (x : StoreM α) : Prop := Relined ℓ id x x

namespace Relined

variable {ℓ : Lines} {α β γ δ : Type} {r : α → β} {r' : γ → δ} {x : StoreM α} {y : StoreM β}
  {f : α → StoreM γ} {g : β → StoreM δ}

theorem ret {a : α} : Relined ℓ r (pure a) (pure (r a)) := fun _ _ => rfl

theorem bind (hx : Relined ℓ r x y) (hf : ∀ a, Relined ℓ r' (f a) (g (r a))) :
    Relined ℓ r' (x >>= f) (y >>= g) := by
  intro pins s
  rw [bind_apply, bind_apply, hx pins s]
  cases x pins s with
  | ok a s' => exact hf a pins s'
  | error failure s' => rfl

theorem fetch {k : Kind Object α} {r : α → α} (hk : k.Relines ℓ r) (id : NodeId) :
    Relined ℓ r (StoreM.fetch k id) (StoreM.fetch k id) := by
  intro pins s
  have hget : (s.relined ℓ).pool.get k id = (s.pool.get k id).map r := Graph.Pool.get_relined hk
  rw [fetch_apply, fetch_apply, hget]
  cases s.pool.get k id <;> rfl

theorem fetchObject (t : ObjectType) (id : NodeId) :
    Relined ℓ (Object.relined ℓ) (StoreM.fetchObject t id) (StoreM.fetchObject t id) :=
  bind (fetch (Kind.Relines.ofType t) id) fun _ => ret

theorem allocate (o : Object) :
    Relined ℓ id (StoreM.allocate o) (StoreM.allocate (o.relined ℓ)) := by
  intro pins s
  have hpins : pinsFor (o.relined ℓ) (s.relined ℓ) pins = pinsFor o s pins := by
    simp only [pinsFor, Graph.Heap.relined, Object.tethers_relined, Graph.Pool.tethers_relined]
  have hall : (s.relined ℓ).allocate (pinsFor o s pins) (o.relined ℓ) = _ := Graph.Heap.allocate_relined o
  rw [allocate_apply, allocate_apply, hpins, hall]
  cases s.allocate (pinsFor o s pins) o <;> rfl

theorem update {k : Kind Object α} {r f g : α → α} (hk : k.Relines ℓ r) (hf : ∀ a, g (r a) = r (f a))
    (i : NodeId) : Relined ℓ id (StoreM.update k i f) (StoreM.update k i g) := by
  intro pins s
  have hupdate : (s.relined ℓ).pool.update k i g = (s.pool.update k i f).map (.relined ℓ) :=
    Graph.Pool.update_relined hk hf
  rw [update_apply, update_apply, hupdate]
  cases s.pool.update k i f <;> rfl

end Relined

namespace Blind

variable {ℓ : Lines} {α β : Type} {x : StoreM α} {k : Kind Object α}

theorem ret {a : α} : Blind ℓ (pure a) := fun _ _ => rfl

theorem bind {f : α → StoreM β} (hx : Blind ℓ x) (hf : ∀ a, Blind ℓ (f a)) : Blind ℓ (x >>= f) :=
  Relined.bind hx hf

theorem fail {cause : Cause} : Blind ℓ (StoreM.fail cause : StoreM α) := fun _ _ => rfl

theorem ofExcept {y : Except Failure α} : Blind ℓ (StoreM.ofExcept y) := by
  cases y <;> exact fun _ _ => rfl

theorem keeping {ids : List NodeId} (hx : Blind ℓ x) : Blind ℓ (StoreM.keeping ids x) :=
  fun pins s => hx (pins.also fun _ => ids) s

theorem mapM {f : β → StoreM α} (hf : ∀ b, Blind ℓ (f b)) (l : List β) : Blind ℓ (l.mapM f) :=
  Composable.mapM (C := ⟨Blind ℓ, ret, bind⟩) fun b _ => hf b

theorem fetch (hk : k.Relines ℓ id) (i : NodeId) : Blind ℓ (StoreM.fetch k i) := Relined.fetch hk i

theorem load (d : Datum) : Blind ℓ (StoreM.load d) := by
  cases d with
  | object t id => exact Relined.bind (Relined.fetchObject t id) fun _ => ret
  | _ => exact ret

theorem allocate {o : Object} (ho : o.relined ℓ = o) : Blind ℓ (StoreM.allocate o) := by
  have h := Relined.allocate (ℓ := ℓ) o
  rwa [ho] at h

theorem update (hk : k.Relines ℓ id) (i : NodeId) (f : α → α) :
    Blind ℓ (StoreM.update k i f) :=
  Relined.update (r := id) (f := f) (g := f) hk (fun _ => rfl) i

theorem allocateAll {os : List Object} (hos : ∀ o ∈ os, o.relined ℓ = o) :
    Blind ℓ (StoreM.allocateAll os) := by
  induction os with
  | nil => exact ret
  | cons o os ih =>
    refine bind (allocate (hos o (by simp))) fun _ => keeping ?_
    exact bind (ih fun o ho => hos o (by simp [ho])) fun _ => ret

theorem makeCluster (items : List Value) : Blind ℓ (StoreM.makeCluster items) :=
  bind ofExcept fun _ => keeping (bind (allocate rfl) fun _ => ret)

theorem makePoint (p : Point) : Blind ℓ (StoreM.makePoint p) := makeCluster _

/-! ## Fields -/

theorem loadOption (t : ObjectType) (id? : Option NodeId) : Blind ℓ (StoreM.loadOption t id?) := by
  cases id? with
  | none => exact ret
  | some id => exact load (.object t id)

theorem clusterOf (t : ObjectType) (ids : List NodeId) : Blind ℓ (StoreM.clusterOf t ids) :=
  bind (mapM (fun id => load (.object t id)) ids) fun _ => makeCluster _

theorem tilePoints (t : Tile) : Blind ℓ (StoreM.tilePoints t) :=
  mapM (fun id => bind (fetch Kind.Relines.vertices id) fun _ => ret) t.vertices

theorem endpoints (e : Edge) : Blind ℓ (StoreM.endpoints e) := by
  unfold StoreM.endpoints
  split
  · exact ret
  · exact bind (fetch Kind.Relines.tiles _) fun _ => ret

theorem tileField (t : Tile) (name : Name) : Blind ℓ (StoreM.tileField t name) := by
  unfold StoreM.tileField
  split
  · exact clusterOf _ _
  · exact clusterOf _ _
  · exact loadOption _ _
  · exact ret
  · exact bind (tilePoints t) fun _ => makePoint _
  · exact fail

theorem vertexField (v : Vertex) (name : Name) : Blind ℓ (StoreM.vertexField v name) := by
  unfold StoreM.vertexField
  split
  · exact ret
  · exact ret
  · exact loadOption _ _
  · exact ret
  · exact fail

theorem edgeField (e : Edge) (name : Name) : Blind ℓ (StoreM.edgeField e name) := by
  unfold StoreM.edgeField
  split
  · exact bind (endpoints e) fun _ => loadOption _ _
  · exact bind (endpoints e) fun _ => loadOption _ _
  · exact loadOption _ _
  · refine bind (endpoints e) fun ends => ?_
    split
    · exact bind (fetch Kind.Relines.vertices _) fun _ =>
        bind (fetch Kind.Relines.vertices _) fun _ => ret
    · exact ret
  · exact fail

theorem makePoints (ps : List Point) : Blind ℓ (StoreM.makePoints ps) := by
  induction ps with
  | nil => exact ret
  | cons p ps ih => exact bind (makePoint p) fun _ => keeping (bind ih fun _ => ret)

theorem patchField (p : Patch) (name : Name) : Blind ℓ (StoreM.patchField p name) := by
  unfold StoreM.patchField
  split
  · exact clusterOf _ _
  · exact bind (makePoints _) fun _ => makeCluster _
  · exact fail

theorem clusterField (c : Cluster) (name : Name) : Blind ℓ (StoreM.clusterField c name) := by
  unfold StoreM.clusterField
  split
  · exact ret
  · split
    · exact load _
    · exact fail

theorem lambdaField (l : Lambda) (name : Name) :
    Relined ℓ id (StoreM.lambdaField l name) (StoreM.lambdaField (l.relined ℓ) name) := by
  show Blind ℓ (StoreM.lambdaField l name)
  unfold StoreM.lambdaField
  split
  · exact ret
  · exact fail

theorem ownField (o : Object) (name : Name) :
    Relined ℓ id (StoreM.ownField o name) (StoreM.ownField (o.relined ℓ) name) := by
  cases o with
  | tile t => exact tileField t name
  | vertex v => exact vertexField v name
  | edge e => exact edgeField e name
  | patch p => exact patchField p name
  | cluster c => exact clusterField c name
  | lambda l => exact lambdaField l name

theorem getField (v : Value) (name : Name) : Blind ℓ (StoreM.getField v name) := by
  unfold StoreM.getField
  split
  · refine Relined.bind (Relined.fetchObject _ _) fun o => ?_
    rw [Object.fields_relined]
    cases o.fields[name]? with
    | some d => exact load d
    | none => exact ownField o name
  · exact fail

end Blind

end Mosaic.StoreM

/-! ## Copies -/

/-- The copying action does the same whatever lines there are in the store. -/
def Mosaic.CopyM.Blind {α : Type} (ℓ : Lines) (x : CopyM α) : Prop :=
  ∀ cs, StoreM.Blind ℓ (x.run cs)

namespace Mosaic.CopyM.Blind

open Mosaic.Graph (NodeId Kind)

variable {ℓ : Lines} {α β : Type}

theorem ret {a : α} : CopyM.Blind ℓ (pure a) := fun _ => StoreM.Relined.ret

theorem bind {x : CopyM α} {g : α → CopyM β} (hx : CopyM.Blind ℓ x) (hg : ∀ a, CopyM.Blind ℓ (g a)) :
    CopyM.Blind ℓ (x >>= g) := by
  intro cs
  rw [StateT.run_bind]
  exact StoreM.Relined.bind (hx cs) fun r => hg r.1 r.2

theorem renameNodes {f : ObjectType → NodeId → CopyM NodeId} (hf : ∀ t id, CopyM.Blind ℓ (f t id)) (o : Object) :
    CopyM.Blind ℓ (o.renameNodes f) :=
  Composable.renameNodes (C := ⟨CopyM.Blind ℓ, ret, bind⟩) fun t id _ => hf t id

/-- A copy of a lambda with other lines is the copy, with the other lines. -/
theorem copyParts {depth : Nat} (hf : ∀ t id, CopyM.Blind ℓ (copyNode depth t id)) (t : ObjectType)
    (id : NodeId) (cs : Copies) :
    StoreM.Relined ℓ (fun r => (r.1.relined ℓ, r.2)) (CopyM.copyParts depth t id cs)
      (CopyM.copyParts depth t id cs) := by
  refine StoreM.Relined.bind (StoreM.Relined.fetchObject t id) fun source => ?_
  rw [Object.renameNodes_relined, StateT.run_map]
  intro pins s
  have h := renameNodes hf source cs pins s
  rw [map_eq_pure_bind, StoreM.bind_apply, h]
  cases (source.renameNodes (copyNode depth)).run cs pins s <;> rfl

theorem copyNode (depth : Nat) (t : ObjectType) (id : NodeId) : CopyM.Blind ℓ (copyNode depth t id) := by
  induction depth generalizing t id with
  | zero => exact fun _ => StoreM.Blind.fail
  | succ depth ih =>
    intro cs
    cases hcs : cs[id]? with
    | some copy =>
      rw [copyNode_run_of_some hcs]
      exact StoreM.Relined.bind (StoreM.Relined.fetchObject t copy) fun _ => StoreM.Relined.ret
    | none =>
      rw [copyNode_run_of_none hcs]
      refine StoreM.Relined.bind (StoreM.Blind.keeping (StoreM.Blind.allocate (by simp))) fun copy => ?_
      refine StoreM.Relined.bind (copyParts ih t id _) fun r => ?_
      refine StoreM.Relined.bind (StoreM.Relined.update (Kind.Relines.ofType t) (fun blank => ?_) copy)
        fun _ => StoreM.Relined.ret
      by_cases hr : r.1.type = t <;> simp [fill, hr, Kind.Relines.typed]

theorem copyObject (t : ObjectType) (id : NodeId) : CopyM.Blind ℓ (copyObject t id) := by
  intro cs pins s
  rw [copyObject_run]
  have hsize : (s.relined ℓ).pool.size = s.pool.size := Graph.Pool.size_relined
  show (CopyM.copyNode ((s.relined ℓ).pool.size + 1) t id).run cs pins (s.relined ℓ) = _
  rw [hsize]
  exact copyNode _ t id cs pins s

theorem copyValue (v : Value) : CopyM.Blind ℓ (copyValue v) := by
  intro cs
  cases v with
  | fieldRef => exact StoreM.Blind.fail
  | datum d =>
    cases d with
    | object t id =>
      rw [copyValue_run]
      exact StoreM.Relined.bind (copyObject t id cs) fun _ =>
        StoreM.Relined.bind (StoreM.Blind.load _) fun _ => StoreM.Relined.ret
    | _ => exact StoreM.Relined.ret

end Mosaic.CopyM.Blind

namespace Mosaic.StoreM.Blind

open Mosaic.Graph (NodeId Kind)

variable {ℓ : Lines}

theorem copy (v : Value) : Blind ℓ (StoreM.copy v) :=
  bind (CopyM.Blind.copyValue v {}) fun r => ret (a := r.1)

theorem copyObject (t : ObjectType) (id : NodeId) : Blind ℓ (StoreM.copyObject t id) :=
  bind (CopyM.Blind.copyObject t id {}) fun r => ret (a := r.1)

theorem copyWithField (t : ObjectType) (id : NodeId) (field : Name) (d : Datum) :
    Blind ℓ (StoreM.copyWithField t id field d) := by
  refine bind (copyObject t id) fun copy => ?_
  refine Relined.bind (Relined.update (Kind.Relines.ofType t) (fun o => ?_) copy) fun _ => ret
  simp [Kind.Relines.typed]

/-! ## Tiles and patches -/

theorem makeTile (ps : List Point) : Blind ℓ (StoreM.makeTile ps) := by
  unfold StoreM.makeTile
  by_cases hlen : ps.length < 3
  · simp only [hlen, if_true]
    exact fun _ _ => rfl
  simp only [hlen, if_false]
  split
  · exact fail
  refine bind (allocate rfl) fun _ => keeping (bind (allocateAll fun o ho => ?_) fun _ => keeping
    (bind (allocateAll fun o ho => ?_) fun _ => bind (update Kind.Relines.tiles _ _) fun _ => ret))
  · obtain ⟨i, hi, rfl⟩ := List.mem_mapIdx.1 ho
    rfl
  · obtain ⟨i, -, rfl⟩ := List.mem_map.1 ho
    rfl

theorem placeTiles (patch : NodeId) (table : Locations) (tiles : List NodeId) :
    Blind ℓ (StoreM.placeTiles patch table tiles) := by
  induction tiles generalizing table with
  | nil => exact ret
  | cons tile tiles ih =>
    refine bind (copyObject .tile tile) fun _ => keeping ?_
    refine bind (update Kind.Relines.tiles _ _) fun _ => bind (fetch Kind.Relines.tiles _) fun _ => ?_
    exact bind (tilePoints _) fun _ => bind (ih _) fun _ => ret

theorem makePatch (tiles : List NodeId) : Blind ℓ (StoreM.makePatch tiles) :=
  bind (allocate rfl) fun _ => keeping (bind (placeTiles _ _ _) fun _ =>
    bind (update Kind.Relines.patches _ _) fun _ => ret)

/-! ## Primitives -/

theorem coordinate (d : Datum) : Blind ℓ (StoreM.coordinate d) :=
  bind (load d) fun _ => bind ofExcept fun _ => ret

theorem itemsOf (v : Value) : Blind ℓ (Primitive.itemsOf v) :=
  bind ofExcept fun _ => bind (fetch Kind.Relines.clusters _) fun _ => ret

theorem pointsOf (v : Value) : Blind ℓ (StoreM.pointsOf v) := by
  refine bind ofExcept fun _ => bind (fetch Kind.Relines.clusters _) fun c => mapM (fun d => ?_) _
  refine bind (load d) fun _ => bind ofExcept fun _ => bind (fetch Kind.Relines.clusters _) fun c => ?_
  split
  · exact bind (coordinate _) fun _ => bind (coordinate _) fun _ => ret
  · exact fail

theorem itemAt (cluster index : Value) : Blind ℓ (Primitive.itemAt cluster index) := by
  refine bind ofExcept fun _ => bind ofExcept fun _ =>
    bind (fetch Kind.Relines.clusters _) fun _ => ?_
  dsimp only
  split
  · exact load _
  · exact fail

theorem regularTile (sides : Value) : Blind ℓ (Primitive.regularTile sides) := by
  refine bind ofExcept fun _ => ?_
  split
  · exact bind (makeTile _) fun _ => ret
  · exact fail

theorem patchOf (v : Value) : Blind ℓ (Primitive.patchOf v) :=
  bind (itemsOf v) fun _ => bind (mapM (fun d => bind (load d) fun _ => ofExcept) _) fun _ =>
    bind (keeping (makePatch _)) fun _ => ret

theorem apply (f : Primitive) (args : List Value) : Blind ℓ (f.apply args) := by
  unfold Primitive.apply
  split
  all_goals first
    | exact ofExcept
    | exact ret
    | exact fail
    | exact makeCluster _
    | exact itemAt _ _
    | exact regularTile _
    | exact patchOf _
    | exact bind (itemsOf _) fun _ => ret
    | exact bind (pointsOf _) fun _ => bind (makeTile _) fun _ => ret

end Mosaic.StoreM.Blind
