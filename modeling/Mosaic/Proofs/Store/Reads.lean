import Mathlib.Tactic.Choose
import Mosaic.Proofs.Store.Logic

/-!
# Actions that only read

An action that only looks at the store returns or fails as the store says, whatever is pinned, and leaves
the store as it is.
-/

namespace Mosaic.StoreM

open Mosaic.Graph (NodeId Kind)

variable {α β : Type} {x : StoreM α}

/-- The action looks at the store only, and leaves it as it is. -/
def Reads (x : StoreM α) : Prop := ∃ g : Store → Except Failure α, ∀ pins s, x pins s =
  match g s with
  | .ok a => .ok a s
  | .error failure => .error failure s

namespace Reads

theorem ret {a : α} : Reads (pure a) := ⟨fun _ => .ok a, fun _ _ => rfl⟩

theorem fail {cause : Cause} : Reads (StoreM.fail cause : StoreM α) :=
  ⟨fun _ => .error { cause }, fun _ _ => rfl⟩

theorem ofExcept {y : Except Failure α} : Reads (StoreM.ofExcept y) := ⟨fun _ => y, fun _ _ => ofExcept_apply y⟩

theorem bind {f : α → StoreM β} (hx : Reads x) (hf : ∀ a, Reads (f a)) : Reads (x >>= f) := by
  obtain ⟨g, hg⟩ := hx
  choose g' hg' using hf
  refine ⟨fun s => (g s).bind fun a => g' a s, fun pins s => ?_⟩
  rw [bind_apply, hg]
  dsimp only
  cases g s with
  | ok a => exact hg' a pins s
  | error failure => rfl

theorem fetch {k : Kind Object α} {id : NodeId} : Reads (StoreM.fetch k id) := by
  refine ⟨fun s => (s.pool.get k id).mapError fun fault => { cause := .graph fault }, fun pins s => ?_⟩
  rw [fetch_apply]
  dsimp only
  cases s.pool.get k id <;> rfl

/-- Looking at the store, and all that is composed of it. -/
def rules : StoreM.Rules where
  Holds := Reads
  ofExcept _ := ofExcept
  bind := bind
  keeping := fun ⟨g, hg⟩ => ⟨g, fun _ => hg _⟩
  fetch _ _ := fetch

theorem mapM {f : β → StoreM α} {l : List β} (hf : ∀ b ∈ l, Reads (f b)) : Reads (l.mapM f) :=
  Composable.mapM (C := rules.composable) hf

theorem fetchObject {t : ObjectType} {id : NodeId} : Reads (StoreM.fetchObject t id) := rules.fetchObject t id

theorem load {d : Datum} : Reads (StoreM.load d) := rules.load d

/-- A result does not depend on the pins. -/
theorem of_ok {pins : Pins} {s s' : Store} {a : α} (h : Reads x) (hx : x pins s = .ok a s') :
    s' = s ∧ ∀ pins', x pins' s = .ok a s := by
  obtain ⟨g, hg⟩ := h
  rw [hg] at hx
  cases hs : g s with
  | ok b =>
    rw [hs] at hx
    cases hx
    exact ⟨rfl, fun pins' => by rw [hg, hs]⟩
  | error failure =>
    rw [hs] at hx
    cases hx

theorem element (id : NodeId) (index : Nat) : Reads (do
    let items := (← StoreM.fetch Object.clusters id).items
    items[index]?.mapM StoreM.load) := by
  refine bind fetch fun c => ?_
  dsimp only
  cases c.items[index]? with
  | none => exact ret
  | some d => exact bind load fun _ => ret

/-! ## Fields and primitives -/

theorem loadOption {t : ObjectType} {id? : Option NodeId} : Reads (StoreM.loadOption t id?) :=
  rules.loadOption t id?

theorem tilePoints {t : Tile} : Reads (StoreM.tilePoints t) := rules.tilePoints t

theorem vertexField {v : Vertex} {name : Name} : Reads (StoreM.vertexField v name) := rules.vertexField v name

theorem edgeField {e : Edge} {name : Name} : Reads (StoreM.edgeField e name) := rules.edgeField e name

theorem clusterField {c : Cluster} {name : Name} : Reads (StoreM.clusterField c name) := rules.clusterField c name

theorem lambdaField {l : Lambda} {name : Name} : Reads (StoreM.lambdaField l name) := rules.lambdaField l name

theorem itemsOf {v : Value} : Reads (Primitive.itemsOf v) := rules.itemsOf v

theorem tilesOf {ds : List Datum} :
    Reads (ds.mapM fun d => do StoreM.ofExcept ((← StoreM.load d).toObject .tile)) :=
  mapM fun _ _ => bind load fun _ => ofExcept

theorem pointsOf {v : Value} : Reads (StoreM.pointsOf v) := rules.pointsOf v

theorem itemAt {cluster index : Value} : Reads (Primitive.itemAt cluster index) := rules.itemAt cluster index

end Reads

end Mosaic.StoreM
