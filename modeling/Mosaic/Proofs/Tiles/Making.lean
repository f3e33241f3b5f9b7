import Mosaic.Proofs.Machine.Logic
import Mosaic.Proofs.Tiles.Placed

/-!
# Tiles are made well formed

A new tile is a blank one until its vertices and edges are there, which get the addresses after it. So the
store is settled below the tile while it is made, and when it has its parts they are in their places
(`StoreM.Yields.makeTile`). All else that the operations of a machine do to a store leaves it orderly as well,
copies apart: `StoreM.orderly` has the rules for that.
-/

namespace Mosaic

open Mosaic.Graph (NodeId Node Kind Pool Heap)

open Store

/-! ## Actions that only the graph can stop -/

namespace StoreM

/-- The action comes to a result and a store as `R` says, unless the graph fails. -/
abbrev Yields {α : Type} (x : StoreM α) (pins : Pins) (s : Store) (R : α → Store → Prop) : Prop :=
  Outcome (x pins s) (fun failure _ => failure.cause.isGraph = true) R

namespace Yields

export Outcome (ret bind)

variable {α β : Type} {x : StoreM α} {pins : Pins} {s : Store} {R R' : α → Store → Prop} {T : β → Store → Prop}
  {due : NodeId → NodeId → Prop} {n : Nat} {o : Object} {id : NodeId} {k : Kind Object α}

theorem imp (hx : Yields x pins s R) (h : ∀ a s', R a s' → R' a s') : Yields x pins s R' :=
  Outcome.imp hx (fun _ _ hgraph => hgraph) h

theorem keeping {ids : List NodeId} (hx : Yields x (pins.also fun _ => ids) s R) :
    Yields (StoreM.keeping ids x) pins s R := hx

/-- An allocation adds one object, at the next address. -/
theorem allocate : Yields (StoreM.allocate o) pins s fun id s' =>
    id = s.next ∧ s'.next = s.next + 1 ∧ Grows pins s s' ∧ (∃ e, s'.pool.entries[id]? = some e ∧ e.node = o) ∧
      (∀ due n, s.Settled due n → n ≤ s.next → s'.Settled due n) ∧
      ∀ due, s.Settled due s.next → o.Loose → s'.Settled due s'.next := by
  rw [Yields, allocate_apply]
  cases ha : s.allocate (pinsFor o s pins) o with
  | error fault => rfl
  | ok r =>
    obtain ⟨hid, hnext, hgrows, hentry⟩ := exists_of_allocate ha
    exact ⟨hid, hnext, hgrows.of_also, hentry, fun _ n hs hn => hs.allocate_ge hn ha, fun _ hs ho => hs.allocate ho ha⟩

theorem update {f : α → α} : Yields (StoreM.update k id f) pins s fun _ s' =>
    (∀ due n, s.Settled due n → n ≤ id ∨ (∀ a, (k.wrap (f a)).core = (k.wrap a).core) → s'.Settled due n) ∧
      ∃ a, Changes s s' id (k.wrap a) (k.wrap (f a)) := by
  rw [Yields, update_apply]
  cases hu : s.pool.update k id f with
  | error fault => rfl
  | ok p =>
    refine ⟨fun _ n hs hf => hs.update hf hu, ?_⟩
    obtain ⟨e, a, he, ha, rfl⟩ := Pool.update_eq_ok hu
    refine ⟨a, rfl, fun i hi => ?_, ⟨e, he, ha⟩, e.renew (k.wrap (f a)), Std.ExtTreeMap.getElem?_insert_self, rfl⟩
    exact (Std.ExtTreeMap.getElem?_insert ..).trans (if_neg (by simpa using hi.symm))

theorem fetch : Yields (StoreM.fetch k id) pins s fun a s' =>
    s' = s ∧ ∃ e, s.pool.entries[id]? = some e ∧ e.node = k.wrap a := by
  rw [Yields, fetch_apply]
  cases hg : s.pool.get k id with
  | error fault => rfl
  | ok a => exact ⟨rfl, Pool.get_eq_ok_iff.1 hg⟩

theorem fetchObject {t : ObjectType} : Yields (StoreM.fetchObject t id) pins s fun o s' =>
    s' = s ∧ o.type = t ∧ ∃ e, s.pool.entries[id]? = some e ∧ e.node = o :=
  bind fetch fun o _ h => ret ⟨h.1, o.property, h.2⟩

theorem allocateAll {os : List Object} (hs : s.Settled due n) (hn : n ≤ s.next) :
    Yields (StoreM.allocateAll os) pins s fun ids s' =>
      ids = List.range' s.next os.length ∧ s'.next = s.next + os.length ∧ s'.Settled due n ∧
        Grows pins s s' ∧
        ∀ (i : Nat) o, os[i]? = some o → ∃ e, s'.pool.entries[s.next + i]? = some e ∧ e.node = o := by
  induction os generalizing s pins with
  | nil => exact ret ⟨rfl, rfl, hs, .refl pins s, nofun⟩
  | cons o os ih =>
    refine bind allocate fun id s₁ h₁ => keeping ?_
    obtain ⟨rfl, hnext₁, hgrows₁, ⟨e, he, hnode⟩, hsettled, -⟩ := h₁
    have hs₁ := hsettled due n hs hn
    refine bind (ih hs₁ (hn.trans hgrows₁.next)) fun ids s₂ h₂ => ret ?_
    obtain ⟨rfl, hnext₂, hs₂, hgrows₂, hnodes⟩ := h₂
    refine ⟨by rw [hnext₁]; rfl, ?_, hs₂, hgrows₁.trans hgrows₂.of_also, fun i o' ho' => ?_⟩
    · rw [hnext₂, hnext₁, List.length_cons]
      omega
    · cases i with
      | zero =>
        obtain rfl : o = o' := Option.some.inj ho'
        have hlt : s.next < s₁.next := by omega
        exact ⟨e, (hgrows₂.kept _ (Pins.mem_also.2 (.inr (by simp))) hlt).trans he, hnode⟩
      | succ i =>
        rw [show s.next + (i + 1) = s₁.next + i by omega]
        exact hnodes i o' ho'

end Yields

end StoreM

/-! ## A new tile -/

/-- There is a tile at the address `id`, with `n` vertices and as many edges at the addresses after it. -/
structure Fragment.Polygon (g : Fragment) (id n : Nat) : Prop where
  tile : g id = some (.tile { vertices := List.range' (id + 1) n, edges := List.range' (id + 1 + n) n })
  vertex : ∀ i, i < n → g (id + 1 + i) = some (.vertex { tile := some id, index := i })
  edge : ∀ i, i < n → g (id + 1 + n + i) = some (.edge { tile := some id, index := i })

theorem Fragment.Polygon.placed {g : Fragment} {due : NodeId → NodeId → Prop} {id n : Nat} (h : g.Polygon id n)
    (hn : 3 ≤ n) {i : Nat} {o : Object} (hi : id ≤ i) (hi' : i < id + 1 + n + n) (ho : g i = some o) :
    g.Placed due i o := by
  have hat : ∀ {a j i : Nat}, (List.range' a n)[i]? = some j → i < n ∧ j = a + i := fun {a j i} hj => by
    obtain ⟨hlt, hj⟩ := List.getElem?_eq_some_iff.1 hj
    rw [List.length_range'] at hlt
    rw [List.getElem_range', Nat.one_mul] at hj
    exact ⟨hlt, hj.symm⟩
  have hget : ∀ {a i : Nat}, i < n → (List.range' a n)[i]? = some (a + i) := fun hi => by
    rw [List.getElem?_range' hi, Nat.one_mul]
  by_cases hid : i = id
  · subst hid
    cases h.tile.symm.trans ho
    refine ⟨by simpa using hn, by simp, fun i v hv => ?_, fun i e he => ?_, nofun⟩
    · obtain ⟨hlt, rfl⟩ := hat hv
      exact ⟨_, h.vertex i hlt, rfl, rfl⟩
    · obtain ⟨hlt, rfl⟩ := hat he
      exact ⟨_, h.edge i hlt, rfl, rfl⟩
  by_cases hvertex : i < id + 1 + n
  · obtain ⟨j, rfl⟩ := Nat.exists_eq_add_of_le (show id + 1 ≤ i by omega)
    have hj : j < n := by omega
    cases (h.vertex j hj).symm.trans ho
    exact ⟨id, _, rfl, h.tile, hget hj⟩
  · obtain ⟨j, rfl⟩ := Nat.exists_eq_add_of_le (show id + 1 + n ≤ i by omega)
    have hj : j < n := by omega
    cases (h.edge j hj).symm.trans ho
    exact ⟨id, _, rfl, h.tile, hget hj⟩

namespace StoreM

variable {pins : Pins} {s : Store}

theorem makeTile_eq {points : List Point} (hn : 3 ≤ points.length)
    (hfinite : (points.find? fun p => !p.isFinite) = none) : makeTile points = (do
      let id ← allocate (.tile {})
      keeping [id] do
        let vertices ← allocateAll (points.mapIdx fun index position => .vertex { tile := some id, position, index })
        keeping vertices do
          let edges ← allocateAll ((List.range points.length).map fun index => .edge { tile := some id, index })
          update Object.tiles id fun t => { t with vertices, edges }
          return id) := by
  unfold makeTile
  simp only [Nat.not_lt.2 hn, if_false, hfinite]

theorem Yields.makeTile {points : List Point} (hn : 3 ≤ points.length)
    (hfinite : (points.find? fun p => !p.isFinite) = none) (hs : s.Orderly) :
    Yields (StoreM.makeTile points) pins s fun _ s' => s'.Orderly := by
  rw [makeTile_eq hn hfinite]
  refine bind allocate fun id s₁ h₁ => keeping ?_
  obtain ⟨rfl, hnext₁, hgrows₁, ⟨e₁, he₁, hnode₁⟩, hsettled₁, -⟩ := h₁
  have hs₁ := hsettled₁ _ _ hs (Nat.le_refl _)
  refine bind (allocateAll hs₁ hgrows₁.next) fun vertices s₂ h₂ => keeping ?_
  obtain ⟨hvertices, hnext₂, hs₂, hgrows₂, hnodes₂⟩ := h₂
  refine bind (allocateAll hs₂ (hgrows₁.next.trans hgrows₂.next)) fun edges s₃ h₃ => ?_
  obtain ⟨hedges, hnext₃, hs₃, hgrows₃, hnodes₃⟩ := h₃
  refine bind update fun _ s₄ h₄ => ret ?_
  obtain ⟨hsettled, t, hchanges⟩ := h₄
  simp only [List.length_mapIdx, List.length_map, List.length_range] at hvertices hnext₂ hedges hnext₃
  rw [hnext₁] at hvertices hnext₂
  rw [hnext₂] at hedges hnext₃
  have hnext₄ := hchanges.next
  -- The blank tile and the vertices were held while the others were made.
  have htile : s₃.pool.entries[s.next]? = some e₁ := by
    rw [hgrows₃.kept _ (by simp) (by omega), hgrows₂.kept _ (by simp) (by omega), he₁]
  obtain ⟨e, he, ht⟩ := hchanges.before
  obtain rfl : e = e₁ := Option.some.inj (he.symm.trans htile)
  obtain rfl : t = {} := Object.tile.inj (ht.symm.trans hnode₁)
  obtain ⟨e', he', hnode⟩ := hchanges.after
  have hpolygon : (s₄.cores s₄.next).Polygon s.next points.length := by
    refine ⟨?_, fun i hi => ?_, fun i hi => ?_⟩
    · rw [cores_of_lt (by omega) he', hnode, hvertices, hedges]
      rfl
    · obtain ⟨v, hv, hvnode⟩ := hnodes₂ i _ (List.getElem?_eq_getElem (by simpa using hi))
      rw [hnext₁] at hv
      have hmem : s.next + 1 + i ∈ vertices := by
        rw [hvertices, List.mem_range'_1]
        omega
      have hkept := hgrows₃.kept (s.next + 1 + i) (by simp [hmem]) (by omega)
      rw [cores_of_lt (by omega) ((hchanges.other _ (by omega)).trans (hkept.trans hv)), hvnode]
      simp [Object.core]
    · obtain ⟨v, hv, hvnode⟩ := hnodes₃ i _ (List.getElem?_eq_getElem (by simpa using hi))
      rw [hnext₂] at hv
      rw [cores_of_lt (by omega) ((hchanges.other _ (by omega)).trans hv), hvnode]
      simp [Object.core]
  have hs₄ := hsettled _ _ hs₃ (.inl (Nat.le_refl _))
  refine hs₄.all fun i e hi he => ?_
  have hlt := hs₄.below i e he
  exact hpolygon.placed hn hi (by omega) (cores_of_lt hlt he)

/-! ## Whatever is done to a store -/

/-- With these pins the action leaves this store orderly, also if it fails, unless the graph does. -/
abbrev Orders {α : Type} (x : StoreM α) (pins : Pins) (s : Store) : Prop :=
  Outcome (x pins s) (fun failure s' => failure.cause.isGraph = false → s'.Orderly) fun _ s' => s'.Orderly

theorem Yields.orders {α : Type} {x : StoreM α} (h : Yields x pins s fun _ s' => s'.Orderly) : Orders x pins s :=
  Outcome.imp h (fun _ _ hgraph hnot => absurd (hnot.symm.trans hgraph) Bool.false_ne_true) fun _ _ hs => hs

/-- The action leaves any store orderly that is, also if it fails, unless the graph does. -/
abbrev KeepsOrder {α : Type} (x : StoreM α) : Prop :=
  Action.Ensures Store.Orderly (fun failure s => failure.cause.isGraph = false → s.Orderly) x fun _ => True

namespace KeepsOrder

variable {α : Type} {x : StoreM α} {k : Kind Object α} {o : Object} {id : NodeId} {f : α → α}

theorem of_orders (h : ∀ pins s, s.Orderly → Orders x pins s) : KeepsOrder x :=
  fun s hs pins => (h pins s hs).imp (fun _ _ hf => hf) fun _ _ hs' => ⟨hs', trivial⟩

theorem allocate (ho : o.Loose) : KeepsOrder (StoreM.allocate o) :=
  Action.Ensures.allocate (fun _ _ _ _ hs ha => Settled.allocate hs ho ha) fun _ _ hs _ => hs

theorem update (hf : ∀ a, (k.wrap (f a)).core = (k.wrap a).core) : KeepsOrder (StoreM.update k id f) := by
  refine of_orders fun pins s hs => (Yields.update.imp fun _ s' h => ?_).orders
  obtain ⟨hsettled, _, hchanges⟩ := h
  rw [Orderly, hchanges.next]
  exact hsettled _ _ hs (.inr hf)

theorem makeTile (points : List Point) : KeepsOrder (StoreM.makeTile points) := by
  refine of_orders fun pins s hs => ?_
  by_cases hn : points.length < 3
  · unfold StoreM.makeTile
    simp only [hn, if_true]
    exact fun _ => hs
  cases hfinite : points.find? fun p => !p.isFinite with
  | none => exact (Yields.makeTile (Nat.le_of_not_lt hn) hfinite hs).orders
  | some p =>
    unfold StoreM.makeTile
    simp only [hn, if_false, hfinite]
    exact fun _ => hs

end KeepsOrder

/-- The bodies of the lambdas that are made are code. -/
def orderly : StoreM.Interface where
  toRules := .ensuring Store.Orderly (fun failure s => failure.cause.isGraph = false → s.Orderly)
    fun _ _ _ hs _ => hs
  Fit t := IsCode t.body
  lambda _ _ _ ht := KeepsOrder.allocate (Object.loose_lambda ht)
  close _ _ := KeepsOrder.update fun _ => rfl
  cluster _ := KeepsOrder.allocate (Object.loose_cluster _)
  append _ _ := KeepsOrder.update fun _ => rfl
  makeTile := KeepsOrder.makeTile

end StoreM

end Mosaic
