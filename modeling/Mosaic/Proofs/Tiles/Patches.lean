import Mosaic.Proofs.Tiles.Copying

/-!
# Patches locate their tiles

The tiles of a new patch are copies that are made one after the other, each while those before it are held. A copy
gets the patch as its parent at once, and the patch is due to get it until it gets all of them. With each copy
comes a list of the locations of its vertices. The table of locations only grows, so the lists are still right in
the end (`StoreM.Yields.makePatch`).
-/

namespace Mosaic

open Mosaic.Graph (NodeId Node Kind Pool Heap)

open Store

/-! ## Locations -/

theorem Locations.internAll_spec (table : Locations) (ps : List Point) :
    (table.internAll ps).1.length = ps.length ∧ table.length ≤ (table.internAll ps).2.length ∧
      ∀ i ∈ (table.internAll ps).1, i < (table.internAll ps).2.length := by
  induction ps generalizing table with
  | nil => simp [internAll]
  | cons p ps ih =>
    have hintern : table.length ≤ (table.intern p).2.length ∧ (table.intern p).1 < (table.intern p).2.length := by
      unfold intern
      dsimp only
      split
      · rename_i i hi
        exact ⟨Nat.le_refl _, (List.findIdx?_eq_some_iff_getElem.1 hi).1⟩
      · simp
    obtain ⟨hlen, hle, hlt⟩ := ih (table.intern p).2
    refine ⟨congrArg (· + 1) hlen, hintern.1.trans hle, fun i hi => ?_⟩
    rcases List.mem_cons.1 hi with rfl | hi
    · exact Nat.lt_of_lt_of_le hintern.2 hle
    · exact hlt i hi

namespace Store

variable {due : NodeId → NodeId → Prop} {pins : Pins} {s s' : Store} {A : NodeId → Prop} {id : NodeId} {n : Nat}

theorem Encloses.grows (h : s.Encloses A) (hg : Grows pins s s') : s'.Encloses A :=
  ⟨fun id hid => Nat.lt_of_lt_of_le (h.below id hid) hg.next,
    fun id e hid he => h.pointers id e hid (hg.old id e (h.below id hid) he)⟩

/-- The patch is due to get the tiles. -/
def Due (patch : NodeId) (tiles : List NodeId) : NodeId → NodeId → Prop := fun p id => p = patch ∧ id ∈ tiles

/-- The tile that is stored at the address has the patch as its parent, and the list has one of `n` locations for
each of its vertices. -/
def Locates (s : Store) (patch : NodeId) (n : Nat) (tile : NodeId) (locations : List Nat) : Prop :=
  ∃ e t, s.pool.entries[tile]? = some e ∧ e.node = .tile t ∧ t.parent = some patch ∧
    locations.length = t.vertices.length ∧ ∀ l ∈ locations, l < n

/-- The patch at the address is the parent of its tiles. -/
def Adopts (s : Store) (id : NodeId) : Prop :=
  ∃ p, Fragment.of s.pool id = some (.patch p) ∧
    ∀ tile ∈ p.tiles, ∃ t, Fragment.of s.pool tile = some (.tile t) ∧ t.parent = some id

theorem Changes.located {patch tile : NodeId} {o o' : Object} {locations : List Nat} (hc : Changes s s' id o o')
    (hb : o.core.Becomes o'.core) (hs : s.Settled due s.next) (h : s.Locates patch n tile locations) :
    (s'.cores s'.next).Located n tile locations := by
  obtain ⟨e, t, he, ht, hparent, hlen, hlt⟩ := h
  have hcore : s.cores s.next tile = some (Object.tile t).core := by
    rw [cores_of_lt (hs.below tile e he) he, ht]
  have hisSome : t.parent.isSome = true := by
    rw [hparent]
    rfl
  obtain ⟨_, hq, hbecomes⟩ := hc.becomes hb tile _ hcore
  cases hbecomes with
  | same => exact ⟨_, hq, hisSome, hlen, hlt⟩
  | @tile _ t' vertices _ parent => exact ⟨t', hq, parent hisSome, by rwa [vertices], hlt⟩

namespace Settled

theorem adopt {patch : NodeId} {tiles : List NodeId} {t : Tile} (h : s.Settled (Due patch tiles) s.next)
    (hs' : s'.Settled (Due patch tiles) 0)
    (hc : Changes s s' id (.tile t) (.tile { t with parent := some patch })) :
    s'.Settled (Due patch (id :: tiles)) s'.next := by
  have hb : (Object.tile t).core.Becomes (Object.tile { t with parent := some patch }).core :=
    .tile rfl rfl fun _ => rfl
  have hdue : ∀ p i, Due patch tiles p i → Due patch (id :: tiles) p i ∨ (s'.cores s'.next).Lists p i :=
    fun p i h => .inl ⟨h.1, List.mem_cons_of_mem _ h.2⟩
  refine h.change hs'.zero hc hb ?_ hdue
  obtain ⟨e, he, ht⟩ := hc.before
  have hplaced := h.tiled id _ (cores_of_lt (h.below id e he) he)
  rw [ht] at hplaced
  have hkept := hplaced.of_kept (fun p _ => hc.becomes hb p) fun p => hdue p id
  exact hkept.adopted (.inl ⟨rfl, List.mem_cons_self⟩)

section Place

variable {p : Patch} {placed : List (NodeId × List Nat)}

theorem place (h : s.Settled (Due id p.tiles) s.next) (hs' : s'.Settled (Due id p.tiles) 0)
    (hc : Changes s s' id (.patch {}) (.patch p)) (htiles : p.tiles = placed.map Prod.fst)
    (hlocations : p.tileLocations = placed.map Prod.snd)
    (hplaced : ∀ q ∈ placed, s.Locates id p.locations.length q.1 q.2) : s'.Orderly := by
  have hb : (Object.patch {}).core.Becomes (Object.patch p).core := .patch (by simp)
  refine h.change hs'.zero hc hb ?_ fun q i hdue => .inr ?_
  · show List.Forall₂ ((s'.cores s'.next).Located p.locations.length) p.tiles p.tileLocations
    rw [htiles, hlocations, List.forall₂_map_left_iff, List.forall₂_map_right_iff, List.forall₂_same]
    exact fun q hq => hc.located hb h (hplaced q hq)
  · obtain ⟨rfl, hi⟩ := hdue
    obtain ⟨e, he, hp⟩ := hc.after
    refine ⟨{ tiles := p.tiles, locations := p.locations, tileLocations := p.tileLocations }, ?_, hi⟩
    rw [cores_of_lt (hs'.below q e he) he, hp]
    rfl

theorem adopts (hc : Changes s s' id (.patch {}) (.patch p)) (htiles : p.tiles = placed.map Prod.fst)
    (hplaced : ∀ q ∈ placed, s.Locates id p.locations.length q.1 q.2) : s'.Adopts id := by
  obtain ⟨e, he, hp⟩ := hc.after
  refine ⟨p, Fragment.of_eq_some.2 ⟨e, he, hp⟩, fun tile htile => ?_⟩
  rw [htiles] at htile
  obtain ⟨q, hq, rfl⟩ := List.mem_map.1 htile
  obtain ⟨e₁, t, he₁, ht, hparent, -⟩ := hplaced q hq
  refine ⟨t, Fragment.of_eq_some.2 ⟨e₁, (hc.other q.1 ?_).trans he₁, ht⟩, hparent⟩
  -- The patch is no tile.
  intro hid
  obtain ⟨e₀, he₀, hp₀⟩ := hc.before
  rw [hid, he₀] at he₁
  cases hp₀.symm.trans (congrArg Graph.Entry.node (Option.some.inj he₁) |>.trans ht)

end Place

end Settled

end Store

/-! ## Placing tiles -/

namespace StoreM

variable {pins : Pins} {s : Store} {A : NodeId → Prop}

theorem Yields.tilePoints {t : Tile} : Yields (StoreM.tilePoints t) pins s fun points s' =>
    s' = s ∧ points.length = t.vertices.length := by
  unfold StoreM.tilePoints
  induction t.vertices with
  | nil => exact ret ⟨rfl, rfl⟩
  | cons v vs ih =>
    rw [List.mapM_cons]
    refine bind (Q := fun _ s' => s' = s) (bind fetch fun x _ h => ret h.1) fun p s₁ h₁ => ?_
    subst h₁
    exact bind ih fun ps s₂ h₂ => ret ⟨h₂.1, congrArg (· + 1) h₂.2⟩

/-- Every tile is copied, the patch is due to get the copy, and its vertices are located. -/
theorem Yields.placeTiles {patch : NodeId} {due tiles : List NodeId} {table : Locations}
    (hs : s.Settled (Due patch due) s.next) (hA : s.Encloses A) (hfree : ∀ id ∈ due, ¬ A id)
    (htiles : ∀ id ∈ tiles, A id) :
    Yields (StoreM.placeTiles patch table tiles) pins s fun r s' =>
      s'.Settled (Due patch (r.1.map Prod.fst ++ due)) s'.next ∧ Grows pins s s' ∧ table.length ≤ r.2.length ∧
        ∀ p ∈ r.1, s'.Locates patch r.2.length p.1 p.2 := by
  induction tiles generalizing s pins due table with
  | nil => exact ret ⟨hs, .refl pins s, Nat.le_refl _, nofun⟩
  | cons tile tiles ih =>
    have hA' : ∀ p i, A i → ¬ Due patch due p i := fun p i hi hdue => hfree i hdue.2 hi
    refine bind (copyObject hs hA hA' (htiles tile (by simp))) fun copy s₁ h₁ => keeping ?_
    obtain ⟨hs₁, hgrows₁, hge, hlt⟩ := h₁
    refine bind update fun _ s₂ h₂ => ?_
    obtain ⟨hsettled₂, t, hchanges⟩ := h₂
    have hs₂ : s₂.Settled (Due patch (copy :: due)) s₂.next :=
      hs₁.adopt (hsettled₂ _ 0 hs₁.zero (.inl (Nat.zero_le _))) hchanges
    -- The copy is new, so what there was is left alone when it gets its patch.
    have hgrows₂ : Grows pins s s₂ := hchanges.grows hgrows₁ hge
    obtain ⟨e, he, ht⟩ := hchanges.after
    refine bind fetch fun t' s₃ h₃ => ?_
    obtain ⟨rfl, e', he', ht'⟩ := h₃
    obtain rfl : e = e' := Option.some.inj (he.symm.trans he')
    obtain rfl : { t with parent := some patch } = t' := Object.tile.inj (ht.symm.trans ht')
    refine bind tilePoints fun points s₄ h₄ => ?_
    obtain ⟨rfl, hlen⟩ := h₄
    have hspec := table.internAll_spec points
    have hfree₂ : ∀ id ∈ copy :: due, ¬ A id := by
      intro id hid
      rcases List.mem_cons.1 hid with rfl | hid
      · exact fun hcopy => absurd (hA.below _ hcopy) (Nat.not_lt_of_le hge)
      · exact hfree id hid
    have htiles₂ : ∀ id ∈ tiles, A id := fun id hid => htiles id (by simp [hid])
    refine bind (ih hs₂ (hA.grows hgrows₂) hfree₂ htiles₂) fun r s₅ h₅ => ret ?_
    obtain ⟨hs₅, hgrows₅, hle, hlocates⟩ := h₅
    refine ⟨hs₅.mono fun p i hdue => ⟨hdue.1, ?_⟩, hgrows₂.trans hgrows₅.of_also, hspec.2.1.trans hle, fun p hp => ?_⟩
    · have hi := hdue.2
      simp only [List.map_cons, List.cons_append, List.mem_append, List.mem_cons] at hi ⊢
      tauto
    rcases List.mem_cons.1 hp with rfl | hp
    · have hkept := hgrows₅.kept copy (by simp) (Nat.lt_of_lt_of_eq hlt hchanges.next.symm)
      refine ⟨e, _, hkept.trans he, ht, rfl, hspec.1.trans hlen, fun l hl => ?_⟩
      exact Nat.lt_of_lt_of_le (hspec.2.2 l hl) hle
    · exact hlocates p hp

/-- A new patch of tiles of the region. It is the parent of its tiles. -/
theorem Yields.makePatch {tiles : List NodeId} (hs : s.Orderly) (hA : s.Encloses A) (htiles : ∀ id ∈ tiles, A id) :
    Yields (StoreM.makePatch tiles) pins s fun id s' => s'.Orderly ∧ s'.Adopts id := by
  refine bind allocate fun id s₁ h₁ => keeping ?_
  obtain ⟨rfl, hnext₁, hgrows₁, ⟨e, he, hblank⟩, -, hsettled₁⟩ := h₁
  have hs₁ : s₁.Settled (Due s.next []) s₁.next :=
    (hsettled₁ _ hs Object.loose_patch).mono fun _ _ hdue => hdue.elim
  refine bind (placeTiles hs₁ (hA.grows hgrows₁) (by simp) htiles) fun r s₂ h₂ => bind update fun _ s₃ h₃ => ret ?_
  obtain ⟨hs₂, hgrows₂, -, hlocates⟩ := h₂
  obtain ⟨hsettled, p, hchanges⟩ := h₃
  rw [List.append_nil] at hs₂
  -- The patch is still blank.
  have hkept := hgrows₂.kept s.next (by simp) (by omega)
  obtain ⟨e', he', hp⟩ := hchanges.before
  obtain rfl : e = e' := Option.some.inj (he.symm.trans (hkept.symm.trans he'))
  obtain rfl : p = {} := Object.patch.inj (hp.symm.trans hblank)
  have hlocates : ∀ q ∈ r.1, s₂.Locates s.next (r.2.map Prod.snd).length q.1 q.2 := by
    rw [List.length_map]
    exact hlocates
  exact ⟨hs₂.place (hsettled _ 0 hs₂.zero (.inl (Nat.zero_le _))) hchanges rfl rfl hlocates,
    Settled.adopts hchanges rfl hlocates⟩

end StoreM

end Mosaic
