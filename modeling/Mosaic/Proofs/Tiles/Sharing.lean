import Mosaic.Proofs.Plane.Grid
import Mosaic.Proofs.Tiles.Patchwork

/-!
# Which vertices share a location

Two vertices of a new patch share a location just if they are on the same grid lines. So how far apart vertices of one
location can be is how far apart coordinates of one line can be (`StoreM.makePatch_aligns`), and near vertices share a
location unless a border between two cells runs between them (`StoreM.makePatch_splits`).
-/

namespace Mosaic

open Mosaic.Graph (NodeId Pool Entry Entries)

open Plane (snap locationKey spacing Aligned)

namespace Plane

/-- A border between two cells runs between the coordinates, but for the rounding of quotients below `2 ^ n`. -/
def Parted (n : ℕ) (v w : ℚ) : Prop :=
  ∃ l : ℤ, min v w / spacing - 2 ^ (n - 53 : ℤ) ≤ l + 1 / 2 ∧ (l + 1 / 2 : ℚ) ≤ max v w / spacing + 2 ^ (n - 53 : ℤ)

theorem Parted.symm {n : ℕ} {v w : ℚ} (h : Parted n v w) : Parted n w v := by
  unfold Parted
  rwa [min_comm, max_comm]

variable {n : ℕ} {v w : Double}

theorem parted_of_snap_ne (hn : n ≤ 51) (hv : v.isFinite = true) (hw : w.isFinite = true)
    (hvn : |v.value| ≤ 2 ^ n * spacing) (hwn : |w.value| ≤ 2 ^ n * spacing) (hne : snap v ≠ snap w) :
    Parted n v.value w.value := by
  wlog hlt : snap v < snap w generalizing v w
  · exact (this hw hv hwn hvn hne.symm (by omega)).symm
  have hstep : (snap v + 1 : ℚ) ≤ snap w := by exact_mod_cast hlt
  have hε := spacing_pos
  have hvs := abs_le.mp (snap_near hn hv hvn)
  have hws := abs_le.mp (snap_near hn hw hwn)
  have hmin : min v.value w.value / spacing ≤ v.value / spacing :=
    div_le_div_of_nonneg_right (min_le_left _ _) hε.le
  have hmax : w.value / spacing ≤ max v.value w.value / spacing :=
    div_le_div_of_nonneg_right (le_max_right _ _) hε.le
  exact ⟨snap v, by linarith, by linarith⟩

/-- Coordinates that are nearer than a spacing, by more than the rounding of their quotients, are on one line or on
two next to each other. -/
theorem abs_snap_sub_le (hn : n ≤ 51) (hv : v.isFinite = true) (hw : w.isFinite = true)
    (hvn : |v.value| ≤ 2 ^ n * spacing) (hwn : |w.value| ≤ 2 ^ n * spacing)
    (hnear : |v.value - w.value| < (1 - 2 ^ (n - 52 : ℤ)) * spacing) : |snap v - snap w| ≤ 1 := by
  have hε := spacing_pos
  have hvs := abs_le.mp (snap_near hn hv hvn)
  have hws := abs_le.mp (snap_near hn hw hwn)
  have hslack : (2 : ℚ) ^ (n - 52 : ℤ) = 2 * 2 ^ (n - 53 : ℤ) := by
    rw [show (n - 52 : ℤ) = n - 53 + 1 by ring, zpow_add_one₀ two_ne_zero, mul_comm]
  have hquotient : |v.value / spacing - w.value / spacing| < 1 - 2 ^ (n - 52 : ℤ) := by
    rwa [← sub_div, abs_div, abs_of_pos hε, div_lt_iff₀ hε]
  obtain ⟨hlow, hhigh⟩ := abs_lt.mp hquotient
  have hlt : |(snap v - snap w : ℚ)| < 2 := abs_lt.mpr ⟨by linarith, by linarith⟩
  have : |snap v - snap w| < 2 := by exact_mod_cast hlt
  omega

end Plane

/-! ## Vertices of a patch -/

/-- The vertex `j` of the tile `k` of the patch is at the point, and its location has the index `i`. -/
def Fragment.PatchCorner (g : Fragment) (p : Patch) (k j : Nat) (q : Point) (i : Nat) : Prop :=
  ∃ tile points indexes, p.tiles[k]? = some tile ∧ g.Points tile points ∧ points[j]? = some q ∧
    p.tileLocations[k]? = some indexes ∧ indexes[j]? = some i

/-- Each vertex of the tiles in the one graph is one of the patch in the other. -/
def Fragment.Brings (g g' : Fragment) (tiles : List NodeId) (p : Patch) : Prop :=
  ∀ k j tile points q, tiles[k]? = some tile → g.Points tile points → points[j]? = some q →
    ∃ i, g'.PatchCorner p k j q i

theorem Fragment.Points.unique {g : Fragment} {tile : NodeId} {points points' : List Point}
    (h : g.Points tile points) (h' : g.Points tile points') : points = points' := by
  obtain ⟨t, ht, hpoints⟩ := h
  obtain ⟨t', ht', hpoints'⟩ := h'
  obtain rfl : t = t' := Object.tile.inj (Option.some.inj (ht.symm.trans ht'))
  refine List.forall₂_eq_eq_eq ▸ forall₂_comp hpoints.flip hpoints' fun p v p' ⟨x, hx, hp⟩ ⟨x', hx', hp'⟩ => ?_
  rw [← hp, ← hp', Object.vertex.inj (Option.some.inj (hx.symm.trans hx'))]

namespace Patchwork

variable {roots tiles : List NodeId} {s s' : Store} {id : NodeId} {p : Patch} {points : List (List Point)}
  {k k' j j' i i' : Nat} {q q' : Point}

/-- The location of a vertex has the key of the point where it is. -/
theorem indexes_corner (h : Patchwork roots s tiles s' id p points)
    (hc : (Fragment.of s'.pool).PatchCorner p k j q i) : Indexes p.locations i q := by
  obtain ⟨tile, ps, is, htile, hps, hq, his, hi⟩ := hc
  obtain ⟨ps', hps', hpoints⟩ := exists_getElem?_of_forall₂ h.after.flip htile
  obtain ⟨ps'', hps'', hindexes⟩ := exists_getElem?_of_forall₂ h.indexes.flip his
  obtain rfl := Option.some.inj (hps'.symm.trans hps'')
  obtain rfl := hps.unique hpoints
  obtain ⟨q', hq', hindex⟩ := exists_getElem?_of_forall₂ hindexes.flip hi
  rwa [Option.some.inj (hq.symm.trans hq')]

theorem index_eq_iff (h : Patchwork roots s tiles s' id p points)
    (hc : (Fragment.of s'.pool).PatchCorner p k j q i) (hc' : (Fragment.of s'.pool).PatchCorner p k' j' q' i') :
    i = i' ↔ locationKey q = locationKey q' :=
  h.locations.index_eq_iff (h.indexes_corner hc) (h.indexes_corner hc')

theorem brings (h : Patchwork roots s tiles s' id p points) :
    (Fragment.of s.pool).Brings (Fragment.of s'.pool) tiles p := by
  intro k j tile ps q htile hps hq
  obtain ⟨ps', hps', hbefore⟩ := exists_getElem?_of_forall₂ h.before.flip htile
  obtain rfl := hps.unique hbefore
  obtain ⟨copy, hcopy, hafter⟩ := exists_getElem?_of_forall₂ h.after hps'
  obtain ⟨is, his, hindexes⟩ := exists_getElem?_of_forall₂ h.indexes hps'
  obtain ⟨i, hi, _⟩ := exists_getElem?_of_forall₂ hindexes hq
  exact ⟨i, copy, ps, is, hcopy, hafter, hq, his, hi⟩

end Patchwork

namespace StoreM

variable {pins : Pins} {s : Store} {tiles : List NodeId}

theorem splayed_tiles : ∀ tile ∈ [1], (Fragment.of splayed.pool).Rooted [1] (.object .tile tile) := by
  simpa using splayed_rooted

theorem makePatch_splayed {id : NodeId} {s' : Store} (hrun : makePatch [1] (.of fun _ => []) splayed = .ok id s') :
    ∃ p points, Patchwork [1] splayed [1] s' id p points ∧ ∃ i j k l,
      (Fragment.of s'.pool).PatchCorner p 0 0 splayed.left i ∧
      (Fragment.of s'.pool).PatchCorner p 0 1 splayed.right j ∧
      (Fragment.of s'.pool).PatchCorner p 0 2 splayed.far k ∧
      (Fragment.of s'.pool).PatchCorner p 0 3 splayed.farther l := by
  obtain ⟨id', s'', p, points, hrun', hpatch⟩ :=
    makePatch_lays splayed_intact (splayed_roots ▸ splayed_live) (splayed_roots ▸ splayed_tiles)
  cases hrun.symm.trans hrun'
  have hpatch := splayed_roots ▸ hpatch
  obtain ⟨i, hi⟩ := hpatch.brings 0 0 1 _ _ rfl splayed_points rfl
  obtain ⟨j, hj⟩ := hpatch.brings 0 1 1 _ _ rfl splayed_points rfl
  obtain ⟨k, hk⟩ := hpatch.brings 0 2 1 _ _ rfl splayed_points rfl
  obtain ⟨l, hl⟩ := hpatch.brings 0 3 1 _ _ rfl splayed_points rfl
  exact ⟨p, points, hpatch, i, j, k, l, hi, hj, hk, hl⟩

theorem locationKey_far : locationKey splayed.far = locationKey splayed.farther := by decide

theorem abs_far_sub_farther : spacing < |splayed.far.x.value - splayed.farther.x.value| ∧
    spacing < |splayed.far.y.value - splayed.farther.y.value| := by
  have hx : splayed.far.x.decode = .finite false 5120000000000000 (-9) := by decide
  have hx' : splayed.farther.x.decode = .finite false 5120000000000000 (-8) := by decide
  have hy : splayed.far.y.decode = .finite false 5242880000000015 (-19) := by decide
  have hy' : splayed.farther.y.decode = .finite false 5242880000000016 (-19) := by decide
  rw [Plane.spacing_eq, Double.value_of_decode hx, Double.value_of_decode hx', Double.value_of_decode hy,
    Double.value_of_decode hy']
  norm_num [abs_of_neg]

/-- All vertices have locations. Those of one location are near on both axes, or so far out that the quotients of their
coordinates are rounded to whole multiples of a spacing or kept within 64 bits. -/
theorem makePatch_aligns (hs : Intact s.pool)
    (hroots : ∀ i ∈ (s.pool.roots pins.get).toList, (Fragment.of s.pool i).isSome = true)
    (htiles : ∀ tile ∈ tiles,
      (Fragment.of s.pool).Rooted (s.pool.roots pins.get).toList (.object .tile tile)) :
    ∃ id s' p, makePatch tiles pins s = .ok id s' ∧ Fragment.of s'.pool id = some (.patch p) ∧
      (Fragment.of s.pool).Brings (Fragment.of s'.pool) tiles p ∧
      ∀ k j k' j' q q' i, (Fragment.of s'.pool).PatchCorner p k j q i → (Fragment.of s'.pool).PatchCorner p k' j' q' i →
        q.isFinite = true → q'.isFinite = true →
          Aligned q.x.value q'.x.value ∧ Aligned q.y.value q'.y.value := by
  obtain ⟨id, s', p, points, hrun, hpatch⟩ := makePatch_lays hs hroots htiles
  refine ⟨id, s', p, hrun, hpatch.patch, hpatch.brings, fun k j k' j' q q' i hc hc' hq hq' => ?_⟩
  have hkey := (hpatch.index_eq_iff hc hc').1 rfl
  obtain ⟨hx, hy⟩ := Prod.mk.inj hkey
  rw [Point.isFinite, Bool.and_eq_true] at hq hq'
  exact ⟨Plane.aligned_of_snap_eq hq.1 hq'.1 hx, Plane.aligned_of_snap_eq hq.2 hq'.2 hy⟩

/-- Two vertices that are far apart share a location, and it is the bounds that they are beyond. -/
theorem makePatch_aligns_splayed :
    Intact splayed.pool ∧ (∀ i ∈ [1], (Fragment.of splayed.pool i).isSome = true) ∧
      (∀ tile ∈ [1], (Fragment.of splayed.pool).Rooted [1] (.object .tile tile)) ∧
      ∃ id s' p i, makePatch [1] (.of fun _ => []) splayed = .ok id s' ∧
        (Fragment.of s'.pool).PatchCorner p 0 2 splayed.far i ∧
        (Fragment.of s'.pool).PatchCorner p 0 3 splayed.farther i ∧
        Aligned splayed.far.x.value splayed.farther.x.value ∧ Aligned splayed.far.y.value splayed.farther.y.value := by
  obtain ⟨id, s', p, hrun, hp, -, hall⟩ := makePatch_aligns splayed_intact (splayed_roots ▸ splayed_live)
    (splayed_roots ▸ splayed_tiles)
  obtain ⟨p', points, hpatch, _, _, i, l, _, _, hi, hl⟩ := makePatch_splayed hrun
  obtain rfl : p = p' := Object.patch.inj (Option.some.inj (hp.symm.trans hpatch.patch))
  obtain rfl := (hpatch.index_eq_iff hi hl).2 locationKey_far
  exact ⟨splayed_intact, splayed_live, splayed_tiles, id, s', p, i, hrun, hi, hl,
    hall 0 2 0 3 _ _ i hi hl (by decide) (by decide)⟩

/-- Vertices of one location are not always near. -/
theorem not_near_of_shared :
    ¬ ∀ (pins : Pins) (s : Store) (tiles : List NodeId), Intact s.pool →
      (∀ i ∈ (s.pool.roots pins.get).toList, (Fragment.of s.pool i).isSome = true) →
      (∀ tile ∈ tiles, (Fragment.of s.pool).Rooted (s.pool.roots pins.get).toList (.object .tile tile)) →
      ∀ id s' p, makePatch tiles pins s = .ok id s' → Fragment.of s'.pool id = some (.patch p) →
        ∀ k j k' j' q q' i, (Fragment.of s'.pool).PatchCorner p k j q i →
          (Fragment.of s'.pool).PatchCorner p k' j' q' i → q.isFinite = true → q'.isFinite = true →
            |q.x.value - q'.x.value| ≤ spacing ∧ |q.y.value - q'.y.value| ≤ spacing := by
  intro hall
  obtain ⟨id, s', _, _, hrun, _⟩ :=
    makePatch_lays splayed_intact (splayed_roots ▸ splayed_live) (splayed_roots ▸ splayed_tiles)
  obtain ⟨p, points, hpatch, _, _, i, l, _, _, hi, hl⟩ := makePatch_splayed hrun
  obtain rfl := (hpatch.index_eq_iff hi hl).2 locationKey_far
  have hnear := hall (.of fun _ => []) splayed [1] splayed_intact (splayed_roots ▸ splayed_live)
    (splayed_roots ▸ splayed_tiles) id s' p hrun hpatch.patch 0 2 0 3 _ _ i hi hl (by decide) (by decide)
  exact absurd hnear.1 (not_le.mpr abs_far_sub_farther.1)

/-- All vertices have locations, and share one just if they are on the same grid lines. So vertices whose coordinates
are not parted by a border between two cells do. If they are near and do not, then their lines are next to each
other. -/
theorem makePatch_splits (hs : Intact s.pool)
    (hroots : ∀ i ∈ (s.pool.roots pins.get).toList, (Fragment.of s.pool i).isSome = true)
    (htiles : ∀ tile ∈ tiles,
      (Fragment.of s.pool).Rooted (s.pool.roots pins.get).toList (.object .tile tile)) :
    ∃ id s' p, makePatch tiles pins s = .ok id s' ∧ Fragment.of s'.pool id = some (.patch p) ∧
      (Fragment.of s.pool).Brings (Fragment.of s'.pool) tiles p ∧
      ∀ k j k' j' q q' i i', (Fragment.of s'.pool).PatchCorner p k j q i →
        (Fragment.of s'.pool).PatchCorner p k' j' q' i' → (i = i' ↔ locationKey q = locationKey q') ∧
        ∀ n : ℕ, n ≤ 51 → q.isFinite = true → q'.isFinite = true →
          (∀ v ∈ [q.x, q.y, q'.x, q'.y], |v.value| ≤ 2 ^ n * spacing) →
          (i = i' ∨ Plane.Parted n q.x.value q'.x.value ∨ Plane.Parted n q.y.value q'.y.value) ∧
          (|q.x.value - q'.x.value| < (1 - 2 ^ (n - 52 : ℤ)) * spacing →
            |q.y.value - q'.y.value| < (1 - 2 ^ (n - 52 : ℤ)) * spacing →
            |snap q.x - snap q'.x| ≤ 1 ∧ |snap q.y - snap q'.y| ≤ 1) := by
  obtain ⟨id, s', p, points, hrun, hpatch⟩ := makePatch_lays hs hroots htiles
  refine ⟨id, s', p, hrun, hpatch.patch, hpatch.brings, fun k j k' j' q q' i i' hc hc' => ?_⟩
  have hiff := hpatch.index_eq_iff hc hc'
  refine ⟨hiff, fun n hn hq hq' hbound => ?_⟩
  rw [Point.isFinite, Bool.and_eq_true] at hq hq'
  simp only [List.forall_mem_cons, List.not_mem_nil, false_imp_iff, implies_true, and_true] at hbound
  obtain ⟨hqx, hqy, hqx', hqy'⟩ := hbound
  refine ⟨?_, fun hx hy => ⟨Plane.abs_snap_sub_le hn hq.1 hq'.1 hqx hqx' hx,
    Plane.abs_snap_sub_le hn hq.2 hq'.2 hqy hqy' hy⟩⟩
  by_cases hx : snap q.x = snap q'.x
  · by_cases hy : snap q.y = snap q'.y
    · exact .inl (hiff.2 (Prod.ext hx hy))
    · exact .inr (.inr (Plane.parted_of_snap_ne hn hq.2 hq'.2 hqy hqy' hy))
  · exact .inr (.inl (Plane.parted_of_snap_ne hn hq.1 hq'.1 hqx hqx' hx))

theorem locationKey_left : locationKey splayed.left ≠ locationKey splayed.right := by decide

theorem splayed_near : (∀ v ∈ [splayed.left.x, splayed.left.y, splayed.right.x, splayed.right.y],
      |v.value| ≤ 2 ^ 0 * spacing) ∧
    |splayed.left.x.value - splayed.right.x.value| < (1 - 2 ^ (0 - 52 : ℤ)) * spacing ∧
    |splayed.left.y.value - splayed.right.y.value| < (1 - 2 ^ (0 - 52 : ℤ)) * spacing := by
  have hx : splayed.left.x.decode = .finite false 7555786372591432 (-74) := by decide
  have hx' : splayed.right.x.decode = .finite false 5666839779443574 (-73) := by decide
  have hy : splayed.left.y.decode = .finite false 0 (-1074) := by decide
  have hy' : splayed.right.y.decode = .finite false 0 (-1074) := by decide
  simp only [List.forall_mem_cons, List.not_mem_nil, false_imp_iff, implies_true, and_true]
  rw [Plane.spacing_eq, Double.value_of_decode hx, Double.value_of_decode hx', Double.value_of_decode hy,
    Double.value_of_decode hy']
  norm_num [abs_of_neg]

/-- Two vertices that are near do not share a location, and a border is between them. -/
theorem makePatch_splits_splayed :
    Intact splayed.pool ∧ (∀ i ∈ [1], (Fragment.of splayed.pool i).isSome = true) ∧
      (∀ tile ∈ [1], (Fragment.of splayed.pool).Rooted [1] (.object .tile tile)) ∧
      ∃ id s' p i j, makePatch [1] (.of fun _ => []) splayed = .ok id s' ∧
        (Fragment.of s'.pool).PatchCorner p 0 0 splayed.left i ∧
        (Fragment.of s'.pool).PatchCorner p 0 1 splayed.right j ∧ i ≠ j ∧
        (Plane.Parted 0 splayed.left.x.value splayed.right.x.value ∨
          Plane.Parted 0 splayed.left.y.value splayed.right.y.value) ∧
        |snap splayed.left.x - snap splayed.right.x| ≤ 1 ∧ |snap splayed.left.y - snap splayed.right.y| ≤ 1 := by
  obtain ⟨id, s', p, hrun, hp, -, hall⟩ := makePatch_splits splayed_intact (splayed_roots ▸ splayed_live)
    (splayed_roots ▸ splayed_tiles)
  obtain ⟨p', points, hpatch, i, j, _, _, hi, hj, _⟩ := makePatch_splayed hrun
  obtain rfl : p = p' := Object.patch.inj (Option.some.inj (hp.symm.trans hpatch.patch))
  obtain ⟨hiff, hbound⟩ := hall 0 0 0 1 _ _ i j hi hj
  have hne : i ≠ j := fun heq => locationKey_left (hiff.1 heq)
  obtain ⟨hmagnitude, hx, hy⟩ := splayed_near
  obtain ⟨hparted, hnext⟩ := hbound 0 (Nat.zero_le _) (by decide) (by decide) hmagnitude
  exact ⟨splayed_intact, splayed_live, splayed_tiles, id, s', p, i, j, hrun, hi, hj, hne,
    hparted.resolve_left hne, hnext hx hy⟩

end StoreM

end Mosaic
