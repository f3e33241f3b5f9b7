import Mosaic.Proofs.Tiles.Replicas

/-!
# A patch locates its tiles

Whatever the heap and whenever it is collected, making a patch of tiles succeeds, and what comes of it is a
`Patchwork`: a patch of new copies of the tiles, whose vertices are where they were, with a table that has each
distinct location once, in the order in which they come, and the index of its location for each vertex. All else
stays as it is (`StoreM.makePatch_locates_copies`).
-/

namespace Mosaic

open Mosaic.Graph (NodeId Pool Entry Entries)

/-- What comes of making a patch of the tiles in the store `s`: the patch `p`, at the address `id` of the store `s'`.
The vertices of the tiles are at the points. -/
structure Patchwork (roots : List NodeId) (s : Store) (tiles : List NodeId) (s' : Store) (id : NodeId) (p : Patch)
    (points : List (List Point)) : Prop where
  patch : Fragment.of s'.pool id = some (.patch p)
  fresh : s.pool.next ≤ id
  copies : Replicas s.pool.next roots id (Fragment.of s.pool) (Fragment.of s'.pool) tiles p.tiles
  /-- So are the copies of a tile that is given more than once. -/
  distinct : p.tiles.Nodup
  before : List.Forall₂ (Fragment.of s.pool).Points tiles points
  after : List.Forall₂ (Fragment.of s'.pool).Points p.tiles points
  locations : Places p.locations points.flatten
  indexes : List.Forall₂ (List.Forall₂ (Indexes p.locations)) p.tileLocations points
  unchanged : (Fragment.of s.pool).Keeps roots (Fragment.of s'.pool)

theorem forall₂_of_flatten {α β : Type} {R : α → β → Prop} {xs : List (List α)} {ys : List (List β)}
    (hlengths : List.Forall₂ (fun x y => x.length = y.length) xs ys) (h : List.Forall₂ R xs.flatten ys.flatten) :
    List.Forall₂ (List.Forall₂ R) xs ys := by
  induction hlengths with
  | nil => exact .nil
  | @cons x y xs ys hlength _ ih =>
    rw [List.flatten_cons, List.flatten_cons] at h
    have htake := List.forall₂_take x.length h
    have hdrop := List.forall₂_drop x.length h
    rw [List.take_left, hlength, List.take_left] at htake
    rw [List.drop_left, hlength, List.drop_left] at hdrop
    exact .cons htake (ih hdrop)

namespace StoreM

variable {E : Setting} {P : List NodeId} {g : Fragment} {tiles : List NodeId} {pins : Pins} {s : Store}

theorem Steady.makeReplicas (htiles : ∀ tile ∈ tiles, g.Reach P tile ∧ g.At .tile tile) :
    Steady E P [] g (StoreM.makePatch tiles) fun g' id => ∃ p points, E.start ≤ id ∧ g' id = some (.patch p) ∧
      Replicas E.start P id g g' tiles p.tiles ∧ List.Forall₂ g.Points tiles points ∧
      List.Forall₂ g'.Points p.tiles points ∧ Places p.locations points.flatten ∧
      List.Forall₂ (List.Forall₂ (Indexes p.locations)) p.tileLocations points := by
  refine Agree.bind (Agree.allocate (by simp [Object.links]) (by rintro _ ⟨⟩)) fun g₁ id _ hid => ?_
  obtain ⟨hkeeps, hid, -, hapart, hnew⟩ := hid
  rw [List.append_nil] at hkeeps hapart
  have hpatch : g₁.Reach (P ++ [id]) id ∧ g₁.At .patch id := ⟨.root (by simp), _, hid, rfl⟩
  have htiles₁ : ∀ tile ∈ tiles, g₁.Reach (P ++ [id]) tile ∧ g₁.At .tile tile := fun tile htile =>
    ⟨(hkeeps.reach (htiles tile htile).1).mono (List.subset_append_left ..),
      hkeeps.has (htiles tile htile).1 (htiles tile htile).2⟩
  refine Agree.keeping (by simp [hid]) (Agree.bind (Agree.protect (placeReplicas hpatch htiles₁))
    fun g₂ r _ hplaced => ?_)
  obtain ⟨hkeeps₂, hreplicas, points, hbefore, hafter, hlengths, hinterned⟩ := hplaced
  have hkeepsP : g₁.Keeps P g₂ := hkeeps₂.mono (List.subset_append_left ..)
  have hid₂ : g₂ id = some (.patch {}) := (hkeeps₂ id hpatch.1).trans hid
  refine Agree.bind (Agree.update (k := Object.patches) hid₂ (fun hr => hapart (hkeepsP.reach_iff.1 hr)) ?_
    (by rintro _ ⟨⟩)) fun g₃ _ hlead₃ hg₃ => Agree.ret ?_
  · intro l hl
    simp only [Object.patches, Object.links, Fields.links_empty, List.append_nil, List.mem_map] at hl
    obtain ⟨copy, ⟨q, hq, rfl⟩, rfl⟩ := hl
    obtain ⟨t, ht, _⟩ := hreplicas.parent (List.mem_map_of_mem hq)
    exact ⟨_, ht, rfl⟩
  -- The patch is no part of a copy.
  have hsame : ∀ copy ∈ r.1.map Prod.fst, ∀ i, (g₂.orphan copy).Reach [copy] i → g₃ i = g₂ i := by
    intro copy hcopy i hi
    rw [hg₃, Function.update_of_ne]
    rintro rfl
    exact hreplicas.apart hcopy hi (hkeeps₂.reach hpatch.1)
  obtain ⟨hlists, hindexes, -⟩ := Locations.Lists.nil.internAll points.flatten
  rw [hinterned] at hlists hindexes
  refine ⟨_, points, hnew, by rw [hg₃, Function.update_self]; rfl, ?_, ?_, ?_, hlists.places,
    forall₂_of_flatten hlengths hindexes⟩
  · have hheld := hreplicas.of_keeps hkeeps (fun tile htile => (htiles tile htile).1) (List.subset_append_left ..)
    exact hheld.congr hsame hlead₃.keeps
  · exact forall₂_restrict hbefore fun tile htile _ hp => hp.of_keeps hkeeps.symm (hkeeps.reach (htiles tile htile).1)
  · exact forall₂_restrict hafter fun copy hcopy _ hp => hp.congr (hsame copy hcopy)

/-! Only the graph can keep a patch from being made. -/

theorem Yields.placeTiles_graph {patch : NodeId} {table : Locations} :
    Yields (StoreM.placeTiles patch table tiles) pins s fun _ _ => True := by
  induction tiles generalizing pins s table with
  | nil => exact ret trivial
  | cons tile tiles ih =>
    refine bind (copyObject_graph ..) fun copy s₁ _ => keeping (bind update fun _ s₂ _ => bind fetch fun t s₃ _ => ?_)
    exact bind tilePoints fun points s₄ _ => bind ih fun r s₅ _ => ret trivial

theorem Yields.makePatch_graph : Yields (StoreM.makePatch tiles) pins s fun _ _ => True :=
  bind allocate fun _ _ _ => keeping (bind placeTiles_graph fun _ _ _ => bind update fun _ _ _ => ret trivial)

/-- An action that agrees with itself and that only the graph can stop comes to a result. -/
theorem Steady.succeeds {α : Type} {x : StoreM α} {Q : Fragment → α → Prop} (hs : Intact s.pool)
    (hroots : ∀ i ∈ (s.pool.roots pins.get).toList, (Fragment.of s.pool i).isSome = true)
    (hx : Steady { handles := s.pool.handles, start := s.pool.next } (s.pool.roots pins.get).toList []
      (Fragment.of s.pool) x Q) (hgraph : Yields x pins s fun _ _ => True) :
    ∃ a s' g', x pins s = .ok a s' ∧ g'.Closed ∧ (∀ i o, g' i = some o → Fragment.of s'.pool i = some o) ∧
      (Fragment.of s.pool).Keeps (s.pool.roots pins.get).toList g' ∧ Q g' a := by
  have hpins : Setting.Roots { handles := s.pool.handles, start := s.pool.next } pins
      ((s.pool.roots pins.get).toList ++ [] ++ []) := by
    intro id
    rw [List.append_nil, List.append_nil, Pool.mem_roots]
  have hagree := hx pins pins s s ⟨hpins, hpins⟩ (by simpa using hroots)
    (Twin.of_intact hs rfl (Nat.le_refl _) (fun _ _ _ _ _ => trivial) nofun nofun)
  unfold Yields at hgraph
  cases hr : x pins s with
  | error failure s' =>
    rw [hr] at hagree hgraph
    cases hagree.2.1.symm.trans hgraph
  | ok a s' =>
    rw [hr] at hagree
    obtain ⟨-, g', ht, hlead, hq⟩ := hagree
    refine ⟨a, s', g', rfl, ht.closed, fun i o ho => ?_, hlead.keeps, hq⟩
    obtain ⟨e, he, hn, _⟩ := ht.left.entry i o ho
    exact Fragment.of_eq_some.2 ⟨e, he, hn⟩

/-- Making a patch of tiles succeeds, whenever collections come between. -/
theorem makePatch_lays (hs : Intact s.pool)
    (hroots : ∀ i ∈ (s.pool.roots pins.get).toList, (Fragment.of s.pool i).isSome = true)
    (htiles : ∀ tile ∈ tiles,
      (Fragment.of s.pool).Rooted (s.pool.roots pins.get).toList (.object .tile tile)) :
    ∃ id s' p points, makePatch tiles pins s = .ok id s' ∧
      Patchwork (s.pool.roots pins.get).toList s tiles s' id p points := by
  have hrooted := fun tile htile => Fragment.rooted_object.1 (htiles tile htile)
  obtain ⟨id, s', g', hrun, hclosed, hsub, hkeeps, p, points, hnew, hp, hreplicas, hbefore, hafter, hplaces,
      hindexes⟩ := Steady.succeeds hs hroots (Steady.makeReplicas hrooted) Yields.makePatch_graph
  have hsame : ∀ i, (g' i).isSome = true → Fragment.of s'.pool i = g' i := by
    intro i hi
    obtain ⟨o, ho⟩ := Option.isSome_iff_exists.1 hi
    rw [hsub i o ho, ho]
  have hroots' : ∀ i ∈ (s.pool.roots pins.get).toList, (g' i).isSome = true := by
    intro i hi
    rw [hkeeps i (.root hi)]
    exact hroots i hi
  have hstore : g'.Keeps (s.pool.roots pins.get).toList (Fragment.of s'.pool) :=
    fun i hi => hsame i (hi.isSome hclosed hroots')
  have hcopies : ∀ copy ∈ p.tiles, ∀ i, (g'.orphan copy).Reach [copy] i → Fragment.of s'.pool i = g' i := by
    intro copy hcopy i hi
    obtain ⟨t, ht, _⟩ := hreplicas.parent hcopy
    exact hsame i (hi.of_orphan.isSome hclosed (by simp [ht]))
  exact ⟨id, s', p, points, hrun, hsub id _ hp, hnew, hreplicas.congr hcopies hstore, hreplicas.nodup, hbefore,
    forall₂_restrict hafter fun copy hcopy _ hpoints => hpoints.congr (hcopies copy hcopy), hplaces, hindexes,
    hkeeps.trans hstore⟩

/-- Making a patch of tiles succeeds, and whatever comes of it is a patch of new copies of them that lists the
distinct locations of their vertices. The pins are the handles that are held throughout; those that the body of
a stored lambda owns hold until the lambda is swept. -/
theorem makePatch_locates_copies (hs : Intact s.pool)
    (hroots : ∀ i ∈ (s.pool.roots pins.get).toList, (Fragment.of s.pool i).isSome = true)
    (htiles : ∀ tile ∈ tiles,
      (Fragment.of s.pool).Rooted (s.pool.roots pins.get).toList (.object .tile tile)) :
    (∃ id s', makePatch tiles pins s = .ok id s') ∧
      ∀ id s', makePatch tiles pins s = .ok id s' →
        ∃ p points, Patchwork (s.pool.roots pins.get).toList s tiles s' id p points := by
  obtain ⟨id, s', p, points, hrun, hpatch⟩ := makePatch_lays hs hroots htiles
  refine ⟨⟨id, s', hrun⟩, fun id' s'' hrun' => ?_⟩
  cases hrun.symm.trans hrun'
  exact ⟨p, points, hpatch⟩

/-- A tile whose first two vertices are near each other, and whose other two are not. A collection is due. -/
def splayed : Store where
  pool :=
    { entries := (((((({} : Entries Object).insert 1 (entry (.tile { vertices := [2, 3, 4, 5] }))).insert 2
        (corner 0 left)).insert 3 (corner 1 right)).insert 4 (corner 2 far)).insert 5 (corner 3 farther))
      handles := ({} : Std.ExtTreeMap NodeId Nat compare).insert 1 1
      next := 6 }
  sinceCollect := 1
  collectEvery := 0
where
  entry (o : Object) : Entry Object := ⟨o, Graph.Edges.addAll {} o.pointers⟩
  corner (index : Nat) (position : Point) : Entry Object := entry (.vertex { tile := some 1, position, index })
  -- 0.4 and 0.6 of a spacing
  left : Point := ⟨⟨0x3e9ad7f29abcaf48⟩, .zero⟩
  right : Point := ⟨⟨0x3ea421f5f40d8376⟩, .zero⟩
  -- `1e13` and `2e13`, and two doubles next to each other near `1e10`
  far : Point := ⟨⟨0x42a2309ce5400000⟩, ⟨0x4202a05f2000000f⟩⟩
  farther : Point := ⟨⟨0x42b2309ce5400000⟩, ⟨0x4202a05f20000010⟩⟩

theorem splayed_cases {id : NodeId} {e : Entry Object} (h : splayed.pool.entries[id]? = some e) :
    id = 1 ∧ e = splayed.entry (.tile { vertices := [2, 3, 4, 5] }) ∨
      id ∈ [2, 3, 4, 5] ∧ ∃ index position, e = splayed.corner index position := by
  rcases getElem?_insert_cases h with ⟨rfl, rfl⟩ | ⟨_, h⟩
  · exact .inr ⟨by simp, _, _, rfl⟩
  rcases getElem?_insert_cases h with ⟨rfl, rfl⟩ | ⟨_, h⟩
  · exact .inr ⟨by simp, _, _, rfl⟩
  rcases getElem?_insert_cases h with ⟨rfl, rfl⟩ | ⟨_, h⟩
  · exact .inr ⟨by simp, _, _, rfl⟩
  rcases getElem?_insert_cases h with ⟨rfl, rfl⟩ | ⟨_, h⟩
  · exact .inr ⟨by simp, _, _, rfl⟩
  rcases getElem?_insert_cases h with h | ⟨_, h⟩
  · exact .inl h
  · simp at h

theorem splayed_tile : Fragment.of splayed.pool 1 = some (.tile { vertices := [2, 3, 4, 5] }) :=
  Fragment.of_eq_some.2 ⟨splayed.entry (.tile { vertices := [2, 3, 4, 5] }), rfl, rfl⟩

theorem splayed_points :
    (Fragment.of splayed.pool).Points 1 [splayed.left, splayed.right, splayed.far, splayed.farther] := by
  have hcorner {id : NodeId} {index : Nat} {position : Point}
      (h : splayed.pool.entries[id]? = some (splayed.corner index position)) :
      ∃ vertex, Fragment.of splayed.pool id = some (.vertex vertex) ∧ vertex.position = position :=
    ⟨_, Fragment.of_eq_some.2 ⟨_, h, rfl⟩, rfl⟩
  exact ⟨_, splayed_tile, .cons (hcorner rfl) (.cons (hcorner rfl) (.cons (hcorner rfl) (.cons (hcorner rfl) .nil)))⟩

theorem splayed_intact : Intact splayed.pool := by
  refine ⟨fun id e he => ?_, fun id e he => ?_, fun id o ho l hl => ?_, nofun⟩
  · rcases splayed_cases he with ⟨rfl, _⟩ | ⟨hid, _⟩
    · decide
    · exact (by decide : ∀ i ∈ [2, 3, 4, 5], i < splayed.pool.next) id hid
  · rcases splayed_cases he with ⟨_, rfl⟩ | ⟨_, _, _, rfl⟩ <;> exact Graph.Edges.Counts.nil.addAll
  · obtain ⟨e, he, rfl⟩ := Fragment.of_eq_some.1 ho
    rcases splayed_cases he with ⟨_, rfl⟩ | ⟨_, index, position, rfl⟩
    · obtain ⟨t, ht, hpoints⟩ := splayed_points
      obtain rfl := Object.tile.inj (Option.some.inj (splayed_tile.symm.trans ht))
      obtain ⟨v, hv, rfl⟩ : ∃ v ∈ [2, 3, 4, 5], l = (ObjectType.vertex, v) := by
        simpa [splayed.entry, Object.links] using hl
      obtain ⟨_, _, vertex, hvertex, _⟩ := exists_of_forall₂ hpoints.flip hv
      exact ⟨_, hvertex, rfl⟩
    · obtain rfl : l = (.tile, 1) := by simpa [splayed.corner, splayed.entry, Object.links] using hl
      exact ⟨_, splayed_tile, rfl⟩

theorem splayed_roots : (splayed.pool.roots (Pins.of fun _ => []).get).toList = [1] := rfl

theorem splayed_live : ∀ i ∈ [1], (Fragment.of splayed.pool i).isSome = true := by
  rintro i (_ | ⟨_, ⟨⟩⟩)
  rfl

theorem splayed_rooted : (Fragment.of splayed.pool).Rooted [1] (.object .tile 1) :=
  Fragment.rooted_object.2 ⟨.root (by simp), _, splayed_tile, rfl⟩

/-- The tile is placed twice. -/
theorem makePatch_locates_copies_splayed :
    Intact splayed.pool ∧ (∀ i ∈ [1], (Fragment.of splayed.pool i).isSome = true) ∧
      (∀ tile ∈ [1, 1], (Fragment.of splayed.pool).Rooted [1] (.object .tile tile)) ∧
      ∃ id s' p points, makePatch [1, 1] (.of fun _ => []) splayed = .ok id s' ∧
        Patchwork [1] splayed [1, 1] s' id p points := by
  have htiles : ∀ tile ∈ [1, 1], (Fragment.of splayed.pool).Rooted [1] (.object .tile tile) := by
    simpa using splayed_rooted
  obtain ⟨⟨id, s', hrun⟩, hall⟩ := makePatch_locates_copies splayed_intact (splayed_roots ▸ splayed_live)
    (splayed_roots ▸ htiles)
  obtain ⟨p, points, hpatch⟩ := hall id s' hrun
  exact ⟨splayed_intact, splayed_live, htiles, id, s', p, points, hrun, splayed_roots ▸ hpatch⟩

end StoreM

end Mosaic
