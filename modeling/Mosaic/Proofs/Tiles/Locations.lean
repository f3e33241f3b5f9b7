import Mathlib.Data.List.Forall2
import Mathlib.Data.List.Nodup
import Mosaic.Store.Tiling

/-!
# Tables of locations

A table lists the distinct places of some points: of all points with one key the first, and these in the order in
which they come (`Locations.Lists`). Interning one more point keeps this up (`Locations.Lists.intern`), whether the
point is new or not, and the index it returns is that of the place with its key. The table only grows at the end, so
an index stays right while more points are interned (`Locations.Lists.internAll`).
-/

namespace Mosaic

open Plane (locationKey)

/-- Whether two points share a location. -/
def Point.meets (p q : Point) : Bool := locationKey p == locationKey q

namespace Point

variable {p q r : Point}

theorem meets_iff : p.meets q = true ↔ locationKey p = locationKey q := by
  rw [meets, beq_iff_eq]

theorem meets_congr (h : locationKey p = locationKey q) : r.meets p = r.meets q := by
  rw [meets, meets, h]

end Point

/-- The distinct places of the points, in the order of the first points that are there. -/
structure Places (places points : List Point) : Prop where
  /-- A place is the first point with its key. -/
  first : ∀ p ∈ places, points.find? (·.meets p) = some p
  order : places.Pairwise fun p q => points.findIdx (·.meets p) < points.findIdx (·.meets q)
  covers : ∀ q ∈ points, ∃ p ∈ places, locationKey p = locationKey q

/-- The place with the index has the key of the point. -/
def Indexes (places : List Point) (i : Nat) (q : Point) : Prop :=
  ∃ p, places[i]? = some p ∧ locationKey p = locationKey q

namespace Places

variable {places points : List Point} {p q : Point} {i j : Nat}

theorem nil : Places [] [] := ⟨nofun, .nil, nofun⟩

theorem keys_nodup (h : Places places points) : (places.map locationKey).Nodup := by
  refine List.pairwise_map.2 (h.order.imp fun {p q} hlt heq => ?_)
  simp only [Point.meets_congr heq] at hlt
  exact absurd hlt (Nat.lt_irrefl _)

theorem index_eq_iff (h : Places places points) (hp : Indexes places i p) (hq : Indexes places j q) :
    i = j ↔ locationKey p = locationKey q := by
  obtain ⟨a, ha, hap⟩ := hp
  obtain ⟨b, hb, hbq⟩ := hq
  constructor
  · rintro rfl
    rw [← hap, ← hbq, Option.some.inj (ha.symm.trans hb)]
  · intro heq
    have hlt : i < (places.map locationKey).length := by
      rw [List.length_map]
      exact (List.getElem?_eq_some_iff.1 ha).1
    refine (List.getElem?_inj hlt h.keys_nodup).1 ?_
    rw [List.getElem?_map, List.getElem?_map, ha, hb, Option.map_some, Option.map_some, hap, heq, hbq]

theorem findIdx_lt (h : Places places points) (hp : p ∈ places) : points.findIdx (·.meets p) < points.length := by
  rw [List.findIdx_lt_length]
  exact ⟨p, List.mem_of_find?_eq_some (h.first p hp), Point.meets_iff.2 rfl⟩

theorem findIdx_append (h : Places places points) (hp : p ∈ places) (more : List Point) :
    (points ++ more).findIdx (·.meets p) = points.findIdx (·.meets p) := by
  rw [List.findIdx_append, if_pos (h.findIdx_lt hp)]

theorem append_old (h : Places places points) (hp : p ∈ places) (heq : locationKey p = locationKey q) :
    Places places (points ++ [q]) where
  first p hp := by rw [List.find?_append, h.first p hp, Option.some_or]
  order := h.order.imp_of_mem fun hp hq hlt => by rwa [h.findIdx_append hp, h.findIdx_append hq]
  covers r hr := by
    rcases List.mem_append.1 hr with hr | hr
    · exact h.covers r hr
    · exact ⟨p, hp, List.mem_singleton.1 hr ▸ heq⟩

theorem append_new (h : Places places points) (hnew : ∀ p ∈ places, locationKey p ≠ locationKey q) :
    Places (places ++ [q]) (points ++ [q]) := by
  have hnone : ∀ r ∈ points, r.meets q = false := by
    intro r hr
    obtain ⟨p, hp, heq⟩ := h.covers r hr
    exact Bool.eq_false_iff.2 fun hmeets => hnew p hp (heq.trans (Point.meets_iff.1 hmeets))
  have hlast : (points ++ [q]).findIdx (·.meets q) = points.length := by
    have hlen : points.findIdx (·.meets q) = points.length := List.findIdx_eq_length_of_false hnone
    rw [List.findIdx_append, hlen, if_neg (Nat.lt_irrefl _), List.findIdx_singleton, Point.meets_iff.2 rfl]
    simp
  refine ⟨fun p hp => ?_, List.pairwise_append.2 ⟨?_, List.pairwise_singleton _ _, fun p hp r hr => ?_⟩, fun r hr => ?_⟩
  · rcases List.mem_append.1 hp with hp | hp
    · rw [List.find?_append, h.first p hp, Option.some_or]
    · obtain rfl := List.mem_singleton.1 hp
      have : points.find? (·.meets p) = none := List.find?_eq_none.2 fun r hr => by simp [hnone r hr]
      rw [List.find?_append, this, Option.none_or, List.find?_singleton, Point.meets_iff.2 rfl]
      rfl
  · exact h.order.imp_of_mem fun hp hq hlt => by rwa [h.findIdx_append hp, h.findIdx_append hq]
  · obtain rfl := List.mem_singleton.1 hr
    rw [h.findIdx_append hp, hlast]
    exact h.findIdx_lt hp
  · rcases List.mem_append.1 hr with hr | hr
    · obtain ⟨p, hp, heq⟩ := h.covers r hr
      exact ⟨p, List.mem_append_left _ hp, heq⟩
    · exact ⟨q, by simp, by rw [List.mem_singleton.1 hr]⟩

end Places

theorem Indexes.append {places more : List Point} {i : Nat} {q : Point} (h : Indexes places i q) :
    Indexes (places ++ more) i q := by
  obtain ⟨p, hp, hkey⟩ := h
  exact ⟨p, by rw [List.getElem?_append_left (List.getElem?_eq_some_iff.1 hp).1, hp], hkey⟩

namespace Locations

variable {table : Locations} {points : List Point}

theorem internAll_cons (table : Locations) (q : Point) (qs : List Point) :
    table.internAll (q :: qs) =
      ((table.intern q).1 :: ((table.intern q).2.internAll qs).1, ((table.intern q).2.internAll qs).2) := rfl

/-- The table lists the places of the points, each with its key. -/
structure Lists (table : Locations) (points : List Point) : Prop where
  keyed : ∀ l ∈ table, l.1 = locationKey l.2
  places : Places (table.map Prod.snd) points

theorem Lists.nil : Lists [] [] := ⟨nofun, .nil⟩

theorem Lists.intern (h : table.Lists points) (q : Point) :
    (table.intern q).2.Lists (points ++ [q]) ∧ Indexes ((table.intern q).2.map Prod.snd) (table.intern q).1 q ∧
      table <+: (table.intern q).2 := by
  unfold Locations.intern
  dsimp only
  cases hi : table.findIdx? fun location => location.1 == locationKey q with
  | some i =>
    obtain ⟨hlt, hkey, -⟩ := List.findIdx?_eq_some_iff_getElem.1 hi
    have hmem : table[i] ∈ table := List.getElem_mem hlt
    have heq : locationKey table[i].2 = locationKey q := by
      rw [← h.keyed _ hmem]
      exact beq_iff_eq.1 hkey
    refine ⟨⟨h.keyed, h.places.append_old (List.mem_map_of_mem hmem) heq⟩, ⟨table[i].2, ?_, heq⟩, List.prefix_rfl⟩
    rw [List.getElem?_map, List.getElem?_eq_getElem hlt]
    rfl
  | none =>
    have hnew : ∀ p ∈ table.map Prod.snd, locationKey p ≠ locationKey q := by
      intro p hp heq
      obtain ⟨l, hl, rfl⟩ := List.mem_map.1 hp
      have := List.findIdx?_eq_none_iff.1 hi l hl
      rw [h.keyed l hl, heq, beq_self_eq_true] at this
      cases this
    refine ⟨⟨fun l hl => ?_, ?_⟩, ⟨q, by simp, rfl⟩, List.prefix_append ..⟩
    · rcases List.mem_append.1 hl with hl | hl
      · exact h.keyed l hl
      · rw [List.mem_singleton.1 hl]
    · rw [List.map_append]
      exact h.places.append_new hnew

theorem Lists.internAll (h : table.Lists points) (qs : List Point) :
    (table.internAll qs).2.Lists (points ++ qs) ∧
      List.Forall₂ (Indexes ((table.internAll qs).2.map Prod.snd)) (table.internAll qs).1 qs ∧
      table <+: (table.internAll qs).2 := by
  induction qs generalizing table points with
  | nil => exact ⟨by rwa [List.append_nil], .nil, List.prefix_rfl⟩
  | cons q qs ih =>
    obtain ⟨hlists, hindex, hgrows⟩ := h.intern q
    obtain ⟨hlists', hindexes, hgrows'⟩ := ih hlists
    rw [internAll_cons]
    refine ⟨by rwa [List.append_cons], .cons ?_ hindexes, hgrows.trans hgrows'⟩
    obtain ⟨more, hmore⟩ := hgrows'
    rw [← hmore, List.map_append]
    exact hindex.append

/-- Interning the points of one tile after the other is interning all of them. -/
theorem internAll_append (table : Locations) (ps qs : List Point) :
    table.internAll (ps ++ qs) = ((table.internAll ps).1 ++ ((table.internAll ps).2.internAll qs).1,
      ((table.internAll ps).2.internAll qs).2) := by
  induction ps generalizing table with
  | nil => rfl
  | cons p ps ih =>
    rw [List.cons_append, internAll_cons, internAll_cons, ih]
    rfl

end Locations

end Mosaic
