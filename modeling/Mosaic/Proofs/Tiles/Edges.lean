import Mosaic.Proofs.Store.Actions
import Mosaic.Proofs.Tiles.Placed

/-!
# What is read of a well-formed tile

The vertices and edges of a tile that is placed are different nodes, since each knows its place
(`Store.Settled.tile`). So an edge finds the two vertices that it joins (`Store.Settled.spans`): indices
are 64-bit words, which no tile has more vertices than, so the last edge leads back to the first vertex.
-/

namespace Mosaic

open Mosaic.Graph (NodeId Pool)

/-- The tile at the address has three vertices or more and as many edges. All these are different nodes, and each
points back at the tile and knows its index. -/
structure Fragment.WellFormed (g : Fragment) (id : NodeId) (t : Tile) : Prop where
  three : 3 ≤ t.vertices.length
  edges : t.edges.length = t.vertices.length
  distinct : (t.vertices ++ t.edges).Nodup
  corner : ∀ (i : Nat) v, t.vertices[i]? = some v → g.Corner id i v
  side : ∀ (i : Nat) e, t.edges[i]? = some e → g.Side id i e

theorem nodup_of_index {α : Type} {l : List α} {P : Nat → α → Prop} (h : ∀ (i : Nat) a, l[i]? = some a → P i a)
    (hP : ∀ i j a, P i a → P j a → i = j) : l.Nodup := by
  refine List.nodup_iff_getElem?_ne_getElem?.2 fun i j hij hj heq => ?_
  have hi := List.getElem?_eq_getElem (Nat.lt_trans hij hj)
  have hj := List.getElem?_eq_getElem hj
  rw [hi, hj, Option.some.injEq] at heq
  exact absurd (hP i j _ (h i _ hi) (h j _ (heq ▸ hj))) (Nat.ne_of_lt hij)

theorem Fragment.Placed.distinct {g : Fragment} {due : NodeId → NodeId → Prop} {id : NodeId} {t : Tile}
    (h : g.Placed due id (.tile t)) : (t.vertices ++ t.edges).Nodup := by
  obtain ⟨-, -, hvertices, hedges, -⟩ := h
  refine List.nodup_append.2 ⟨nodup_of_index hvertices ?_, nodup_of_index hedges ?_, ?_⟩
  · rintro i j v ⟨x, hx, -, rfl⟩ ⟨y, hy, -, rfl⟩
    cases hx.symm.trans hy
    rfl
  · rintro i j e ⟨x, hx, -, rfl⟩ ⟨y, hy, -, rfl⟩
    cases hx.symm.trans hy
    rfl
  · rintro v hv e he rfl
    obtain ⟨i, hi⟩ := List.mem_iff_getElem?.1 hv
    obtain ⟨j, hj⟩ := List.mem_iff_getElem?.1 he
    obtain ⟨x, hx, -⟩ := hvertices i v hi
    obtain ⟨y, hy, -⟩ := hedges j v hj
    cases hx.symm.trans hy

namespace Store

variable {s : Store} {n : Nat} {id i v w : NodeId} {t : Tile} {e : Edge}

theorem exists_of_cores {o : Object} (h : s.cores n id = some o) :
    ∃ o', Fragment.of s.pool id = some o' ∧ o'.core = o := by
  obtain ⟨-, e, he, rfl⟩ := cores_eq_some.1 h
  exact ⟨e.node, Fragment.of_eq_some.2 ⟨e, he, rfl⟩, rfl⟩

theorem corner_of_cores {k : Nat} (h : (s.cores n).Corner id k v) : (Fragment.of s.pool).Corner id k v := by
  obtain ⟨x, hx, hplace⟩ := h
  obtain ⟨o, ho, hcore⟩ := exists_of_cores hx
  cases o <;> cases hcore
  exact ⟨_, ho, hplace⟩

theorem side_of_cores {k : Nat} (h : (s.cores n).Side id k v) : (Fragment.of s.pool).Side id k v := by
  obtain ⟨x, hx, hplace⟩ := h
  obtain ⟨o, ho, hcore⟩ := exists_of_cores hx
  cases o <;> cases hcore
  exact ⟨_, ho, hplace⟩

namespace Settled

theorem placed (h : s.Orderly) {o : Object} (ho : Fragment.of s.pool id = some o) :
    (s.cores s.next).Placed (fun _ _ => False) id o.core := by
  obtain ⟨e, he, rfl⟩ := Fragment.of_eq_some.1 ho
  exact h.tiled id _ (cores_of_lt (h.below id e he) he)

theorem tile (h : s.Orderly) (ht : Fragment.of s.pool id = some (.tile t)) :
    (Fragment.of s.pool).WellFormed id t := by
  have ⟨hthree, hlen, hvertices, hedges, _⟩ := h.placed ht
  exact ⟨hthree, hlen, (h.placed ht).distinct, fun i v hv => corner_of_cores (hvertices i v hv),
    fun i e he => side_of_cores (hedges i e he)⟩

theorem vertex (h : s.Orderly) {x : Vertex} (hx : Fragment.of s.pool id = some (.vertex x)) :
    ∃ i t, x.tile = some i ∧ Fragment.of s.pool i = some (.tile t) ∧ t.vertices[x.index]? = some id := by
  obtain ⟨i, t, hi, ht, hplace⟩ := h.placed hx
  obtain ⟨o, ho, hcore⟩ := exists_of_cores ht
  cases o <;> cases hcore
  exact ⟨i, _, hi, ho, hplace⟩

theorem edge (h : s.Orderly) (he : Fragment.of s.pool id = some (.edge e)) :
    ∃ i t, e.tile = some i ∧ Fragment.of s.pool i = some (.tile t) ∧ t.edges[e.index]? = some id := by
  obtain ⟨i, t, hi, ht, hplace⟩ := h.placed he
  obtain ⟨o, ho, hcore⟩ := exists_of_cores ht
  cases o <;> cases hcore
  exact ⟨i, _, hi, ho, hplace⟩

end Settled

/-! ## The vertices that an edge joins -/

/-- The edge leads from `v` to `w`, which is what is read of it where no field hides it, and has a length. -/
structure Spans (s : Store) (id : NodeId) (e : Edge) (v w : NodeId) : Prop where
  start : e.fields[("start" : Name)]? = none → ∀ pins,
    StoreM.getField (.object .edge id) "start" pins s = .ok (.object .vertex v) s
  finish : e.fields[("end" : Name)]? = none → ∀ pins,
    StoreM.getField (.object .edge id) "end" pins s = .ok (.object .vertex w) s
  length : e.fields[("length" : Name)]? = none → ∃ x, ∀ pins,
    StoreM.getField (.object .edge id) "length" pins s = .ok (.number x) s

theorem exists_of_get {α β : Type} {k : Graph.Kind Object α} {f : α → β} {b : β}
    (h : (s.pool.get k id).toOption.map f = some b) : ∃ a, Fragment.of s.pool id = some (k.wrap a) ∧ f a = b := by
  cases hg : s.pool.get k id with
  | error fault =>
    rw [hg] at h
    cases h
  | ok a =>
    rw [hg] at h
    exact ⟨a, Fragment.of_eq_some.2 (Pool.get_eq_ok_iff.1 hg), Option.some.inj h⟩

theorem get_of_eq_some {α : Type} {k : Graph.Kind Object α} {a : α} (h : Fragment.of s.pool id = some (k.wrap a)) :
    s.pool.get k id = .ok a := by
  obtain ⟨e, he, hn⟩ := Fragment.of_eq_some.1 h
  exact Pool.get_eq_ok_iff.2 ⟨e, he, hn⟩

theorem getField_own {o : Object} {name : Name} (ho : Fragment.of s.pool id = some o)
    (hname : o.fields[name]? = none) (pins : Pins) :
    StoreM.getField (.object o.type id) name pins s = StoreM.ownField o name pins s := by
  have hget : s.pool.get (Object.ofType o.type) id = .ok ⟨o, rfl⟩ := get_of_eq_some (k := Object.ofType o.type) ho
  show (StoreM.fetchObject o.type id >>= _) pins s = _
  rw [StoreM.bind_apply, StoreM.fetchObject_apply, hget]
  simp only [hname]

theorem loadVertex {x : Vertex} (hv : Fragment.of s.pool v = some (.vertex x)) (pins : Pins) :
    StoreM.loadOption .vertex (some v) pins s = .ok (.object .vertex v) s := by
  have hget : s.pool.get (Object.ofType .vertex) v = .ok ⟨.vertex x, rfl⟩ :=
    get_of_eq_some (k := Object.ofType .vertex) hv
  show (StoreM.fetchObject .vertex v >>= fun _ => pure _) pins s = _
  rw [StoreM.bind_apply, StoreM.fetchObject_apply, hget]
  rfl

/-- The vertices with the index of an edge and with the next one. -/
theorem endpoints_eq (htile : e.tile = some i) (ht : Fragment.of s.pool i = some (.tile t))
    (hv : t.vertices[e.index % 2 ^ 64 % t.vertices.length]? = some v)
    (hw : t.vertices[(e.index + 1) % 2 ^ 64 % t.vertices.length]? = some w) (pins : Pins) :
    StoreM.endpoints e pins s = .ok (some (v, w)) s := by
  have hget : s.pool.get Object.tiles i = .ok t := get_of_eq_some (k := Object.tiles) ht
  unfold StoreM.endpoints
  simp only [htile]
  rw [StoreM.bind_apply, StoreM.fetch_apply, hget]
  simp only [Nat.reducePow] at hv hw
  show EStateM.Result.ok _ s = _
  simp [hv, hw]

/-- An edge joins two vertices of its tile. -/
theorem Settled.spans (h : s.Orderly) (ht : Fragment.of s.pool i = some (.tile t))
    (he : Fragment.of s.pool id = some (.edge e)) (htile : e.tile = some i) :
    ∃ v w, t.vertices[e.index % 2 ^ 64 % t.vertices.length]? = some v ∧
      t.vertices[(e.index + 1) % 2 ^ 64 % t.vertices.length]? = some w ∧ s.Spans id e v w := by
  have hformed := h.tile ht
  have hcorner : ∀ k : Nat, ∃ v x, t.vertices[k % t.vertices.length]? = some v ∧
      Fragment.of s.pool v = some (.vertex x) := by
    intro k
    have hlt : k % t.vertices.length < t.vertices.length := Nat.mod_lt _ (Nat.lt_of_lt_of_le (by decide) hformed.three)
    have hv := List.getElem?_eq_getElem hlt
    obtain ⟨x, hx, -⟩ := hformed.corner _ _ hv
    exact ⟨_, x, hv, hx⟩
  obtain ⟨v, x, hv, hx⟩ := hcorner (e.index % 2 ^ 64)
  obtain ⟨w, y, hw, hy⟩ := hcorner ((e.index + 1) % 2 ^ 64)
  have hends := endpoints_eq htile ht hv hw
  refine ⟨v, w, hv, hw, fun hname pins => ?_, fun hname pins => ?_, fun hname =>
    ⟨.ofDouble (Plane.distance x.position y.position), fun pins => ?_⟩⟩
  · refine (getField_own he hname pins).trans ?_
    show (StoreM.endpoints e >>= _) pins s = _
    rw [StoreM.bind_apply, hends]
    exact loadVertex hx pins
  · refine (getField_own he hname pins).trans ?_
    show (StoreM.endpoints e >>= _) pins s = _
    rw [StoreM.bind_apply, hends]
    exact loadVertex hy pins
  · refine (getField_own he hname pins).trans ?_
    show (StoreM.endpoints e >>= _) pins s = _
    rw [StoreM.bind_apply, hends]
    show (StoreM.fetch Object.vertices v >>= _) pins s = _
    rw [StoreM.bind_apply, StoreM.fetch_apply, get_of_eq_some (k := Object.vertices) hx]
    show (StoreM.fetch Object.vertices w >>= _) pins s = _
    rw [StoreM.bind_apply, StoreM.fetch_apply, get_of_eq_some (k := Object.vertices) hy]
    rfl

theorem index_next {k n : Nat} (hk : k < n) (hn : n ≤ 2 ^ 64) :
    (k + 1) % 2 ^ 64 % n = (k + 1) % n % 2 ^ 64 % n := by
  rcases Nat.lt_or_eq_of_le (Nat.add_one_le_of_lt hk) with hlt | heq
  · rw [Nat.mod_eq_of_lt hlt]
  · rw [heq, Nat.mod_self, Nat.zero_mod, Nat.zero_mod]
    rcases Nat.lt_or_eq_of_le hn with hlt | rfl
    · rw [Nat.mod_eq_of_lt hlt, Nat.mod_self]
    · rw [Nat.mod_self, Nat.zero_mod]

/-- An edge ends where the next one starts, and the last one where the first one starts. -/
theorem Settled.joined {a b : NodeId} {x y : Edge} {k : Nat} (h : s.Orderly)
    (ht : Fragment.of s.pool id = some (.tile t)) (hn : t.vertices.length ≤ 2 ^ 64)
    (ha : t.edges[k]? = some a) (hb : t.edges[(k + 1) % t.edges.length]? = some b)
    (hx : Fragment.of s.pool a = some (.edge x)) (hy : Fragment.of s.pool b = some (.edge y)) :
    ∃ u v w, s.Spans a x u v ∧ s.Spans b y v w := by
  have hformed := h.tile ht
  obtain ⟨x', hx', htile, rfl⟩ := hformed.side k a ha
  cases hx.symm.trans hx'
  obtain ⟨y', hy', htile', hindex⟩ := hformed.side _ b hb
  cases hy.symm.trans hy'
  obtain ⟨u, v, -, hv, hspans⟩ := h.spans ht hx htile
  obtain ⟨v', w, hv', -, hspans'⟩ := h.spans ht hy htile'
  have hlt : x.index < t.vertices.length := by
    rw [← hformed.edges]
    exact (List.getElem?_eq_some_iff.1 ha).1
  have hnext : (x.index + 1) % 2 ^ 64 % t.vertices.length = y.index % 2 ^ 64 % t.vertices.length := by
    rw [hindex, hformed.edges]
    exact index_next hlt hn
  rw [hnext, hv'] at hv
  cases hv
  exact ⟨u, v, w, hspans, hspans'⟩

end Store

end Mosaic
