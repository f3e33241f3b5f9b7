import Mosaic.Proofs.Balance.Flow
import Mosaic.Proofs.Cadence.Isomorphism

/-!
# Tiles that are well formed

A tile has three vertices or more and as many edges, each of which points back at the tile and knows its
place in it; a vertex or an edge is where it says it is; a patch locates the vertices of its tiles, each of which
is in some patch; and the patch that a tile is in lists the tile (`Fragment.Placed`). The last may be another one
than the patch that lists the tile, too: a tile that is placed anew is copied together with its patch. All this is
asked of the cores of objects, which most operations leave alone.

`Store.Settled due n` says that the objects of a store at the addresses below `n` are placed, but for the tiles
that a patch is still `due` to get; those above `n` are still being made. It stays in the basic actions: the edges
of all entries are exact, so a collection keeps with an object what it points at.
-/

namespace Mosaic

open Mosaic.Graph (NodeId Node Kind Pool Heap)

/-! ## Objects in their places -/

/-- What others rely on in an object. -/
def Object.core : Object → Object
  | tile t => tile { vertices := t.vertices, edges := t.edges, parent := t.parent }
  | vertex v => vertex { tile := v.tile, index := v.index }
  | edge e => edge { tile := e.tile, index := e.index }
  | patch p => patch { tiles := p.tiles, locations := p.locations, tileLocations := p.tileLocations }
  | cluster _ => cluster {}
  | lambda l => lambda { body := l.body }

theorem Object.pointers_core (o : Object) : o.core.pointers ⊆ o.pointers := by
  intro id hid
  cases o with
  | tile t =>
    simp only [core, pointers, List.mem_append] at hid ⊢
    rcases hid with ((hid | hid) | hid) | hid
    · exact .inl (.inl (.inl hid))
    · exact .inl (.inl (.inr hid))
    · exact .inl (.inr hid)
    · simp [Fields.pointers] at hid
  | _ => simp_all [core, pointers, Fields.pointers]

/-- What may become of an object that others rely on: a tile gets a patch, and a patch gets tiles. -/
inductive Object.Becomes : Object → Object → Prop
  | same (o : Object) : Becomes o o
  | tile {t t' : Tile} (vertices : t'.vertices = t.vertices) (edges : t'.edges = t.edges)
      (parent : t.parent.isSome = true → t'.parent.isSome = true) : Becomes (.tile t) (.tile t')
  | patch {p p' : Patch} (tiles : p.tiles ⊆ p'.tiles) : Becomes (.patch p) (.patch p')

namespace Fragment

/-- The vertex at `v` is the one of the tile at `id` with the index `i`. -/
def Corner (g : Fragment) (id : NodeId) (i : Nat) (v : NodeId) : Prop :=
  ∃ x, g v = some (.vertex x) ∧ x.tile = some id ∧ x.index = i

/-- The edge at `e` is the one of the tile at `id` with the index `i`. -/
def Side (g : Fragment) (id : NodeId) (i : Nat) (e : NodeId) : Prop :=
  ∃ x, g e = some (.edge x) ∧ x.tile = some id ∧ x.index = i

/-- The patch at `patch` lists the tile at `tile`. -/
def Lists (g : Fragment) (patch tile : NodeId) : Prop := ∃ p, g patch = some (.patch p) ∧ tile ∈ p.tiles

/-- The tile is in a patch, and the list has one of `n` locations for each of its vertices. -/
def Located (g : Fragment) (n : Nat) (tile : NodeId) (locations : List Nat) : Prop :=
  ∃ t, g tile = some (.tile t) ∧ t.parent.isSome = true ∧ locations.length = t.vertices.length ∧
    ∀ l ∈ locations, l < n

/-- The object at the address fits in with those around it. The patch that a tile is in need not list it if it is
due to get it. -/
def Placed (g : Fragment) (due : NodeId → NodeId → Prop) (id : NodeId) : Object → Prop
  | .tile t => 3 ≤ t.vertices.length ∧ t.edges.length = t.vertices.length ∧
      (∀ (i : Nat) v, t.vertices[i]? = some v → g.Corner id i v) ∧
      (∀ (i : Nat) e, t.edges[i]? = some e → g.Side id i e) ∧
      ∀ p, t.parent = some p → due p id ∨ g.Lists p id
  | .vertex v => ∃ i t, v.tile = some i ∧ g i = some (.tile t) ∧ t.vertices[v.index]? = some id
  | .edge e => ∃ i t, e.tile = some i ∧ g i = some (.tile t) ∧ t.edges[e.index]? = some id
  | .patch p => List.Forall₂ (g.Located p.locations.length) p.tiles p.tileLocations
  | .cluster _ => True
  | .lambda l => IsCode l.body

/-- All objects are in their places. -/
def Tiled (g : Fragment) (due : NodeId → NodeId → Prop) : Prop := ∀ id o, g id = some o → g.Placed due id o

variable {g g' : Fragment} {due due' : NodeId → NodeId → Prop} {id : NodeId} {o : Object}

theorem Placed.of_kept (h : g.Placed due id o)
    (hkept : ∀ p ∈ o.pointers, ∀ q, g p = some q → ∃ q', g' p = some q' ∧ q.Becomes q')
    (hdue : ∀ p, due p id → due' p id ∨ g'.Lists p id) : g'.Placed due' id o := by
  cases o with
  | tile t =>
    obtain ⟨hthree, hlen, hvertices, hedges, hparent⟩ := h
    refine ⟨hthree, hlen, fun i v hv => ?_, fun i e he => ?_, fun p hp => ?_⟩
    · obtain ⟨x, hx, hplace⟩ := hvertices i v hv
      obtain ⟨_, hx', ⟨⟩⟩ := hkept v (by simp [Object.pointers, List.mem_of_getElem? hv]) _ hx
      exact ⟨x, hx', hplace⟩
    · obtain ⟨x, hx, hplace⟩ := hedges i e he
      obtain ⟨_, hx', ⟨⟩⟩ := hkept e (by simp [Object.pointers, List.mem_of_getElem? he]) _ hx
      exact ⟨x, hx', hplace⟩
    · rcases hparent p hp with hdue' | ⟨q, hq, hmem⟩
      · exact hdue p hdue'
      · obtain ⟨_, hq', hbecomes⟩ := hkept p (by simp [Object.pointers, hp]) _ hq
        cases hbecomes with
        | same => exact .inr ⟨q, hq', hmem⟩
        | @patch _ q' tiles => exact .inr ⟨q', hq', tiles hmem⟩
  | vertex v =>
    obtain ⟨i, t, hi, ht, hplace⟩ := h
    obtain ⟨_, ht', hbecomes⟩ := hkept i (by simp [Object.pointers, hi]) _ ht
    cases hbecomes with
    | same => exact ⟨i, t, hi, ht', hplace⟩
    | @tile _ t' vertices => exact ⟨i, t', hi, ht', by rwa [vertices]⟩
  | edge e =>
    obtain ⟨i, t, hi, ht, hplace⟩ := h
    obtain ⟨_, ht', hbecomes⟩ := hkept i (by simp [Object.pointers, hi]) _ ht
    cases hbecomes with
    | same => exact ⟨i, t, hi, ht', hplace⟩
    | @tile _ t' _ edges => exact ⟨i, t', hi, ht', by rwa [edges]⟩
  | patch p =>
    have hlocated : List.Forall₂ (g.Located p.locations.length) p.tiles p.tileLocations := h
    have htiles := (List.forall₂_and_left p.tiles p.tileLocations).2 ⟨fun t ht => ht, hlocated⟩
    refine htiles.imp fun t ls h => ?_
    obtain ⟨ht, tile, htile, hparent, hlen, hlt⟩ := h
    obtain ⟨_, htile', hbecomes⟩ := hkept t (by simp [Object.pointers, ht]) _ htile
    cases hbecomes with
    | same => exact ⟨tile, htile', hparent, hlen, hlt⟩
    | @tile _ tile' vertices _ parent => exact ⟨tile', htile', parent hparent, by rwa [vertices], hlt⟩
  | cluster | lambda => exact h

theorem Placed.adopted {t : Tile} {p : NodeId} (h : g.Placed due id (.tile t)) (hp : due p id ∨ g.Lists p id) :
    g.Placed due id (.tile { t with parent := some p }) := by
  obtain ⟨hthree, hlen, hvertices, hedges, -⟩ := h
  refine ⟨hthree, hlen, hvertices, hedges, fun q hq => ?_⟩
  obtain rfl := Option.some.inj hq
  exact hp

/-- A part of the fragment that has what its objects point at. -/
theorem Tiled.restrict (h : g.Tiled due) (hsub : ∀ id o, g' id = some o → g id = some o)
    (hkept : ∀ id o, g' id = some o → ∀ p ∈ o.pointers, ∀ q, g p = some q → g' p = some q) : g'.Tiled due :=
  fun id o ho => (h id o (hsub id o ho)).of_kept (fun p hp q hq => ⟨q, hkept id o ho p hp q hq, .same q⟩)
    fun _ hdue => .inl hdue

end Fragment

/-- An object that is in its place wherever it is. -/
def Object.Loose (o : Object) : Prop :=
  ∀ (g : Fragment) (due : NodeId → NodeId → Prop) (id : NodeId), g.Placed due id o.core

theorem Object.loose_cluster (c : Cluster) : (Object.cluster c).Loose := fun _ _ _ => trivial

theorem Object.loose_lambda {l : Lambda} (h : IsCode l.body) : (Object.lambda l).Loose :=
  fun _ _ _ => h

theorem Object.loose_patch : (Object.patch {}).Loose := fun _ _ _ => .nil

/-! ## Stores -/

namespace Store

/-- The next address. -/
abbrev next (s : Store) : Nat := s.pool.next

/-- The cores of the objects at the addresses below `n`. -/
def cores (n : Nat) (s : Store) : Fragment := fun id =>
  if id < n then (Fragment.of s.pool id).map Object.core else none

/-- The edges of all objects are exact, and the objects at the addresses below `n` are placed. -/
structure Settled (due : NodeId → NodeId → Prop) (n : Nat) (s : Store) : Prop where
  counts : ∀ (id : NodeId) e, s.pool.entries[id]? = some e → e.edges.Counts (Node.pointers e.node)
  below : ∀ (id : Nat) e, s.pool.entries[id]? = some e → id < s.next
  tiled : (s.cores n).Tiled due

/-- All objects are placed, and no patch is due to get a tile. -/
abbrev Orderly (s : Store) : Prop := s.Settled (fun _ _ => False) s.next

/-- What there was is as it was, and what is pinned is still there. -/
structure Grows (pins : Pins) (s s' : Store) : Prop where
  next : s.next ≤ s'.next
  old : ∀ (id : Nat) e, id < s.next → s'.pool.entries[id]? = some e → s.pool.entries[id]? = some e
  kept : ∀ id : Nat, id ∈ pins.get → id < s.next → s'.pool.entries[id]? = s.pool.entries[id]?

/-- The object at the address is replaced, and nothing else changes. -/
structure Changes (s s' : Store) (id : NodeId) (o o' : Object) : Prop where
  next : s'.next = s.next
  other : ∀ i : Nat, i ≠ id → s'.pool.entries[i]? = s.pool.entries[i]?
  before : ∃ e, s.pool.entries[id]? = some e ∧ e.node = o
  after : ∃ e, s'.pool.entries[id]? = some e ∧ e.node = o'

variable {due due' : NodeId → NodeId → Prop} {n : Nat} {pins : Pins} {s s' s'' : Store} {id : NodeId} {o o' : Object}

theorem cores_eq_some :
    s.cores n id = some o ↔ id < n ∧ ∃ e, s.pool.entries[id]? = some e ∧ e.node.core = o := by
  unfold cores
  split
  · simp_all [Fragment.of]
  · simp_all

theorem cores_of_lt {id : Nat} (h : id < n) {e : Graph.Entry Object} (he : s.pool.entries[id]? = some e) :
    s.cores n id = some e.node.core := cores_eq_some.2 ⟨h, e, he, rfl⟩

namespace Grows

theorem refl (pins : Pins) (s : Store) : Grows pins s s := ⟨Nat.le_refl _, fun _ _ _ he => he, fun _ _ _ => rfl⟩

theorem trans (h : Grows pins s s') (h' : Grows pins s' s'') : Grows pins s s'' where
  next := Nat.le_trans h.next h'.next
  old id e hid he := h.old id e hid (h'.old id e (Nat.lt_of_lt_of_le hid h.next) he)
  kept id hpin hid := (h'.kept id hpin (Nat.lt_of_lt_of_le hid h.next)).trans (h.kept id hpin hid)

theorem of_also {ids : List NodeId} (h : Grows (pins.also fun _ => ids) s s') : Grows pins s s' :=
  ⟨h.next, h.old, fun id hpin => h.kept id (Pins.mem_also.2 (.inl hpin))⟩

end Grows

namespace Changes

theorem grows (h : Changes s' s'' id o o') (hg : Grows pins s s') (hid : s.next ≤ (id : Nat)) : Grows pins s s'' := by
  refine ⟨h.next ▸ hg.next, fun i e hi he => ?_, fun i hpin hi => ?_⟩
  · rw [h.other i (by omega)] at he
    exact hg.old i e hi he
  · rw [h.other i (by omega)]
    exact hg.kept i hpin hi

theorem becomes (h : Changes s s' id o o') (hb : o.core.Becomes o'.core) (i : NodeId) (q : Object)
    (hq : s.cores s.next i = some q) : ∃ q', s'.cores s'.next i = some q' ∧ q.Becomes q' := by
  obtain ⟨hi, e, he, rfl⟩ := cores_eq_some.1 hq
  by_cases hid : i = id
  · subst hid
    obtain ⟨e₀, he₀, rfl⟩ := h.before
    obtain ⟨e', he', rfl⟩ := h.after
    obtain rfl : e = e₀ := Option.some.inj (he.symm.trans he₀)
    exact ⟨_, cores_of_lt (h.next ▸ hi) he', hb⟩
  · exact ⟨_, cores_of_lt (h.next ▸ hi) ((h.other i hid).trans he), .same _⟩

end Changes

theorem exists_of_allocate (ha : s.allocate pins o = .ok (id, s')) :
    id = s.next ∧ s'.next = s.next + 1 ∧ Grows pins s s' ∧ ∃ e, s'.pool.entries[id]? = some e ∧ e.node = o := by
  obtain ⟨g, hc, rfl, rfl⟩ := Heap.allocate_eq_ok ha
  obtain ⟨hnext, -, -, hsub⟩ := Heap.collectIfDue_sub hc
  have hle : s.next ≤ g.pool.next + 1 := Nat.le_succ_of_le (Nat.le_of_eq hnext.symm)
  refine ⟨hnext, congrArg (· + 1) hnext, ⟨hle, fun i e hi he => ?_, fun i hpin hi => ?_⟩,
    ⟨o, Graph.Edges.addAll {} o.pointers⟩, Std.ExtTreeMap.getElem?_insert_self, rfl⟩
  · rcases getElem?_insert_cases he with ⟨rfl, -⟩ | ⟨-, he⟩
    · exact absurd hnext (Nat.ne_of_lt hi)
    · exact hsub i e he
  · have hne : g.pool.next ≠ i := fun heq => absurd (heq.symm.trans hnext) (Nat.ne_of_lt hi)
    rw [← (Heap.collectIfDue_keeps hc).1 i hpin]
    exact (Std.ExtTreeMap.getElem?_insert ..).trans (if_neg (by simpa using hne))

namespace Settled

theorem empty (h : s.pool.entries = {}) : s.Settled due n := by
  have hno : ∀ (id : NodeId) e, s.pool.entries[id]? ≠ some e := fun id e he => by simp [h] at he
  refine ⟨fun id e he => (hno id e he).elim, fun id e he => (hno id e he).elim, fun id o ho => ?_⟩
  obtain ⟨-, e, he, -⟩ := cores_eq_some.1 ho
  exact (hno id e he).elim

theorem zero (h : s.Settled due n) : s.Settled due' 0 :=
  ⟨h.counts, h.below, fun id _ ho => absurd (cores_eq_some.1 ho).1 (Nat.not_lt_zero id)⟩

theorem mono (h : s.Settled due n) (hdue : ∀ p i, due p i → due' p i) : s.Settled due' n := by
  refine ⟨h.counts, h.below, fun id o ho => (h.tiled id o ho).of_kept (fun p _ q hq => ⟨q, hq, .same q⟩) ?_⟩
  exact fun p hp => .inl (hdue p id hp)

/-- A collection keeps with an object what it points at. -/
theorem collectIfDue (h : s.Settled due n) (hc : s.collectIfDue pins = .ok s') : s'.Settled due n := by
  obtain ⟨hnext, -, -, hsub⟩ := Heap.collectIfDue_sub hc
  have hnext : s'.next = s.next := hnext
  refine ⟨fun id e he => h.counts id e (hsub id e he), fun id e he => hnext ▸ h.below id e (hsub id e he), ?_⟩
  refine h.tiled.restrict (fun id o ho => ?_) fun id o ho p hp q hq => ?_
  · obtain ⟨hid, e, he, rfl⟩ := cores_eq_some.1 ho
    exact cores_of_lt hid (hsub id e he)
  · obtain ⟨-, e, he, rfl⟩ := cores_eq_some.1 ho
    obtain ⟨hp', e', he', rfl⟩ := cores_eq_some.1 hq
    have htarget := (h.counts id e (hsub id e he)).mem_targets.2 (Object.pointers_core _ hp)
    exact cores_of_lt hp' (((Heap.collectIfDue_keeps hc).2 id e he p htarget).trans he')

theorem insert (h : s.Settled due n) {e : Graph.Entry Object} (he : e.edges.Counts (Node.pointers e.node))
    {next : NodeId} (hid : id < next) (hnext : s.next ≤ next) (hcore : id < n → s.cores n id = some e.node.core)
    (kinds : List String) (sinceCollect : Nat) (totals : Graph.Totals) :
    Settled due n { s with
      pool := { s.pool with entries := s.pool.entries.insert id e, next, kinds }, sinceCollect, totals } := by
  refine ⟨fun i e' he' => ?_, fun i e' he' => ?_, h.tiled.restrict (fun i o ho => ?_) fun i o ho p hp q hq => ?_⟩
  · rcases getElem?_insert_cases he' with ⟨-, rfl⟩ | ⟨-, he'⟩
    · exact he
    · exact h.counts i e' he'
  · rcases getElem?_insert_cases he' with ⟨rfl, -⟩ | ⟨-, he'⟩
    · exact hid
    · exact Nat.lt_of_lt_of_le (h.below i e' he') hnext
  · obtain ⟨hi, e', he', rfl⟩ := cores_eq_some.1 ho
    rcases getElem?_insert_cases he' with ⟨rfl, rfl⟩ | ⟨-, he'⟩
    · exact hcore hi
    · exact cores_of_lt hi he'
  · obtain ⟨hi, e', he', rfl⟩ := cores_eq_some.1 hq
    by_cases hp' : p = id
    · subst hp'
      rw [hcore hi] at hq
      exact cores_eq_some.2 ⟨hi, e, Std.ExtTreeMap.getElem?_insert_self, Option.some.inj hq⟩
    · refine cores_of_lt hi ((Std.ExtTreeMap.getElem?_insert ..).trans ((if_neg ?_).trans he'))
      simpa using Ne.symm hp'

theorem allocate_ge (h : s.Settled due n) (hn : n ≤ s.next) (ha : s.allocate pins o = .ok (id, s')) :
    s'.Settled due n := by
  obtain ⟨g, hc, rfl, rfl⟩ := Heap.allocate_eq_ok ha
  have hn : n ≤ g.pool.next := Nat.le_trans hn (Nat.le_of_eq (Heap.collectIfDue_sub hc).1.symm)
  exact (h.collectIfDue hc).insert (e := ⟨o, _⟩) Graph.Edges.Counts.nil.addAll (Nat.lt_succ_self _)
    (Nat.le_succ _) (fun hid => absurd hn (Nat.not_le_of_lt hid)) _ _ _

theorem all (h : s.Settled due n)
    (hnew : ∀ (id : Nat) e, n ≤ id → s.pool.entries[id]? = some e → (s.cores s.next).Placed due id e.node.core) :
    s.Settled due s.next := by
  refine ⟨h.counts, h.below, fun id o ho => ?_⟩
  obtain ⟨-, e, he, rfl⟩ := cores_eq_some.1 ho
  by_cases hid : id < n
  · refine (h.tiled id _ (cores_of_lt hid he)).of_kept (fun p _ q hq => ?_) fun _ hdue => .inl hdue
    obtain ⟨-, e', he', rfl⟩ := cores_eq_some.1 hq
    exact ⟨_, cores_of_lt (h.below p e' he') he', .same _⟩
  · exact hnew id e (Nat.le_of_not_lt hid) he

theorem allocate (h : s.Settled due s.next) (ho : o.Loose) (ha : s.allocate pins o = .ok (id, s')) :
    s'.Settled due s'.next := by
  obtain ⟨rfl, hnext, hgrows, e, he, rfl⟩ := exists_of_allocate ha
  refine (h.allocate_ge (Nat.le_refl _) ha).all fun i e' hi he' => ?_
  have hlt := (h.allocate_ge (Nat.le_refl _) ha).below i e' he'
  rw [hnext] at hlt
  obtain rfl : i = s.next := Nat.le_antisymm (Nat.le_of_lt_succ hlt) hi
  obtain rfl : e = e' := Option.some.inj (he.symm.trans he')
  exact ho _ _ _

theorem update {α : Type} {k : Kind Object α} {f : α → α} {p : Pool Object} (h : s.Settled due n)
    (hf : n ≤ id ∨ ∀ a, (k.wrap (f a)).core = (k.wrap a).core) (hu : s.pool.update k id f = .ok p) :
    Settled due n { s with pool := p } := by
  obtain ⟨e, a, he, ha, rfl⟩ := Pool.update_eq_ok hu
  refine h.insert (Graph.Entry.counts_renew (h.counts id e he)) (h.below id e he) (Nat.le_refl _) (fun hid => ?_) _ _ _
  rcases hf with hn | hf
  · exact absurd hid (Nat.not_lt_of_le hn)
  · rw [cores_of_lt hid he, ha]
    exact congrArg some (hf a).symm

/-- An object is replaced by one that is as good. What was due may be listed now. -/
theorem change (h : s.Settled due s.next) (hs' : s'.Settled due' 0) (hc : Changes s s' id o o')
    (hb : o.core.Becomes o'.core) (ho' : (s'.cores s'.next).Placed due' id o'.core)
    (hdue : ∀ p i, due p i → due' p i ∨ (s'.cores s'.next).Lists p i) : s'.Settled due' s'.next := by
  refine hs'.all fun i e _ he => ?_
  by_cases hid : i = id
  · subst hid
    obtain ⟨e', he', rfl⟩ := hc.after
    obtain rfl : e = e' := Option.some.inj (he.symm.trans he')
    exact ho'
  · rw [hc.other i hid] at he
    have hplaced := h.tiled i _ (cores_of_lt (h.below i e he) he)
    exact hplaced.of_kept (fun p _ q hq => hc.becomes hb p q hq) fun p => hdue p i

end Settled

end Store

end Mosaic
