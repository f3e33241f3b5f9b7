import Mosaic.Proofs.Tiles.Run

/-!
# Patches and their tiles

What an orderly store says about patches: each of them locates the vertices of its tiles (`Store.Settled.charts`),
each of its tiles is in a patch (`Store.Settled.member`), and the patch that a tile is in lists it
(`Store.Settled.lists`). This need not be the only one that does. A patch is the parent of all its tiles when it is
made (`MachineM.adopts_of_applyPatch`). But a tile that is placed once more is copied together with the patch it
was in, and only the copy of the tile gets another parent: the copy of the old patch still lists it, and can still
be reached if a field of the tile leads there (`Machine.placedTwice`).
-/

namespace Mosaic

open Mosaic.Graph (NodeId)

/-- The patch has a list of locations for each of its tiles, in which each vertex of the tile has one. -/
def Fragment.Charts (g : Fragment) (p : Patch) : Prop :=
  List.Forall₂ (fun tile locations => ∃ t, g tile = some (.tile t) ∧ locations.length = t.vertices.length ∧
    ∀ l ∈ locations, l < p.locations.length) p.tiles p.tileLocations

namespace Store

variable {s : Store} {n : Nat} {id q tile : NodeId} {t : Tile} {p : Patch}

theorem lists_of_cores (h : (s.cores n).Lists id tile) : (Fragment.of s.pool).Lists id tile := by
  obtain ⟨x, hx, hmem⟩ := h
  obtain ⟨o, ho, hcore⟩ := exists_of_cores hx
  cases o <;> cases hcore
  exact ⟨_, ho, hmem⟩

namespace Settled

theorem charts (h : s.Orderly) (hp : Fragment.of s.pool id = some (.patch p)) : (Fragment.of s.pool).Charts p := by
  have hlocated : List.Forall₂ ((s.cores s.next).Located p.locations.length) p.tiles p.tileLocations := h.placed hp
  refine hlocated.imp fun tile locations hl => ?_
  obtain ⟨x, hx, -, hlen, hlt⟩ := hl
  obtain ⟨o, ho, hcore⟩ := exists_of_cores hx
  cases o <;> cases hcore
  exact ⟨_, ho, hlen, hlt⟩

theorem lists (h : s.Orderly) (ht : Fragment.of s.pool id = some (.tile t)) (hq : t.parent = some q) :
    (Fragment.of s.pool).Lists q id := by
  obtain ⟨-, -, -, -, hparent⟩ := h.placed ht
  exact lists_of_cores ((hparent q hq).resolve_left not_false)

theorem member (h : s.Orderly) (hp : Fragment.of s.pool id = some (.patch p)) (hmem : tile ∈ p.tiles) :
    ∃ t q, Fragment.of s.pool tile = some (.tile t) ∧ t.parent = some q := by
  have hlocated : List.Forall₂ ((s.cores s.next).Located p.locations.length) p.tiles p.tileLocations := h.placed hp
  obtain ⟨i, hi⟩ := List.mem_iff_getElem?.1 hmem
  obtain ⟨locations, -, x, hx, hparent, -⟩ := exists_getElem?_of_forall₂ hlocated.flip hi
  obtain ⟨o, ho, hcore⟩ := exists_of_cores hx
  cases o <;> cases hcore
  obtain ⟨q, hq⟩ := Option.isSome_iff_exists.1 hparent
  exact ⟨_, q, ho, hq⟩

end Settled

end Store

namespace Machine

variable {held : List NodeId} {m m' : Machine} {n₀ : Nat} {line : Option Nat} {rest : Program}

theorem Veiled.adopts_of_next (h : m.Veiled n₀) (hs : m.store.Orderly)
    (hp : m.program = .op (.apply .patch) line :: rest) (hn : m.next? held = some (.ok () m')) :
    ∃ id os, m'.operands = .value (.object .patch id) :: os ∧ m'.store.Adopts id := by
  obtain ⟨effect, m₁, -, rfl, performed⟩ := performed_of_next? hp hn
  have htaking : (m.taking (.apply .patch) rest).Veiled n₀ :=
    h.narrow _ (fun i hi => hp ▸ List.mem_cons_of_mem _ hi) (List.drop_subset (Op.apply .patch).arity m.operands)
  have hoperands : ∀ o ∈ m.arguments (.apply .patch), Within _ _ o.node?.toList := fun o ho =>
    h.operands o (List.mem_of_mem_take (List.mem_reverse.1 ho))
  obtain ⟨id, rfl, hadopts⟩ := MachineM.adopts_of_applyPatch htaking.guarded hs hoperands performed
  exact ⟨id, m₁.operands, rfl, hadopts⟩

/-- Patches and their tiles agree on membership. On every machine in the middle of a run of an expression, whatever
was run on it before, each patch in the store has a list for each of its tiles, in which each vertex of the tile
has the index of a location; each tile of a patch is in some patch; the patch that a tile is in lists it; and
when a step makes a patch, all tiles of the patch are in it. -/
theorem Working.membership (h : Working held m) :
    (∀ id p, Fragment.of m.store.pool id = some (.patch p) → (Fragment.of m.store.pool).Charts p) ∧
    (∀ id p tile, Fragment.of m.store.pool id = some (.patch p) → tile ∈ p.tiles →
      ∃ t q, Fragment.of m.store.pool tile = some (.tile t) ∧ t.parent = some q) ∧
    (∀ tile t q, Fragment.of m.store.pool tile = some (.tile t) → t.parent = some q →
      (Fragment.of m.store.pool).Lists q tile) ∧
    ∀ line rest m', m.program = .op (.apply .patch) line :: rest → m.next? held = some (.ok () m') →
      ∃ id os, m'.operands = .value (.object .patch id) :: os ∧ m'.store.Adopts id := by
  have hs := h.orderly
  obtain ⟨m₀, e, n, hserving, he, hsteps⟩ := h
  obtain ⟨-, g, hg, -⟩ := hserving.sound
  exact ⟨fun id p hp => hs.charts hp, fun id p tile hp hmem => hs.member hp hmem,
    fun tile t q ht hq => hs.lists ht hq,
    fun line rest m' hp hn => (hg.veiled_of_steps hsteps).adopts_of_next hs hp hn⟩

/-- A tile of a patch is placed once more, after it got a field that leads to the patch. -/
def placedTwice : Expr :=
  .letIn [.bind ["p"] (.primitive "patch" [.cluster [triangle]]), .bind ["f"] (.lambda "f" ["x"] (.var "q")),
      .bind ["t"] (.primitive "at" [.field (.var "p") "tiles", .number (.ofNat 0)]),
      .setField [("t", "f")] (.var "f"), .bind ["q"] (.field (.var "t") "patch")]
    (.primitive "patch" [.cluster [.var "t"]])

/-- The copy of the old patch, at 40, lists the copy of the tile, which is in the new patch, at 32. -/
theorem Working.membership_placedTwice :
    ∃ m p t, Working [] m ∧ Fragment.of m.store.pool 40 = some (.patch p) ∧ p.tiles = [33] ∧
      Fragment.of m.store.pool 33 = some (.tile t) ∧ t.parent = some 32 ∧
      (Fragment.of m.store.pool).Charts p ∧ (Fragment.of m.store.pool).Lists 32 33 := by
  have hstate : (after? 42 ((ofConfig {}).started placedTwice.compile)).map (fun m =>
      ((m.store.pool.get Object.patches 40).toOption.map Patch.tiles,
        (m.store.pool.get Object.tiles 33).toOption.map Tile.parent)) = some (some [33], some (some 32)) := by
    decide +kernel
  obtain ⟨m, hm, hread⟩ := Option.map_eq_some_iff.1 hstate
  have he : placedTwice.Countable := by
    simp [placedTwice, triangle, Expr.Countable, CountableAll, CountableBindings]
  have hworking : Working [] m := ⟨ofConfig {}, placedTwice, 42, .new {}, he, steps_of_after? hm⟩
  obtain ⟨hcharts, -, hlists, -⟩ := hworking.membership
  obtain ⟨hpatch, htile⟩ := Prod.mk.inj hread
  obtain ⟨p, hp, htiles⟩ := Store.exists_of_get hpatch
  obtain ⟨t, ht, hparent⟩ := Store.exists_of_get htile
  exact ⟨m, p, t, hworking, hp, htiles, ht, hparent, hcharts 40 p hp, hlists 33 t 32 ht hparent⟩

end Machine

end Mosaic
