import Mosaic.Proofs.Fields.Lacking

/-!
# Tiles without their parents

A tile that is copied into a patch gets the patch as its parent. So the copy is compared with the original
without the parent of either: `g.orphan id` is the graph `g` without what the tile at `id` has as its parent.
What can be reached from a tile in the one graph and from its copy in the other is isomorphic, then, and stays
so as long as it is not changed (`Isomorphism.of_keeps`).
-/

namespace Mosaic

open Mosaic.Graph (NodeId)

/-- A tile without its parent. -/
def Object.orphan : Object → Object
  | .tile t => .tile { t with parent := none }
  | o => o

theorem Object.Like.orphan {ρ : NodeId → NodeId → Prop} {o o' : Object} (h : o.Like ρ o') :
    o.orphan.Like ρ o'.orphan := by
  cases h with
  | tile vertices edges parent fields => exact .tile vertices edges .none fields
  | vertex tile position index fields => exact .vertex tile position index fields
  | edge tile index fields => exact .edge tile index fields
  | patch tiles locations tileLocations fields => exact .patch tiles locations tileLocations fields
  | cluster items fields => exact .cluster items fields
  | lambda label params body free closure fields => exact .lambda label params body free closure fields

theorem Object.links_orphan {o : Object} {l : Link} (h : l ∈ o.orphan.links) : l ∈ o.links := by
  cases o with
  | tile t =>
    simp only [orphan, links, List.mem_append] at h ⊢
    rcases h with ((h | h) | h) | h
    · exact .inl (.inl (.inl h))
    · exact .inl (.inl (.inr h))
    · cases h
    · exact .inr h
  | _ => exact h

namespace Fragment

variable {g g' : Fragment} {id i : NodeId} {P : List NodeId}

theorem Keeps.symm (h : g.Keeps P g') : g'.Keeps P g := fun i hi => (h i (h.reach_iff.1 hi)).symm

/-- The graph without the parent of the tile at `id`. -/
def orphan (g : Fragment) (id : NodeId) : Fragment := Function.update g id ((g id).map Object.orphan)

theorem orphan_self {o : Object} (ho : g id = some o) : g.orphan id id = some o.orphan := by
  rw [orphan, Function.update_self, ho, Option.map_some]

theorem orphan_of_ne (hi : i ≠ id) : g.orphan id i = g i := Function.update_of_ne hi _ _

theorem orphan_update {t : Tile} (ht : g id = some (.tile t)) (parent : Option NodeId) :
    orphan (Function.update g id (some (.tile { t with parent }))) id = g.orphan id := by
  funext i
  by_cases hi : i = id
  · rw [hi, orphan_self (Function.update_self ..), orphan_self ht]
    rfl
  · rw [orphan_of_ne hi, orphan_of_ne hi, Function.update_of_ne hi]

theorem Reach.of_orphan (h : (g.orphan id).Reach P i) : g.Reach P i := by
  induction h with
  | root h => exact .root h
  | @link i o l _ ho hl ih =>
    by_cases hi : i = id
    · subst hi
      obtain ⟨p, hp, rfl⟩ := Option.map_eq_some_iff.1 ((Function.update_self i _ g).symm.trans ho)
      exact .link ih hp (Object.links_orphan hl)
    · exact .link ih ((orphan_of_ne hi).symm.trans ho) hl

theorem Keeps.orphan (h : g.Keeps P g') (hid : g.Reach P id) : (g.orphan id).Keeps P (g'.orphan id) := by
  intro i hi
  by_cases heq : i = id
  · rw [heq, Fragment.orphan, Fragment.orphan, Function.update_self, Function.update_self, h id hid]
  · rw [orphan_of_ne heq, orphan_of_ne heq, h i hi.of_orphan]

end Fragment

/-! ## Isomorphisms -/

variable {ρ : NodeId → NodeId → Prop} {g g' h h' : Fragment} {a b : NodeId}

theorem Corresponds.orphan (hρ : Corresponds ρ g h) (hab : ρ a b) :
    Corresponds ρ (g.orphan a) (h.orphan b) := by
  refine ⟨fun i j hij => ?_, hρ.unique⟩
  obtain ⟨o, o', ho, ho', hlike⟩ := hρ.like i j hij
  by_cases hi : i = a
  · obtain rfl : j = b := (hρ.unique i a j b hij hab).1 hi
    subst hi
    exact ⟨_, _, Fragment.orphan_self ho, Fragment.orphan_self ho', hlike.orphan⟩
  · have hj : j ≠ b := fun hj => hi ((hρ.unique i a j b hij hab).2 hj)
    exact ⟨o, o', (Fragment.orphan_of_ne hi).trans ho, (Fragment.orphan_of_ne hj).trans ho', hlike⟩

namespace Isomorphism

/-- It stays one as long as what can be reached stays as it is. -/
theorem of_keeps (hρ : Isomorphism ρ g a h b) (hg : g.Keeps [a] g') (hh : h.Keeps [b] h') :
    Isomorphism ρ g' a h' b where
  like i j hij := by
    obtain ⟨o, o', ho, ho', hlike⟩ := hρ.like i j hij
    exact ⟨o, o', (hg i ((hρ.domain i).1 ⟨j, hij⟩)).trans ho, (hh j ((hρ.range j).1 ⟨i, hij⟩)).trans ho', hlike⟩
  unique := hρ.unique
  root := hρ.root
  domain i := (hρ.domain i).trans hg.reach_iff.symm
  range j := (hρ.range j).trans hh.reach_iff.symm

end Isomorphism

end Mosaic
