import Mosaic.Proofs.Cadence.Primitives
import Mosaic.Proofs.Tiles.Locations
import Mosaic.Proofs.Tiles.Orphans
import Mosaic.Proofs.Tiles.Patches

/-!
# Tiles are copied into a patch

Whenever collections come between, the tiles of a new patch are copies of the given ones, one for each, that have no
node in common with each other or with what there was (`StoreM.Steady.placeReplicas`). A copy gets its parent, and its
vertices get their locations, before the next tile is copied; it is held from then on, so it stays as it is.
-/

namespace Mosaic

open Mosaic.Graph (NodeId)

open Copies

/-! ## The points of a tile -/

namespace Fragment

variable {g g' : Fragment} {P : List NodeId} {tile patch copy : NodeId} {points : List Point}

/-- The vertices of the tile are at the points, in order. -/
def Points (g : Fragment) (tile : NodeId) (points : List Point) : Prop :=
  ∃ t, g tile = some (.tile t) ∧
    List.Forall₂ (fun v p => ∃ vertex, g v = some (.vertex vertex) ∧ vertex.position = p) t.vertices points

/-- Only what can be reached from the tile matters, but for its parent. -/
theorem Points.congr (h : g.Points tile points) (hsame : ∀ i, (g.orphan tile).Reach [tile] i → g' i = g i) :
    g'.Points tile points := by
  obtain ⟨t, ht, hpoints⟩ := h
  have hroot : (g.orphan tile).Reach [tile] tile := .root (List.mem_singleton.2 rfl)
  refine ⟨t, (hsame tile hroot).trans ht, forall₂_restrict hpoints fun v hv p ⟨vertex, hvertex, hp⟩ =>
    ⟨vertex, (hsame v ?_).trans hvertex, hp⟩⟩
  refine .link (l := (.vertex, v)) hroot (orphan_self ht) ?_
  simpa [Object.orphan, Object.links] using .inl hv

theorem Points.of_keeps (h : g.Points tile points) (hg : g.Keeps P g') (htile : g.Reach P tile) :
    g'.Points tile points :=
  h.congr fun i hi => hg i (hi.of_orphan.of_reach (by simpa using htile))

end Fragment

theorem forall₂_comp {α β γ : Type} {R : α → β → Prop} {S : β → γ → Prop} {T : α → γ → Prop} {as : List α}
    {bs : List β} {cs : List γ} (h : List.Forall₂ R as bs) (h' : List.Forall₂ S bs cs)
    (hT : ∀ a b c, R a b → S b c → T a c) : List.Forall₂ T as cs := by
  induction h generalizing cs with
  | nil => cases h'; exact .nil
  | cons hab _ ih =>
    cases h' with
    | cons hbc hrest => exact .cons (hT _ _ _ hab hbc) (ih hrest)

theorem Isomorphism.points {ρ : NodeId → NodeId → Prop} {g h : Fragment} {a b : NodeId} {points : List Point}
    (hρ : Isomorphism ρ (g.orphan a) a (h.orphan b) b) (hb : h.Points b points) : g.Points a points := by
  obtain ⟨t', ht', hpoints⟩ := hb
  obtain ⟨o, o', ho, ho', hlike⟩ := hρ.like a b hρ.root
  obtain rfl := Option.some.inj ((Fragment.orphan_self ht').symm.trans ho')
  obtain ⟨p, hp, hop⟩ := Option.map_eq_some_iff.1 ((Function.update_self a _ g).symm.trans ho)
  cases p with
  | tile t =>
    subst hop
    cases hlike with
    | tile vertices =>
      refine ⟨t, hp, forall₂_comp vertices hpoints fun v v' p hv ⟨vertex', hv', hposition⟩ => ?_⟩
      obtain ⟨x, x', hx, hx', hlike'⟩ := hρ.like v v' hv
      have hne' : v' ≠ b := by
        rintro rfl
        cases ht'.symm.trans hv'
      obtain rfl := Option.some.inj (((Fragment.orphan_of_ne hne').trans hv').symm.trans hx')
      have hne : v ≠ a := by
        rintro rfl
        exact hne' ((hρ.unique v v v' b hv hρ.root).1 rfl)
      cases hlike' with
      | vertex tile position => exact ⟨_, (Fragment.orphan_of_ne hne).symm.trans hx, position.symm.trans hposition⟩
  | _ => subst hop; cases hlike

/-! ## Copies of tiles -/

/-- There is a copy of the tile in the patch. But for the parent, it is isomorphic to the tile, and its nodes are new,
and cannot be reached from `P`. -/
structure Replica (start : NodeId) (P : List NodeId) (patch : NodeId) (g g' : Fragment) (tile copy : NodeId) :
    Prop where
  parent : ∃ t, g' copy = some (.tile t) ∧ t.parent = some patch
  copied : ∃ ρ, Isomorphism ρ (g.orphan tile) tile (g'.orphan copy) copy
  new : ∀ i, (g'.orphan copy).Reach [copy] i → start ≤ i
  apart : ∀ i, (g'.orphan copy).Reach [copy] i → ¬ g'.Reach P i

namespace Replica

variable {start : NodeId} {P P' : List NodeId} {patch tile copy : NodeId} {g g₁ g' g'' : Fragment}

theorem orphan_keeps (hsame : ∀ i, (g'.orphan copy).Reach [copy] i → g'' i = g' i) :
    (g'.orphan copy).Keeps [copy] (g''.orphan copy) := by
  intro i hi
  by_cases heq : i = copy
  · rw [heq, Fragment.orphan, Fragment.orphan, Function.update_self, Function.update_self, ← heq, hsame i hi]
  · rw [Fragment.orphan_of_ne heq, Fragment.orphan_of_ne heq, hsame i hi]

theorem congr (h : Replica start P patch g g' tile copy)
    (hsame : ∀ i, (g'.orphan copy).Reach [copy] i → g'' i = g' i) (hkeeps : g'.Keeps P g'') :
    Replica start P patch g g'' tile copy := by
  have horphan := orphan_keeps hsame
  obtain ⟨t, ht, hparent⟩ := h.parent
  obtain ⟨ρ, hρ⟩ := h.copied
  exact ⟨⟨t, (hsame copy (.root (by simp))).trans ht, hparent⟩, ⟨ρ, hρ.of_keeps (.refl _ _) horphan⟩,
    fun i hi => h.new i (horphan.reach_iff.1 hi),
    fun i hi hr => h.apart i (horphan.reach_iff.1 hi) (hkeeps.reach_iff.1 hr)⟩

/-- It stays one as long as it is held. -/
theorem keep (h : Replica start P patch g g' tile copy) (hkeeps : g'.Keeps (P ++ [copy]) g'') :
    Replica start P patch g g'' tile copy :=
  h.congr (fun i hi => hkeeps i (hi.of_orphan.mono (List.subset_append_right P _)))
    (hkeeps.mono (List.subset_append_left P _))

theorem of_keeps (h : Replica start P' patch g₁ g' tile copy) (hkeeps : g.Keeps P g₁) (htile : g.Reach P tile)
    (hP : P ⊆ P') : Replica start P patch g g' tile copy := by
  obtain ⟨ρ, hρ⟩ := h.copied
  have horphan : (g.orphan tile).Keeps [tile] (g₁.orphan tile) :=
    Fragment.Keeps.orphan (fun i hi => hkeeps i (hi.of_reach (by simpa using htile))) (.root (by simp))
  exact ⟨h.parent, ⟨ρ, hρ.of_keeps horphan.symm (.refl _ _)⟩, h.new, fun i hi hr => h.apart i hi (hr.mono hP)⟩

end Replica

/-- The copies of the tiles in the patch. They have nothing in common. -/
structure Replicas (start : NodeId) (P : List NodeId) (patch : NodeId) (g g' : Fragment)
    (tiles copies : List NodeId) : Prop where
  each : List.Forall₂ (Replica start P patch g g') tiles copies
  disjoint : copies.Pairwise fun a b => ∀ i, (g'.orphan a).Reach [a] i → ¬ (g'.orphan b).Reach [b] i

namespace Replicas

variable {start : NodeId} {P P' : List NodeId} {patch tile copy : NodeId} {g g₁ g' g'' : Fragment}
  {tiles copies : List NodeId}

theorem parent (h : Replicas start P patch g g' tiles copies) (hcopy : copy ∈ copies) :
    ∃ t, g' copy = some (.tile t) ∧ t.parent = some patch := by
  obtain ⟨_, _, hreplica⟩ := exists_of_forall₂ h.each hcopy
  exact hreplica.parent

theorem apart (h : Replicas start P patch g g' tiles copies) (hcopy : copy ∈ copies) {i : NodeId}
    (hi : (g'.orphan copy).Reach [copy] i) : ¬ g'.Reach P i := by
  obtain ⟨_, _, hreplica⟩ := exists_of_forall₂ h.each hcopy
  exact hreplica.apart i hi

theorem cons (h : Replica start P patch g g' tile copy)
    (hrest : Replicas start (P ++ [copy]) patch g₁ g' tiles copies) (hkeeps : g.Keeps P g₁)
    (htiles : ∀ tile ∈ tiles, g.Reach P tile) : Replicas start P patch g g' (tile :: tiles) (copy :: copies) where
  each := .cons h (forall₂_restrict hrest.each fun tile htile _ hreplica =>
    hreplica.of_keeps hkeeps (htiles tile htile) (List.subset_append_left ..))
  disjoint := by
    refine List.pairwise_cons.2 ⟨fun b hb i hi hi' => ?_, hrest.disjoint⟩
    exact hrest.apart hb hi' (hi.of_orphan.mono (List.subset_append_right ..))

/-- The copies stay copies as long as they stay as they are. -/
theorem congr (h : Replicas start P patch g g' tiles copies)
    (hsame : ∀ copy ∈ copies, ∀ i, (g'.orphan copy).Reach [copy] i → g'' i = g' i) (hkeeps : g'.Keeps P g'') :
    Replicas start P patch g g'' tiles copies where
  each := (forall₂_restrict h.each.flip fun copy hcopy _ hreplica =>
    Replica.congr hreplica (hsame copy hcopy) hkeeps).flip
  disjoint := h.disjoint.imp_of_mem fun ha hb hdisjoint i hi hi' =>
    hdisjoint i ((Replica.orphan_keeps (hsame _ ha)).reach_iff.1 hi)
      ((Replica.orphan_keeps (hsame _ hb)).reach_iff.1 hi')

theorem of_keeps (h : Replicas start P' patch g₁ g' tiles copies) (hkeeps : g.Keeps P g₁)
    (htiles : ∀ tile ∈ tiles, g.Reach P tile) (hP : P ⊆ P') : Replicas start P patch g g' tiles copies :=
  ⟨forall₂_restrict h.each fun tile htile _ hreplica => hreplica.of_keeps hkeeps (htiles tile htile) hP, h.disjoint⟩

theorem nodup (h : Replicas start P patch g g' tiles copies) : copies.Nodup := by
  refine List.Pairwise.imp (fun {a b} hdisjoint => ?_) h.disjoint
  rintro rfl
  exact hdisjoint a (.root (by simp)) (.root (by simp))

end Replicas

namespace StoreM

variable {E : Setting} {P : List NodeId} {g : Fragment} {patch tile : NodeId} {tiles : List NodeId}
  {table : Locations}

/-- A copy of a tile is isomorphic to it, and new. -/
theorem Steady.copyTile (hid : g.At .tile tile) (hr : g.Reach P tile) :
    Steady E P [] g (StoreM.copyObject .tile tile) fun g' copy =>
      (∃ t, g' copy = some (.tile t)) ∧ ¬ g'.Reach P copy ∧
        ∃ ρ, Isomorphism ρ (g.orphan tile) tile (g'.orphan copy) copy ∧
          ∀ i, (g'.orphan copy).Reach [copy] i → E.start ≤ i ∧ ¬ g'.Reach P i := by
  have hempty : Copied E P [tile] (fun _ => False) {} g := .empty (by simpa using hr)
  rw [StoreM.copyObject, StateT.run'_eq, map_eq_pure_bind]
  refine Agree.bind (CopyM.Agree.copyObject hid (.root (by simp)) hempty) fun g' r hlead hc => Agree.ret ?_
  obtain ⟨hc, _, _, hsends⟩ := hc
  have hcopies : Corresponds r.2.Sends g g' := by
    refine ⟨fun i j hij => ?_, fun i i' j j' hij hij' => ⟨fun heq => ?_, fun heq => ?_⟩⟩
    · obtain ⟨o, o', ho, ho', hlike⟩ := hc.like i j hij not_false
      exact ⟨o, o', (hlead.keeps i (hlead.keeps.reach_iff.1 (hc.reach hij))).symm.trans ho, ho', hlike⟩
    · exact Option.some.inj (hij.symm.trans (heq ▸ hij'))
    · exact hc.injective i i' j hij (heq ▸ hij')
  have hisomorphism := (hcopies.orphan hsends).isomorphism hsends
  refine ⟨(hc.at_copy hsends (hlead.keeps.has hr hid)).tile, hc.apart tile r.1 hsends, _, hisomorphism,
    fun j hj => ?_⟩
  obtain ⟨i, hij, -⟩ := (hisomorphism.range j).2 hj
  exact ⟨hc.new i j hij, hc.apart i j hij⟩

theorem Steady.tilePoints_points {t : Tile} (ht : g tile = some (.tile t)) :
    Steady E P [tile] g (StoreM.tilePoints t) fun g' points => g' = g ∧ g.Points tile points := by
  refine Agree.known fun hclosed => ?_
  refine (Agree.mapM (S := fun v p => ∃ vertex, g v = some (.vertex vertex) ∧ vertex.position = p)
    fun v hv => ?_).imp fun g' points _ h => ⟨h.1, t, ht, h.2⟩
  obtain ⟨vertex, hvertex⟩ := (hclosed tile _ ht (.vertex, v) (by simpa [Object.links] using .inl hv)).vertex
  refine Agree.readThen (S := fun x => x = vertex)
    ((Agree.fetch (k := Object.vertices) hvertex).imp fun _ _ _ h => ⟨h.1, h.2.1⟩) fun x hx => ?_
  subst hx
  exact Agree.ret ⟨rfl, x, hvertex, rfl⟩

theorem Steady.adopt {copy : NodeId} {t : Tile} (ht : g copy = some (.tile t)) (hcopy : ¬ g.Reach P copy)
    (hpatch : g.At .patch patch) :
    Steady E P [copy] g (StoreM.update Object.tiles copy fun t => { t with parent := some patch }) fun g' _ =>
      g' = Function.update g copy (some (.tile { t with parent := some patch })) := by
  refine Agree.known fun hclosed => Agree.update (k := Object.tiles) ht hcopy (fun l hl => ?_) fun l hl => by cases hl
  have hlinks := hclosed copy _ ht l
  simp only [Object.tiles, Object.links, List.mem_append] at hl hlinks ⊢
  rcases hl with ((hl | hl) | hl) | hl
  · exact hlinks (.inl (.inl (.inl hl)))
  · exact hlinks (.inl (.inl (.inr hl)))
  · obtain rfl : l = (.patch, patch) := by simpa using hl
    exact hpatch
  · exact hlinks (.inr hl)

/-- The tiles are copied one after the other, and the locations of all of their vertices are interned in order. -/
theorem Steady.placeReplicas (hpatch : g.Reach P patch ∧ g.At .patch patch)
    (htiles : ∀ tile ∈ tiles, g.Reach P tile ∧ g.At .tile tile) :
    Steady E P [] g (StoreM.placeTiles patch table tiles) fun g' r =>
      Replicas E.start P patch g g' tiles (r.1.map Prod.fst) ∧ ∃ points : List (List Point),
        List.Forall₂ g.Points tiles points ∧ List.Forall₂ g'.Points (r.1.map Prod.fst) points ∧
          List.Forall₂ (fun is ps => is.length = ps.length) (r.1.map Prod.snd) points ∧
          table.internAll points.flatten = ((r.1.map Prod.snd).flatten, r.2) := by
  induction tiles generalizing P g table with
  | nil => exact Agree.ret ⟨⟨.nil, .nil⟩, [], .nil, .nil, .nil, rfl⟩
  | cons tile tiles ih =>
    obtain ⟨hr, hid⟩ := htiles tile (by simp)
    refine Agree.bind (copyTile hid hr) fun g₁ copy hlead₁ hcopy => ?_
    obtain ⟨⟨t, ht⟩, hapart, ρ, hρ, hnew⟩ := hcopy
    have hpatch₁ := hlead₁.keeps.has hpatch.1 hpatch.2
    refine Agree.keeping (by simp [ht]) (Agree.bind (adopt ht hapart hpatch₁) fun g₂ _ hlead₂ hg₂ => ?_)
    have hkeeps₂ : g.Keeps P g₂ := hlead₁.keeps.trans hlead₂.keeps
    have hcopy₂ : g₂ copy = some (.tile { t with parent := some patch }) := by rw [hg₂, Function.update_self]
    have horphan : g₂.orphan copy = g₁.orphan copy := by rw [hg₂, Fragment.orphan_update ht]
    rw [← horphan] at hρ hnew
    have hreplica : Replica E.start P patch g g₂ tile copy :=
      ⟨⟨_, hcopy₂, rfl⟩, ⟨ρ, hρ⟩, fun i hi => (hnew i hi).1, fun i hi hreach =>
        (hnew i hi).2 (hlead₂.keeps.reach_iff.1 hreach)⟩
    refine Agree.readThen (S := fun t' => t' = { t with parent := some patch })
      ((Agree.fetch (k := Object.tiles) hcopy₂).imp fun _ _ _ h => ⟨h.1, h.2.1⟩) fun t' ht' => ?_
    subst ht'
    refine Agree.bind (tilePoints_points hcopy₂) fun g₃ points _ hpoints => ?_
    obtain ⟨rfl, hpoints⟩ := hpoints
    -- The copy is held from now on.
    have htiles₂ : ∀ tile ∈ tiles, g₃.Reach (P ++ [copy]) tile ∧ g₃.At .tile tile := by
      intro tile htile
      obtain ⟨hr, hid⟩ := htiles tile (by simp [htile])
      exact ⟨(hkeeps₂.reach hr).mono (List.subset_append_left ..), hkeeps₂.has hr hid⟩
    have hpatch₂ : g₃.Reach (P ++ [copy]) patch ∧ g₃.At .patch patch :=
      ⟨(hkeeps₂.reach hpatch.1).mono (List.subset_append_left ..), hkeeps₂.has hpatch.1 hpatch.2⟩
    refine Agree.bind (Agree.protect (ih hpatch₂ htiles₂)) fun g₄ r _ hplaced => Agree.ret ?_
    obtain ⟨hkeeps₄, hreplicas, pointss, hbefore, hafter, hlengths, hinterned⟩ := hplaced
    refine ⟨.cons (hreplica.keep hkeeps₄) hreplicas hkeeps₂ fun tile htile => (htiles tile (by simp [htile])).1,
      points :: pointss, .cons (hρ.points hpoints) (forall₂_restrict hbefore fun tile htile _ hp => ?_),
      .cons (hpoints.of_keeps hkeeps₄ (.root (by simp))) hafter, .cons (table.internAll_spec points).1 hlengths, ?_⟩
    · exact hp.of_keeps hkeeps₂.symm (hkeeps₂.reach (htiles tile (by simp [htile])).1)
    · rw [List.flatten_cons, Locations.internAll_append, hinterned]
      rfl

end StoreM

end Mosaic
