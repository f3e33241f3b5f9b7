import Mosaic.Proofs.Cadence.Copied
import Mosaic.Proofs.Graph.Collect
import Mosaic.Proofs.Outline

/-!
# What is shown of fragments

The text of a value depends on the objects that it shows only: where two fragments correspond node by
node, corresponding values have the same outline (`labelAt_eq`), so they are shown alike (`display_eq`).
-/

namespace Mosaic

open Mosaic.Graph (NodeId Pool)

theorem Object.Like.label_eq {ρ : NodeId → NodeId → Prop} {o o' : Object} (h : o.Like ρ o') :
    o'.label = o.label := by
  cases h with
  | tile vertices edges parent fields => simp only [Object.label, vertices.length_eq]
  | vertex tile position index fields => simp only [Object.label, position]
  | edge tile index fields => simp only [Object.label, index]
  | patch tiles locations tileLocations fields => simp only [Object.label, tiles.length_eq]
  | cluster items fields => simp only [Object.label, items.length_eq]
  | lambda label params body free closure fields => simp only [Object.label, label, Lambda.arity, params]

theorem Object.exists_cluster {o : Object} (h : o.type = .cluster) : ∃ c, o = .cluster c := by
  cases o with
  | cluster c => exact ⟨c, rfl⟩
  | _ => cases h

/-- The pool has the objects of the fragment. -/
def Fragment.In (g : Fragment) (p : Pool Object) : Prop :=
  ∀ id o, g id = some o → ∃ e, p.entries[id]? = some e ∧ e.node = o

namespace Fragment

variable {g : Fragment} {p : Pool Object} {V : List NodeId} {id : NodeId}

theorem In.get {α : Type} {k : Graph.Kind Object α} {a : α} (h : g.In p) (ha : g id = some (k.wrap a)) :
    p.get k id = .ok a := by
  obtain ⟨e, he, hn⟩ := h id _ ha
  exact Pool.get_eq_ok_iff.2 ⟨e, he, hn⟩

theorem encard_le_size (hin : g.In p) (hsome : ∀ i, g.Reach V i → (g i).isSome = true) :
    {i | g.Reach V i}.encard ≤ p.size := by
  have hsub : {i | g.Reach V i} ⊆ {i | p.entries.contains i = true} := by
    intro i hi
    obtain ⟨o, ho⟩ := Option.isSome_iff_exists.1 (hsome i hi)
    obtain ⟨e, he, _⟩ := hin i o ho
    exact Pool.contains_of_getElem? he
  have hfin : {i | p.entries.contains i = true}.Finite :=
    (List.finite_toSet p.entries.keys).subset fun i hi => Std.ExtTreeMap.mem_keys.2 hi
  refine (Set.encard_le_encard hsub).trans ?_
  rw [← hfin.cast_ncard_eq, Graph.ncard_contains]
  exact le_refl _

end Fragment

/-- Two fragments correspond node by node. -/
structure Corresponds (ρ : NodeId → NodeId → Prop) (g h : Fragment) : Prop where
  like : ∀ i j, ρ i j → ∃ o o', g i = some o ∧ h j = some o' ∧ o.Like ρ o'
  unique : ∀ i i' j j', ρ i j → ρ i' j' → (i = i' ↔ j = j')

namespace Corresponds

variable {ρ : NodeId → NodeId → Prop} {g h : Fragment} {p q : Pool Object} {V V' : List NodeId}

theorem mem_iff (hρ : Corresponds ρ g h) {opened opened' : List NodeId}
    (ho : List.Forall₂ ρ opened opened') {i j : NodeId} (hij : ρ i j) : i ∈ opened ↔ j ∈ opened' := by
  induction ho with
  | nil => simp
  | cons hab _ ih => rw [List.mem_cons, List.mem_cons, ih, hρ.unique _ _ _ _ hij hab]

theorem nodup (hρ : Corresponds ρ g h) {above above' : List NodeId} (ha : List.Forall₂ ρ above above')
    (hnodup : above.Nodup) : above'.Nodup := by
  induction ha with
  | nil => exact .nil
  | cons hab hrest ih =>
    obtain ⟨hnot, hnodup⟩ := List.nodup_cons.1 hnodup
    exact (ih hnodup).cons fun hmem => hnot ((hρ.mem_iff hrest hab).2 hmem)

/-- Corresponding data are shown alike, but for what is below. -/
theorem label_eq (hρ : Corresponds ρ g h) (hp : g.In p) (hq : h.In q) {above above' : List NodeId}
    (ha : List.Forall₂ ρ above above') {d d' : Datum} (hd : d.Like ρ d') (hat : ∀ l, d.link? = some l → g.At l.1 l.2) :
    d'.label q above' = d.label p above := by
  cases d with
  | object t i =>
    obtain ⟨j, rfl, hij⟩ := hd
    obtain ⟨o, o', ho, ho', hlike⟩ := hρ.like i j hij
    obtain rfl : o.type = t := (hat _ rfl).type_eq ho
    by_cases ht : o.type = .cluster
    · obtain ⟨c, rfl⟩ := Object.exists_cluster ht
      cases hlike with
      | @cluster _ c' items fields =>
        by_cases hi : i ∈ above
        · exact (Datum.label_of_mem ((hρ.mem_iff ha hij).1 hi)).trans (Datum.label_of_mem hi).symm
        · have hj : j ∉ above' := fun hj => hi ((hρ.mem_iff ha hij).2 hj)
          exact (Datum.label_cluster hj (hq.get (k := Object.clusters) ho')).trans
            (Datum.label_cluster hi (hp.get (k := Object.clusters) ho)).symm
    · rw [Datum.label_object ht (hp.get (k := Object.ofType o.type) (a := ⟨o, rfl⟩) ho),
        Datum.label_object ht (hq.get (k := Object.ofType o.type) (a := ⟨o', hlike.type_eq⟩) ho'), hlike.label_eq]
  | _ => subst hd; rfl

theorem labelAt_eq (hρ : Corresponds ρ g h) (hg : g.Closed) (hp : g.In p) (hq : h.In q) {above above' : List NodeId}
    (ha : List.Forall₂ ρ above above') (hnodup : above.Nodup) {d d' : Datum} (hd : d.Like ρ d')
    (hat : ∀ l, d.link? = some l → g.At l.1 l.2) (path : List Nat) :
    d'.labelAt q above' path = d.labelAt p above path := by
  induction path generalizing above above' d d' with
  | nil =>
    rw [Datum.labelAt_nil hnodup, Datum.labelAt_nil (hρ.nodup ha hnodup), hρ.label_eq hp hq ha hd hat]
  | cons n path ih =>
    cases d with
    | object t i =>
      obtain ⟨j, rfl, hij⟩ := hd
      obtain ⟨o, o', ho, ho', hlike⟩ := hρ.like i j hij
      obtain rfl : o.type = t := (hat _ rfl).type_eq ho
      by_cases ht : o.type = .cluster
      · obtain ⟨c, rfl⟩ := Object.exists_cluster ht
        cases hlike with
        | @cluster _ c' items fields =>
          by_cases hi : i ∈ above
          · exact (Datum.labelAt_of_mem ((hρ.mem_iff ha hij).1 hi)).trans (Datum.labelAt_of_mem hi).symm
          · rw [Object.type, Datum.labelAt_item (hp.get (k := Object.clusters) ho),
              Datum.labelAt_item (hq.get (k := Object.clusters) ho')]
            refine bind_getElem?_of_forall₂ items (fun e e' he hlike => ?_) n
            have hlinks (l : Link) (hl : e.link? = some l) : l ∈ (Object.cluster c).links :=
              List.mem_append_left _ (List.mem_filterMap.2 ⟨e, he, hl⟩)
            exact ih (.cons hij ha) (hnodup.cons hi) hlike fun l hl => hg i _ ho l (hlinks l hl)
      · rw [Datum.labelAt_object ht, Datum.labelAt_object ht]
    | _ => subst hd; rfl

theorem display_eq (hρ : Corresponds ρ g h) (hg : g.Closed) (hp : g.In p) (hq : h.In q) {v w : Value}
    (hv : v.Like ρ w) (hat : g.Good v) : w.display q = v.display p := by
  cases v with
  | fieldRef binding field => obtain rfl : w = .fieldRef binding field := hv; rfl
  | datum d =>
    obtain ⟨d', rfl, hd⟩ := hv
    obtain ⟨t, ht, hshown⟩ := Value.exists_outlined p (.datum d)
    obtain ⟨t', ht', hshown'⟩ := Value.exists_outlined q (.datum d')
    have hsame : d'.Outlined q [] t := fun path => (ht path).trans (hρ.labelAt_eq hg hp hq .nil .nil hd hat path).symm
    rw [hshown, hshown', hsame.unique ht']

end Corresponds

/-- What is kept corresponds to itself. -/
theorem Corresponds.of_keeps {g g' : Fragment} {P : List NodeId} (hg : g.Closed)
    (hP : ∀ i ∈ P, (g i).isSome = true) (h : g.Keeps P g') :
    Corresponds (fun i j => i = j ∧ g.Reach P i) g g' := by
  refine ⟨?_, ?_⟩
  · rintro i _ ⟨rfl, hi⟩
    obtain ⟨o, ho⟩ := Option.isSome_iff_exists.1 (hi.isSome hg hP)
    exact ⟨o, o, ho, (h i hi).trans ho, .self fun l hl => ⟨rfl, .link hi ho hl⟩⟩
  · rintro i i' _ _ ⟨rfl, _⟩ ⟨rfl, _⟩
    exact Iff.rfl

end Mosaic
