import Mathlib.Data.Set.Card
import Mosaic.Proofs.Cadence.Like
import Mosaic.Proofs.Cadence.Logic
import Mosaic.Store.Copy

/-!
# What was copied

`Copied E P V U cs g` is what holds of a fragment while the copies `cs` of what can be reached from `V`
are made: a copy is new, cannot be reached from the roots `P`, and is like what it is a copy of, unless
that is still being copied (`U`). Allocations keep it as long as the copies are held, and replacing a copy
that is being made does, too. What is not copied yet (`Copies.left`) bounds how deep the copying can go.
-/

namespace Mosaic

open Mosaic.Graph (NodeId)

namespace Copies

variable {cs cs' cs'' : Copies} {i j : NodeId}

/-- The one node is a copy of the other. -/
def Sends (cs : Copies) (i j : NodeId) : Prop := cs[i]? = some j

/-- Some more copies were made. -/
def Extends (cs cs' : Copies) : Prop := ∀ i j, cs.Sends i j → cs'.Sends i j

theorem Extends.refl (cs : Copies) : cs.Extends cs := fun _ _ h => h

theorem Extends.trans (h : cs.Extends cs') (h' : cs'.Extends cs'') : cs.Extends cs'' :=
  fun i j hj => h' i j (h i j hj)

theorem Sends.mem_values (h : cs.Sends i j) : j ∈ cs.values := Mosaic.mem_values.2 ⟨i, h⟩

theorem sends_insert_self : Sends (cs.insert i j) i j := Std.ExtTreeMap.getElem?_insert_self

theorem extends_insert (hi : cs[i]? = none) : cs.Extends (cs.insert i j) := by
  intro i' j' h
  have hne : i ≠ i' := by
    rintro rfl
    rw [Sends, hi] at h
    cases h
  simpa [Sends, Std.ExtTreeMap.getElem?_insert, hne] using h

/-- What can be reached and is not copied yet. -/
def left (cs : Copies) (V : List NodeId) (g : Fragment) : Set NodeId :=
  {i | g.Reach V i ∧ cs[i]? = none}

end Copies

open Copies

theorem Fragment.Keeps.of_reach {g g' : Fragment} {P V : List NodeId} (h : g.Keeps P g')
    (hV : ∀ v ∈ V, g.Reach P v) : g.Keeps V g' :=
  fun id hid => h id (hid.of_reach hV)

theorem Copies.left_mono {cs cs' : Copies} {V : List NodeId} {g g' : Fragment} (hc : cs.Extends cs')
    (hg : g.Keeps V g') : cs'.left V g' ⊆ cs.left V g := by
  rintro i ⟨hr, hi⟩
  refine ⟨hg.reach_iff.1 hr, ?_⟩
  cases hci : cs[i]? with
  | none => rfl
  | some j =>
    rw [hc i j hci] at hi
    cases hi

theorem Copies.left_insert {cs : Copies} {V : List NodeId} {g g' : Fragment} {id copy : NodeId} {d : Nat}
    (hg : g.Keeps V g') (hr : g.Reach V id) (hid : cs[id]? = none)
    (hd : (cs.left V g).encard < (d + 1 : Nat)) :
    (Copies.left (cs.insert id copy) V g').encard < d := by
  have hsub : Copies.left (cs.insert id copy) V g' ⊆ cs.left V g \ {id} := by
    intro i hi
    refine ⟨left_mono (extends_insert hid) hg hi, ?_⟩
    rintro rfl
    have hnone := hi.2
    rw [Std.ExtTreeMap.getElem?_insert_self] at hnone
    cases hnone
  have hone : (cs.left V g \ {id}).encard + 1 = (cs.left V g).encard :=
    Set.encard_sdiff_singleton_add_one ⟨hr, hid⟩
  refine lt_of_le_of_lt (Set.encard_le_encard hsub) (lt_of_add_lt_add_right (a := 1) ?_)
  rw [hone]
  exact_mod_cast hd

/-- What holds while copies are made. -/
structure Copied (E : Setting) (P V : List NodeId) (U : NodeId → Prop) (cs : Copies) (g : Fragment) :
    Prop where
  rooted : ∀ v ∈ V, g.Reach P v
  origin : ∀ i j, cs.Sends i j → g.Reach V i
  typed : ∀ i j, cs.Sends i j → ∃ t, g.At t i ∧ g.At t j
  apart : ∀ i j, cs.Sends i j → ¬ g.Reach P j
  new : ∀ i j, cs.Sends i j → E.start ≤ j
  injective : ∀ i i' j, cs.Sends i j → cs.Sends i' j → i = i'
  like : ∀ i j, cs.Sends i j → ¬ U i → ∃ o o', g i = some o ∧ g j = some o' ∧ o.Like cs.Sends o'

namespace Copied

variable {E : Setting} {P V : List NodeId} {U : NodeId → Prop} {cs : Copies} {g g' : Fragment}
  {t : ObjectType} {i j id copy : NodeId}

theorem empty (hV : ∀ v ∈ V, g.Reach P v) : Copied E P V U {} g := by
  have hno : ∀ i j, ¬ Sends {} i j := fun i j h => by simp [Sends] at h
  exact ⟨hV, fun i j h => (hno i j h).elim, fun i j h => (hno i j h).elim,
    fun i j h => (hno i j h).elim, fun i j h => (hno i j h).elim, fun i _ j h => (hno i j h).elim,
    fun i j h => (hno i j h).elim⟩

theorem reach (h : Copied E P V U cs g) (hc : cs.Sends i j) : g.Reach P i :=
  (h.origin i j hc).of_reach h.rooted

theorem ne (h : Copied E P V U cs g) (hi : g.Reach P i) (hc : cs.Sends id j) : i ≠ j :=
  fun heq => h.apart id j hc (heq ▸ hi)

theorem at_copy (h : Copied E P V U cs g) (hc : cs.Sends i j) (hi : g.At t i) : g.At t j := by
  obtain ⟨t', ⟨o, ho, rfl⟩, hj⟩ := h.typed i j hc
  rwa [hi.type_eq ho] at hj

theorem isSome_values (h : Copied E P V U cs g) : ∀ j ∈ cs.values, (g j).isSome = true := by
  intro j hj
  obtain ⟨i, hi⟩ := mem_values.1 hj
  obtain ⟨_, _, hj⟩ := h.typed i j hi
  exact hj.isSome

theorem ne_of_none (h : Copied E P V U cs g) (hid : g id = none) (hc : cs.Sends i j) : j ≠ id := by
  rintro rfl
  have := h.isSome_values j hc.mem_values
  rw [hid] at this
  cases this

/-- The copies stay as they are, and so does what can be reached from the roots. -/
theorem keep (h : Copied E P V U cs g) (hg : g.Keeps P g') (hcs : ∀ i j, cs.Sends i j → g' j = g j) :
    Copied E P V U cs g' where
  rooted v hv := hg.reach (h.rooted v hv)
  origin i j hc := (hg.of_reach h.rooted).reach (h.origin i j hc)
  typed i j hc := by
    obtain ⟨t, hi, hj⟩ := h.typed i j hc
    exact ⟨t, hg.has (h.reach hc) hi, hj.of_eq (hcs i j hc)⟩
  apart i j hc hr := h.apart i j hc (hg.reach_iff.1 hr)
  new := h.new
  injective := h.injective
  like i j hc hi := by
    obtain ⟨o, o', ho, ho', hlike⟩ := h.like i j hc hi
    exact ⟨o, o', (hg i (h.reach hc)).trans ho, (hcs i j hc).trans ho', hlike⟩

theorem insert (h : Copied E P V U cs g) (hid : cs[id]? = none) (hr : g.Reach V id) (ht : g.At t id)
    (ht' : g.At t copy) (hapart : ¬ g.Reach P copy) (hnew : E.start ≤ copy)
    (hcopy : ∀ i, ¬ cs.Sends i copy) :
    Copied E P V (fun i => U i ∨ i = id) (cs.insert id copy) g := by
  have hcases : ∀ i j, Sends (cs.insert id copy) i j → i = id ∧ j = copy ∨ cs.Sends i j :=
    fun i j hc => (getElem?_insert_cases hc).imp_right And.right
  refine ⟨h.rooted, fun i j hc => ?_, fun i j hc => ?_, fun i j hc => ?_, fun i j hc => ?_,
    fun i i' j hc hc' => ?_, fun i j hc hi => ?_⟩
  · rcases hcases i j hc with ⟨rfl, rfl⟩ | hc
    · exact hr
    · exact h.origin i j hc
  · rcases hcases i j hc with ⟨rfl, rfl⟩ | hc
    · exact ⟨t, ht, ht'⟩
    · exact h.typed i j hc
  · rcases hcases i j hc with ⟨rfl, rfl⟩ | hc
    · exact hapart
    · exact h.apart i j hc
  · rcases hcases i j hc with ⟨rfl, rfl⟩ | hc
    · exact hnew
    · exact h.new i j hc
  · rcases hcases i j hc with ⟨hi, hj⟩ | hold <;> rcases hcases i' j hc' with ⟨hi', hj'⟩ | hold'
    · exact hi.trans hi'.symm
    · exact (hcopy i' (hj ▸ hold')).elim
    · exact (hcopy i (hj' ▸ hold)).elim
    · exact h.injective i i' j hold hold'
  · rcases hcases i j hc with ⟨rfl, rfl⟩ | hc
    · exact (hi (.inr rfl)).elim
    · obtain ⟨o, o', ho, ho', hlike⟩ := h.like i j hc fun hU => hi (.inl hU)
      exact ⟨o, o', ho, ho', hlike.mono (extends_insert hid)⟩

/-- What was being copied has been copied. -/
theorem finish (h : Copied E P V (fun i => U i ∨ i = id) cs g) (hc : cs.Sends id copy)
    {o o' : Object} (ho : g id = some o) (hlike : o.Like cs.Sends o') :
    Copied E P V U cs (Function.update g copy (some o')) := by
  have hof : ∀ i, i ≠ copy → Function.update g copy (some o') i = g i :=
    fun i hi => Function.update_of_ne hi _ _
  have hkeeps : g.Keeps P (Function.update g copy (some o')) := fun i hi => hof i (h.ne hi hc)
  have hid : Function.update g copy (some o') id = some o := (hof id (h.ne (h.reach hc) hc)).trans ho
  refine ⟨fun v hv => hkeeps.reach (h.rooted v hv),
    fun i j hij => (hkeeps.of_reach h.rooted).reach (h.origin i j hij), fun i j hij => ?_,
    fun i j hij hr => h.apart i j hij (hkeeps.reach_iff.1 hr), h.new, h.injective, fun i j hij hi => ?_⟩
  · by_cases hj : j = copy
    · subst hj
      obtain rfl := h.injective i id j hij hc
      exact ⟨o.type, ⟨o, hid, rfl⟩, ⟨o', Function.update_self .., hlike.type_eq⟩⟩
    · obtain ⟨t, hi, hj'⟩ := h.typed i j hij
      exact ⟨t, hkeeps.has (h.reach hij) hi, hj'.of_eq (hof j hj)⟩
  · by_cases hj : j = copy
    · subst hj
      obtain rfl := h.injective i id j hij hc
      exact ⟨o, o', hid, Function.update_self .., hlike⟩
    · have hne : i ≠ id := by
        rintro rfl
        exact hj (Option.some.inj (hij.symm.trans hc))
      obtain ⟨p, p', hp, hp', hpp⟩ := h.like i j hij fun hU => hU.elim hi hne
      exact ⟨p, p', (hkeeps i (h.reach hij)).trans hp, (hof j hj).trans hp', hpp⟩

end Copied

end Mosaic
