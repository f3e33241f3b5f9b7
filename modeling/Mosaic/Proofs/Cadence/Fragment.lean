import Mathlib.Data.Finset.Card
import Mosaic.Proofs.Graph.Walk
import Mosaic.Proofs.Maps
import Mosaic.Proofs.Store.Actions

/-!
# What two stores have in common

Two stores that collect at different times differ in what is garbage. What they have in common is a
fragment of a graph: the objects at some addresses, closed under their links, each of which has the type
that the link says. `Twin g s t` says that the stores `s` and `t` both host the fragment `g` and give out
the same addresses. An allocation cuts the fragment down to what can be reached from the pins.
-/

namespace Mosaic

open Mosaic.Graph (NodeId Node Kind Pool Heap Edges Entries)

/-! ## Links -/

/-- A node with the type that it must have. -/
abbrev Link := ObjectType × NodeId

def Datum.link? : Datum → Option Link
  | .object t id => some (t, id)
  | _ => none

def Fields.links (fs : Fields) : List Link := fs.values.filterMap Datum.link?

/-- The nodes that an object points at, with their types. -/
def Object.links : Object → List Link
  | .tile t => t.vertices.map (.vertex, ·) ++ t.edges.map (.edge, ·) ++
      t.parent.toList.map (.patch, ·) ++ t.fields.links
  | .vertex v => v.tile.toList.map (.tile, ·) ++ v.fields.links
  | .edge e => e.tile.toList.map (.tile, ·) ++ e.fields.links
  | .patch p => p.tiles.map (.tile, ·) ++ p.fields.links
  | .cluster c => c.items.filterMap Datum.link? ++ c.fields.links
  | .lambda l => l.closure.links ++ l.fields.links

theorem Datum.node?_eq (d : Datum) : d.node? = d.link?.map Prod.snd := by
  cases d <;> rfl

theorem filterMap_node? (ds : List Datum) :
    ds.filterMap Datum.node? = (ds.filterMap Datum.link?).map Prod.snd := by
  rw [List.map_filterMap]
  exact List.filterMap_congr fun d _ => d.node?_eq

theorem Object.pointers_eq (o : Object) : o.pointers = o.links.map Prod.snd := by
  have hfields : ∀ fs : Fields, fs.pointers = fs.links.map Prod.snd := fun fs => filterMap_node? _
  cases o <;> simp [pointers, links, hfields, filterMap_node?, Function.comp_def]

theorem Fields.mem_links {fs : Fields} {l : Link} :
    l ∈ fs.links ↔ ∃ (name : Name) (d : Datum), fs[name]? = some d ∧ d.link? = some l := by
  simp only [Fields.links, List.mem_filterMap, mem_values]
  constructor
  · rintro ⟨d, ⟨name, h⟩, hd⟩
    exact ⟨name, d, h, hd⟩
  · rintro ⟨name, d, h, hd⟩
    exact ⟨d, ⟨name, h⟩, hd⟩

@[simp] theorem Fields.links_empty : Fields.links {} = [] :=
  List.eq_nil_iff_forall_not_mem.2 fun l h => by simp [Fields.mem_links] at h

/-! ## Fragments -/

/-- The objects at some addresses. -/
abbrev Fragment := NodeId → Option Object

namespace Fragment

variable {g g' : Fragment} {P P' : List NodeId} {t : ObjectType} {id : NodeId} {o : Object}

/-- There is an object of the type at the address. -/
def At (g : Fragment) (t : ObjectType) (id : NodeId) : Prop := ∃ o, g id = some o ∧ o.type = t

/-- Every link leads to an object of its type. -/
def Closed (g : Fragment) : Prop := ∀ id o, g id = some o → ∀ l ∈ o.links, g.At l.1 l.2

/-- The address can be reached from the roots. -/
inductive Reach (g : Fragment) (P : List NodeId) : NodeId → Prop
  | root {id : NodeId} (h : id ∈ P) : Reach g P id
  | link {id : NodeId} {o : Object} {l : Link} (h : Reach g P id) (ho : g id = some o)
    (hl : l ∈ o.links) : Reach g P l.2

/-- What can be reached from the roots is as before. -/
def Keeps (g : Fragment) (P : List NodeId) (g' : Fragment) : Prop := ∀ id, g.Reach P id → g' id = g id

theorem At.type_eq (h : g.At t id) (ho : g id = some o) : o.type = t := by
  obtain ⟨o', ho', ht⟩ := h
  rw [ho] at ho'
  cases ho'
  exact ht

theorem At.isSome (h : g.At t id) : (g id).isSome = true := by
  obtain ⟨o, ho, _⟩ := h
  simp [ho]

theorem At.of_eq (h : g.At t id) (heq : g' id = g id) : g'.At t id := by
  obtain ⟨o, ho, ht⟩ := h
  exact ⟨o, heq.trans ho, ht⟩

theorem At.update {o' : Object} {i : NodeId} (h : g.At t i) (ho : g id = some o) (ht : o'.type = o.type) :
    At (Function.update g id (some o')) t i := by
  by_cases hi : i = id
  · subst hi
    exact ⟨o', Function.update_self .., ht.trans (h.type_eq ho)⟩
  · exact h.of_eq (Function.update_of_ne hi _ _)

theorem not_reach_nil : ¬ g.Reach [] id := by
  intro h
  induction h with
  | root h => cases h
  | link _ _ _ ih => exact ih

theorem Reach.mono (h : g.Reach P id) (hP : P ⊆ P') : g.Reach P' id := by
  induction h with
  | root h => exact .root (hP h)
  | link _ ho hl ih => exact .link ih ho hl

theorem Reach.of_reach (h : g.Reach P id) (hP : ∀ i ∈ P, g.Reach P' i) : g.Reach P' id := by
  induction h with
  | root h => exact hP _ h
  | link _ ho hl ih => exact .link ih ho hl

theorem Reach.isSome (h : g.Reach P id) (hg : g.Closed) (hP : ∀ i ∈ P, (g i).isSome = true) :
    (g id).isSome = true := by
  cases h with
  | root h => exact hP _ h
  | link _ ho hl => exact (hg _ _ ho _ hl).isSome

namespace Keeps

theorem refl (g : Fragment) (P : List NodeId) : g.Keeps P g := fun _ _ => rfl

theorem mono (h : g.Keeps P' g') (hP : P ⊆ P') : g.Keeps P g' := fun id hid => h id (hid.mono hP)

theorem reach (h : g.Keeps P g') (hid : g.Reach P id) : g'.Reach P id := by
  induction hid with
  | root h => exact .root h
  | link hr ho hl ih => exact .link ih ((h _ hr).trans ho) hl

theorem reach_iff (h : g.Keeps P g') : g'.Reach P id ↔ g.Reach P id := by
  refine ⟨fun hid => ?_, h.reach⟩
  induction hid with
  | root h => exact .root h
  | link _ ho hl ih => exact .link ih ((h _ ih).symm.trans ho) hl

theorem trans {g'' : Fragment} (h : g.Keeps P g') (h' : g'.Keeps P g'') : g.Keeps P g'' :=
  fun id hid => (h' id (h.reach hid)).trans (h id hid)

theorem has (h : g.Keeps P g') (hid : g.Reach P id) (ht : g.At t id) : g'.At t id :=
  ht.of_eq (h id hid)

end Keeps

open Classical in
/-- What can be reached from the roots. -/
noncomputable def cut (g : Fragment) (P : List NodeId) : Fragment :=
  fun id => if g.Reach P id then g id else none

theorem cut_of_reach (h : g.Reach P id) : g.cut P id = g id := if_pos h

theorem cut_of_not_reach (h : ¬ g.Reach P id) : g.cut P id = none := if_neg h

theorem eq_of_cut (h : g.cut P id = some o) : g id = some o ∧ g.Reach P id := by
  unfold cut at h
  split at h
  · exact ⟨h, by assumption⟩
  · cases h

theorem Reach.of_sub (h : g.Reach P id) (hg : ∀ id o, g id = some o → g' id = some o) (hP : P ⊆ P') :
    g'.Reach P' id := by
  induction h with
  | root h => exact .root (hP h)
  | link _ ho hl ih => exact .link ih (hg _ _ ho) hl

theorem At.of_sub (h : g.At t id) (hg : ∀ id o, g id = some o → g' id = some o) : g'.At t id :=
  let ⟨o, ho, ht⟩ := h
  ⟨o, hg id o ho, ht⟩

theorem cut_sub (hg : ∀ id o, g id = some o → g' id = some o) (hP : P ⊆ P') :
    ∀ id o, g.cut P id = some o → g'.cut P' id = some o := by
  intro id o h
  obtain ⟨ho, hr⟩ := eq_of_cut h
  rw [cut_of_reach (hr.of_sub hg hP), hg id o ho]

theorem update_sub (hg : ∀ id o, g id = some o → g' id = some o) (id : NodeId) (o : Object) :
    ∀ i o', Function.update g id (some o) i = some o' → Function.update g' id (some o) i = some o' := by
  intro i o' h
  by_cases hi : i = id
  · subst hi
    rw [Function.update_self] at h ⊢
    exact h
  · rw [Function.update_of_ne hi] at h ⊢
    exact hg i o' h

theorem Closed.cut (hg : g.Closed) : (g.cut P).Closed := by
  intro id o ho l hl
  obtain ⟨ho', hr⟩ := eq_of_cut ho
  exact (hg id o ho' l hl).of_eq (cut_of_reach (.link hr ho' hl))

theorem Closed.update (hg : g.Closed) (hid : ∀ t, g.At t id → t = o.type)
    (ho : ∀ l ∈ o.links, g.At l.1 l.2) : Closed (Function.update g id (some o)) := by
  have hat : ∀ t i, g.At t i → At (Function.update g id (some o)) t i := by
    intro t i ht
    by_cases hi : i = id
    · subst hi
      exact ⟨o, Function.update_self .., (hid t ht).symm⟩
    · exact ht.of_eq (Function.update_of_ne hi _ _)
  intro i o' ho' l hl
  by_cases hi : i = id
  · subst hi
    rw [Function.update_self, Option.some.injEq] at ho'
    subst ho'
    exact hat _ _ (ho l hl)
  · rw [Function.update_of_ne hi] at ho'
    exact hat _ _ (hg i o' ho' l hl)

end Fragment

end Mosaic
