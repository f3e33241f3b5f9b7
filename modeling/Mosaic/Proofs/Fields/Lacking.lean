import Mosaic.Proofs.Cadence.Isomorphism

/-!
# Graphs without a field

`g.lacking id field` is the graph `g` without what the object at `id` has in the field. Of two objects that
correspond, what can be reached from the one is isomorphic to what can be reached from the other
(`Corresponds.isomorphism`), and it is so without a field of both (`Corresponds.lacking`). So a copy on which
the field was assigned since is compared with its original by leaving the field out on both sides.
-/

namespace Mosaic

open Mosaic.Graph (NodeId)

variable {ρ σ : NodeId → NodeId → Prop} {field : Name}

/-! ## Objects -/

theorem forall₂_restrict {α β : Type} {r s : α → β → Prop} {l : List α} {l' : List β}
    (h : List.Forall₂ r l l') (hrs : ∀ a ∈ l, ∀ b, r a b → s a b) : List.Forall₂ s l l' := by
  induction h with
  | nil => exact .nil
  | cons hab _ ih =>
    exact .cons (hrs _ (List.mem_cons_self ..) _ hab) (ih fun a ha => hrs a (List.mem_cons_of_mem _ ha))

theorem rel_restrict {α β : Type} {r s : α → β → Prop} {o : Option α} {o' : Option β}
    (h : Option.Rel r o o') (hrs : ∀ a ∈ o.toList, ∀ b, r a b → s a b) : Option.Rel s o o' := by
  cases h with
  | none => exact .none
  | some h => exact .some (hrs _ (by simp) _ h)

theorem Datum.Like.restrict {d d' : Datum} (h : d.Like ρ d')
    (hρ : ∀ l, d.link? = some l → ∀ j, ρ l.2 j → σ l.2 j) : d.Like σ d' := by
  cases d with
  | object t i =>
    obtain ⟨j, rfl, hj⟩ := h
    exact ⟨j, rfl, hρ (t, i) rfl j hj⟩
  | _ => exact h

theorem Fields.Like.restrict {fs fs' : Fields} (h : fs.Like ρ fs')
    (hρ : ∀ l ∈ fs.links, ∀ j, ρ l.2 j → σ l.2 j) : fs.Like σ fs' :=
  fun name => rel_restrict (h name) fun d hd _ hlike => hlike.restrict fun l hl =>
    hρ l (Fields.mem_links.2 ⟨name, d, Option.mem_toList.1 hd, hl⟩)

/-- Only what becomes of the nodes that the object points at matters. -/
theorem Object.Like.restrict {o o' : Object} (h : o.Like ρ o')
    (hρ : ∀ l ∈ o.links, ∀ j, ρ l.2 j → σ l.2 j) : o.Like σ o' := by
  have hids : ∀ {t : ObjectType} {ids : List NodeId}, ids.map (t, ·) ⊆ o.links →
      ∀ i ∈ ids, ∀ j, ρ i j → σ i j := fun hsub i hi =>
    hρ _ (hsub (List.mem_map_of_mem hi))
  have hfields : ∀ {fs : Fields}, fs.links ⊆ o.links → ∀ l ∈ fs.links, ∀ j, ρ l.2 j → σ l.2 j :=
    fun hsub l hl => hρ l (hsub hl)
  cases h with
  | tile vertices edges parent fields =>
    refine .tile (forall₂_restrict vertices (hids (t := .vertex) ?_))
      (forall₂_restrict edges (hids (t := .edge) ?_)) (rel_restrict parent (hids (t := .patch) ?_))
      (fields.restrict (hfields ?_))
    all_goals intro l hl; simp only [links, List.mem_append]; tauto
  | vertex tile position index fields =>
    exact .vertex (rel_restrict tile (hids (t := .tile) (List.subset_append_left ..))) position index
      (fields.restrict (hfields (List.subset_append_right ..)))
  | edge tile index fields =>
    exact .edge (rel_restrict tile (hids (t := .tile) (List.subset_append_left ..))) index
      (fields.restrict (hfields (List.subset_append_right ..)))
  | patch tiles locations tileLocations fields =>
    exact .patch (forall₂_restrict tiles (hids (t := .tile) (List.subset_append_left ..))) locations
      tileLocations (fields.restrict (hfields (List.subset_append_right ..)))
  | cluster items fields =>
    exact .cluster (forall₂_restrict items fun d hd d' hlike => hlike.restrict fun l hl =>
        hρ l (List.mem_append_left _ (List.mem_filterMap.2 ⟨d, hd, hl⟩)))
      (fields.restrict (hfields (List.subset_append_right ..)))
  | lambda label params body free closure fields =>
    exact .lambda label params body free (closure.restrict (hfields (List.subset_append_left ..)))
      (fields.restrict (hfields (List.subset_append_right ..)))

/-- The object without what it has in the field. -/
def Object.lacking (o : Object) (field : Name) : Object := o.withFields (o.fields.erase field)

theorem Object.lacking_withField (o : Object) (d : Datum) :
    (o.withFields (o.fields.insert field d)).lacking field = o.lacking field := by
  have herase : (o.fields.insert field d).erase field = o.fields.erase field := by
    refine Std.ExtTreeMap.ext_getElem? fun name => ?_
    rw [Std.ExtTreeMap.getElem?_erase, Std.ExtTreeMap.getElem?_erase]
    split
    · rfl
    · rename_i hne
      rw [Std.ExtTreeMap.getElem?_insert, if_neg hne]
  rw [lacking, lacking, Object.fields_withFields, herase]
  cases o <;> rfl

theorem Object.Like.fields {o o' : Object} (h : o.Like ρ o') : o.fields.Like ρ o'.fields := by
  cases h with
  | tile _ _ _ fields => exact fields
  | vertex _ _ _ fields => exact fields
  | edge _ _ fields => exact fields
  | patch _ _ _ fields => exact fields
  | cluster _ fields => exact fields
  | lambda _ _ _ _ _ fields => exact fields

theorem Object.Like.withFields {o o' : Object} (h : o.Like ρ o') {fs fs' : Fields} (hfs : fs.Like ρ fs') :
    (o.withFields fs).Like ρ (o'.withFields fs') := by
  cases h with
  | tile vertices edges parent _ => exact .tile vertices edges parent hfs
  | vertex tile position index _ => exact .vertex tile position index hfs
  | edge tile index _ => exact .edge tile index hfs
  | patch tiles locations tileLocations _ => exact .patch tiles locations tileLocations hfs
  | cluster items _ => exact .cluster items hfs
  | lambda label params body free closure _ => exact .lambda label params body free closure hfs

theorem Object.Like.lacking {o o' : Object} (h : o.Like ρ o') (field : Name) :
    (o.lacking field).Like ρ (o'.lacking field) := by
  refine h.withFields fun name => ?_
  rw [Std.ExtTreeMap.getElem?_erase, Std.ExtTreeMap.getElem?_erase]
  split
  · exact .none
  · exact h.fields name

/-! ## Fragments -/

namespace Fragment

variable {g g' : Fragment} {id : NodeId}

/-- The graph without what the object at `id` has in the field. -/
def lacking (g : Fragment) (id : NodeId) (field : Name) : Fragment :=
  Function.update g id ((g id).map (·.lacking field))

theorem lacking_self {o : Object} (ho : g id = some o) : g.lacking id field id = some (o.lacking field) := by
  rw [lacking, Function.update_self, ho, Option.map_some]

theorem lacking_of_ne {i : NodeId} (hi : i ≠ id) : g.lacking id field i = g i := Function.update_of_ne hi _ _

theorem lacking_update {o : Object} (ho : g id = some o) (d : Datum) :
    lacking (Function.update g id (some (o.withFields (o.fields.insert field d)))) id field =
      g.lacking id field := by
  funext i
  by_cases hi : i = id
  · rw [hi, lacking_self (Function.update_self ..), lacking_self ho, Object.lacking_withField]
  · rw [lacking_of_ne hi, lacking_of_ne hi, Function.update_of_ne hi]

theorem lacking_sub (hg : ∀ id o, g id = some o → g' id = some o) :
    ∀ i o, g.lacking id field i = some o → g'.lacking id field i = some o := by
  intro i o ho
  by_cases hi : i = id
  · subst hi
    obtain ⟨p, hp, rfl⟩ := Option.map_eq_some_iff.1 ((Function.update_self i _ g).symm.trans ho)
    exact lacking_self (hg i p hp)
  · rw [lacking_of_ne hi] at ho ⊢
    exact hg i o ho

end Fragment

/-! ## Isomorphisms -/

/-- What can be reached from `b` in `h` is a copy of what can be reached from `a` in `g`. -/
structure Isomorphism (ρ : NodeId → NodeId → Prop) (g : Fragment) (a : NodeId) (h : Fragment) (b : NodeId) :
    Prop extends Corresponds ρ g h where
  root : ρ a b
  domain : ∀ i, (∃ j, ρ i j) ↔ g.Reach [a] i
  range : ∀ j, (∃ i, ρ i j) ↔ h.Reach [b] j

namespace Corresponds

variable {g g' h h' : Fragment} {a b : NodeId}

theorem of_sub (hρ : Corresponds ρ g h) (hg : ∀ id o, g id = some o → g' id = some o)
    (hh : ∀ id o, h id = some o → h' id = some o) : Corresponds ρ g' h' :=
  ⟨fun i j hij => (hρ.like i j hij).imp fun o ho => ho.imp fun o' ho' => ⟨hg i o ho'.1, hh j o' ho'.2.1, ho'.2.2⟩,
    hρ.unique⟩

theorem lacking (hρ : Corresponds ρ g h) (hab : ρ a b) (field : Name) :
    Corresponds ρ (g.lacking a field) (h.lacking b field) := by
  refine ⟨fun i j hij => ?_, hρ.unique⟩
  obtain ⟨o, o', ho, ho', hlike⟩ := hρ.like i j hij
  by_cases hi : i = a
  · obtain rfl : j = b := (hρ.unique i a j b hij hab).1 hi
    subst hi
    exact ⟨_, _, Fragment.lacking_self ho, Fragment.lacking_self ho', hlike.lacking field⟩
  · have hj : j ≠ b := fun hj => hi ((hρ.unique i a j b hij hab).2 hj)
    exact ⟨o, o', (Fragment.lacking_of_ne hi).trans ho, (Fragment.lacking_of_ne hj).trans ho', hlike⟩

/-- What can be reached from two nodes that correspond is isomorphic. -/
theorem isomorphism (hρ : Corresponds ρ g h) (hab : ρ a b) :
    Isomorphism (fun i j => ρ i j ∧ g.Reach [a] i) g a h b := by
  have hdomain : ∀ i, g.Reach [a] i → ∃ j, ρ i j := by
    intro i hi
    induction hi with
    | root hi => exact ⟨b, List.mem_singleton.1 hi ▸ hab⟩
    | link _ ho hl ih =>
      obtain ⟨j, hij⟩ := ih
      obtain ⟨p, p', hp, _, hlike⟩ := hρ.like _ j hij
      obtain rfl := Option.some.inj (hp.symm.trans ho)
      exact (hlike.symm.exists_link hl).imp fun _ h => h.2
  have hrange : ∀ i, g.Reach [a] i → ∀ j, ρ i j → h.Reach [b] j := by
    intro i hi
    induction hi with
    | root hi =>
      intro j hij
      exact .root (List.mem_singleton.2 ((hρ.unique _ a j b hij hab).1 (List.mem_singleton.1 hi)))
    | link hr ho hl ih =>
      intro j hij
      obtain ⟨j₀, hj₀⟩ := hdomain _ hr
      obtain ⟨p, p', hp, hp', hlike⟩ := hρ.like _ j₀ hj₀
      obtain rfl := Option.some.inj (hp.symm.trans ho)
      obtain ⟨j', hl', hj'⟩ := hlike.symm.exists_link hl
      rw [(hρ.unique _ _ j j' hij hj').1 rfl]
      exact .link (ih j₀ hj₀) hp' hl'
  refine ⟨⟨fun i j hij => ?_, fun i i' j j' hij hij' => hρ.unique i i' j j' hij.1 hij'.1⟩,
    ⟨hab, .root (List.mem_singleton.2 rfl)⟩, fun i => ⟨fun ⟨_, hij⟩ => hij.2, fun hi => ?_⟩,
    fun j => ⟨fun ⟨i, hij⟩ => hrange i hij.2 j hij.1, fun hj => ?_⟩⟩
  · obtain ⟨o, o', ho, ho', hlike⟩ := hρ.like i j hij.1
    exact ⟨o, o', ho, ho', hlike.restrict fun l hl _ h => ⟨h, .link hij.2 ho hl⟩⟩
  · exact (hdomain i hi).imp fun j hij => ⟨hij, hi⟩
  · induction hj with
    | root hj => exact ⟨a, List.mem_singleton.1 hj ▸ hab, .root (List.mem_singleton.2 rfl)⟩
    | link _ ho hl ih =>
      obtain ⟨i, hij, hi⟩ := ih
      obtain ⟨p, p', hp, hp', hlike⟩ := hρ.like i _ hij
      obtain rfl := Option.some.inj (hp'.symm.trans ho)
      obtain ⟨i', hl', hi'⟩ := hlike.exists_link hl
      exact ⟨i', hi', .link hi hp hl'⟩

end Corresponds

end Mosaic
