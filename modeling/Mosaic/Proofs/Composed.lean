import Mosaic.Proofs.Maps

/-!
# What composed actions keep

A property that returning has, and that a composed action has if its parts have it, holds of an action for all
elements of a list, and of renaming the nodes of an object, if it holds of the action that renames a node that
the object points at. The properties of particular actions, on the store and with copies, are instances.
-/

namespace Mosaic

open Mosaic.Graph (NodeId)

/-- A property that returning has and that all ways to compose actions keep. -/
structure Composable (m : Type → Type) [Monad m] where
  Holds : ∀ {α : Type}, m α → Prop
  ret : ∀ {α : Type} {a : α}, Holds (pure a)
  bind : ∀ {α β : Type} {x : m α} {f : α → m β}, Holds x → (∀ a, Holds (f a)) → Holds (x >>= f)

namespace Composable

variable {m : Type → Type} [Monad m] {C : Composable m} {f : ObjectType → NodeId → m NodeId}

/-- The action that renames nodes has the property at each of these nodes. -/
def Each (C : Composable m) (f : ObjectType → NodeId → m NodeId) (ids : List NodeId) : Prop :=
  ∀ t, ∀ id ∈ ids, C.Holds (f t id)

theorem Each.of_subset {ids ids' : List NodeId} (h : C.Each f ids) (hs : ids' ⊆ ids) : C.Each f ids' :=
  fun t id hid => h t id (hs hid)

theorem renameDatum {d : Datum} (h : C.Each f d.node?.toList) : C.Holds (d.renameNodes f) := by
  cases d with
  | object t id => exact C.bind (h t id (by simp [Datum.node?])) fun _ => C.ret
  | _ => exact C.ret

variable [LawfulMonad m]

theorem mapM {α β : Type} {f : β → m α} {l : List β} (hf : ∀ b ∈ l, C.Holds (f b)) : C.Holds (l.mapM f) := by
  induction l with
  | nil =>
    rw [List.mapM_nil]
    exact C.ret
  | cons b l ih =>
    obtain ⟨hb, hl⟩ := List.forall_mem_cons.1 hf
    rw [List.mapM_cons]
    exact C.bind hb fun _ => C.bind (ih hl) fun _ => C.ret

theorem renameIds {t : ObjectType} {ids : List NodeId} (h : C.Each f ids) : C.Holds (ids.mapM (f t)) :=
  mapM (h t)

theorem renameOption {t : ObjectType} {id? : Option NodeId} (h : C.Each f id?.toList) :
    C.Holds (id?.mapM (f t)) := by
  cases id? with
  | none => exact C.ret
  | some id =>
    rw [Option.mapM_some, map_eq_pure_bind]
    exact C.bind (h t id (by simp)) fun _ => C.ret

theorem renameFields {fs : Fields} (h : C.Each f fs.pointers) : C.Holds (fs.renameNodes f) := by
  refine C.bind (mapM fun p hp => C.bind (renameDatum (h.of_subset fun id hid => ?_)) fun _ => C.ret) fun _ => C.ret
  have hp := Std.ExtTreeMap.mem_toList_iff_getElem?_eq_some.1 hp
  exact Fields.mem_pointers.2 ⟨p.1, p.2, hp, by simpa using hid⟩

/-- Renaming does nothing but ask for the new name of each node the object points at. -/
theorem renameNodes {o : Object} (h : C.Each f o.pointers) : C.Holds (o.renameNodes f) := by
  have sub : ∀ {ids}, ids ⊆ o.pointers → C.Each f ids := fun hs => h.of_subset hs
  cases o with
  | tile t =>
    refine C.bind (renameIds (sub ?_)) fun _ => C.bind (renameIds (sub ?_)) fun _ =>
      C.bind (renameOption (sub ?_)) fun _ => C.bind (renameFields (sub ?_)) fun _ => C.ret
    all_goals intro id hid; simp_all [Object.pointers]
  | vertex v =>
    refine C.bind (renameOption (sub ?_)) fun _ => C.bind (renameFields (sub ?_)) fun _ => C.ret
    all_goals intro id hid; simp_all [Object.pointers]
  | edge e =>
    refine C.bind (renameOption (sub ?_)) fun _ => C.bind (renameFields (sub ?_)) fun _ => C.ret
    all_goals intro id hid; simp_all [Object.pointers]
  | patch p =>
    refine C.bind (renameIds (sub ?_)) fun _ => C.bind (renameFields (sub ?_)) fun _ => C.ret
    all_goals intro id hid; simp_all [Object.pointers]
  | cluster c =>
    refine C.bind (mapM fun d hd => renameDatum (sub fun id hid => ?_)) fun _ =>
      C.bind (renameFields (sub ?_)) fun _ => C.ret
    · exact List.mem_append_left _ (List.mem_filterMap.2 ⟨d, hd, by simpa using hid⟩)
    · exact List.subset_append_right _ _
  | lambda l =>
    refine C.bind (renameFields (sub ?_)) fun _ => C.bind (renameFields (sub ?_)) fun _ => C.ret
    all_goals intro id hid; simp_all [Object.pointers]

end Composable

end Mosaic
