import Std.Data.ExtTreeMap
import Mosaic.Memo
import Mosaic.Object
import Mosaic.Scope

/-!
# The values of a map

What is among the values of a map is stored under some key, and what a map has after an insertion of
several pairs it had before or is one of the pairs. With these, the nodes of fields, frames and memos
are told by looking up names.
-/

namespace Mosaic

open Std (ExtTreeMap TransCmp LawfulEqCmp)
open Mosaic.Graph (NodeId)

section

variable {α β : Type} {cmp : α → α → Ordering} [TransCmp cmp]

theorem values_eq_map_toList (t : ExtTreeMap α β cmp) : t.values = t.toList.map Prod.snd := by
  have h : t.values = t.foldr (fun _ v l => v :: l) [] := by
    obtain ⟨⟨q⟩⟩ := t
    induction q using Quotient.ind
    rfl
  rw [h, ExtTreeMap.foldr_eq_foldr_toList]
  induction t.toList with
  | nil => rfl
  | cons a l ih => simp [ih]

@[simp] theorem values_empty : (∅ : ExtTreeMap α β cmp).values = [] := rfl

variable [LawfulEqCmp cmp]

theorem mem_values {t : ExtTreeMap α β cmp} {v : β} :
    v ∈ t.values ↔ ∃ k : α, t[k]? = some v := by
  rw [values_eq_map_toList, List.mem_map]
  constructor
  · rintro ⟨⟨k, v⟩, hmem, rfl⟩
    exact ⟨k, ExtTreeMap.mem_toList_iff_getElem?_eq_some.1 hmem⟩
  · rintro ⟨k, hk⟩
    exact ⟨(k, v), ExtTreeMap.mem_toList_iff_getElem?_eq_some.2 hk, rfl⟩

theorem getElem?_insert_cases {t : ExtTreeMap α β cmp} {k k' : α} {v v' : β}
    (h : (t.insert k v)[k']? = some v') : k' = k ∧ v' = v ∨ k' ≠ k ∧ t[k']? = some v' := by
  rw [ExtTreeMap.getElem?_insert] at h
  split at h
  · rename_i heq
    exact .inl ⟨(LawfulEqCmp.eq_of_compare heq).symm, (Option.some.inj h).symm⟩
  · rename_i hne
    exact .inr ⟨fun heq => hne (by simp [heq]), h⟩

theorem getElem?_insertMany_cases {t : ExtTreeMap α β cmp} {l : List (α × β)} {k : α} {v : β}
    (h : (t.insertMany l)[k]? = some v) : t[k]? = some v ∨ (k, v) ∈ l := by
  induction l generalizing t with
  | nil => exact .inl (by simpa using h)
  | cons p l ih =>
    rw [ExtTreeMap.insertMany_cons] at h
    rcases ih h with h | h
    · rcases getElem?_insert_cases h with ⟨rfl, rfl⟩ | ⟨_, h⟩
      · exact .inr (by simp)
      · exact .inl h
    · exact .inr (List.mem_cons_of_mem _ h)

theorem mem_of_getElem?_ofList {l : List (α × β)} {k : α} {v : β}
    (h : (ExtTreeMap.ofList l cmp)[k]? = some v) : (k, v) ∈ l := by
  rw [ExtTreeMap.ofList_eq_insertMany_empty] at h
  rcases getElem?_insertMany_cases h with h | h
  · simp at h
  · exact h

end

theorem Fields.mem_pointers {fs : Fields} {id : NodeId} :
    id ∈ fs.pointers ↔ ∃ (name : Name) (d : Datum), fs[name]? = some d ∧ d.node? = some id := by
  simp only [Fields.pointers, List.mem_filterMap, mem_values]
  exact ⟨fun ⟨d, ⟨name, h⟩, hd⟩ => ⟨name, d, h, hd⟩, fun ⟨name, d, h, hd⟩ => ⟨d, ⟨name, h⟩, hd⟩⟩

@[simp] theorem Fields.pointers_empty : Fields.pointers {} = [] :=
  List.eq_nil_iff_forall_not_mem.2 fun id h => by simp [Fields.mem_pointers] at h

theorem Frame.mem_nodes {f : Frame} {id : NodeId} :
    id ∈ f.nodes ↔ (∃ (name : Name) (v : Value), f.lookup? name = some v ∧ v.node? = some id) ∨
      id ∈ f.parked := by
  simp only [Frame.nodes, Frame.lookup?, List.mem_append, List.mem_filterMap, mem_values]
  refine or_congr_left ⟨?_, ?_⟩
  · rintro ⟨v, ⟨name, h⟩, hv⟩
    exact ⟨name, v, h, hv⟩
  · rintro ⟨name, v, h, hv⟩
    exact ⟨v, ⟨name, h⟩, hv⟩

@[simp] theorem Frame.nodes_empty : Frame.nodes {} = [] :=
  List.eq_nil_iff_forall_not_mem.2 fun id h => by simp [Frame.mem_nodes] at h

theorem Memo.mem_nodes {m : Memo} {id : NodeId} :
    id ∈ m.nodes ↔ ∃ (key : String) (v : Value), m.entries[key]? = some v ∧ v.node? = some id := by
  simp only [Memo.nodes, List.mem_filterMap, mem_values]
  exact ⟨fun ⟨v, ⟨key, h⟩, hv⟩ => ⟨key, v, h, hv⟩, fun ⟨key, v, h, hv⟩ => ⟨v, ⟨key, h⟩, hv⟩⟩

@[simp] theorem Memo.nodes_empty : Memo.nodes {} = [] :=
  List.eq_nil_iff_forall_not_mem.2 fun id h => by simp [Memo.mem_nodes] at h

end Mosaic
