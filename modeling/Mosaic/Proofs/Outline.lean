import Mathlib.Data.List.Forall2
import Mathlib.Data.List.Nodup
import Mosaic.Store.Display

/-!
# Outlines

A datum unfolds into a tree. A place in it is a path of indices, and it is inside of the clusters that the path leads
through (`Datum.follow`); below each cluster come its items, also if it comes up more than once, so a cluster inside
itself makes the tree infinite. An outline is the finite tree that is left if nothing comes below a cluster that is
inside itself (`Datum.labelAt`).

Every value has one outline, and its text is what is shown (`Value.display_outline`): writing a datum opens no cluster
for good, and it is the clusters of the path that are open when a place is written.
-/

namespace Mosaic

open Mosaic.Graph (NodeId Entries Pool)

theorem bind_getElem?_of_forall₂ {α β γ : Type} {R : α → β → Prop} {f : α → Option γ} {f' : β → Option γ} {as : List α}
    {bs : List β} (h : List.Forall₂ R as bs) (hf : ∀ a b, a ∈ as → R a b → f' b = f a) (i : Nat) :
    bs[i]?.bind f' = as[i]?.bind f := by
  induction h generalizing i with
  | nil => rfl
  | cons hab _ ih =>
    cases i with
    | zero => exact hf _ _ (List.mem_cons_self ..) hab
    | succ i => exact ih (fun a b ha => hf a b (List.mem_cons_of_mem _ ha)) i

/-- A finite tree of what is shown. -/
inductive Outline where
  | word (s : String)
  /-- A cluster inside itself. -/
  | again
  /-- An object that is not there. -/
  | gone
  | list (items : List Outline)

/-- What is at a place of an outline. -/
inductive Outline.Label where
  | word (s : String)
  | again
  | gone
  | list
deriving DecidableEq

namespace Outline

def label : Outline → Label
  | word s => .word s
  | again => .again
  | gone => .gone
  | list _ => .list

/-- What is at the end of the path. -/
def label? : Outline → List Nat → Option Label
  | t, [] => some t.label
  | list items, i :: path => items[i]?.bind fun t => t.label? path
  | _, _ :: _ => none

def text : Outline → String
  | word s => s
  | again => "..."
  | gone => "<collected>"
  | list items => "[" ++ ", ".intercalate (items.map fun t => t.text) ++ "]"

@[simp] theorem text_word (s : String) : (word s).text = s := by rw [text]

@[simp] theorem text_again : again.text = "..." := by rw [text]

@[simp] theorem text_gone : gone.text = "<collected>" := by rw [text]

@[simp] theorem text_list (items : List Outline) :
    (list items).text = "[" ++ ", ".intercalate (items.map text) ++ "]" := by rw [text]

@[elab_as_elim, induction_eliminator]
theorem induct {motive : Outline → Prop} (word : ∀ s, motive (word s)) (again : motive again) (gone : motive gone)
    (list : ∀ items, (∀ t ∈ items, motive t) → motive (list items)) : ∀ t, motive t
  | .word s => word s
  | .again => again
  | .gone => gone
  | .list items => list items fun t _ => induct word again gone list t

theorem eq_of_bind_label? {o o' : Option Outline}
    (h : ∀ path, (o.bind fun t => t.label? path) = o'.bind fun t => t.label? path)
    (heq : ∀ t ∈ o, ∀ t' : Outline, (∀ path, t.label? path = t'.label? path) → t = t') : o = o' := by
  cases o with
  | none =>
    cases o' with
    | none => rfl
    | some t' => cases h []
  | some t =>
    cases o' with
    | none => cases h []
    | some t' => exact congrArg some (heq t rfl t' h)

/-- Outlines with the same labels at all places are the same. -/
theorem eq_of_label? {t t' : Outline} (h : ∀ path, t.label? path = t'.label? path) : t = t' := by
  have hlabel : t.label = t'.label := Option.some.inj (h [])
  induction t generalizing t' with
  | list items ih =>
    cases t' with
    | list items' =>
      congr 1
      refine List.ext_getElem? fun i => ?_
      refine eq_of_bind_label? (fun path => h (i :: path)) fun t ht t' h => ?_
      exact ih t (List.mem_of_getElem? ht) h (Option.some.inj (h []))
    | _ => cases hlabel
  | _ =>
    cases t' <;> cases hlabel
    rfl

end Outline

namespace Datum

/-- The datum at the end of a path, and the clusters that it is inside of. -/
def follow (pool : Pool Object) : List NodeId → Datum → List Nat → Option (List NodeId × Datum)
  | above, d, [] => some (above, d)
  | above, .object .cluster id, i :: path =>
    match pool.get Object.clusters id with
    | .ok c => c.items[i]?.bind fun d => follow pool (id :: above) d path
    | .error _ => none
  | _, _, _ :: _ => none

/-- How a datum inside of the clusters is shown. -/
def label (pool : Pool Object) (above : List NodeId) : Datum → Outline.Label
  | .nil => .word "nil"
  | .number n => .word n.text
  | .text s => .word s
  | .bool b => .word (toString b)
  | .object .cluster id =>
    if id ∈ above then .again
    else
      match pool.get Object.clusters id with
      | .ok _ => .list
      | .error _ => .gone
  | .object t id =>
    match pool.get (Object.ofType t) id with
    | .ok o => .word o.val.label
    | .error _ => .gone

/-- What is shown at the end of a path. Nothing is if the path leads through a cluster inside itself. -/
def labelAt (pool : Pool Object) (above : List NodeId) (d : Datum) (path : List Nat) : Option Outline.Label :=
  (d.follow pool above path).bind fun (above, e) => if above.Nodup then some (e.label pool above) else none

/-- The outline has what is shown, at all places. -/
def Outlined (pool : Pool Object) (above : List NodeId) (d : Datum) (t : Outline) : Prop :=
  ∀ path, t.label? path = d.labelAt pool above path

section Labels

variable {pool : Pool Object} {above above' : List NodeId} {d e : Datum} {id : NodeId} {c : Cluster} {t : ObjectType}
  {path : List Nat} {i : Nat}

theorem follow_suffix (h : d.follow pool above path = some (above', e)) : above <:+ above' := by
  induction path generalizing above d with
  | nil =>
    obtain ⟨rfl, rfl⟩ := Prod.mk.inj (Option.some.inj h)
    exact List.suffix_rfl
  | cons i path ih =>
    unfold follow at h
    split at h
    · cases ‹_ :: _ = []›
    · split at h
      · obtain ⟨d, _, hd⟩ := Option.bind_eq_some_iff.1 h
        cases ‹_ :: _ = _›
        exact (List.suffix_cons ..).trans (ih hd)
      · cases h
    · cases h

theorem label_of_mem (hid : id ∈ above) : label pool above (.object .cluster id) = .again := if_pos hid

theorem label_cluster (hid : id ∉ above) (hc : pool.get Object.clusters id = .ok c) :
    label pool above (.object .cluster id) = .list := by
  rw [label, if_neg hid, hc]

theorem label_gone {fault : Graph.Fault} (hid : id ∉ above) (hc : pool.get Object.clusters id = .error fault) :
    label pool above (.object .cluster id) = .gone := by
  rw [label, if_neg hid, hc]

theorem label_object {o : { o : Object // o.type = t }} (ht : t ≠ .cluster)
    (ho : pool.get (Object.ofType t) id = .ok o) : label pool above (.object t id) = .word o.val.label := by
  rw [label]
  · rw [ho]
  · exact ht

theorem label_object_gone {fault : Graph.Fault} (ht : t ≠ .cluster)
    (ho : pool.get (Object.ofType t) id = .error fault) : label pool above (.object t id) = .gone := by
  rw [label]
  · rw [ho]
  · exact ht

theorem exists_of_label_again (h : d.label pool above = .again) : ∃ id, d = .object .cluster id ∧ id ∈ above := by
  cases d with
  | object t id =>
    by_cases ht : t = .cluster
    · subst ht
      refine ⟨id, rfl, ?_⟩
      by_contra hid
      cases hc : pool.get Object.clusters id with
      | error fault => rw [label_gone hid hc] at h; cases h
      | ok c => rw [label_cluster hid hc] at h; cases h
    · cases ho : pool.get (Object.ofType t) id with
      | error fault => rw [label_object_gone ht ho] at h; cases h
      | ok o => rw [label_object ht ho] at h; cases h
  | _ => cases h

theorem labelAt_nil (hnodup : above.Nodup) : d.labelAt pool above [] = some (d.label pool above) := by
  rw [labelAt, follow, Option.bind_some]
  exact if_pos hnodup

theorem labelAt_of_mem (hid : id ∈ above) : labelAt pool above (.object .cluster id) (i :: path) = none := by
  unfold labelAt
  cases hf : follow pool above (.object .cluster id) (i :: path) with
  | none => rfl
  | some r =>
    obtain ⟨above', e⟩ := r
    refine if_neg fun hnodup => ?_
    unfold follow at hf
    cases hc : pool.get Object.clusters id with
    | error fault => simp only [hc] at hf; cases hf
    | ok c =>
      simp only [hc] at hf
      obtain ⟨d, _, hd⟩ := Option.bind_eq_some_iff.1 hf
      exact (List.nodup_cons.1 ((follow_suffix hd).sublist.nodup hnodup)).1 hid

theorem labelAt_item (hc : pool.get Object.clusters id = .ok c) :
    labelAt pool above (.object .cluster id) (i :: path) =
      c.items[i]?.bind fun d => d.labelAt pool (id :: above) path := by
  simp only [labelAt, follow, hc, Option.bind_assoc]

theorem labelAt_gone {fault : Graph.Fault} (hc : pool.get Object.clusters id = .error fault) :
    labelAt pool above (.object .cluster id) (i :: path) = none := by
  simp only [labelAt, follow, hc, Option.bind_none]

theorem labelAt_object (ht : t ≠ .cluster) : labelAt pool above (.object t id) (i :: path) = none := by
  rw [labelAt, follow, Option.bind_none]
  simpa using ht

end Labels

namespace Outlined

variable {pool : Pool Object} {above : List NodeId} {d : Datum} {id : NodeId} {c : Cluster}

theorem unique {t t' : Outline} (h : d.Outlined pool above t) (h' : d.Outlined pool above t') : t = t' :=
  Outline.eq_of_label? fun path => (h path).trans (h' path).symm

/-- The outline is a leaf if nothing comes below. -/
theorem leaf {t : Outline} (hnodup : above.Nodup) (hlabel : t.label = d.label pool above)
    (hleaf : ∀ i path, t.label? (i :: path) = none) (hbelow : ∀ i path, d.labelAt pool above (i :: path) = none) :
    d.Outlined pool above t := by
  intro path
  cases path with
  | nil => rw [labelAt_nil hnodup, Outline.label?, hlabel]
  | cons i path => rw [hleaf, hbelow]

theorem list {ts : List Outline} (hnodup : above.Nodup) (hid : id ∉ above) (hc : pool.get Object.clusters id = .ok c)
    (hts : List.Forall₂ (Outlined pool (id :: above)) c.items ts) :
    Outlined pool above (.object .cluster id) (.list ts) := by
  intro path
  cases path with
  | nil =>
    rw [labelAt_nil hnodup, label_cluster hid hc]
    rfl
  | cons i path =>
    rw [labelAt_item hc, Outline.label?]
    exact bind_getElem?_of_forall₂ hts (fun d t _ ht => ht path) i

/-- An item that comes up again next to itself is shown in the same way. -/
theorem eq_of_shared {ts : List Outline} {i j : Nat} (h : Outlined pool above (.object .cluster id) (.list ts))
    (hc : pool.get Object.clusters id = .ok c) (hitems : c.items[i]? = c.items[j]?) : ts[i]? = ts[j]? := by
  have hitem (k : Nat) (path : List Nat) :
      (ts[k]?.bind fun t => t.label? path) = c.items[k]?.bind fun d => d.labelAt pool (id :: above) path :=
    (h (k :: path)).trans (labelAt_item hc)
  refine Outline.eq_of_bind_label? (fun path => ?_) fun t _ t' h => Outline.eq_of_label? h
  rw [hitem, hitem, hitems]

/-- Just the clusters inside themselves are marked, where they come up again for the first time. -/
theorem again_iff {t : Outline} {path : List Nat} (h : d.Outlined pool above t) :
    t.label? path = some .again ↔ ∃ above' id, d.follow pool above path = some (above', .object .cluster id) ∧
      above'.Nodup ∧ id ∈ above' := by
  rw [h path, labelAt, Option.bind_eq_some_iff]
  constructor
  · rintro ⟨⟨above', e⟩, hfollow, hlabel⟩
    by_cases hnodup : above'.Nodup
    · obtain ⟨id, rfl, hid⟩ := exists_of_label_again (Option.some.inj ((if_pos hnodup).symm.trans hlabel))
      exact ⟨above', id, hfollow, hnodup, hid⟩
    · cases (if_neg hnodup).symm.trans hlabel
  · rintro ⟨above', id, hfollow, hnodup, hid⟩
    refine ⟨_, hfollow, ?_⟩
    exact (if_pos hnodup).trans (congrArg some (label_of_mem hid))

end Outlined

end Datum

/-! ## Writing -/

namespace Rendering

variable {r r' : Rendering} {id : NodeId} {s s' : String}

theorem put_put : (r.put s).put s' = r.put (s ++ s') := by
  unfold put
  rw [String.append_assoc]

theorem put_empty : r.put "" = r := by
  unfold put
  rw [String.append_empty]

theorem leave_enter (hid : id ∉ r.opened) : ((r.enter id).put s).leave id = r.put s := by
  have hopened : (((r.enter id).put s).leave id).opened = r.opened := opened_leave hid rfl
  exact congrArg (Rendering.mk · (r.text ++ s)) hopened

/-- Just the clusters are open. -/
def Inside (above : List NodeId) (r : Rendering) : Prop := ∀ id, id ∈ r.opened ↔ id ∈ above

variable {above : List NodeId}

theorem Inside.put (h : r.Inside above) : (r.put s).Inside above := h

theorem Inside.opened_eq (h : r.Inside above) (h' : r'.Inside above) : r'.opened = r.opened :=
  Std.ExtTreeSet.ext_mem fun i => (h' i).trans (h i).symm

theorem Inside.enter (h : r.Inside above) : (r.enter id).Inside (id :: above) := by
  intro i
  rw [Rendering.enter, Std.ExtTreeSet.mem_insert, List.mem_cons, h i, Std.LawfulEqCmp.compare_eq_iff_eq, eq_comm]

end Rendering

/-- The texts, each with what comes before it. The first one has the index. -/
def Rendering.joined (index : Nat) : List String → String
  | [] => ""
  | s :: l => (if 0 < index then ", " else "") ++ s ++ joined (index + 1) l

theorem Rendering.intercalate_cons (s : String) (l : List String) (n : Nat) :
    ", ".intercalate (s :: l) = s ++ joined (n + 1) l := by
  induction l generalizing s n with
  | nil => rw [joined, String.append_empty]; rfl
  | cons s' l ih =>
    rw [joined, if_pos (Nat.succ_pos n), String.append_assoc, ← ih]
    refine String.toList_inj.1 ?_
    simp [String.toList_intercalate]

theorem Rendering.intercalate_eq (l : List String) : ", ".intercalate l = joined 0 l := by
  cases l with
  | nil => rfl
  | cons s l => rw [intercalate_cons s l 0, joined, if_neg (Nat.lt_irrefl 0), String.empty_append]

namespace Datum

variable {pool : Pool Object} {above : List NodeId} {items : List Datum} {r : Rendering} {d : Datum}
  {id : NodeId} {n : Nat}

theorem writeItems_cons : (writeItems pool (d :: items) n r).val =
    (writeItems pool items (n + 1) (d.write pool (r.put (if 0 < n then ", " else ""))).val).val := by
  have hseparate : r.separate n = r.put (if 0 < n then ", " else "") := by
    unfold Rendering.separate
    split
    · rfl
    · exact Rendering.put_empty.symm
  rw [← hseparate, writeItems]

theorem writeItems_eq
    (hitems : ∀ d ∈ items, ∀ r : Rendering, r.Inside above →
      ∃ t, d.Outlined pool above t ∧ (d.write pool r).val = r.put t.text) (hr : r.Inside above) :
    ∃ ts, List.Forall₂ (Outlined pool above) items ts ∧
      (writeItems pool items n r).val = r.put (Rendering.joined n (ts.map Outline.text)) := by
  induction items generalizing r n with
  | nil =>
    refine ⟨[], .nil, ?_⟩
    rw [writeItems]
    exact Rendering.put_empty.symm
  | cons d items ih =>
    obtain ⟨t, ht, hwrite⟩ := hitems d (List.mem_cons_self ..) (r.put (if 0 < n then ", " else "")) hr
    obtain ⟨ts, hts, hrest⟩ := ih (r := r.put ((if 0 < n then ", " else "") ++ t.text)) (n := n + 1)
      (fun d hd => hitems d (List.mem_cons_of_mem _ hd)) hr
    refine ⟨t :: ts, .cons ht hts, ?_⟩
    rw [writeItems_cons, hwrite, Rendering.put_put, hrest, Rendering.put_put, List.map_cons, Rendering.joined]

theorem write_opened (hid : id ∈ r.opened) : (write pool (.object .cluster id) r).val = r.put "..." := by
  rw [write, dif_pos hid]

theorem write_gone {fault : Graph.Fault} (hid : id ∉ r.opened) (hc : pool.get Object.clusters id = .error fault) :
    (write pool (.object .cluster id) r).val = r.put "<collected>" := by
  rw [write, dif_neg hid]
  split
  · exact Rendering.leave_enter hid
  · rename_i hget
    cases hc.symm.trans hget

theorem write_cluster {c : Cluster} (hid : id ∉ r.opened) (hc : pool.get Object.clusters id = .ok c) :
    (write pool (.object .cluster id) r).val =
      ((writeItems pool c.items 0 ((r.enter id).put "[")).val.put "]").leave id := by
  rw [write, dif_neg hid]
  split
  · rename_i hget
    cases hc.symm.trans hget
  · rename_i hget
    cases hc.symm.trans hget
    rfl

theorem write_object {t : ObjectType} (hnodup : above.Nodup) (ht : t ≠ .cluster) :
    ∃ t', Outlined pool above (.object t id) t' ∧ (write pool (.object t id) r).val = r.put t'.text := by
  have hbelow (i : Nat) (path : List Nat) : labelAt pool above (.object t id) (i :: path) = none := labelAt_object ht
  cases ho : pool.get (Object.ofType t) id with
  | error fault =>
    refine ⟨.gone, .leaf hnodup (label_object_gone ht ho).symm (fun _ _ => rfl) hbelow, ?_⟩
    rw [write]
    · rw [ho, Outline.text_gone]
    · exact ht
  | ok o =>
    refine ⟨.word o.val.label, .leaf hnodup (label_object ht ho).symm (fun _ _ => rfl) hbelow, ?_⟩
    rw [write]
    · rw [ho, Outline.text_word]
    · exact ht

theorem write_list {c : Cluster} (hnodup : above.Nodup) (hr : r.Inside above) (hid : id ∉ above)
    (hc : pool.get Object.clusters id = .ok c)
    (hitems : ∀ d ∈ c.items, ∀ r' : Rendering, r'.Inside (id :: above) →
      ∃ t, d.Outlined pool (id :: above) t ∧ (d.write pool r').val = r'.put t.text) :
    ∃ t, Outlined pool above (.object .cluster id) t ∧ (write pool (.object .cluster id) r).val = r.put t.text := by
  have hopened : id ∉ r.opened := fun h => hid ((hr id).1 h)
  obtain ⟨ts, hts, hwritten⟩ := writeItems_eq (n := 0) hitems (hr.enter.put (s := "["))
  refine ⟨.list ts, .list hnodup hid hc hts, ?_⟩
  rw [write_cluster hopened hc, hwritten, Rendering.put_put, Rendering.put_put, Rendering.leave_enter hopened,
    Outline.text_list, Rendering.intercalate_eq, String.append_assoc]

/-- Writing a datum inside of open clusters adds the text of its outline, and opens nothing for good. -/
theorem write_eq (d : Datum) (hnodup : above.Nodup) (hr : r.Inside above) :
    ∃ t, d.Outlined pool above t ∧ (d.write pool r).val = r.put t.text := by
  -- each cluster that is opened leaves fewer that are not
  induction hsize : (r.unopened pool).size using Nat.strongRecOn generalizing d r above with
  | _ size ih =>
    have hleaf {t : Outline} (hlabel : t.label = d.label pool above) (hlist : ∀ i path, t.label? (i :: path) = none)
        (hbelow : ∀ i path, d.labelAt pool above (i :: path) = none) : d.Outlined pool above t :=
      .leaf hnodup hlabel hlist hbelow
    cases d with
    | nil => exact ⟨.word _, hleaf rfl (fun _ _ => rfl) fun _ _ => rfl, by rw [write, Outline.text_word]⟩
    | number m => exact ⟨.word _, hleaf rfl (fun _ _ => rfl) fun _ _ => rfl, by rw [write, Outline.text_word]⟩
    | text s => exact ⟨.word _, hleaf rfl (fun _ _ => rfl) fun _ _ => rfl, by rw [write, Outline.text_word]⟩
    | bool b => exact ⟨.word _, hleaf rfl (fun _ _ => rfl) fun _ _ => rfl, by rw [write, Outline.text_word]⟩
    | object t id =>
      by_cases ht : t = .cluster
      · subst ht
        by_cases hid : id ∈ above
        · refine ⟨.again, hleaf (label_of_mem hid).symm (fun _ _ => rfl) fun _ _ => labelAt_of_mem hid, ?_⟩
          rw [write_opened ((hr id).2 hid), Outline.text_again]
        · have hopened : id ∉ r.opened := fun h => hid ((hr id).1 h)
          cases hc : pool.get Object.clusters id with
          | error fault =>
            refine ⟨.gone, hleaf (label_gone hid hc).symm (fun _ _ => rfl) fun _ _ => labelAt_gone hc, ?_⟩
            rw [write_gone hopened hc, Outline.text_gone]
          | ok c =>
            refine write_list hnodup hr hid hc fun d _ r' hr' => ih _ ?_ d (hnodup.cons hid) hr' rfl
            have hinside : ((r.enter id).put "[").Inside (id :: above) := hr.enter
            rw [Rendering.unopened_congr (hinside.opened_eq hr'), ← hsize]
            exact Rendering.size_unopened_enter hopened hc
      · exact write_object hnodup ht

end Datum

/-! ## What is shown -/

namespace Value

variable {pool : Pool Object} {v : Value}

/-- The outline of a value. A reference to a field is a word. -/
def Outlined (pool : Pool Object) : Value → Outline → Prop
  | .datum d, t => d.Outlined pool [] t
  | .fieldRef binding field, t => t = .word ("&" ++ binding.text ++ "." ++ field.text)

theorem Outlined.unique {t t' : Outline} (h : v.Outlined pool t) (h' : v.Outlined pool t') : t = t' := by
  cases v with
  | datum d => exact Datum.Outlined.unique h h'
  | fieldRef binding field => exact h.trans h'.symm

theorem exists_outlined (pool : Pool Object) (v : Value) : ∃ t, v.Outlined pool t ∧ v.display pool = t.text := by
  cases v with
  | datum d =>
    have hinside : ({} : Rendering).Inside [] := fun id => by simp
    obtain ⟨t, ht, hwritten⟩ := Datum.write_eq d .nil hinside
    refine ⟨t, ht, ?_⟩
    rw [display, hwritten, Rendering.put, String.empty_append]
  | fieldRef binding field => exact ⟨_, rfl, by rw [display, Outline.text_word]⟩

/-- Whatever is in the pool, a value has one outline, and its text is shown. -/
theorem display_outline (pool : Pool Object) (v : Value) :
    (∃! t, v.Outlined pool t) ∧ ∀ t, v.Outlined pool t → v.display pool = t.text := by
  obtain ⟨t, ht, hshown⟩ := exists_outlined pool v
  refine ⟨⟨t, ht, fun t' ht' => ht'.unique ht⟩, fun t' ht' => ?_⟩
  rw [hshown, ht.unique ht']

/-- The second cluster is shown twice inside of the first, which is inside of it. -/
example : display
    { entries := (({} : Entries Object).insert 1
        ⟨.cluster { items := [.object .cluster 2, .object .tile 3, .object .cluster 2] }, {}⟩).insert 2
        ⟨.cluster { items := [.object .cluster 1] }, {}⟩ }
    (.object .cluster 1) = "[[...], <collected>, [...]]" := by
  cbv

end Value

end Mosaic
