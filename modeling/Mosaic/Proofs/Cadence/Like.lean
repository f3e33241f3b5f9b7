import Mathlib.Data.List.Forall2
import Mosaic.Proofs.Cadence.Fragment

/-!
# Objects that are alike

Two objects are alike if one is the other with its nodes replaced: the nodes correspond place by place,
in the order of the items and vertices and under the same names, and all else is equal. A relation between
nodes says which of them correspond.
-/

namespace Mosaic

open Mosaic.Graph (NodeId)

variable {ρ σ : NodeId → NodeId → Prop}

section

variable {α β : Type} {r : α → β → Prop} {l : List α} {l' : List β}

theorem exists_of_forall₂ (h : List.Forall₂ r l l') {b : β} (hb : b ∈ l') : ∃ a ∈ l, r a b := by
  induction h with
  | nil => cases hb
  | cons hab _ ih =>
    rcases List.mem_cons.1 hb with rfl | hb
    · exact ⟨_, List.mem_cons_self .., hab⟩
    · obtain ⟨a, ha, hr⟩ := ih hb
      exact ⟨a, List.mem_cons_of_mem _ ha, hr⟩

theorem forall₂_toList {o : Option α} {o' : Option β} (h : Option.Rel r o o') :
    List.Forall₂ r o.toList o'.toList := by
  cases h with
  | none => exact .nil
  | some h => exact .cons h .nil

theorem rel_flip {o : Option α} {o' : Option β} (h : Option.Rel r o o') :
    Option.Rel (flip r) o' o := by
  cases h with
  | none => exact .none
  | some h => exact .some h

theorem rel_imp {s : α → β → Prop} (hrs : ∀ a b, r a b → s a b) {o : Option α} {o' : Option β}
    (h : Option.Rel r o o') : Option.Rel s o o' := by
  cases h with
  | none => exact .none
  | some h => exact .some (hrs _ _ h)

end

/-! ## Data -/

/-- The nodes correspond, and scalars are equal. -/
def Datum.Like (ρ : NodeId → NodeId → Prop) : Datum → Datum → Prop
  | .object t i, d => ∃ j, d = .object t j ∧ ρ i j
  | d, d' => d' = d

def Fields.Like (ρ : NodeId → NodeId → Prop) (fs fs' : Fields) : Prop :=
  ∀ name : Name, Option.Rel (Datum.Like ρ) fs[name]? fs'[name]?

/-- The values correspond datum by datum. -/
def Value.Like (ρ : NodeId → NodeId → Prop) : Value → Value → Prop
  | .datum d, w => ∃ d', w = .datum d' ∧ d.Like ρ d'
  | v, w => w = v

namespace Datum.Like

variable {d d' : Datum} {l : Link}

theorem self (h : ∀ l, d.link? = some l → ρ l.2 l.2) : d.Like ρ d := by
  cases d with
  | object t i => exact ⟨i, rfl, h (t, i) rfl⟩
  | _ => rfl

theorem mono (h : d.Like ρ d') (hρ : ∀ i j, ρ i j → σ i j) : d.Like σ d' := by
  cases d with
  | object t i =>
    obtain ⟨j, rfl, hj⟩ := h
    exact ⟨j, rfl, hρ i j hj⟩
  | _ => exact h

theorem symm (h : d.Like ρ d') : d'.Like (flip ρ) d := by
  cases d with
  | object t i =>
    obtain ⟨j, rfl, hj⟩ := h
    exact ⟨i, rfl, hj⟩
  | _ => subst h; rfl

theorem exists_link (h : d.Like ρ d') (hl : d'.link? = some l) :
    ∃ i, d.link? = some (l.1, i) ∧ ρ i l.2 := by
  cases d with
  | object t i =>
    obtain ⟨j, rfl, hj⟩ := h
    cases hl
    exact ⟨i, rfl, hj⟩
  | _ => subst h; cases hl

end Datum.Like

namespace Fields.Like

variable {fs fs' : Fields} {l : Link}

theorem self (h : ∀ l ∈ fs.links, ρ l.2 l.2) : fs.Like ρ fs := by
  intro name
  cases hd : fs[name]? with
  | none => exact .none
  | some d => exact .some (Datum.Like.self fun l hl => h l (Fields.mem_links.2 ⟨name, d, hd, hl⟩))

theorem mono (h : fs.Like ρ fs') (hρ : ∀ i j, ρ i j → σ i j) : fs.Like σ fs' :=
  fun name => rel_imp (fun _ _ hd => hd.mono hρ) (h name)

theorem symm (h : fs.Like ρ fs') : fs'.Like (flip ρ) fs :=
  fun name => rel_imp (fun _ _ hd => hd.symm) (rel_flip (h name))

theorem exists_link (h : fs.Like ρ fs') (hl : l ∈ fs'.links) :
    ∃ i, (l.1, i) ∈ fs.links ∧ ρ i l.2 := by
  obtain ⟨name, d', hd', hl⟩ := Fields.mem_links.1 hl
  have hn := h name
  rw [hd'] at hn
  cases hd : fs[name]? with
  | none => rw [hd] at hn; cases hn
  | some d =>
    rw [hd] at hn
    cases hn with
    | some hlike =>
      obtain ⟨i, hi, hr⟩ := hlike.exists_link hl
      exact ⟨i, Fields.mem_links.2 ⟨name, d, hd, hi⟩, hr⟩

end Fields.Like

theorem map_fst_of_forall₂ {α β : Type} {r : β → β → Prop} {l l' : List (α × β)}
    (h : List.Forall₂ (fun p p' => p'.1 = p.1 ∧ r p.2 p'.2) l l') : l'.map Prod.fst = l.map Prod.fst := by
  induction h with
  | nil => rfl
  | cons hp _ ih => rw [List.map_cons, List.map_cons, hp.1, ih]

theorem Fields.like_ofList {fs : Fields} {l : List (Name × Datum)}
    (h : List.Forall₂ (fun p p' => p'.1 = p.1 ∧ Datum.Like ρ p.2 p'.2) fs.toList l) :
    fs.Like ρ (Std.ExtTreeMap.ofList l compare) := by
  have hnames := map_fst_of_forall₂ h
  have hdistinct : l.Pairwise fun p q => ¬ compare p.1 q.1 = .eq := by
    have hkeys : (fs.toList.map Prod.fst).Pairwise fun a b => ¬ compare a b = .eq :=
      List.pairwise_map.2 Std.ExtTreeMap.distinct_keys_toList
    rw [← hnames] at hkeys
    exact List.pairwise_map.1 hkeys
  intro name
  cases hd : fs[name]? with
  | none =>
    have hno : (l.map Prod.fst).contains name = false := by
      rw [hnames, Std.ExtTreeMap.map_fst_toList_eq_keys, Bool.eq_false_iff]
      intro hmem
      rw [List.contains_iff_mem, Std.ExtTreeMap.mem_keys, Std.ExtTreeMap.mem_iff_isSome_getElem?, hd] at hmem
      cases hmem
    rw [Std.ExtTreeMap.getElem?_ofList_of_contains_eq_false hno]
    exact .none
  | some d =>
    have hmem := Std.ExtTreeMap.mem_toList_iff_getElem?_eq_some.2 hd
    obtain ⟨⟨name', d'⟩, hmem', hname, hlike⟩ := exists_of_forall₂ h.flip hmem
    obtain rfl : name' = name := hname
    rw [Std.ExtTreeMap.getElem?_ofList_of_mem (Std.ReflCmp.compare_self) hdistinct hmem']
    exact .some hlike

/-! ## Objects -/

/-- The objects are of one type, their nodes correspond in order, and all else is equal. -/
inductive Object.Like (ρ : NodeId → NodeId → Prop) : Object → Object → Prop
  | tile {t t' : Tile} (vertices : List.Forall₂ ρ t.vertices t'.vertices)
    (edges : List.Forall₂ ρ t.edges t'.edges) (parent : Option.Rel ρ t.parent t'.parent)
    (fields : t.fields.Like ρ t'.fields) : Like ρ (.tile t) (.tile t')
  | vertex {v v' : Vertex} (tile : Option.Rel ρ v.tile v'.tile) (position : v'.position = v.position)
    (index : v'.index = v.index) (fields : v.fields.Like ρ v'.fields) : Like ρ (.vertex v) (.vertex v')
  | edge {e e' : Edge} (tile : Option.Rel ρ e.tile e'.tile) (index : e'.index = e.index)
    (fields : e.fields.Like ρ e'.fields) : Like ρ (.edge e) (.edge e')
  | patch {p p' : Patch} (tiles : List.Forall₂ ρ p.tiles p'.tiles)
    (locations : p'.locations = p.locations) (tileLocations : p'.tileLocations = p.tileLocations)
    (fields : p.fields.Like ρ p'.fields) : Like ρ (.patch p) (.patch p')
  | cluster {c c' : Cluster} (items : List.Forall₂ (Datum.Like ρ) c.items c'.items)
    (fields : c.fields.Like ρ c'.fields) : Like ρ (.cluster c) (.cluster c')
  | lambda {l l' : Lambda} (label : l'.label = l.label) (params : l'.params = l.params)
    (body : l'.body = l.body) (free : l'.free = l.free) (closure : l.closure.Like ρ l'.closure)
    (fields : l.fields.Like ρ l'.fields) : Like ρ (.lambda l) (.lambda l')

namespace Object.Like

variable {o o' : Object} {l : Link}

theorem type_eq (h : o.Like ρ o') : o'.type = o.type := by cases h <;> rfl

theorem self (h : ∀ l ∈ o.links, ρ l.2 l.2) : o.Like ρ o := by
  have hids : ∀ {t : ObjectType} {ids : List NodeId}, (∀ l ∈ ids.map (t, ·), ρ l.2 l.2) →
      List.Forall₂ ρ ids ids := fun hl =>
    List.forall₂_same.2 fun i hi => hl (_, i) (List.mem_map_of_mem hi)
  have hid : ∀ {t : ObjectType} {id : Option NodeId}, (∀ l ∈ id.toList.map (t, ·), ρ l.2 l.2) →
      Option.Rel ρ id id := by
    intro t id hl
    cases id with
    | none => exact .none
    | some i => exact .some (hl (t, i) (by simp))
  cases o with
  | tile t =>
    simp only [links, List.forall_mem_append] at h
    exact .tile (hids h.1.1.1) (hids h.1.1.2) (hid h.1.2) (.self h.2)
  | vertex v =>
    simp only [links, List.forall_mem_append] at h
    exact .vertex (hid h.1) rfl rfl (.self h.2)
  | edge e =>
    simp only [links, List.forall_mem_append] at h
    exact .edge (hid h.1) rfl (.self h.2)
  | patch p =>
    simp only [links, List.forall_mem_append] at h
    exact .patch (hids h.1) rfl rfl (.self h.2)
  | cluster c =>
    simp only [links, List.forall_mem_append] at h
    refine .cluster (List.forall₂_same.2 fun d hd => .self fun l hl => h.1 l ?_) (.self h.2)
    exact List.mem_filterMap.2 ⟨d, hd, hl⟩
  | lambda l =>
    simp only [links, List.forall_mem_append] at h
    exact .lambda rfl rfl rfl rfl (.self h.1) (.self h.2)

theorem mono (h : o.Like ρ o') (hρ : ∀ i j, ρ i j → σ i j) : o.Like σ o' := by
  cases h with
  | tile vertices edges parent fields =>
    exact .tile (vertices.imp hρ) (edges.imp hρ) (rel_imp hρ parent) (fields.mono hρ)
  | vertex tile position index fields =>
    exact .vertex (rel_imp hρ tile) position index (fields.mono hρ)
  | edge tile index fields => exact .edge (rel_imp hρ tile) index (fields.mono hρ)
  | patch tiles locations tileLocations fields =>
    exact .patch (tiles.imp hρ) locations tileLocations (fields.mono hρ)
  | cluster items fields => exact .cluster (items.imp fun _ _ hd => hd.mono hρ) (fields.mono hρ)
  | lambda label params body free closure fields =>
    exact .lambda label params body free (closure.mono hρ) (fields.mono hρ)

theorem symm (h : o.Like ρ o') : o'.Like (flip ρ) o := by
  cases h with
  | tile vertices edges parent fields =>
    exact .tile vertices.flip edges.flip (rel_flip parent) fields.symm
  | vertex tile position index fields =>
    exact .vertex (rel_flip tile) position.symm index.symm fields.symm
  | edge tile index fields => exact .edge (rel_flip tile) index.symm fields.symm
  | patch tiles locations tileLocations fields =>
    exact .patch tiles.flip locations.symm tileLocations.symm fields.symm
  | cluster items fields =>
    exact .cluster (items.flip.imp fun _ _ hd => Datum.Like.symm hd) fields.symm
  | lambda label params body free closure fields =>
    exact .lambda label.symm params.symm body.symm free.symm closure.symm fields.symm

theorem exists_link (h : o.Like ρ o') (hl : l ∈ o'.links) : ∃ i, (l.1, i) ∈ o.links ∧ ρ i l.2 := by
  have hids : ∀ {t : ObjectType} {ids ids' : List NodeId}, List.Forall₂ ρ ids ids' →
      l ∈ ids'.map (t, ·) → ∃ i, (l.1, i) ∈ ids.map (t, ·) ∧ ρ i l.2 := by
    intro t ids ids' hids hl
    obtain ⟨j, hj, rfl⟩ := List.mem_map.1 hl
    obtain ⟨i, hi, hr⟩ := exists_of_forall₂ hids hj
    exact ⟨i, List.mem_map_of_mem hi, hr⟩
  cases h with
  | tile vertices edges parent fields =>
    simp only [links, List.mem_append] at hl ⊢
    rcases hl with ((hl | hl) | hl) | hl
    · exact (hids vertices hl).imp fun _ h => ⟨.inl (.inl (.inl h.1)), h.2⟩
    · exact (hids edges hl).imp fun _ h => ⟨.inl (.inl (.inr h.1)), h.2⟩
    · exact (hids (forall₂_toList parent) hl).imp fun _ h => ⟨.inl (.inr h.1), h.2⟩
    · exact (fields.exists_link hl).imp fun _ h => ⟨.inr h.1, h.2⟩
  | vertex tile position index fields =>
    simp only [links, List.mem_append] at hl ⊢
    rcases hl with hl | hl
    · exact (hids (forall₂_toList tile) hl).imp fun _ h => ⟨.inl h.1, h.2⟩
    · exact (fields.exists_link hl).imp fun _ h => ⟨.inr h.1, h.2⟩
  | edge tile index fields =>
    simp only [links, List.mem_append] at hl ⊢
    rcases hl with hl | hl
    · exact (hids (forall₂_toList tile) hl).imp fun _ h => ⟨.inl h.1, h.2⟩
    · exact (fields.exists_link hl).imp fun _ h => ⟨.inr h.1, h.2⟩
  | patch tiles locations tileLocations fields =>
    simp only [links, List.mem_append] at hl ⊢
    rcases hl with hl | hl
    · exact (hids tiles hl).imp fun _ h => ⟨.inl h.1, h.2⟩
    · exact (fields.exists_link hl).imp fun _ h => ⟨.inr h.1, h.2⟩
  | cluster items fields =>
    simp only [links, List.mem_append, List.mem_filterMap] at hl ⊢
    rcases hl with ⟨d', hd', hl⟩ | hl
    · obtain ⟨d, hd, hlike⟩ := exists_of_forall₂ items hd'
      obtain ⟨i, hi, hr⟩ := hlike.exists_link hl
      exact ⟨i, .inl ⟨d, hd, hi⟩, hr⟩
    · exact (fields.exists_link hl).imp fun _ h => ⟨.inr h.1, h.2⟩
  | lambda label params body free closure fields =>
    simp only [links, List.mem_append] at hl ⊢
    rcases hl with hl | hl
    · exact (closure.exists_link hl).imp fun _ h => ⟨.inl h.1, h.2⟩
    · exact (fields.exists_link hl).imp fun _ h => ⟨.inr h.1, h.2⟩

end Object.Like

end Mosaic
