import Mosaic.Proofs.Cadence.Copied
import Mosaic.Proofs.Graph.Collect

/-!
# Copies agree

A deep copy holds only the copies made so far; what it copies is reached from the roots, so it stays as
it is. Copying a node makes new nodes only, and an object like the source once what it points at is
copied (`CopyM.Agree.copyNode`). How deep nodes may lie is bounded by the size of the store, which
differs between twins: it is enough if it exceeds the number of nodes that are not copied yet.
-/

namespace Mosaic

open Mosaic.Graph (NodeId Node Kind Pool)

open Copies

namespace CopyM

/-- Actions that copy do the same on stores that share a fragment. The copies that there were stay as
they are. -/
def Agree {α : Type} (E : Setting) (P V : List NodeId) (U : NodeId → Prop) (g : Fragment) (cs : Copies)
    (x y : CopyM α) (Q : Copies → α → Prop) : Prop :=
  Copied E P V U cs g → StoreM.Agree E P [] g (x.run cs) (y.run cs) fun g' r =>
    Copied E P V U r.2 g' ∧ cs.Extends r.2 ∧ (∀ i j, cs.Sends i j → g' j = g j) ∧ Q r.2 r.1

namespace Agree

variable {E : Setting} {P V : List NodeId} {U : NodeId → Prop} {g : Fragment} {cs : Copies}
  {α β : Type} {x y : CopyM α} {Q Q' : Copies → α → Prop} {R : Copies → β → Prop} {id : NodeId}
  {t : ObjectType}

theorem ret {a : α} (h : Q cs a) : Agree E P V U g cs (pure a) (pure a) Q :=
  fun hc => StoreM.Agree.ret ⟨hc, .refl cs, fun _ _ _ => rfl, h⟩

theorem bind {f h : α → CopyM β} (hx : Agree E P V U g cs x y Q)
    (hf : ∀ g' cs' a, g.Keeps P g' → cs.Extends cs' → Q cs' a →
      Agree E P V U g' cs' (f a) (h a) R) :
    Agree E P V U g cs (x >>= f) (y >>= h) R := by
  intro hc
  rw [StateT.run_bind, StateT.run_bind]
  refine StoreM.Agree.bind (hx hc) fun g' r hg hr => ?_
  obtain ⟨hc', hext, hsame, hq⟩ := hr
  refine (hf g' r.2 r.1 hg.keeps hext hq hc').imp fun g'' r' _ hr' => ?_
  exact ⟨hr'.1, hext.trans hr'.2.1,
    fun i j hij => (hr'.2.2.1 i j (hext i j hij)).trans (hsame i j hij), hr'.2.2.2⟩

theorem mapM {f h : β → CopyM α} {S : Copies → β → α → Prop}
    (hS : ∀ cs cs' b a, cs.Extends cs' → S cs b a → S cs' b a) {bs : List β}
    (hf : ∀ b ∈ bs, ∀ g' cs', g.Keeps P g' → cs.Extends cs' →
      Agree E P V U g' cs' (f b) (h b) fun cs'' => S cs'' b) :
    Agree E P V U g cs (bs.mapM f) (bs.mapM h) fun cs' as => List.Forall₂ (S cs') bs as := by
  induction bs generalizing g cs with
  | nil =>
    rw [List.mapM_nil, List.mapM_nil]
    exact ret .nil
  | cons b bs ih =>
    rw [List.mapM_cons, List.mapM_cons]
    refine bind (hf b (by simp) g cs (.refl g P) (.refl cs)) fun g₁ cs₁ a h₁ hc₁ ha => ?_
    refine bind (ih fun b' hb' g' cs' hg hc =>
      hf b' (by simp [hb']) g' cs' (h₁.trans hg) (hc₁.trans hc)) fun g₂ cs₂ as h₂ hc₂ has => ret ?_
    exact .cons (hS _ _ _ _ hc₂ ha) has

/-! ## Renaming -/

section Rename

variable {f h : ObjectType → NodeId → CopyM NodeId} {ls ls' : List Link}

/-- The actions copy what the links lead to. -/
def Renames (E : Setting) (P V : List NodeId) (U : NodeId → Prop) (g : Fragment) (cs : Copies)
    (f h : ObjectType → NodeId → CopyM NodeId) (ls : List Link) : Prop :=
  ∀ l ∈ ls, ∀ g' cs', g.Keeps P g' → cs.Extends cs' →
    Agree E P V U g' cs' (f l.1 l.2) (h l.1 l.2) fun cs'' j => cs''.Sends l.2 j

theorem Renames.later {g' : Fragment} {cs' : Copies} (hr : Renames E P V U g cs f h ls)
    (hg : g.Keeps P g') (hc : cs.Extends cs') : Renames E P V U g' cs' f h ls :=
  fun l hl _ _ hg' hc' => hr l hl _ _ (hg.trans hg') (hc.trans hc')

theorem Renames.of_subset (hr : Renames E P V U g cs f h ls) (hs : ls' ⊆ ls) :
    Renames E P V U g cs f h ls' :=
  fun l hl => hr l (hs hl)

theorem Renames.split (hr : Renames E P V U g cs f h (ls ++ ls')) :
    Renames E P V U g cs f h ls ∧ Renames E P V U g cs f h ls' :=
  ⟨hr.of_subset (List.subset_append_left ..), hr.of_subset (List.subset_append_right ..)⟩

theorem renameIds {ids : List NodeId} (hr : Renames E P V U g cs f h (ids.map (t, ·))) :
    Agree E P V U g cs (ids.mapM (f t)) (ids.mapM (h t)) fun cs' ids' =>
      List.Forall₂ cs'.Sends ids ids' :=
  mapM (S := fun cs => cs.Sends) (fun _ _ i j hc hij => hc i j hij) fun i hi =>
    hr (t, i) (List.mem_map_of_mem hi)

theorem renameOption {o : Option NodeId} (hr : Renames E P V U g cs f h (o.toList.map (t, ·))) :
    Agree E P V U g cs (o.mapM (f t)) (o.mapM (h t)) fun cs' o' => Option.Rel cs'.Sends o o' := by
  cases o with
  | none => exact ret .none
  | some id =>
    rw [Option.mapM_some, Option.mapM_some]
    refine bind (hr (t, id) (by simp) g cs (.refl g P) (.refl cs)) fun g' cs' j _ _ hj => ret ?_
    exact .some hj

theorem renameDatum {d : Datum} (hr : Renames E P V U g cs f h d.link?.toList) :
    Agree E P V U g cs (d.renameNodes f) (d.renameNodes h) fun cs' d' => d.Like cs'.Sends d' := by
  cases d with
  | object t id =>
    refine bind (hr (t, id) (by simp [Datum.link?]) g cs (.refl g P) (.refl cs))
      fun g' cs' j _ _ hj => ret ⟨j, rfl, hj⟩
  | _ => exact ret rfl

theorem like_mono {cs cs' : Copies} {d d' : Datum} (hc : cs.Extends cs') (hd : d.Like cs.Sends d') :
    d.Like cs'.Sends d' :=
  hd.mono hc

theorem renameData {ds : List Datum} (hr : Renames E P V U g cs f h (ds.filterMap Datum.link?)) :
    Agree E P V U g cs (ds.mapM (Datum.renameNodes f)) (ds.mapM (Datum.renameNodes h)) fun cs' ds' =>
      List.Forall₂ (Datum.Like cs'.Sends) ds ds' := by
  refine mapM (S := fun cs => Datum.Like cs.Sends) (fun _ _ _ _ => like_mono) fun d hd g' cs' hg hc => ?_
  refine renameDatum ((hr.of_subset fun l hl => ?_).later hg hc)
  exact List.mem_filterMap.2 ⟨d, hd, by simpa using hl⟩

theorem renameFields {fs : Fields} (hr : Renames E P V U g cs f h fs.links) :
    Agree E P V U g cs (fs.renameNodes f) (fs.renameNodes h) fun cs' fs' => fs.Like cs'.Sends fs' := by
  refine bind (mapM (S := fun cs (p p' : Name × Datum) => p'.1 = p.1 ∧ p.2.Like cs.Sends p'.2)
    (fun _ _ _ _ hc hp => ⟨hp.1, like_mono hc hp.2⟩) fun p hp g' cs' hg hc => ?_)
    fun g' cs' l _ _ hl => ret (Fields.like_ofList hl)
  refine bind (renameDatum ((hr.of_subset fun l hl => ?_).later hg hc))
    fun _ _ d' _ _ hd => ret ⟨rfl, hd⟩
  exact Fields.mem_links.2
    ⟨p.1, p.2, Std.ExtTreeMap.mem_toList_iff_getElem?_eq_some.1 hp, by simpa using hl⟩

/-- An object with every node replaced by a copy is like the object. -/
theorem renameNodes {o : Object} (hr : Renames E P V U g cs f h o.links) :
    Agree E P V U g cs (o.renameNodes f) (o.renameNodes h) fun cs' o' => o.Like cs'.Sends o' := by
  cases o with
  | tile tile =>
    obtain ⟨hr, hrf⟩ := hr.split
    obtain ⟨hr, hrp⟩ := hr.split
    obtain ⟨hrv, hre⟩ := hr.split
    refine bind (renameIds hrv) fun g₁ cs₁ vertices h₁ hc₁ hv => ?_
    refine bind (renameIds (hre.later h₁ hc₁)) fun g₂ cs₂ edges h₂ hc₂ he => ?_
    refine bind (renameOption ((hrp.later h₁ hc₁).later h₂ hc₂)) fun g₃ cs₃ parent h₃ hc₃ hp => ?_
    refine bind (renameFields (((hrf.later h₁ hc₁).later h₂ hc₂).later h₃ hc₃))
      fun g₄ cs₄ fields h₄ hc₄ hf => ret ?_
    exact .tile (hv.imp (hc₂.trans (hc₃.trans hc₄))) (he.imp (hc₃.trans hc₄)) (rel_imp hc₄ hp) hf
  | vertex v =>
    obtain ⟨hrt, hrf⟩ := hr.split
    refine bind (renameOption hrt) fun g₁ cs₁ tile h₁ hc₁ ht => ?_
    refine bind (renameFields (hrf.later h₁ hc₁)) fun g₂ cs₂ fields h₂ hc₂ hf => ret ?_
    exact .vertex (rel_imp hc₂ ht) rfl rfl hf
  | edge e =>
    obtain ⟨hrt, hrf⟩ := hr.split
    refine bind (renameOption hrt) fun g₁ cs₁ tile h₁ hc₁ ht => ?_
    refine bind (renameFields (hrf.later h₁ hc₁)) fun g₂ cs₂ fields h₂ hc₂ hf => ret ?_
    exact .edge (rel_imp hc₂ ht) rfl hf
  | patch p =>
    obtain ⟨hrt, hrf⟩ := hr.split
    refine bind (renameIds hrt) fun g₁ cs₁ tiles h₁ hc₁ ht => ?_
    refine bind (renameFields (hrf.later h₁ hc₁)) fun g₂ cs₂ fields h₂ hc₂ hf => ret ?_
    exact .patch (ht.imp hc₂) rfl rfl hf
  | cluster cluster =>
    obtain ⟨hri, hrf⟩ := hr.split
    refine bind (renameData hri) fun g₁ cs₁ items h₁ hc₁ hi => ?_
    refine bind (renameFields (hrf.later h₁ hc₁)) fun g₂ cs₂ fields h₂ hc₂ hf => ret ?_
    exact .cluster (hi.imp fun _ _ => like_mono hc₂) hf
  | lambda l =>
    obtain ⟨hrc, hrf⟩ := hr.split
    refine bind (renameFields hrc) fun g₁ cs₁ closure h₁ hc₁ hcl => ?_
    refine bind (renameFields (hrf.later h₁ hc₁)) fun g₂ cs₂ fields h₂ hc₂ hf => ret ?_
    exact .lambda rfl rfl rfl rfl (hcl.mono hc₂) hf

end Rename

/-! ## Copying nodes -/

theorem links_blank (t : ObjectType) : (Object.blank t).links = [] := by
  cases t <;> simp [Object.blank, Object.links]

theorem body_blank (E : Setting) (t : ObjectType) (l : Lambda) (h : Object.blank t = .lambda l) :
    E.body l.body ∧ programTethers l.body = [] := by
  cases t <;> cases h
  exact ⟨E.body_nil, rfl⟩

theorem copyParts {d d' : Nat} {o : Object} (ho : g id = some o) (ht : o.type = t)
    (hr : g.Reach P id) (hc : Copied E P V U cs g)
    (hren : (∀ l ∈ o.links, g.At l.1 l.2) →
      Renames E P V U g cs (CopyM.copyNode d) (CopyM.copyNode d') o.links) :
    StoreM.Agree E P [] g (CopyM.copyParts d t id cs) (CopyM.copyParts d' t id cs) fun g' r =>
      Copied E P V U r.2 g' ∧ cs.Extends r.2 ∧ (∀ i j, cs.Sends i j → g' j = g j) ∧
        g' id = some o ∧ o.Like r.2.Sends r.1 ∧ ∀ l ∈ o.links, g'.At l.1 l.2 := by
  refine StoreM.Agree.bind (StoreM.Agree.fetchObject ⟨o, ho, ht⟩) fun g₁ o' _ ho' => ?_
  obtain ⟨rfl, ho', _, hlinks⟩ := ho'
  rw [ho] at ho'
  cases ho'
  refine (renameNodes (hren hlinks) hc).imp fun g₂ r hg₂ hr₂ => ?_
  obtain ⟨hc₂, hext, hsame, hlike⟩ := hr₂
  refine ⟨hc₂, hext, hsame, (hg₂.keeps id hr).trans ho, hlike, fun l hl => ?_⟩
  exact hg₂.keeps.has (.link hr ho hl) (hlinks l hl)

theorem fillCopy {o o' : Object} {copy : NodeId} (hc : Copied E P V (fun i => U i ∨ i = id) cs g)
    (hcopy : cs.Sends id copy) (hblank : g copy = some (.blank t)) (ho : g id = some o)
    (ht : o.type = t) (hlike : o.Like cs.Sends o') (hlinks : ∀ l ∈ o.links, g.At l.1 l.2) :
    StoreM.Agree E P [] g (StoreM.update (Object.ofType t) copy (CopyM.fill o'))
      (StoreM.update (Object.ofType t) copy (CopyM.fill o')) fun g' _ =>
      g' = Function.update g copy (some o') ∧ Copied E P V U cs g' := by
  have hwrap : (Object.ofType t).wrap (CopyM.fill o' ⟨.blank t, Object.type_blank t⟩) = o' := by
    rw [CopyM.fill, dif_pos (hlike.type_eq.trans ht)]
    rfl
  refine (StoreM.Agree.update (k := Object.ofType t) (a := ⟨.blank t, Object.type_blank t⟩) hblank
    (hc.apart id copy hcopy) ?_ ?_).imp fun g' _ _ hg' => ?_
  · rw [hwrap]
    intro l hl
    obtain ⟨i, hi, hij⟩ := hlike.exists_link hl
    exact hc.at_copy hij (hlinks _ hi)
  · rw [hwrap]
    rintro l rfl
    cases hlike with
    | lambda label params body free closure fields => exact ⟨id, _, ho, body.symm⟩
  · rw [hwrap] at hg'
    exact ⟨hg', hg' ▸ hc.finish hcopy ho hlike⟩

/-- A node is copied with all that it points at. -/
theorem copyNode {d d' : Nat} (hid : g.At t id) (hr : g.Reach V id)
    (hd : (cs.left V g).encard < d) (hd' : (cs.left V g).encard < d') :
    Agree E P V U g cs (CopyM.copyNode d t id) (CopyM.copyNode d' t id) fun cs' j => cs'.Sends id j := by
  induction d generalizing d' U g cs t id with
  | zero => simp at hd
  | succ d ih =>
    obtain _ | d' := d'
    · simp at hd'
    intro hc
    cases hci : cs[id]? with
    | some copy =>
      rw [copyNode_run_of_some hci, copyNode_run_of_some hci]
      exact StoreM.Agree.readThen (S := fun _ => True)
        ((StoreM.Agree.fetchObject (hc.at_copy hci hid)).imp fun _ _ _ h => ⟨h.1, trivial⟩)
        fun _ _ => StoreM.Agree.ret ⟨hc, .refl cs, fun _ _ _ => rfl, hci⟩
    | none =>
      rw [copyNode_run_of_none hci, copyNode_run_of_none hci]
      refine StoreM.Agree.bind (StoreM.Agree.keeping hc.isSome_values
        (StoreM.Agree.allocate (by simp [links_blank]) (body_blank E t))) fun g₁ copy hlead₁ hcopy => ?_
      obtain ⟨hkeeps, hblank, hfree, hapart, hnew⟩ := hcopy
      obtain ⟨o, ho, ht⟩ := hid
      have hrP : g.Reach P id := hr.of_reach hc.rooted
      have hg₁ : g.Keeps P g₁ := hlead₁.keeps
      have hV₁ : g.Keeps V g₁ := hg₁.of_reach hc.rooted
      have ho₁ : g₁ id = some o := (hg₁ id hrP).trans ho
      have hsame₁ : ∀ i j, cs.Sends i j → g₁ j = g j := fun i j hij =>
        hkeeps j (.root (List.mem_append_right _ (List.mem_append_left _ hij.mem_values)))
      have hc₁ : Copied E P V (fun i => U i ∨ i = id) (cs.insert id copy) g₁ :=
        (hc.keep hg₁ hsame₁).insert hci (hV₁.reach hr) ⟨o, ho₁, ht⟩
          ⟨_, hblank, Object.type_blank t⟩ (fun h => hapart (h.mono (List.subset_append_left ..))) hnew
          fun i hi => hc.ne_of_none hfree hi rfl
      -- There is less to copy now, and what is copied next can be reached, too.
      have hren : (∀ l ∈ o.links, g₁.At l.1 l.2) → Renames E P V (fun i => U i ∨ i = id) g₁
          (cs.insert id copy) (CopyM.copyNode d) (CopyM.copyNode d') o.links := by
        intro hlinks l hl g' cs' hg' hcs'
        have hV' : g₁.Keeps V g' := hg'.of_reach hc₁.rooted
        have hleft := Set.encard_le_encard (left_mono hcs' hV')
        have hrl : g₁.Reach V l.2 := .link (hV₁.reach hr) ho₁ hl
        exact ih (hg'.has (hrl.of_reach hc₁.rooted) (hlinks l hl)) (hV'.reach hrl)
          (lt_of_le_of_lt hleft (left_insert hV₁ hr hci hd))
          (lt_of_le_of_lt hleft (left_insert hV₁ hr hci hd'))
      refine StoreM.Agree.bind (copyParts ho₁ ht (hg₁.reach hrP) hc₁ hren) fun g₂ r hlead₂ hr₂ => ?_
      obtain ⟨hc₂, hext, hsame₂, ho₂, hlike, hlinks⟩ := hr₂
      have hsend : r.2.Sends id copy := hext id copy sends_insert_self
      have hblank₂ : g₂ copy = some (.blank t) := (hsame₂ id copy sends_insert_self).trans hblank
      refine StoreM.Agree.bind (fillCopy hc₂ hsend hblank₂ ho₂ ht hlike hlinks)
        fun g₃ _ _ hg₃ => StoreM.Agree.ret ?_
      obtain ⟨rfl, hc₃⟩ := hg₃
      have hext' : cs.Extends r.2 := (extends_insert hci).trans hext
      refine ⟨hc₃, hext', fun i j hij => ?_, hsend⟩
      rw [Function.update_of_ne (hc.ne_of_none hfree hij), hsame₂ i j (extends_insert hci i j hij), hsame₁ i j hij]

end Agree

end CopyM

end Mosaic
