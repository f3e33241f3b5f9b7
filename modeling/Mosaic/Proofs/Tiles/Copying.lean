import Mosaic.Proofs.Cadence.Copied
import Mosaic.Proofs.Tiles.Making

/-!
# Copies of what is well formed

While a copy is made, the new objects are those that were copied so far (`Store.Underway`): a copy has the core
of what it is a copy of, with copies for the nodes, unless that is still being copied. So at the end the copies
are in their places, since what they are copies of is (`Store.Underway.orderly`). What is copied was there
before, so no copy is copied again: it is in a region that has no pointers to the outside
(`Store.Encloses`).
-/

namespace Mosaic

open Mosaic.Graph (NodeId Node Kind Pool Heap)

open Copies Store

/-! ## Cores of copies -/

theorem exists_getElem?_of_forall₂ {α β : Type} {r : α → β → Prop} {l : List α} {l' : List β}
    (h : List.Forall₂ r l l') {i : Nat} {b : β} (hb : l'[i]? = some b) : ∃ a, l[i]? = some a ∧ r a b := by
  induction h generalizing i with
  | nil => cases hb
  | cons hab _ ih =>
    cases i with
    | zero =>
      cases hb
      exact ⟨_, rfl, hab⟩
    | succ i => exact ih hb

theorem forall₂_meet {α β γ : Type} {r : α → β → Prop} {s : α → γ → Prop} {t : γ → β → Prop} {l : List α}
    {l' : List β} {l'' : List γ} (h : List.Forall₂ r l l') (h' : List.Forall₂ s l l'')
    (ht : ∀ a b c, r a b → s a c → t c b) : List.Forall₂ t l'' l' := by
  induction h generalizing l'' with
  | nil =>
    cases h'
    exact .nil
  | cons hr _ ih =>
    cases h' with
    | cons hs h' => exact .cons (ht _ _ _ hr hs) (ih h')

theorem exists_of_rel {α β : Type} {r : α → β → Prop} {a? : Option α} {b? : Option β} (h : Option.Rel r a? b?)
    {a : α} (ha : a? = some a) : ∃ b, b? = some b ∧ r a b := by
  subst ha
  cases h with
  | some h => exact ⟨_, rfl, h⟩

theorem exists_left_of_rel {α β : Type} {r : α → β → Prop} {a? : Option α} {b? : Option β} (h : Option.Rel r a? b?)
    {b : β} (hb : b? = some b) : ∃ a, a? = some a ∧ r a b := by
  subst hb
  cases h with
  | some h => exact ⟨_, rfl, h⟩

theorem Copies.Sends.unique {cs : Copies} {i j j' : NodeId} (h : cs.Sends i j) (h' : cs.Sends i j') : j = j' :=
  Option.some.inj (h.symm.trans h')

/-- The copies of objects of `g` are in `g'`. -/
def Copies.Lead (cs : Copies) (g g' : Fragment) : Prop :=
  ∀ i j o, cs.Sends i j → g i = some o → ∃ o', g' j = some o' ∧ o.Like cs.Sends o'

namespace Copies.Lead

variable {g g' : Fragment} {cs : Copies} {i j v w : NodeId} {n : Nat} {o o' : Object}

theorem owner {i? j? : Option NodeId} (h : Option.Rel cs.Sends i? j?) (hi : i? = some i) (hij : cs.Sends i j) :
    j? = some j := by
  obtain ⟨j', hj', hsends⟩ := exists_of_rel h hi
  rw [hj', hsends.unique hij]

/-- The copy of a part has the place of the part. -/
theorem place {is js : List NodeId} (h : List.Forall₂ cs.Sends is js) (hi : is[n]? = some i) (hij : cs.Sends i j) :
    js[n]? = some j := by
  obtain ⟨j', hj', hsends⟩ := exists_getElem?_of_forall₂ h.flip hi
  rw [hj', Copies.Sends.unique hsends hij]

theorem corner (h : cs.Lead g g') (hv : g.Corner i n v) (hij : cs.Sends i j) (hvw : cs.Sends v w) :
    g'.Corner j n w := by
  obtain ⟨x, hx, htile, hindex⟩ := hv
  obtain ⟨_, hx', hlike⟩ := h v w _ hvw hx
  cases hlike with
  | @vertex _ x' tile _ index => exact ⟨x', hx', owner tile htile hij, index.trans hindex⟩

theorem side (h : cs.Lead g g') (hv : g.Side i n v) (hij : cs.Sends i j) (hvw : cs.Sends v w) :
    g'.Side j n w := by
  obtain ⟨x, hx, htile, hindex⟩ := hv
  obtain ⟨_, hx', hlike⟩ := h v w _ hvw hx
  cases hlike with
  | @edge _ x' tile index => exact ⟨x', hx', owner tile htile hij, index.trans hindex⟩

theorem located (h : cs.Lead g g') {locations : List Nat} (ht : g.Located n i locations) (hij : cs.Sends i j) :
    g'.Located n j locations := by
  obtain ⟨t, ht, hparent, hlen, hlt⟩ := ht
  obtain ⟨_, ht', hlike⟩ := h i j _ hij ht
  cases hlike with
  | @tile _ t' vertices _ parent =>
    obtain ⟨p, hp⟩ := Option.isSome_iff_exists.1 hparent
    obtain ⟨p', hp', -⟩ := exists_of_rel parent hp
    exact ⟨t', ht', by rw [hp']; rfl, hlen.trans vertices.length_eq, hlt⟩

theorem lists (h : cs.Lead g g') {p p' : NodeId} (hp : g.Lists p i) (hpp' : cs.Sends p p') (hij : cs.Sends i j) :
    g'.Lists p' j := by
  obtain ⟨q, hq, hmem⟩ := hp
  obtain ⟨_, hq', hlike⟩ := h p p' _ hpp' hq
  cases hlike with
  | @patch _ q' tiles =>
    obtain ⟨n, hn⟩ := List.mem_iff_getElem?.1 hmem
    exact ⟨q', hq', List.mem_of_getElem? (place tiles hn hij)⟩

/-- A copy of an object in its place is in its place, unless it is a tile that a patch is due to get. -/
theorem placed {due due' : NodeId → NodeId → Prop} (h : cs.Lead g g') (ho : g.Placed due i o) (hdue : ∀ p, ¬ due p i)
    (hlike : o.Like cs.Sends o') (hij : cs.Sends i j) : g'.Placed due' j o' := by
  cases hlike with
  | @tile t t' vertices edges parent =>
    obtain ⟨hthree, hlen, hvertices, hedges, hparent⟩ := ho
    rw [vertices.length_eq] at hthree
    rw [vertices.length_eq, edges.length_eq] at hlen
    refine ⟨hthree, hlen, fun k w hw => ?_, fun k w hw => ?_, fun p' hp' => ?_⟩
    · obtain ⟨v, hv, hvw⟩ := exists_getElem?_of_forall₂ vertices hw
      exact h.corner (hvertices k v hv) hij hvw
    · obtain ⟨v, hv, hvw⟩ := exists_getElem?_of_forall₂ edges hw
      exact h.side (hedges k v hv) hij hvw
    · obtain ⟨p, hp, hpp'⟩ := exists_left_of_rel parent hp'
      exact .inr (h.lists ((hparent p hp).resolve_left (hdue p)) hpp' hij)
  | @vertex v v' tile _ index =>
    obtain ⟨t, x, hv, hx, hplace⟩ := ho
    obtain ⟨t', ht', htt'⟩ := exists_of_rel tile hv
    obtain ⟨_, hx', hlike⟩ := h t t' _ htt' hx
    cases hlike with
    | @tile _ x' vertices => exact ⟨t', x', ht', hx', index ▸ place vertices hplace hij⟩
  | @edge e e' tile index =>
    obtain ⟨t, x, he, hx, hplace⟩ := ho
    obtain ⟨t', ht', htt'⟩ := exists_of_rel tile he
    obtain ⟨_, hx', hlike⟩ := h t t' _ htt' hx
    cases hlike with
    | @tile _ x' _ edges => exact ⟨t', x', ht', hx', index ▸ place edges hplace hij⟩
  | @patch p p' tiles locations tileLocations =>
    show List.Forall₂ (g'.Located p'.locations.length) p'.tiles p'.tileLocations
    rw [locations, tileLocations]
    exact forall₂_meet ho tiles fun _ _ _ ht hsends => h.located ht hsends
  | cluster => trivial
  | @lambda l l' _ _ body => exact (congrArg IsCode body).mpr ho

end Copies.Lead

/-! ## Stores with copies under way -/

namespace Store

/-- The region has no pointers to the outside. -/
structure Encloses (s : Store) (A : NodeId → Prop) : Prop where
  below : ∀ id : Nat, A id → id < s.next
  pointers : ∀ (id : NodeId) e, A id → s.pool.entries[id]? = some e → ∀ p ∈ e.node.pointers, A p

/-- What there is more than in the store `s₀` are copies of what it had, but for the tiles that a patch is due to
get. Those of `U` are not finished. -/
structure Underway (due : NodeId → NodeId → Prop) (s₀ : Store) (pins : Pins) (U : NodeId → Prop) (cs : Copies)
    (s : Store) : Prop where
  settled : s.Settled due s₀.next
  grows : Grows pins s₀ s
  made : ∀ (j : Nat) e, s₀.next ≤ j → s.pool.entries[j]? = some e → ∃ i, cs.Sends i j
  new : ∀ (i : NodeId) (j : Nat), cs.Sends i j → s₀.next ≤ j ∧ j < s.next
  free : ∀ p i j, cs.Sends i j → ¬ due p i
  injective : ∀ i i' j, cs.Sends i j → cs.Sends i' j → i = i'
  like : ∀ i j, cs.Sends i j → ¬ U i →
    ∃ o e, s₀.cores s₀.next i = some o ∧ s.pool.entries[j]? = some e ∧ o.Like cs.Sends e.node.core

namespace Underway

variable {due : NodeId → NodeId → Prop} {s₀ s s' : Store} {pins : Pins} {U : NodeId → Prop} {cs : Copies}
  {id : NodeId} {copy : Nat}

theorem empty (h : s₀.Settled due s₀.next) : Underway due s₀ pins U {} s₀ := by
  have hno : ∀ i j, ¬ Sends {} i j := fun i j h => by simp [Sends] at h
  exact ⟨h, .refl pins s₀, fun j e hj he => absurd (h.below j e he) (Nat.not_lt_of_le hj),
    fun i j h => (hno i j h).elim, fun p i j h => (hno i j h).elim, fun i _ j h => (hno i j h).elim,
    fun i j h => (hno i j h).elim⟩

theorem all (h : Underway due s₀ pins (fun _ => False) cs s) (h₀ : s₀.Settled due s₀.next) :
    s.Settled due s.next := by
  have hlead : cs.Lead (s₀.cores s₀.next) (s.cores s.next) := by
    intro i j o hij ho
    obtain ⟨o', e, ho', he, hlike⟩ := h.like i j hij not_false
    obtain rfl : o = o' := Option.some.inj (ho.symm.trans ho')
    exact ⟨_, cores_of_lt (h.settled.below j e he) he, hlike⟩
  refine h.settled.all fun j e hj he => ?_
  obtain ⟨i, hij⟩ := h.made j e hj he
  obtain ⟨o, e', ho, he', hlike⟩ := h.like i j hij not_false
  obtain rfl : e = e' := Option.some.inj (he.symm.trans he')
  exact hlead.placed (h₀.tiled i o ho) (fun p => h.free p i j hij) hlike hij

theorem insert (h : Underway due s₀ pins U cs s) (hid : cs[id]? = none) (hfree : ∀ p, ¬ due p id)
    (hs : s'.Settled due s₀.next) (hgrows : Grows (pins.also fun _ => cs.values) s s') (hcopy : copy = s.next)
    (hnext : s'.next = s.next + 1) : Underway due s₀ pins (fun i => U i ∨ i = id) (cs.insert id copy) s' := by
  have hext : cs.Extends (cs.insert id copy) := extends_insert hid
  have hcases : ∀ (i : NodeId) (j : Nat), Sends (cs.insert id copy) i j → i = id ∧ j = copy ∨ cs.Sends i j :=
    fun i j hc => (getElem?_insert_cases hc).imp_right And.right
  have hfresh : ∀ i, ¬ cs.Sends i copy := fun i hi => by
    have := (h.new i copy hi).2
    omega
  refine ⟨hs, h.grows.trans hgrows.of_also, fun j e hj he => ?_, fun i j hij => ?_, fun p i j hij => ?_,
    fun i i' j hij hij' => ?_, fun i j hij hU => ?_⟩
  · by_cases hlt : j < s.next
    · exact (h.made j e hj (hgrows.old j e hlt he)).imp fun i hij => hext i j hij
    · have := hs.below j e he
      obtain rfl : j = copy := by omega
      exact ⟨id, sends_insert_self⟩
  · have hle := h.grows.next
    rcases hcases i j hij with ⟨rfl, rfl⟩ | hij
    · omega
    · have := h.new i j hij
      omega
  · rcases hcases i j hij with ⟨rfl, -⟩ | hij
    · exact hfree p
    · exact h.free p i j hij
  · rcases hcases i j hij with ⟨hi, hj⟩ | hold <;> rcases hcases i' j hij' with ⟨hi', hj'⟩ | hold'
    · exact hi.trans hi'.symm
    · exact (hfresh i' (hj ▸ hold')).elim
    · exact (hfresh i (hj' ▸ hold)).elim
    · exact h.injective i i' j hold hold'
  · rcases hcases i j hij with ⟨rfl, rfl⟩ | hij
    · exact (hU (.inr rfl)).elim
    · obtain ⟨o, e, ho, he, hlike⟩ := h.like i j hij fun hi => hU (.inl hi)
      have hmem : j ∈ (pins.also fun _ => cs.values).get := Pins.mem_also.2 (.inr hij.mem_values)
      exact ⟨o, e, ho, (hgrows.kept j hmem (h.new i j hij).2).trans he, hlike.mono hext⟩

theorem finish (h : Underway due s₀ pins (fun i => U i ∨ i = id) cs s) (hcopy : cs.Sends id copy)
    (hs : s'.Settled due s₀.next) {o o₁ o' : Object} (hc : Changes s s' copy o₁ o')
    (ho : s₀.cores s₀.next id = some o) (hlike : o.Like cs.Sends o'.core) : Underway due s₀ pins U cs s' := by
  refine ⟨hs, hc.grows h.grows (h.new id copy hcopy).1, fun j e hj he => ?_, hc.next ▸ h.new, h.free, h.injective,
    fun i j hij hU => ?_⟩
  · by_cases hjc : j = copy
    · exact ⟨id, hjc ▸ hcopy⟩
    · rw [hc.other j hjc] at he
      exact h.made j e hj he
  · by_cases hjc : j = copy
    · subst hjc
      obtain rfl := h.injective i id j hij hcopy
      obtain ⟨e, he, rfl⟩ := hc.after
      exact ⟨o, e, ho, he, hlike⟩
    · have hne : i ≠ id := fun hi => hjc (Copies.Sends.unique hij (hi ▸ hcopy))
      obtain ⟨o'', e', ho'', he', hlike'⟩ := h.like i j hij fun hU' => hU'.elim hU hne
      exact ⟨o'', e', ho'', (hc.other j hjc).trans he', hlike'⟩

end Underway

end Store

/-! ## Actions that copy -/

namespace CopyM

/-- The action makes more copies, unless the graph fails. -/
def Makes {α : Type} (due : NodeId → NodeId → Prop) (s₀ : Store) (pins : Pins) (U : NodeId → Prop) (cs : Copies)
    (x : CopyM α) (Q : Copies → α → Prop) : Prop :=
  ∀ s, Underway due s₀ pins U cs s → StoreM.Yields (x.run cs) pins s fun r s' =>
    Underway due s₀ pins U r.2 s' ∧ cs.Extends r.2 ∧ Q r.2 r.1

namespace Makes

variable {due : NodeId → NodeId → Prop} {s₀ : Store} {pins : Pins} {U A : NodeId → Prop} {cs : Copies} {α β : Type}
  {x : CopyM α} {Q : Copies → α → Prop} {R : Copies → β → Prop} {t : ObjectType} {id : NodeId}

theorem ret {a : α} (h : Q cs a) : Makes due s₀ pins U cs (pure a) Q :=
  fun _ hs => ⟨hs, .refl cs, h⟩

theorem bind {f : α → CopyM β} (hx : Makes due s₀ pins U cs x Q)
    (hf : ∀ cs' a, cs.Extends cs' → Q cs' a → Makes due s₀ pins U cs' (f a) R) :
    Makes due s₀ pins U cs (x >>= f) R := by
  intro s hs
  rw [StateT.run_bind]
  refine StoreM.Yields.bind (hx s hs) fun r s' hr => ?_
  obtain ⟨hs', hext, hq⟩ := hr
  exact (hf r.2 r.1 hext hq s' hs').imp fun r' s'' hr' => ⟨hr'.1, hext.trans hr'.2.1, hr'.2.2⟩

theorem mapM {f : β → CopyM α} {S : Copies → β → α → Prop}
    (hS : ∀ cs cs' b a, cs.Extends cs' → S cs b a → S cs' b a) {bs : List β}
    (hf : ∀ b ∈ bs, ∀ cs', cs.Extends cs' → Makes due s₀ pins U cs' (f b) fun cs'' => S cs'' b) :
    Makes due s₀ pins U cs (bs.mapM f) fun cs' as => List.Forall₂ (S cs') bs as := by
  induction bs generalizing cs with
  | nil =>
    rw [List.mapM_nil]
    exact ret .nil
  | cons b bs ih =>
    rw [List.mapM_cons]
    refine bind (hf b (by simp) cs (.refl cs)) fun cs₁ a hc₁ ha => ?_
    refine bind (ih fun b' hb' cs' hc => hf b' (by simp [hb']) cs' (hc₁.trans hc)) fun cs₂ as hc₂ has => ret ?_
    exact .cons (hS _ _ _ _ hc₂ ha) has

section Rename

variable {f : ObjectType → NodeId → CopyM NodeId}

/-- The action copies the nodes of the list. -/
def Renames (due : NodeId → NodeId → Prop) (s₀ : Store) (pins : Pins) (U : NodeId → Prop) (cs : Copies)
    (f : ObjectType → NodeId → CopyM NodeId) (ids : List NodeId) : Prop :=
  ∀ t, ∀ id ∈ ids, ∀ cs', cs.Extends cs' → Makes due s₀ pins U cs' (f t id) fun cs'' j => cs''.Sends id j

theorem Renames.later {ids : List NodeId} {cs' : Copies} (h : Renames due s₀ pins U cs f ids) (hc : cs.Extends cs') :
    Renames due s₀ pins U cs' f ids :=
  fun t id hid cs'' hc' => h t id hid cs'' (hc.trans hc')

theorem Renames.of_subset {ids ids' : List NodeId} (h : Renames due s₀ pins U cs f ids) (hs : ids' ⊆ ids) :
    Renames due s₀ pins U cs f ids' :=
  fun t id hid => h t id (hs hid)

theorem Renames.split {ids ids' : List NodeId} (h : Renames due s₀ pins U cs f (ids ++ ids')) :
    Renames due s₀ pins U cs f ids ∧ Renames due s₀ pins U cs f ids' :=
  ⟨h.of_subset (List.subset_append_left ..), h.of_subset (List.subset_append_right ..)⟩

theorem renameIds {ids : List NodeId} (hf : Renames due s₀ pins U cs f ids) :
    Makes due s₀ pins U cs (ids.mapM (f t)) fun cs' ids' => List.Forall₂ cs'.Sends ids ids' :=
  mapM (S := fun cs => cs.Sends) (fun _ _ i j hc hij => hc i j hij) fun i hi => hf t i hi

theorem renameOption {i? : Option NodeId} (hf : Renames due s₀ pins U cs f i?.toList) :
    Makes due s₀ pins U cs (i?.mapM (f t)) fun cs' j? => Option.Rel cs'.Sends i? j? := by
  cases i? with
  | none => exact ret .none
  | some id =>
    rw [Option.mapM_some]
    exact bind (hf t id (by simp) cs (.refl cs)) fun cs' j _ hj => ret (.some hj)

theorem renameDatum {d : Datum} (hf : Renames due s₀ pins U cs f d.node?.toList) :
    Makes due s₀ pins U cs (d.renameNodes f) fun _ _ => True := by
  cases d with
  | object t id => exact bind (hf t id (by simp [Datum.node?]) cs (.refl cs)) fun _ _ _ _ => ret trivial
  | _ => exact ret trivial

theorem renameData {ds : List Datum} (hf : Renames due s₀ pins U cs f (ds.filterMap Datum.node?)) :
    Makes due s₀ pins U cs (ds.mapM (Datum.renameNodes f)) fun _ ds' => List.Forall₂ (fun _ _ => True) ds ds' := by
  refine mapM (S := fun _ _ _ => True) (fun _ _ _ _ _ _ => trivial) fun d hd cs' hc => ?_
  refine renameDatum ((hf.of_subset fun id hid => ?_).later hc)
  exact List.mem_filterMap.2 ⟨d, hd, by simpa using hid⟩

theorem renameFields {fs : Fields} (hf : Renames due s₀ pins U cs f fs.pointers) :
    Makes due s₀ pins U cs (fs.renameNodes f) fun _ _ => True := by
  refine bind (mapM (S := fun _ (_ _ : Name × Datum) => True) (fun _ _ _ _ _ _ => trivial) fun p hp cs' hc => ?_)
    fun _ _ _ _ => ret trivial
  refine bind (renameDatum ((hf.of_subset fun id hid => ?_).later hc)) fun _ _ _ _ => ret trivial
  exact Fields.mem_pointers.2 ⟨p.1, p.2, Std.ExtTreeMap.mem_toList_iff_getElem?_eq_some.1 hp, by simpa using hid⟩

/-- The core of an object with every node replaced by a copy is that of the object with copies for the nodes. -/
theorem renameNodes {o : Object} (hf : Renames due s₀ pins U cs f o.pointers) :
    Makes due s₀ pins U cs (o.renameNodes f) fun cs' o' => o.core.Like cs'.Sends o'.core := by
  have hempty : ∀ {ρ : NodeId → NodeId → Prop}, Fields.Like ρ {} {} := .self (by simp)
  have hids : ∀ {cs cs' : Copies} {ids ids' : List NodeId}, cs.Extends cs' → List.Forall₂ cs.Sends ids ids' →
      List.Forall₂ cs'.Sends ids ids' := fun hc h => h.imp hc
  cases o with
  | tile t =>
    obtain ⟨hf, hfields⟩ := hf.split
    obtain ⟨hf, hparent⟩ := hf.split
    obtain ⟨hvertices, hedges⟩ := hf.split
    refine bind (renameIds hvertices) fun cs₁ vertices h₁ hv => ?_
    refine bind (renameIds (hedges.later h₁)) fun cs₂ edges h₂ he => ?_
    refine bind (renameOption (hparent.later (h₁.trans h₂))) fun cs₃ parent h₃ hp => ?_
    refine bind (renameFields (hfields.later ((h₁.trans h₂).trans h₃))) fun cs₄ fields h₄ _ => ret ?_
    exact .tile (hids ((h₂.trans h₃).trans h₄) hv) (hids (h₃.trans h₄) he) (rel_imp h₄ hp) hempty
  | vertex v =>
    obtain ⟨htile, hfields⟩ := hf.split
    refine bind (renameOption htile) fun cs₁ tile h₁ ht => ?_
    refine bind (renameFields (hfields.later h₁)) fun cs₂ fields h₂ _ => ret ?_
    exact .vertex (rel_imp h₂ ht) rfl rfl hempty
  | edge e =>
    obtain ⟨htile, hfields⟩ := hf.split
    refine bind (renameOption htile) fun cs₁ tile h₁ ht => ?_
    refine bind (renameFields (hfields.later h₁)) fun cs₂ fields h₂ _ => ret ?_
    exact .edge (rel_imp h₂ ht) rfl hempty
  | patch p =>
    obtain ⟨htiles, hfields⟩ := hf.split
    refine bind (renameIds htiles) fun cs₁ tiles h₁ ht => ?_
    refine bind (renameFields (hfields.later h₁)) fun cs₂ fields h₂ _ => ret ?_
    exact .patch (hids h₂ ht) rfl rfl hempty
  | cluster c =>
    obtain ⟨hitems, hfields⟩ := hf.split
    refine bind (renameData hitems) fun cs₁ items h₁ _ => ?_
    refine bind (renameFields (hfields.later h₁)) fun cs₂ fields h₂ _ => ret ?_
    exact .cluster .nil hempty
  | lambda l =>
    obtain ⟨hclosure, hfields⟩ := hf.split
    refine bind (renameFields hclosure) fun cs₁ closure h₁ _ => ?_
    refine bind (renameFields (hfields.later h₁)) fun cs₂ fields h₂ _ => ret ?_
    exact .lambda rfl rfl rfl rfl hempty hempty

end Rename

theorem core_fill {o o' : Object} {a : { o : Object // o.type = t }} {ρ : NodeId → NodeId → Prop} (ht : o.type = t)
    (hlike : o.core.Like ρ o'.core) : (Object.ofType t).wrap (CopyM.fill o' a) = o' := by
  have hcore : ∀ o : Object, o.core.type = o.type := fun o => by cases o <;> rfl
  have ht' : o'.type = t := by rw [← hcore, hlike.type_eq, hcore, ht]
  rw [CopyM.fill, dif_pos ht']
  rfl

theorem copyParts {depth : Nat} (hA : s₀.Encloses A) (hid : A id)
    (hf : ∀ t i, A i → ∀ cs', cs.Extends cs' →
      Makes due s₀ pins U cs' (CopyM.copyNode depth t i) fun cs'' j => cs''.Sends i j) {s : Store}
    (hs : Underway due s₀ pins U cs s) :
    StoreM.Yields (CopyM.copyParts depth t id cs) pins s fun r s' =>
      ∃ o : Object, s₀.cores s₀.next id = some o.core ∧ o.type = t ∧ Underway due s₀ pins U r.2 s' ∧
        cs.Extends r.2 ∧ o.core.Like r.2.Sends r.1.core := by
  refine StoreM.Yields.bind StoreM.Yields.fetchObject fun o s₁ h₁ => ?_
  obtain ⟨rfl, ht, e, he, rfl⟩ := h₁
  have he₀ := hs.grows.old id e (hA.below id hid) he
  refine (renameNodes (fun t i hi cs' hc => hf t i (hA.pointers id e hid he₀ i hi) cs' hc) _ hs).imp fun r s' hr => ?_
  obtain ⟨hs', hext, hlike⟩ := hr
  exact ⟨e.node, cores_of_lt (hA.below id hid) he₀, ht, hs', hext, hlike⟩

/-- A node of the region is copied with all that it points at. -/
theorem copyNode (hA : s₀.Encloses A) (hfree : ∀ p i, A i → ¬ due p i) (depth : Nat) (hid : A id) :
    Makes due s₀ pins U cs (CopyM.copyNode depth t id) fun cs' j => cs'.Sends id j := by
  induction depth generalizing U cs t id with
  | zero => exact fun _ _ => rfl
  | succ depth ih =>
    intro s hs
    cases hcid : cs[id]? with
    | some copy =>
      rw [copyNode_run_of_some hcid]
      refine StoreM.Yields.bind StoreM.Yields.fetchObject fun _ s' hs' => StoreM.Yields.ret ?_
      obtain ⟨rfl, -⟩ := hs'
      exact ⟨hs, .refl cs, hcid⟩
    | none =>
      rw [copyNode_run_of_none hcid]
      refine StoreM.Yields.bind (StoreM.Yields.keeping StoreM.Yields.allocate) fun copy s₁ h₁ => ?_
      obtain ⟨hcopy, hnext₁, hgrows₁, -, hsettled₁, -⟩ := h₁
      have hs₁ := hsettled₁ _ _ hs.settled hs.grows.next
      have hunder₁ := hs.insert hcid (fun p => hfree p id hid) hs₁ hgrows₁ hcopy hnext₁
      refine StoreM.Yields.bind (copyParts hA hid (fun t i hi cs' _ => ih hi) hunder₁) fun r s₂ h₂ => ?_
      obtain ⟨o, ho, ht, hunder₂, hext, hlike⟩ := h₂
      have hsends : r.2.Sends id copy := hext id copy sends_insert_self
      have hge : s₀.next ≤ copy := (hunder₂.new id copy hsends).1
      refine StoreM.Yields.bind StoreM.Yields.update fun _ s₃ h₃ => StoreM.Yields.ret ?_
      obtain ⟨hsettled, a, hchanges⟩ := h₃
      have hs₃ := hsettled _ _ hunder₂.settled (.inl hge)
      rw [core_fill ht hlike] at hchanges
      exact ⟨hunder₂.finish hsends hs₃ hchanges ho hlike, (extends_insert hcid).trans hext, hsends⟩

end Makes

end CopyM

namespace StoreM

variable {due : NodeId → NodeId → Prop} {pins : Pins} {s : Store} {A : NodeId → Prop} {t : ObjectType} {id : NodeId}

theorem Yields.copyObject (hs : s.Settled due s.next) (hA : s.Encloses A) (hfree : ∀ p i, A i → ¬ due p i)
    (hid : A id) : Yields (StoreM.copyObject t id) pins s fun j s' =>
      s'.Settled due s'.next ∧ Grows pins s s' ∧ s.next ≤ j ∧ j < s'.next := by
  have hmakes : CopyM.Makes due s pins (fun _ => False) {} (CopyM.copyNode (s.pool.size + 1) t id) fun cs j =>
      cs.Sends id j := .copyNode hA hfree _ hid
  rw [Yields, copyObject_apply]
  refine bind (hmakes s (.empty hs)) fun r s' h => ret ?_
  obtain ⟨hunder, _, hsends⟩ := h
  have hnew := hunder.new id r.1 hsends
  exact ⟨hunder.all hs, hunder.grows, hnew.1, hnew.2⟩

theorem Yields.copyWithField {field : Name} {d : Datum} (hs : s.Orderly) (hA : s.Encloses A) (hid : A id) :
    Yields (StoreM.copyWithField t id field d) pins s fun _ s' => s'.Orderly := by
  refine bind (copyObject hs hA (fun _ _ _ => not_false) hid) fun j s₁ h₁ => bind update fun _ s₂ h₂ => ret ?_
  obtain ⟨hsettled, _, hchanges⟩ := h₂
  rw [Orderly, hchanges.next]
  refine hsettled _ _ h₁.1 (.inr fun o => ?_)
  show (o.val.withFields (o.val.fields.insert field d)).core = o.val.core
  cases o.val <;> rfl

end StoreM

end Mosaic
