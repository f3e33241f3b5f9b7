import Mosaic.Proofs.Cadence.Isomorphism
import Mosaic.Proofs.Store.ConfinedFields

/-!
# Primitives and fields agree

One lemma for each action that primitives and field reads are made of. What such an action is given can
be reached from what is protected, so it stays as it is while the action allocates; what it returns is
there, and of the type that it says.
-/

namespace Mosaic

open Mosaic.Graph (NodeId Node Kind Pool)

/-! ## Payloads -/

namespace Fragment

variable {g : Fragment} {P : List NodeId} {id : NodeId} {c : Cluster} {d : Datum}

theorem At.cluster (h : g.At .cluster id) : ∃ c, g id = some (.cluster c) := by
  obtain ⟨o, ho, ht⟩ := h
  cases o with
  | cluster c => exact ⟨c, ho⟩
  | _ => cases ht

theorem At.tile (h : g.At .tile id) : ∃ t, g id = some (.tile t) := by
  obtain ⟨o, ho, ht⟩ := h
  cases o with
  | tile t => exact ⟨t, ho⟩
  | _ => cases ht

theorem At.vertex (h : g.At .vertex id) : ∃ v, g id = some (.vertex v) := by
  obtain ⟨o, ho, ht⟩ := h
  cases o with
  | vertex v => exact ⟨v, ho⟩
  | _ => cases ht

theorem At.patch (h : g.At .patch id) : ∃ p, g id = some (.patch p) := by
  obtain ⟨o, ho, ht⟩ := h
  cases o with
  | patch p => exact ⟨p, ho⟩
  | _ => cases ht

theorem At.lambda (h : g.At .lambda id) : ∃ l, g id = some (.lambda l) := by
  obtain ⟨o, ho, ht⟩ := h
  cases o with
  | lambda l => exact ⟨l, ho⟩
  | _ => cases ht

theorem rooted_item (hc : g id = some (.cluster c)) (hr : g.Reach P id) (hd : d ∈ c.items)
    (hgood : g.Good (.datum d)) : g.Rooted P (.datum d) :=
  fun l hl => ⟨.link hr hc (List.mem_append_left _ (List.mem_filterMap.2 ⟨d, hd, hl⟩)), hgood l hl⟩

end Fragment

theorem Object.mem_links_withField {o : Object} {field : Name} {d : Datum} {l : Link}
    (h : l ∈ (o.withFields (o.fields.insert field d)).links) : l ∈ o.links ∨ d.link? = some l := by
  have hinsert : l ∈ Fields.links (o.fields.insert field d) → l ∈ o.fields.links ∨ d.link? = some l := by
    intro hmem
    obtain ⟨name, d', hd', hl⟩ := Fields.mem_links.1 hmem
    rcases getElem?_insert_cases hd' with ⟨_, rfl⟩ | ⟨_, hd'⟩
    · exact .inr hl
    · exact .inl (Fields.mem_links.2 ⟨name, d', hd', hl⟩)
  cases o <;> simp only [withFields, links, fields, List.mem_append] at h hinsert ⊢ <;> grind

theorem Object.links_of_field {o : Object} {name : Name} {d : Datum} {l : Link}
    (hd : o.fields[name]? = some d) (hl : d.link? = some l) : l ∈ o.links := by
  have hmem : l ∈ o.fields.links := Fields.mem_links.2 ⟨name, d, hd, hl⟩
  cases o <;> exact List.mem_append_right _ hmem

namespace StoreM.Steady

variable {E : Setting} {P L : List NodeId} {g : Fragment} {id : NodeId} {t : ObjectType}

theorem retScalar {v : Value} (h : v.node? = none) : Steady E P L g (pure v) fun g' v => g'.Good v :=
  Agree.ret (Fragment.good_of_scalar h)

theorem ofScalar {x : Except Failure Value} (h : Keeps.Scalar x) :
    Steady E P L g (StoreM.ofExcept x) fun g' v => g'.Good v := by
  refine Agree.ofExcept (fun v hv => Fragment.good_of_scalar ?_) fun failure hf => ?_
  · rwa [hv] at h
  · rw [hf] at h
    exact h.2

theorem toNumber {v : Value} : Steady E P L g (StoreM.ofExcept v.toNumber) fun g' _ => g' = g ∧ True := by
  refine Agree.ofExcept (fun _ _ => ⟨rfl, trivial⟩) fun failure hf => ?_
  rcases v.toNumber_cases with ⟨x, hx⟩ | ⟨got, hx⟩ <;> rw [hx] at hf <;> cases hf
  rfl

theorem toObject {v : Value} :
    Steady E P L g (StoreM.ofExcept (v.toObject t)) fun g' id => g' = g ∧ v = .object t id := by
  refine Agree.ofExcept (fun id hid => ⟨rfl, Value.eq_of_toObject hid⟩) fun failure hf => ?_
  obtain ⟨got, hc⟩ := Value.toObject_error hf
  rw [hc]
  rfl

theorem fetchCluster (hid : g.At .cluster id) :
    Steady E P L g (StoreM.fetch Object.clusters id) fun g' c => g' = g ∧ g id = some (.cluster c) ∧
      ∀ d ∈ c.items, g.Good (.datum d) := by
  obtain ⟨c, hc⟩ := hid.cluster
  refine (Agree.fetch (k := Object.clusters) hc).imp fun g' b _ h => ?_
  obtain ⟨rfl, rfl, hl, -⟩ := h
  exact ⟨rfl, hc, fun d hd l hdl => hl l (List.mem_append_left _ (List.mem_filterMap.2 ⟨d, hd, hdl⟩))⟩

theorem fetchTile (hid : g.At .tile id) :
    Steady E P L g (StoreM.fetch Object.tiles id) fun g' t => g' = g ∧ g id = some (.tile t) ∧
      ∀ l ∈ (Object.tile t).links, g.At l.1 l.2 := by
  obtain ⟨t, ht⟩ := hid.tile
  refine (Agree.fetch (k := Object.tiles) ht).imp fun g' b _ h => ?_
  obtain ⟨rfl, rfl, hl, -⟩ := h
  exact ⟨rfl, ht, hl⟩

theorem fetchVertex (hid : g.At .vertex id) :
    Steady E P L g (StoreM.fetch Object.vertices id) fun g' _ => g' = g ∧ True := by
  obtain ⟨v, hv⟩ := hid.vertex
  exact (Agree.fetch (k := Object.vertices) hv).imp fun _ _ _ h => ⟨h.1, trivial⟩

/-! ## New objects -/

theorem allocateAll {os : List Object}
    (h : ∀ o ∈ os, (∀ l ∈ o.links, g.Reach (P ++ L) l.2 ∧ g.At l.1 l.2) ∧ o.type ≠ .lambda) :
    Steady E P L g (StoreM.allocateAll os) fun g' ids => g.Keeps (P ++ L) g' ∧
      List.Forall₂ (fun o id => g'.At o.type id) os ids := by
  induction os generalizing g L with
  | nil => exact Agree.ret ⟨.refl g _, .nil⟩
  | cons o os ih =>
    obtain ⟨ho, ht⟩ := h o (List.mem_cons_self ..)
    refine Agree.bind (Agree.allocate ho fun l hl => absurd (by rw [hl]; rfl) ht) fun g₁ id _ hid => ?_
    obtain ⟨hkeeps, hid, -⟩ := hid
    have hsub : P ++ L ⊆ P ++ ([id] ++ L) := by grind
    refine Agree.keeping (by simp [hid]) (Agree.bind (ih fun o' ho' => ?_) fun g₂ ids hlead hids =>
      Agree.ret ⟨hkeeps.trans (hids.1.mono hsub), .cons ?_ hids.2⟩)
    · obtain ⟨hl', ht'⟩ := h o' (List.mem_cons_of_mem _ ho')
      refine ⟨fun l hl => ?_, ht'⟩
      obtain ⟨hr, hat⟩ := hl' l hl
      exact ⟨(hkeeps.reach hr).mono hsub, hkeeps.has hr hat⟩
    · exact hlead.holds id (List.mem_append_left _ (List.mem_singleton.2 rfl)) _ ⟨o, hid, rfl⟩

theorem makeCluster {vs : List Value} (h : ∀ v ∈ vs, g.Good v) :
    Steady E P L g (StoreM.makeCluster vs) fun g' v => g'.Good v := by
  refine Agree.readThen (S := fun ds => vs = ds.map Value.datum)
    (Agree.ofExcept (fun ds hds => ⟨rfl, eq_map_of_mapM_ok (fun _ _ => Value.eq_of_toDatum) hds⟩)
      fun failure hf => ?_) fun ds hds => ?_
  · obtain ⟨v, _, hv⟩ := exists_of_mapM_error hf
    rw [Value.toDatum_error hv]
    rfl
  · refine Agree.keeping (fun i hi => ?_) (Agree.bind (Agree.allocate (fun l hl => ?_) nofun)
      fun g' id _ hid => Agree.ret (Fragment.good_object.2 ⟨_, hid.2.1, rfl⟩))
    · obtain ⟨v, hv, hi⟩ := List.mem_filterMap.1 hi
      exact (h v hv).isSome hi
    · rw [Object.links, Fields.links_empty, List.append_nil] at hl
      obtain ⟨d, hd, hdl⟩ := List.mem_filterMap.1 hl
      have hv : Value.datum d ∈ vs := hds ▸ List.mem_map_of_mem hd
      refine ⟨.root (List.mem_append_right _ (List.mem_append_left _ (List.mem_filterMap.2
        ⟨_, hv, ?_⟩))), h _ hv l hdl⟩
      rw [Value.node?_eq_link?, Value.link?, hdl]
      rfl

theorem makePoint {p : Point} : Steady E P L g (StoreM.makePoint p) fun g' v => g'.Good v :=
  makeCluster (by simpa using ⟨Fragment.good_of_scalar rfl, Fragment.good_of_scalar rfl⟩)

/-! ## Fields -/

theorem loadOption {id? : Option NodeId} (h : ∀ id ∈ id?, g.At t id) :
    Steady E P L g (StoreM.loadOption t id?) fun g' v => g'.Good v := by
  cases id? with
  | none => exact retScalar rfl
  | some id =>
    have hgood : g.Good (.object t id) := Fragment.good_object.2 (h id rfl)
    refine (Agree.load hgood).imp fun g' v _ hv => ?_
    obtain ⟨rfl, rfl⟩ := hv
    exact hgood

theorem clusterOf {ids : List NodeId} (h : ∀ id ∈ ids, g.At t id) :
    Steady E P L g (StoreM.clusterOf t ids) fun g' v => g'.Good v := by
  refine Agree.readThen (Agree.mapM (S := fun id v => v = .object t id ∧ g.At t id) fun id hid => ?_)
    fun vs hvs => makeCluster fun v hv => ?_
  · exact (Agree.load (Fragment.good_object.2 (h id hid))).imp fun _ _ _ hv => ⟨hv.1, hv.2, h id hid⟩
  · obtain ⟨id, _, rfl, hat⟩ := exists_of_forall₂ hvs hv
    exact Fragment.good_object.2 hat

theorem tilePoints {tile : Tile} (h : ∀ l ∈ (Object.tile tile).links, g.At l.1 l.2) :
    Steady E P L g (StoreM.tilePoints tile) fun g' _ => g' = g ∧ True := by
  refine (Agree.mapM (S := fun _ _ => True) fun id hid => ?_).imp fun _ _ _ h => ⟨h.1, trivial⟩
  refine Agree.readThen (fetchVertex (h (.vertex, id) ?_)) fun _ _ => Agree.ret ⟨rfl, trivial⟩
  simpa [Object.links] using .inl hid

theorem endpoints {e : Edge} (h : ∀ id ∈ e.tile, g.At .tile id) :
    Steady E P L g (StoreM.endpoints e) fun g' ends => g' = g ∧ ∀ a b, ends = some (a, b) →
      g.At .vertex a ∧ g.At .vertex b := by
  unfold StoreM.endpoints
  cases ht : e.tile with
  | none => exact Agree.ret ⟨rfl, nofun⟩
  | some id =>
    refine Agree.readThen (fetchTile (h id ht)) fun t htile => Agree.ret ⟨rfl, fun a b hab => ?_⟩
    have hv : ∀ i ∈ t.vertices, g.At .vertex i := fun i hi =>
      htile.2 (.vertex, i) (by simpa [Object.links] using .inl hi)
    simp only [bind_pure_comp, Option.map_eq_map, Option.bind_eq_bind, Option.bind_eq_some_iff,
      Option.map_eq_some_iff, Prod.mk.injEq] at hab
    obtain ⟨a', ha, b', hb, rfl, rfl⟩ := hab
    exact ⟨hv a' (List.mem_of_getElem? ha), hv b' (List.mem_of_getElem? hb)⟩

theorem makePoints {ps : List Point} :
    Steady E P L g (StoreM.makePoints ps) fun g' vs => ∀ v ∈ vs, g'.Good v := by
  induction ps generalizing g L with
  | nil => exact Agree.ret (by simp)
  | cons p ps ih =>
    refine Agree.bind makePoint fun g₁ v _ hv => Agree.keeping (fun i hi => hv.isSome (by simpa using hi))
      (Agree.bind ih fun g₂ vs hlead hvs => Agree.ret fun w hw => ?_)
    rcases List.mem_cons.1 hw with rfl | hw
    · exact hlead.good hv fun i hi => List.mem_append_left _ (by simpa using hi)
    · exact hvs w hw

theorem tileField {tile : Tile} {name : Name} (h : ∀ l ∈ (Object.tile tile).links, g.At l.1 l.2) :
    Steady E P L g (StoreM.tileField tile name) fun g' v => g'.Good v := by
  have hv : ∀ i ∈ tile.vertices, g.At .vertex i := fun i hi =>
    h (.vertex, i) (by simpa [Object.links] using .inl hi)
  have he : ∀ i ∈ tile.edges, g.At .edge i := fun i hi =>
    h (.edge, i) (by simp [Object.links, hi])
  have hp : ∀ i ∈ tile.parent, g.At .patch i := fun i hi =>
    h (.patch, i) (by simp [Object.links, Option.mem_def.1 hi])
  unfold StoreM.tileField
  split
  · exact clusterOf hv
  · exact clusterOf he
  · exact loadOption hp
  · exact retScalar rfl
  · exact Agree.readThen (tilePoints h) fun _ _ => makePoint
  · exact Agree.fail rfl

theorem vertexField {v : Vertex} {name : Name} (h : ∀ l ∈ (Object.vertex v).links, g.At l.1 l.2) :
    Steady E P L g (StoreM.vertexField v name) fun g' v => g'.Good v := by
  unfold StoreM.vertexField
  split
  · exact retScalar rfl
  · exact retScalar rfl
  · exact loadOption fun i hi => h (.tile, i) (by simpa [Object.links] using .inl hi)
  · exact retScalar rfl
  · exact Agree.fail rfl

theorem edgeField {e : Edge} {name : Name} (h : ∀ l ∈ (Object.edge e).links, g.At l.1 l.2) :
    Steady E P L g (StoreM.edgeField e name) fun g' v => g'.Good v := by
  have ht : ∀ i ∈ e.tile, g.At .tile i := fun i hi =>
    h (.tile, i) (by simpa [Object.links] using .inl hi)
  unfold StoreM.edgeField
  split
  · refine Agree.readThen (endpoints ht) fun ends hends => loadOption fun i hi => ?_
    obtain ⟨p, rfl, rfl⟩ := Option.map_eq_some_iff.1 hi
    exact (hends p.1 p.2 rfl).1
  · refine Agree.readThen (endpoints ht) fun ends hends => loadOption fun i hi => ?_
    obtain ⟨p, rfl, rfl⟩ := Option.map_eq_some_iff.1 hi
    exact (hends p.1 p.2 rfl).2
  · exact loadOption ht
  · refine Agree.readThen (endpoints ht) fun ends hends => ?_
    cases ends with
    | none => exact retScalar rfl
    | some p =>
      obtain ⟨ha, hb⟩ := hends p.1 p.2 rfl
      exact Agree.readThen (fetchVertex ha) fun _ _ => Agree.readThen (fetchVertex hb) fun _ _ =>
        retScalar rfl
  · exact Agree.fail rfl

theorem patchField {p : Patch} {name : Name} (h : ∀ l ∈ (Object.patch p).links, g.At l.1 l.2) :
    Steady E P L g (StoreM.patchField p name) fun g' v => g'.Good v := by
  unfold StoreM.patchField
  split
  · exact clusterOf fun i hi => h (.tile, i) (by simpa [Object.links] using .inl hi)
  · exact Agree.bind makePoints fun _ _ _ hvs => makeCluster hvs
  · exact Agree.fail rfl

theorem loadGood {d : Datum} (h : g.Good (.datum d)) :
    Steady E P L g (StoreM.load d) fun g' v => g'.Good v := by
  refine (Agree.load h).imp fun g' v _ hv => ?_
  obtain ⟨rfl, rfl⟩ := hv
  exact h

theorem clusterField {c : Cluster} {name : Name} (h : ∀ l ∈ (Object.cluster c).links, g.At l.1 l.2) :
    Steady E P L g (StoreM.clusterField c name) fun g' v => g'.Good v := by
  unfold StoreM.clusterField
  split
  · exact retScalar rfl
  · split
    · rename_i d hd
      obtain ⟨i, _, hd⟩ := Option.bind_eq_some_iff.1 hd
      exact loadGood fun l hl => h l (List.mem_append_left _ (List.mem_filterMap.2
        ⟨d, List.mem_of_getElem? hd, hl⟩))
    · exact Agree.fail rfl

theorem lambdaField {l : Lambda} {name : Name} :
    Steady E P L g (StoreM.lambdaField l name) fun g' v => g'.Good v := by
  unfold StoreM.lambdaField
  split
  · exact retScalar rfl
  · exact Agree.fail rfl

theorem ownField {o : Object} {name : Name} (h : ∀ l ∈ o.links, g.At l.1 l.2) :
    Steady E P L g (StoreM.ownField o name) fun g' v => g'.Good v := by
  cases o with
  | tile t => exact tileField h
  | vertex v => exact vertexField h
  | edge e => exact edgeField h
  | patch p => exact patchField h
  | cluster c => exact clusterField h
  | lambda l => exact lambdaField

theorem getField {v : Value} {name : Name} (h : g.Good v) :
    Steady E P L g (StoreM.getField v name) fun g' w => g'.Good w := by
  unfold StoreM.getField
  split
  · rename_i t id
    refine Agree.readThen (Agree.fetchObject (Fragment.good_object.1 h)) fun o ho => ?_
    obtain ⟨_, _, hlinks⟩ := ho
    split
    · rename_i d hd
      exact loadGood fun l hl => hlinks l (Object.links_of_field hd hl)
    · exact ownField hlinks
  · exact Agree.fail rfl

/-! ## Copies -/

/-- A copy is new. -/
theorem copyObject (hid : g.At t id) (hr : g.Reach P id) :
    Steady E P [] g (StoreM.copyObject t id) fun g' j => g'.At t j ∧ ¬ g'.Reach P j := by
  have hempty : Copied E P [id] (fun _ => False) {} g := .empty (by simpa using hr)
  rw [StoreM.copyObject, StateT.run'_eq, map_eq_pure_bind]
  refine Agree.bind (CopyM.Agree.copyObject hid (.root (by simp)) hempty) fun g' r hlead hc =>
    Agree.ret ?_
  obtain ⟨hc, _, _, hj⟩ := hc
  exact ⟨hc.at_copy hj (hlead.keeps.has hr hid), hc.apart id r.1 hj⟩

theorem copy {v : Value} (h : g.Rooted P v) :
    Steady E P [] g (StoreM.copy v) fun g' w => g'.Good w := by
  cases v with
  | fieldRef binding field => exact Agree.fail rfl
  | datum d =>
    cases d with
    | object t id =>
      obtain ⟨hr, hid⟩ := Fragment.rooted_object.1 h
      rw [copy_object]
      exact Agree.bind (copyObject hid hr) fun g' j _ hj => loadGood (Fragment.good_object.2 hj.1)
    | _ => exact retScalar rfl

theorem copyWithField {field : Name} {d : Datum} (hid : g.At t id) (hr : g.Reach P id)
    (hd : g.Rooted P (.datum d)) :
    Steady E P [] g (StoreM.copyWithField t id field d) fun g' j => g'.At t j := by
  refine Agree.bind (copyObject hid hr) fun g' j hlead hj => ?_
  obtain ⟨⟨o, ho, ht⟩, hapart⟩ := hj
  refine Agree.known fun hclosed => Agree.bind (Agree.update (k := Object.ofType t) (a := ⟨o, ht⟩) ho
    hapart (fun l hl => ?_) fun l hl => ?_) fun g'' _ _ hg'' => Agree.ret ?_
  · rcases Object.mem_links_withField hl with hl | hl
    · exact hclosed j o ho l hl
    · exact (hd.keep hlead.keeps l hl).2
  · cases o with
    | lambda l₀ =>
      obtain rfl : { l₀ with fields := l₀.fields.insert field d } = l := Object.lambda.inj hl
      exact ⟨j, l₀, ho, rfl⟩
    | _ => cases hl
  · subst hg''
    exact ⟨_, Function.update_self .., (Object.type_withFields ..).trans ht⟩

/-! ## Tiles and patches -/

theorem makeTile {ps : List Point} :
    Steady E P [] g (StoreM.makeTile ps) fun g' id => g'.At .tile id := by
  unfold StoreM.makeTile
  by_cases hlen : ps.length < 3
  · simp only [hlen, if_true]
    exact Agree.failThen rfl
  simp only [hlen, if_false]
  split
  · exact Agree.fail rfl
  refine Agree.bind (Agree.allocate (by simp [Object.links]) (by rintro _ ⟨⟩)) fun g₁ id _ hid => ?_
  obtain ⟨_, hid, _, hapart, _⟩ := hid
  rw [List.append_nil] at hapart
  refine Agree.keeping (by simp [hid]) (Agree.bind (allocateAll fun o ho => ?_) fun g₂ vertices _ hv => ?_)
  · obtain ⟨i, hi, rfl⟩ := List.mem_mapIdx.1 ho
    refine ⟨fun l hl => ?_, by rintro ⟨⟩⟩
    obtain rfl : l = (.tile, id) := by simpa [Object.links] using hl
    exact ⟨.root (by simp), _, hid, rfl⟩
  obtain ⟨hkeeps₂, hv⟩ := hv
  have hid₂ : g₂ id = some (.tile {}) := (hkeeps₂ id (.root (by simp))).trans hid
  have hvertices : ∀ i ∈ vertices, g₂.At .vertex i := by
    intro i hi
    obtain ⟨o, ho, hat⟩ := exists_of_forall₂ hv hi
    obtain ⟨_, _, rfl⟩ := List.mem_mapIdx.1 ho
    exact hat
  refine Agree.keeping (fun i hi => (hvertices i hi).isSome)
    (Agree.bind (allocateAll fun o ho => ?_) fun g₃ edges _ he => ?_)
  · obtain ⟨i, -, rfl⟩ := List.mem_map.1 ho
    refine ⟨fun l hl => ?_, by rintro ⟨⟩⟩
    obtain rfl : l = (.tile, id) := by simpa [Object.links] using hl
    exact ⟨.root (by simp), _, hid₂, rfl⟩
  obtain ⟨hkeeps₃, he⟩ := he
  have hid₃ : g₃ id = some (.tile {}) := (hkeeps₃ id (.root (by simp))).trans hid₂
  have hapart₃ : ¬ g₃.Reach P id := fun hr =>
    hapart ((hkeeps₂.mono (by simp)).reach_iff.1 ((hkeeps₃.mono (by simp)).reach_iff.1 hr))
  refine Agree.bind (Agree.update (k := Object.tiles) hid₃ hapart₃ (fun l hl => ?_) (by rintro _ ⟨⟩))
    fun g₄ _ _ hg₄ => Agree.ret ?_
  · have hl : l ∈ vertices.map (ObjectType.vertex, ·) ++ edges.map (ObjectType.edge, ·) := by
      simpa [Object.tiles, Object.links] using hl
    rcases List.mem_append.1 hl with hl | hl
    · obtain ⟨i, hi, rfl⟩ := List.mem_map.1 hl
      exact hkeeps₃.has (.root (by simp [hi])) (hvertices i hi)
    · obtain ⟨i, hi, rfl⟩ := List.mem_map.1 hl
      obtain ⟨o, ho, hat⟩ := exists_of_forall₂ he hi
      obtain ⟨_, _, rfl⟩ := List.mem_map.1 ho
      exact hat
  · subst hg₄
    exact ⟨_, Function.update_self .., rfl⟩

/-- The tiles can be reached from what is protected; the patch and the copies are held. -/
theorem placeTiles {patch : NodeId} {table : Locations} {tiles : List NodeId} (hpatch : g.At .patch patch)
    (hL : patch ∈ L) (htiles : ∀ id ∈ tiles, g.At .tile id ∧ g.Reach P id) :
    Steady E P L g (StoreM.placeTiles patch table tiles) fun g' r =>
      ∀ id ∈ r.1.map Prod.fst, g'.At .tile id := by
  induction tiles generalizing g L table with
  | nil => exact Agree.ret (by simp)
  | cons tile tiles ih =>
    obtain ⟨htile, htiles⟩ := List.forall_mem_cons.1 htiles
    refine Agree.bind (Agree.protect (copyObject htile.1 (htile.2.mono (List.subset_append_left ..))))
      fun g₁ copy hlead hcopy => ?_
    obtain ⟨hkeeps, hcopy, hapart⟩ := hcopy
    obtain ⟨t, ht⟩ := hcopy.tile
    refine Agree.keeping (by simp [ht]) (Agree.known fun hclosed => Agree.bind (Agree.update
      (k := Object.tiles) ht (fun hr => hapart (hr.mono (List.subset_append_left ..))) (fun l hl => ?_)
      nofun) fun g₂ _ hlead₂ hg₂ => ?_)
    · have hl : l ∈ (Object.tile t).links ∨ l = (.patch, patch) := by
        simp only [Object.tiles, Object.links, List.mem_append, Option.toList_some, List.map_cons,
          List.map_nil, List.mem_singleton] at hl ⊢
        grind
      rcases hl with hl | rfl
      · exact hclosed copy _ ht l hl
      · exact hlead.holds patch hL _ hpatch
    have hat₂ : ∀ t i, g₁.At t i → i ∈ [copy] ++ L ∨ g₁.Reach P i → g₂.At t i := by
      rintro t i hat (hi | hi)
      · exact hlead₂.holds i hi t hat
      · exact hlead₂.keeps.has hi hat
    refine Agree.readThen (fetchTile (hat₂ _ _ hcopy (.inl (by simp)))) fun t₂ ht₂ =>
      Agree.readThen (tilePoints ht₂.2) fun points _ => ?_
    refine Agree.bind (ih (hat₂ _ _ (hlead.holds patch hL _ hpatch) (.inl (by simp [hL])))
      (by simp [hL]) fun id hid => ?_) fun g₃ r hlead₃ hr => Agree.ret ?_
    · obtain ⟨hat, hr⟩ := htiles id hid
      have hr₁ := hlead.keeps.reach hr
      exact ⟨hat₂ _ _ (hlead.keeps.has hr hat) (.inr hr₁), hlead₂.keeps.reach hr₁⟩
    · refine List.forall_mem_cons.2 ⟨?_, hr⟩
      exact hlead₃.holds copy (by simp) _ (hat₂ _ _ hcopy (.inl (by simp)))

theorem makePatch {tiles : List NodeId} (h : ∀ id ∈ tiles, g.At .tile id ∧ g.Reach P id) :
    Steady E P [] g (StoreM.makePatch tiles) fun g' id => g'.At .patch id := by
  refine Agree.bind (Agree.allocate (by simp [Object.links]) (by rintro _ ⟨⟩)) fun g₁ id hlead hid => ?_
  obtain ⟨_, hid, _, hapart, _⟩ := hid
  rw [List.append_nil] at hapart
  refine Agree.keeping (by simp [hid]) (Agree.bind (placeTiles ⟨_, hid, rfl⟩ (by simp) fun i hi => ?_)
    fun g₂ r hlead₂ hr => ?_)
  · obtain ⟨hat, hri⟩ := h i hi
    exact ⟨hlead.keeps.has hri hat, hlead.keeps.reach hri⟩
  have hid₂ : g₂.At .patch id := hlead₂.holds id (by simp) _ ⟨_, hid, rfl⟩
  obtain ⟨p, hp⟩ := hid₂.patch
  refine Agree.known fun hclosed => Agree.bind (Agree.update (k := Object.patches) hp
    (fun hri => hapart (hlead₂.keeps.reach_iff.1 hri)) (fun l hl => ?_) (by rintro _ ⟨⟩)) fun g₃ _ _ hg₃ => Agree.ret ?_
  · simp only [Object.patches, Object.links, List.mem_append] at hl
    rcases hl with hl | hl
    · obtain ⟨i, hi, rfl⟩ := List.mem_map.1 hl
      exact hr i hi
    · exact hclosed id _ hp l (List.mem_append_right _ hl)
  · subst hg₃
    exact ⟨_, Function.update_self .., rfl⟩

theorem coordinate {d : Datum} (h : g.Good (.datum d)) :
    Steady E P L g (StoreM.coordinate d) fun g' _ => g' = g ∧ True :=
  Agree.readThen (Agree.load h) fun _ _ => Agree.readThen toNumber fun _ _ => Agree.ret ⟨rfl, trivial⟩

theorem itemsOf {v : Value} (h : g.Good v) :
    Steady E P L g (Primitive.itemsOf v) fun g' ds => g' = g ∧ ∃ id c, v = .object .cluster id ∧
      g id = some (.cluster c) ∧ ds = c.items ∧ ∀ d ∈ ds, g.Good (.datum d) := by
  refine Agree.readThen toObject fun id hid => ?_
  subst hid
  exact Agree.readThen (fetchCluster (Fragment.good_object.1 h)) fun c hc =>
    Agree.ret ⟨rfl, id, c, rfl, hc.1, rfl, hc.2⟩

theorem pointsOf {v : Value} (h : g.Good v) :
    Steady E P L g (StoreM.pointsOf v) fun g' _ => g' = g ∧ True := by
  refine Agree.readThen toObject fun id hid => ?_
  subst hid
  refine Agree.readThen (fetchCluster (Fragment.good_object.1 h)) fun outer houter => ?_
  refine (Agree.mapM (S := fun _ _ => True) fun d hd => ?_).imp fun _ _ _ h => ⟨h.1, trivial⟩
  refine Agree.readThen (Agree.load (houter.2 d hd)) fun pair hpair => ?_
  refine Agree.readThen toObject fun id' hid' => ?_
  have hgood : g.Good (.object .cluster id') := hid' ▸ hpair ▸ houter.2 d hd
  refine Agree.readThen (fetchCluster (Fragment.good_object.1 hgood)) fun c hc => ?_
  split
  · rename_i x y hxy
    rw [hxy] at hc
    exact Agree.readThen (coordinate (hc.2 x (by simp))) fun _ _ =>
      Agree.readThen (coordinate (hc.2 y (by simp))) fun _ _ => Agree.ret ⟨rfl, trivial⟩
  · exact Agree.fail rfl

/-! ## Primitives -/

theorem itemAt {cluster index : Value} (h : g.Good cluster) :
    Steady E P L g (Primitive.itemAt cluster index) fun g' v => g'.Good v := by
  refine Agree.readThen toObject fun id hid => Agree.readThen toNumber fun i _ => ?_
  subst hid
  refine Agree.readThen (fetchCluster (Fragment.good_object.1 h)) fun c hc => ?_
  dsimp only
  split
  · rename_i d hd
    obtain ⟨i, _, hd⟩ := Option.bind_eq_some_iff.1 hd
    exact loadGood (hc.2 d (List.mem_of_getElem? hd))
  · exact Agree.fail rfl

theorem regularTile {sides : Value} :
    Steady E P [] g (Primitive.regularTile sides) fun g' v => g'.Good v := by
  refine Agree.readThen toNumber fun x _ => ?_
  split
  · exact Agree.bind makeTile fun _ _ _ hid => Agree.ret (Fragment.good_object.2 hid)
  · exact Agree.fail rfl

theorem patchOf {v : Value} (h : g.Rooted P v) :
    Steady E P [] g (Primitive.patchOf v) fun g' v => g'.Good v := by
  refine Agree.readThen (itemsOf h.good) fun ds hds => ?_
  obtain ⟨id, c, rfl, hc, rfl, hds⟩ := hds
  have hr := (Fragment.rooted_object.1 h).1
  refine Agree.readThen (Agree.mapM (S := fun _ i => g.At .tile i ∧ g.Reach P i) fun d hd => ?_)
    fun ids hids => ?_
  · refine Agree.readThen (Agree.load (hds d hd)) fun w hw => toObject.imp fun g' i _ hi => ?_
    obtain ⟨rfl, rfl⟩ := hi
    obtain ⟨hri, hat⟩ := Fragment.rooted_object.1 (hw ▸ Fragment.rooted_item hc hr hd (hds d hd))
    exact ⟨rfl, hat, hri⟩
  · have htiles : ∀ i ∈ ids, g.At .tile i ∧ g.Reach P i := fun i hi =>
      let ⟨_, _, h⟩ := exists_of_forall₂ hids hi
      h
    exact Agree.bind (Agree.keeping (fun i hi => (htiles i hi).1.isSome) (Agree.protect (makePatch fun i hi =>
      ⟨(htiles i hi).1, (htiles i hi).2.mono (List.subset_append_left ..)⟩))) fun _ _ _ hid =>
        Agree.ret (Fragment.good_object.2 hid.2)

theorem apply {f : Primitive} {args : List Value} (h : ∀ v ∈ args, g.Rooted P v)
    (hlen : args.length = f.arity) : Steady E P [] g (f.apply args) fun g' v => g'.Good v := by
  cases f with
  | cluster k => exact makeCluster fun v hv => (h v hv).good
  | neg | sin | cos =>
    obtain ⟨a, rfl⟩ := List.length_eq_one_iff.1 hlen
    exact ofScalar (Keeps.scalar_unary a _)
  | sqrt =>
    obtain ⟨a, rfl⟩ := List.length_eq_one_iff.1 hlen
    exact ofScalar (Keeps.scalar_squareRoot a)
  | not =>
    obtain ⟨a, rfl⟩ := List.length_eq_one_iff.1 hlen
    exact ofScalar (Keeps.scalar_not a)
  | len =>
    obtain ⟨a, rfl⟩ := List.length_eq_one_iff.1 hlen
    exact Agree.readThen (itemsOf (h a (by simp)).good) fun _ _ => retScalar rfl
  | regular =>
    obtain ⟨a, rfl⟩ := List.length_eq_one_iff.1 hlen
    exact regularTile
  | polygon =>
    obtain ⟨a, rfl⟩ := List.length_eq_one_iff.1 hlen
    exact Agree.readThen (pointsOf (h a (by simp)).good) fun _ _ => Agree.bind makeTile fun _ _ _ hid =>
      Agree.ret (Fragment.good_object.2 hid)
  | patch =>
    obtain ⟨a, rfl⟩ := List.length_eq_one_iff.1 hlen
    exact patchOf (h a (by simp))
  | add | sub | mul | pow =>
    obtain ⟨a, b, rfl⟩ := List.length_eq_two.1 hlen
    exact ofScalar (Keeps.scalar_binary a b _)
  | div =>
    obtain ⟨a, b, rfl⟩ := List.length_eq_two.1 hlen
    exact ofScalar (Keeps.scalar_quotient a b)
  | and | or =>
    obtain ⟨a, b, rfl⟩ := List.length_eq_two.1 hlen
    exact ofScalar (Keeps.scalar_logical a b _)
  | lt | le | gt | ge =>
    obtain ⟨a, b, rfl⟩ := List.length_eq_two.1 hlen
    exact ofScalar (Keeps.scalar_comparison a b _)
  | eq | ne =>
    obtain ⟨a, b, rfl⟩ := List.length_eq_two.1 hlen
    exact retScalar rfl
  | item =>
    obtain ⟨a, b, rfl⟩ := List.length_eq_two.1 hlen
    exact itemAt (h a (by simp)).good

end StoreM.Steady

end Mosaic
