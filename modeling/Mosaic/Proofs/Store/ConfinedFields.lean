import Mathlib.Data.List.Basic
import Mosaic.Proofs.Store.ConfinedCopy

/-!
# Primitives and fields stay inside a region

One lemma for each action that primitives and field reads are made of. A value lies in the region if
its node does.
-/

namespace Mosaic.StoreM.Keeps

open Mosaic.Graph (NodeId Node Kind Pool)

variable {P : Program → Prop} {A : NodeId → Prop} {n : Nat} {id : NodeId}

theorem retScalar {J : Store → Prop} {v : Value} (h : v.node? = none) :
    Keeps J n (pure v) fun n' v => Valid A n' v :=
  ret fun _ _ => by simp [Valid, h]

/-! ## Payloads -/

theorem fetchCluster (hid : A id) :
    Keeps (Closed P A) n (StoreM.fetch Object.clusters id) fun n' c => ∀ d ∈ c.items, Valid A n' (.datum d) :=
  (fetch hid).imp fun _ _ _ hc => within_data.1 (Within.append.1 hc.1).1

theorem fetchTile (hid : A id) :
    Keeps (Closed P A) n (StoreM.fetch Object.tiles id) fun n' t => Within A n' (Object.tile t).pointers :=
  (fetch hid).imp fun _ _ _ h => h.1

theorem toObject {v : Value} {t : ObjectType} (hv : Valid A n v) :
    Keeps (Closed P A) n (StoreM.ofExcept (v.toObject t)) fun _ id => A id ∧ id < n := by
  refine ofExcept (fun id hid _ _ => ?_) fun failure hf => ?_
  · rw [Value.eq_of_toObject hid] at hv
    exact valid_object.1 hv
  · obtain ⟨got, hc⟩ := Value.toObject_error hf
    rw [hc]
    cases t <;> rfl

/-! ## New objects -/

theorem allocateAll {os : List Object} (h : ∀ o ∈ os, Within A n o.pointers ∧ o.type ≠ .lambda) :
    Keeps (Closed P A) n (StoreM.allocateAll os) fun n' ids => Within A n' ids := by
  induction os generalizing n with
  | nil => exact ret fun _ _ => by simp
  | cons o os ih =>
    obtain ⟨hp, ht⟩ := h o (by simp)
    refine bind (allocate hp fun l hl => absurd (by rw [hl]; rfl) ht) fun n₁ h₁ id hid => ?_
    refine keeping (bind (ih fun o' ho' => ?_) fun n₂ h₂ ids hids => ret fun n₃ h₃ => ?_)
    · exact ⟨(h o' (by simp [ho'])).1.mono h₁, (h o' (by simp [ho'])).2⟩
    · rw [Within.cons]
      exact ⟨(Within.cons.1 (hid.mono (Nat.le_trans h₂ h₃))).1, hids.mono h₃⟩

theorem makeCluster {vs : List Value} (h : ∀ v ∈ vs, Valid A n v) :
    Keeps (Closed P A) n (StoreM.makeCluster vs) fun n' v => Valid A n' v := by
  refine bind (Q := fun _ ds => vs = ds.map Value.datum)
    (ofExcept (fun ds hds _ _ => eq_map_of_mapM_ok (fun _ _ => Value.eq_of_toDatum) hds)
      fun failure hf => ?_) fun n₁ h₁ ds hds => ?_
  · obtain ⟨v, _, hv⟩ := exists_of_mapM_error hf
    rw [Value.toDatum_error hv]
    rfl
  · refine keeping (bind (allocate ?_ nofun) fun n₂ h₂ id hid => ret fun n₃ h₃ => ?_)
    · simp only [Object.pointers, Fields.pointers_empty, List.append_nil]
      refine within_data.2 fun d hd => (h (.datum d) ?_).mono h₁
      rw [hds]
      exact List.mem_map_of_mem hd
    · exact hid.mono h₃

theorem makePoint {p : Point} :
    Keeps (Closed P A) n (StoreM.makePoint p) fun n' v => Valid A n' v :=
  makeCluster (by simp [Valid, Value.node?, Datum.node?])

/-! ## Fields -/

theorem loadOption {t : ObjectType} {id? : Option NodeId} (h : Within A n id?.toList) :
    Keeps (Closed P A) n (StoreM.loadOption t id?) fun n' v => Valid A n' v := by
  cases id? with
  | none => exact retScalar rfl
  | some id => exact load (d := .object t id) h

theorem clusterOf {t : ObjectType} {ids : List NodeId} (h : Within A n ids) :
    Keeps (Closed P A) n (StoreM.clusterOf t ids) fun n' v => Valid A n' v := by
  have hR : ∀ n n' (v : Value), n ≤ n' → Valid A n v → Valid A n' v := fun _ _ _ hn hv => hv.mono hn
  refine bind (mapM hR fun id hid n' hn => load ?_) fun n₁ h₁ vs hvs => makeCluster hvs
  simpa [Datum.node?] using ((h.mono hn) id hid)

theorem tilePoints {t : Tile} (h : Within A n t.vertices) :
    Keeps (Closed P A) n (StoreM.tilePoints t) fun _ _ => True :=
  (mapM (R := fun _ _ => True) (fun _ _ _ _ _ => trivial) fun id hid _ _ =>
    bind (fetch ((h id hid).1)) fun _ _ _ _ => ret fun _ _ => trivial).imp fun _ _ _ _ => trivial

theorem endpoints {e : Edge} (h : Within A n e.tile.toList) :
    Keeps (Closed P A) n (StoreM.endpoints e) fun n' ends => ∀ a b, ends = some (a, b) →
      Within A n' [a] ∧ Within A n' [b] := by
  unfold StoreM.endpoints
  cases ht : e.tile with
  | none => exact ret fun _ _ => nofun
  | some id =>
    rw [ht] at h
    refine bind (fetchTile (h id (by simp)).1) fun n₁ h₁ t hp => ret fun n₂ h₂ a b hab => ?_
    have hv : Within A n₂ t.vertices :=
      (hp.mono h₂).of_subset fun i hi => by simp [Object.pointers, hi]
    simp only [bind_pure_comp, Option.map_eq_map, Option.bind_eq_bind, Option.bind_eq_some_iff,
      Option.map_eq_some_iff, Prod.mk.injEq] at hab
    obtain ⟨a', ha, b', hb, rfl, rfl⟩ := hab
    exact ⟨by simpa using hv a' (List.mem_of_getElem? ha),
      by simpa using hv b' (List.mem_of_getElem? hb)⟩

theorem makePoints {ps : List Point} :
    Keeps (Closed P A) n (StoreM.makePoints ps) fun n' vs => ∀ v ∈ vs, Valid A n' v := by
  induction ps generalizing n with
  | nil => exact ret fun _ _ => by simp
  | cons p ps ih =>
    refine bind makePoint fun n₁ h₁ v hv => keeping (bind ih fun n₂ h₂ vs hvs => ret fun n₃ h₃ => ?_)
    intro w hw
    rcases List.mem_cons.1 hw with rfl | hw
    · exact hv.mono (Nat.le_trans h₂ h₃)
    · exact (hvs w hw).mono h₃

theorem tileField {t : Tile} {name : Name} (h : Within A n (Object.tile t).pointers) :
    Keeps (Closed P A) n (StoreM.tileField t name) fun n' v => Valid A n' v := by
  simp only [Object.pointers, Within.append] at h
  obtain ⟨⟨⟨hv, he⟩, hp⟩, -⟩ := h
  unfold StoreM.tileField
  split
  · exact clusterOf hv
  · exact clusterOf he
  · exact loadOption hp
  · exact retScalar rfl
  · exact bind (tilePoints hv) fun _ _ _ _ => makePoint
  · exact fail rfl

theorem vertexField {v : Vertex} {name : Name} (h : Within A n (Object.vertex v).pointers) :
    Keeps (Closed P A) n (StoreM.vertexField v name) fun n' v => Valid A n' v := by
  simp only [Object.pointers, Within.append] at h
  unfold StoreM.vertexField
  split
  · exact retScalar rfl
  · exact retScalar rfl
  · exact loadOption h.1
  · exact retScalar rfl
  · exact fail rfl

theorem edgeField {e : Edge} {name : Name} (h : Within A n (Object.edge e).pointers) :
    Keeps (Closed P A) n (StoreM.edgeField e name) fun n' v => Valid A n' v := by
  simp only [Object.pointers, Within.append] at h
  unfold StoreM.edgeField
  split
  · refine bind (endpoints h.1) fun n₁ _ ends hends => loadOption ?_
    cases ends with
    | none => simp
    | some p => exact (hends p.1 p.2 rfl).1
  · refine bind (endpoints h.1) fun n₁ _ ends hends => loadOption ?_
    cases ends with
    | none => simp
    | some p => exact (hends p.1 p.2 rfl).2
  · exact loadOption h.1
  · refine bind (endpoints h.1) fun n₁ _ ends hends => ?_
    cases ends with
    | none => exact retScalar rfl
    | some p =>
      obtain ⟨ha, hb⟩ := hends p.1 p.2 rfl
      exact bind (fetch (Within.cons.1 ha).1.1) fun _ _ _ _ =>
        bind (fetch (Within.cons.1 hb).1.1) fun _ _ _ _ => retScalar rfl
  · exact fail rfl

theorem patchField {p : Patch} {name : Name} (h : Within A n (Object.patch p).pointers) :
    Keeps (Closed P A) n (StoreM.patchField p name) fun n' v => Valid A n' v := by
  simp only [Object.pointers, Within.append] at h
  unfold StoreM.patchField
  split
  · exact clusterOf h.1
  · exact bind makePoints fun _ _ _ hvs => makeCluster hvs
  · exact fail rfl

theorem clusterField {c : Cluster} {name : Name} (h : Within A n (Object.cluster c).pointers) :
    Keeps (Closed P A) n (StoreM.clusterField c name) fun n' v => Valid A n' v := by
  have hi := within_data.1 (Within.append.1 h).1
  unfold StoreM.clusterField
  split
  · exact retScalar rfl
  · split
    · rename_i d hd
      obtain ⟨i, _, hd⟩ := Option.bind_eq_some_iff.1 hd
      exact load (hi d (List.mem_of_getElem? hd))
    · exact fail rfl

theorem lambdaField {l : Lambda} {name : Name} :
    Keeps (Closed P A) n (StoreM.lambdaField l name) fun n' v => Valid A n' v := by
  unfold StoreM.lambdaField
  split
  · exact retScalar rfl
  · exact fail rfl

theorem ownField {o : Object} {name : Name} (h : Within A n o.pointers) :
    Keeps (Closed P A) n (StoreM.ownField o name) fun n' v => Valid A n' v := by
  cases o with
  | tile t => exact tileField h
  | vertex v => exact vertexField h
  | edge e => exact edgeField h
  | patch p => exact patchField h
  | cluster c => exact clusterField h
  | lambda l => exact lambdaField

theorem getField {v : Value} {name : Name} (h : Valid A n v) :
    Keeps (Closed P A) n (StoreM.getField v name) fun n' w => Valid A n' w := by
  unfold StoreM.getField
  split
  · rename_i t id
    refine bind (fetchObject (h id (by simp [Value.node?, Datum.node?])).1) fun n₁ _ o ho => ?_
    split
    · rename_i d hd
      have ho' : o.withFields o.fields = o := by cases o <;> rfl
      rw [← ho', Within.withFields] at ho
      exact load (Within.fields.1 ho.2 name d hd)
    · exact ownField ho
  · exact fail rfl

/-! ## Tiles and patches -/

theorem makeTile {ps : List Point} :
    Keeps (Closed P A) n (StoreM.makeTile ps) fun n' id => Within A n' [id] := by
  unfold StoreM.makeTile
  by_cases hlen : ps.length < 3
  · simp only [hlen, if_true]
    exact failThen rfl
  simp only [hlen, if_false]
  split
  · exact fail rfl
  refine bind (allocate (by simp [Object.pointers]) (by rintro _ ⟨⟩)) fun n₁ h₁ id hid => keeping ?_
  have hid₁ := (Within.cons.1 hid).1
  refine bind (allocateAll fun o ho => ?_) fun n₂ h₂ vertices hv => keeping ?_
  · obtain ⟨i, hi, rfl⟩ := List.mem_mapIdx.1 ho
    exact ⟨by simpa [Object.pointers] using hid₁, by rintro ⟨⟩⟩
  refine bind (allocateAll fun o ho => ?_) fun n₃ h₃ edges he => ?_
  · obtain ⟨i, -, rfl⟩ := List.mem_map.1 ho
    exact ⟨by simpa [Object.pointers] using (Within.cons.1 (hid.mono h₂)).1, by rintro ⟨⟩⟩
  refine bind (update hid₁.1 (fun n' h' t ht => ?_) (by rintro _ _ ⟨⟩)) fun n₄ h₄ _ _ => ret fun n₅ h₅ => ?_
  · simp only [Node.pointers, Object.tiles, Object.pointers, Within.append] at ht ⊢
    exact ⟨⟨⟨hv.mono (Nat.le_trans h₃ h'), he.mono h'⟩, ht.1.2⟩, ht.2⟩
  · exact hid.mono (by omega)

theorem placeTiles {patch : NodeId} {table : Locations} {tiles : List NodeId}
    (hp : Within A n [patch]) (ht : Within A n tiles) :
    Keeps (Closed P A) n (StoreM.placeTiles patch table tiles) fun n' r =>
      Within A n' (r.1.map Prod.fst) := by
  induction tiles generalizing n table with
  | nil => exact ret fun _ _ => by simp
  | cons tile tiles ih =>
    rw [Within.cons] at ht
    refine bind (copyObject (by simpa using ht.1)) fun n₁ h₁ copy hc => keeping ?_
    have hc₁ := (Within.cons.1 hc).1
    refine bind (update hc₁.1 (fun n' h' t ht' => ?_) nofun) fun n₂ h₂ _ _ => ?_
    · simp only [Node.pointers, Object.tiles, Object.pointers, Within.append, Option.toList_some]
        at ht' ⊢
      exact ⟨⟨ht'.1.1, hp.mono (Nat.le_trans h₁ h')⟩, ht'.2⟩
    refine bind (fetchTile hc₁.1) fun n₃ h₃ t htile => ?_
    refine bind (tilePoints (htile.of_subset fun i hi => by simp [Object.pointers, hi]))
      fun n₄ h₄ points _ => ?_
    have hle : n ≤ n₄ := by omega
    refine bind (ih (hp.mono hle) (ht.2.mono hle)) fun n₅ h₅ r hr => ret fun n₆ h₆ => ?_
    rw [List.map_cons, Within.cons]
    exact ⟨(Within.cons.1 (hc.mono (by omega))).1, hr.mono h₆⟩

theorem makePatch {tiles : List NodeId} (ht : Within A n tiles) :
    Keeps (Closed P A) n (StoreM.makePatch tiles) fun n' id => Within A n' [id] := by
  refine bind (allocate (by simp [Object.pointers]) (by rintro _ ⟨⟩)) fun n₁ h₁ id hid => keeping ?_
  refine bind (placeTiles hid (ht.mono h₁)) fun n₂ h₂ r hr => ?_
  refine bind (update (Within.cons.1 hid).1.1 (fun n' h' p hp => ?_) (by rintro _ _ ⟨⟩)) fun n₃ h₃ _ _ =>
    ret fun n₄ h₄ => hid.mono (by omega)
  simp only [Node.pointers, Object.patches, Object.pointers, Within.append] at hp ⊢
  exact ⟨hr.mono h', hp.2⟩

theorem toNumber {v : Value} : Keeps (Closed P A) n (StoreM.ofExcept v.toNumber) fun _ _ => True := by
  refine ofExcept (fun _ _ _ _ => trivial) fun failure hf => ?_
  rcases v.toNumber_cases with ⟨x, hx⟩ | ⟨got, hx⟩ <;> rw [hx] at hf <;> cases hf
  rfl

theorem coordinate {d : Datum} (h : Valid A n (.datum d)) :
    Keeps (Closed P A) n (StoreM.coordinate d) fun _ _ => True :=
  bind (load h) fun _ _ _ _ => bind toNumber fun _ _ _ _ => ret fun _ _ => trivial

theorem itemsOf {v : Value} (h : Valid A n v) :
    Keeps (Closed P A) n (Primitive.itemsOf v) fun n' ds => ∀ d ∈ ds, Valid A n' (.datum d) :=
  bind (toObject h) fun _ _ _ hid => bind (fetchCluster hid.1) fun _ _ _ hc =>
    ret fun _ hn d hd => (hc d hd).mono hn

theorem pointsOf {v : Value} (h : Valid A n v) :
    Keeps (Closed P A) n (StoreM.pointsOf v) fun _ _ => True := by
  refine bind (toObject h) fun n₁ _ id hid => bind (fetchCluster hid.1) fun n₂ _ outer houter => ?_
  refine imp (mapM (R := fun _ _ => True) (fun _ _ _ _ _ => trivial) fun d hd n₃ h₃ => ?_)
    fun _ _ _ _ => trivial
  refine bind (load ((houter d hd).mono h₃)) fun n₄ _ pair hpair => ?_
  refine bind (toObject hpair) fun n₅ _ id' hid' => bind (fetchCluster hid'.1) fun n₆ _ c hc => ?_
  split
  · rename_i x y hxy
    rw [hxy] at hc
    refine bind (coordinate (hc x (by simp))) fun n₇ h₇ _ _ => ?_
    exact bind (coordinate ((hc y (by simp)).mono h₇)) fun _ _ _ _ => ret fun _ _ => trivial
  · exact fail rfl

/-! ## Primitives -/

/-- The result is a scalar, or a failure that is not structural and not of an address. -/
def Scalar (x : Except Failure Value) : Prop :=
  match x with
  | .ok v => v.node? = none
  | .error failure => failure.cause.isStructural = false ∧ failure.cause.isGraph = false

theorem ofScalar {J : Store → Prop} {x : Except Failure Value} (h : Scalar x) :
    Keeps J n (StoreM.ofExcept x) fun n' v => Valid A n' v := by
  refine ofExcept (fun v hv _ _ => ?_) fun failure hf => ?_
  · rw [hv] at h
    simp [Valid, show v.node? = none from h]
  · rw [hf] at h
    exact h.1

section

variable (a b : Value)

theorem scalar_unary (f : Number → Number) : Scalar (Primitive.unary f a) := by
  rcases a.toNumber_cases with ⟨x, hx⟩ | ⟨got, hx⟩ <;> unfold Primitive.unary <;> rw [hx]
  · rfl
  · exact ⟨rfl, rfl⟩

theorem scalar_binary (f : Number → Number → Number) : Scalar (Primitive.binary f a b) := by
  unfold Primitive.binary
  rcases a.toNumber_cases with ⟨x, hx⟩ | ⟨got, hx⟩ <;> rw [hx]
  · rcases b.toNumber_cases with ⟨y, hy⟩ | ⟨got, hy⟩ <;> rw [hy]
    · rfl
    · exact ⟨rfl, rfl⟩
  · exact ⟨rfl, rfl⟩

theorem scalar_comparison (f : Ordering → Bool) : Scalar (Primitive.comparison f a b) := by
  unfold Primitive.comparison
  rcases a.toNumber_cases with ⟨x, hx⟩ | ⟨got, hx⟩ <;> rw [hx]
  · rcases b.toNumber_cases with ⟨y, hy⟩ | ⟨got, hy⟩ <;> rw [hy]
    · rfl
    · exact ⟨rfl, rfl⟩
  · exact ⟨rfl, rfl⟩

theorem scalar_logical (f : Bool → Bool → Bool) : Scalar (Primitive.logical f a b) := by
  unfold Primitive.logical
  rcases a.toBool_cases with ⟨x, hx⟩ | ⟨got, hx⟩ <;> rw [hx]
  · rcases b.toBool_cases with ⟨y, hy⟩ | ⟨got, hy⟩ <;> rw [hy]
    · rfl
    · exact ⟨rfl, rfl⟩
  · exact ⟨rfl, rfl⟩

theorem scalar_not : Scalar (do return .bool !(← a.toBool)) := by
  rcases a.toBool_cases with ⟨x, hx⟩ | ⟨got, hx⟩ <;> rw [hx]
  · rfl
  · exact ⟨rfl, rfl⟩

theorem scalar_quotient : Scalar (Primitive.quotient a b) := by
  unfold Primitive.quotient
  rcases a.toNumber_cases with ⟨x, hx⟩ | ⟨got, hx⟩ <;> rw [hx]
  · rcases b.toNumber_cases with ⟨y, hy⟩ | ⟨got, hy⟩ <;> rw [hy]
    · simp only [Bind.bind, Except.bind]
      split
      · exact ⟨rfl, rfl⟩
      · rfl
    · exact ⟨rfl, rfl⟩
  · exact ⟨rfl, rfl⟩

theorem scalar_squareRoot : Scalar (Primitive.squareRoot a) := by
  unfold Primitive.squareRoot
  rcases a.toNumber_cases with ⟨x, hx⟩ | ⟨got, hx⟩ <;> rw [hx]
  · simp only [Bind.bind, Except.bind]
    split
    · exact ⟨rfl, rfl⟩
    · rfl
  · exact ⟨rfl, rfl⟩

end

theorem itemAt {cluster index : Value} (h : Valid A n cluster) :
    Keeps (Closed P A) n (Primitive.itemAt cluster index) fun n' v => Valid A n' v := by
  refine bind (toObject h) fun n₁ _ id hid => bind toNumber fun n₂ _ i _ => ?_
  refine bind (fetchCluster hid.1) fun n₃ _ c hc => ?_
  dsimp only
  split
  · rename_i d hd
    obtain ⟨i, _, hd⟩ := Option.bind_eq_some_iff.1 hd
    exact load (hc d (List.mem_of_getElem? hd))
  · exact fail rfl

theorem regularTile {sides : Value} :
    Keeps (Closed P A) n (Primitive.regularTile sides) fun n' v => Valid A n' v := by
  refine bind toNumber fun n₁ _ x _ => ?_
  split
  · exact bind makeTile fun _ _ _ hid => ret fun _ hn => hid.mono hn
  · exact fail rfl

theorem tilesOf {ds : List Datum} (h : ∀ d ∈ ds, Valid A n (.datum d)) :
    Keeps (Closed P A) n (ds.mapM fun d => do StoreM.ofExcept ((← StoreM.load d).toObject .tile))
      fun n' ids => Within A n' ids := by
  have hR : ∀ n n' (id : NodeId), n ≤ n' → (A id ∧ id < n) → A id ∧ id < n' :=
    fun _ _ _ hn hid => ⟨hid.1, Nat.lt_of_lt_of_le hid.2 hn⟩
  refine mapM hR fun d hd n' hn => bind (load ((h d hd).mono hn)) fun n₁ _ w hw => ?_
  exact imp (toObject hw) fun _ hn id hid => hR _ _ id hn hid

theorem patchOf {v : Value} (h : Valid A n v) :
    Keeps (Closed P A) n (Primitive.patchOf v) fun n' v => Valid A n' v :=
  bind (itemsOf h) fun _ _ _ hds => bind (tilesOf hds) fun _ _ _ hids =>
    bind (keeping (makePatch hids)) fun _ _ _ hid => ret fun _ hn => hid.mono hn

theorem apply {f : Primitive} {args : List Value} (h : ∀ v ∈ args, Valid A n v)
    (hlen : args.length = f.arity) :
    Keeps (Closed P A) n (f.apply args) fun n' v => Valid A n' v := by
  cases f with
  | cluster k => exact makeCluster h
  | neg | sin | cos =>
    obtain ⟨a, rfl⟩ := List.length_eq_one_iff.1 hlen
    exact ofScalar (scalar_unary a _)
  | sqrt =>
    obtain ⟨a, rfl⟩ := List.length_eq_one_iff.1 hlen
    exact ofScalar (scalar_squareRoot a)
  | not =>
    obtain ⟨a, rfl⟩ := List.length_eq_one_iff.1 hlen
    exact ofScalar (scalar_not a)
  | len =>
    obtain ⟨a, rfl⟩ := List.length_eq_one_iff.1 hlen
    exact bind (itemsOf (h a (by simp))) fun _ _ _ _ => retScalar rfl
  | regular =>
    obtain ⟨a, rfl⟩ := List.length_eq_one_iff.1 hlen
    exact regularTile
  | polygon =>
    obtain ⟨a, rfl⟩ := List.length_eq_one_iff.1 hlen
    exact bind (pointsOf (h a (by simp))) fun _ _ _ _ => bind makeTile fun _ _ _ hid =>
      ret fun _ hn => hid.mono hn
  | patch =>
    obtain ⟨a, rfl⟩ := List.length_eq_one_iff.1 hlen
    exact patchOf (h a (by simp))
  | add | sub | mul | pow =>
    obtain ⟨a, b, rfl⟩ := List.length_eq_two.1 hlen
    exact ofScalar (scalar_binary a b _)
  | div =>
    obtain ⟨a, b, rfl⟩ := List.length_eq_two.1 hlen
    exact ofScalar (scalar_quotient a b)
  | and | or =>
    obtain ⟨a, b, rfl⟩ := List.length_eq_two.1 hlen
    exact ofScalar (scalar_logical a b _)
  | lt | le | gt | ge =>
    obtain ⟨a, b, rfl⟩ := List.length_eq_two.1 hlen
    exact ofScalar (scalar_comparison a b _)
  | eq | ne =>
    obtain ⟨a, b, rfl⟩ := List.length_eq_two.1 hlen
    exact retScalar rfl
  | item =>
    obtain ⟨a, b, rfl⟩ := List.length_eq_two.1 hlen
    exact itemAt (h a (by simp))

end Mosaic.StoreM.Keeps
