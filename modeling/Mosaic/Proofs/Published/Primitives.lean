import Mosaic.Proofs.Published.Spares

/-!
# Primitives and fields spare what was there before

Most of them only read. Those that make clusters, tiles and patches allocate, and what they update are
their own new objects.
-/

namespace Mosaic.StoreM

open Mosaic.Graph (NodeId Node Kind)

namespace Spares

variable {P : Program → Prop} {A : NodeId → Prop} {s₀ : Store} {n : Nat} {id : NodeId}

/-! ## New objects -/

theorem allocateAll {os : List Object} (h : ∀ o ∈ os, Within A n o.pointers ∧ o.type ≠ .lambda) :
    Spares P A s₀ n (StoreM.allocateAll os) fun n' ids => Within A n' ids := by
  have hx : Spares P A s₀ n (StoreM.allocateAll os) fun _ _ => True := by
    induction os generalizing n with
    | nil => exact ret fun _ _ => trivial
    | cons o os ih =>
      obtain ⟨hp, ht⟩ := h o (by simp)
      refine bind (allocate hp fun l hl => absurd (by rw [hl]; rfl) ht) fun n₁ h₁ id hid => ?_
      refine keeping (bind (ih fun o' ho' => ?_) fun _ _ _ _ => ret fun _ _ => trivial)
      exact ⟨(h o' (by simp [ho'])).1.mono h₁, (h o' (by simp [ho'])).2⟩
  exact (hx.also (fun _ => Untouched.closed) (Keeps.allocateAll h)).imp fun _ _ _ h => h.2

theorem makeCluster {vs : List Value} (h : ∀ v ∈ vs, Valid A n v) :
    Spares P A s₀ n (StoreM.makeCluster vs) fun n' v => Valid A n' v := by
  have hdata : Keeps (Closed P A) n (StoreM.ofExcept (vs.mapM Value.toDatum)) fun _ ds =>
      vs = ds.map Value.datum :=
    Keeps.ofExcept (fun ds hds _ _ => eq_map_of_mapM_ok (fun _ _ => Value.eq_of_toDatum) hds)
      fun failure hf => by
        obtain ⟨v, _, hv⟩ := exists_of_mapM_error hf
        rw [Value.toDatum_error hv]
        rfl
  refine bind (reads Reads.ofExcept hdata) fun n₁ h₁ ds hds => ?_
  refine keeping (bind (allocate ?_ nofun) fun n₂ h₂ id hid => ret fun n₃ h₃ => ?_)
  · simp only [Object.pointers, Fields.pointers_empty, List.append_nil]
    refine within_data.2 fun d hd => (h (.datum d) ?_).mono h₁
    rw [hds]
    exact List.mem_map_of_mem hd
  · exact (hid.imp fun _ hi => hi.1).mono h₃

theorem makePoint {p : Point} : Spares P A s₀ n (StoreM.makePoint p) fun n' v => Valid A n' v :=
  makeCluster (by simp [Valid, Value.node?, Datum.node?])

theorem makePoints {ps : List Point} :
    Spares P A s₀ n (StoreM.makePoints ps) fun n' vs => ∀ v ∈ vs, Valid A n' v := by
  have hx : Spares P A s₀ n (StoreM.makePoints ps) fun _ _ => True := by
    induction ps generalizing n with
    | nil => exact ret fun _ _ => trivial
    | cons p ps ih => exact bind makePoint fun _ _ _ _ => keeping (bind ih fun _ _ _ _ => ret fun _ _ => trivial)
  exact (hx.also (fun _ => Untouched.closed) Keeps.makePoints).imp fun _ _ _ h => h.2

/-! ## Fields -/

theorem clusterOf {t : ObjectType} {ids : List NodeId} (h : Within A n ids) :
    Spares P A s₀ n (StoreM.clusterOf t ids) fun n' v => Valid A n' v := by
  have hR : ∀ n n' (v : Value), n ≤ n' → Valid A n v → Valid A n' v := fun _ _ _ hn hv => hv.mono hn
  refine bind (reads (Reads.mapM fun _ _ => Reads.load) (Keeps.mapM hR fun id hid n' hn => Keeps.load ?_))
    fun _ _ _ hvs => makeCluster hvs
  simpa [Datum.node?] using ((h.mono hn) id hid)

theorem tileField {t : Tile} {name : Name} (h : Within A n (Object.tile t).pointers) :
    Spares P A s₀ n (StoreM.tileField t name) fun n' v => Valid A n' v := by
  simp only [Object.pointers, Within.append] at h
  obtain ⟨⟨⟨hv, he⟩, hp⟩, -⟩ := h
  unfold StoreM.tileField
  split
  · exact clusterOf hv
  · exact clusterOf he
  · exact reads Reads.loadOption (Keeps.loadOption hp)
  · exact reads Reads.ret (Keeps.retScalar rfl)
  · exact bind (reads Reads.tilePoints (Keeps.tilePoints hv)) fun _ _ _ _ => makePoint
  · exact fail

theorem patchField {p : Patch} {name : Name} (h : Within A n (Object.patch p).pointers) :
    Spares P A s₀ n (StoreM.patchField p name) fun n' v => Valid A n' v := by
  simp only [Object.pointers, Within.append] at h
  unfold StoreM.patchField
  split
  · exact clusterOf h.1
  · exact bind makePoints fun _ _ _ hvs => makeCluster hvs
  · exact fail

theorem ownField {o : Object} {name : Name} (h : Within A n o.pointers) :
    Spares P A s₀ n (StoreM.ownField o name) fun n' v => Valid A n' v := by
  cases o with
  | tile t => exact tileField h
  | vertex v => exact reads Reads.vertexField (Keeps.vertexField h)
  | edge e => exact reads Reads.edgeField (Keeps.edgeField h)
  | patch p => exact patchField h
  | cluster c => exact reads Reads.clusterField (Keeps.clusterField h)
  | lambda l => exact reads Reads.lambdaField Keeps.lambdaField

theorem getField {v : Value} {name : Name} (h : Valid A n v) :
    Spares P A s₀ n (StoreM.getField v name) fun n' w => Valid A n' w := by
  have hx : Spares P A s₀ n (StoreM.getField v name) fun _ _ => True := by
    unfold StoreM.getField
    split
    · rename_i t id
      refine bind (reads Reads.fetchObject (Keeps.fetchObject (valid_object.1 h).1)) fun n₁ _ o ho => ?_
      split
      · rename_i d hd
        have ho' : o.withFields o.fields = o := by cases o <;> rfl
        rw [← ho', Within.withFields] at ho
        exact (reads Reads.load (Keeps.load (Within.fields.1 ho.2 name d hd))).imp fun _ _ _ _ => trivial
      · exact (ownField ho).imp fun _ _ _ _ => trivial
    · exact fail
  exact (hx.also (fun _ => Untouched.closed) (Keeps.getField h)).imp fun _ _ _ h => h.2

/-! ## Tiles and patches -/

theorem makeTile {ps : List Point} :
    Spares P A s₀ n (StoreM.makeTile ps) fun n' id => Within A n' [id] := by
  unfold StoreM.makeTile
  by_cases hlen : ps.length < 3
  · simp only [hlen, if_true]
    exact failThen
  simp only [hlen, if_false]
  split
  · exact fail
  refine bind (allocate (by simp [Object.pointers]) (by rintro _ ⟨⟩)) fun n₁ h₁ id hid => keeping ?_
  have hid₁ := hid.imp fun _ hi => hi.1
  refine bind (allocateAll fun o ho => ?_) fun n₂ h₂ vertices hv => keeping ?_
  · obtain ⟨i, hi, rfl⟩ := List.mem_mapIdx.1 ho
    exact ⟨by simpa [Object.pointers] using (Within.cons.1 hid₁).1, by rintro ⟨⟩⟩
  refine bind (allocateAll fun o ho => ?_) fun n₃ h₃ edges he => ?_
  · obtain ⟨i, -, rfl⟩ := List.mem_map.1 ho
    exact ⟨by simpa [Object.pointers] using (Within.cons.1 (hid₁.mono h₂)).1, by rintro ⟨⟩⟩
  refine bind (update (Within.cons.1 hid).1.1.2 (fun n' h' t ht => ?_) (by rintro _ _ ⟨⟩)) fun n₄ h₄ _ _ =>
    ret fun n₅ h₅ => hid₁.mono (by omega)
  simp only [Node.pointers, Object.tiles, Object.pointers, Within.append] at ht ⊢
  exact ⟨⟨⟨hv.mono (Nat.le_trans h₃ h'), he.mono h'⟩, ht.1.2⟩, ht.2⟩

theorem placeTiles {patch : NodeId} {table : Locations} {tiles : List NodeId} (hP : P [])
    (hp : Within A n [patch]) (ht : Within A n tiles) :
    Spares P A s₀ n (StoreM.placeTiles patch table tiles) fun n' r => Within A n' (r.1.map Prod.fst) := by
  have hx : Spares P A s₀ n (StoreM.placeTiles patch table tiles) fun _ _ => True := by
    induction tiles generalizing n table with
    | nil => exact ret fun _ _ => trivial
    | cons tile tiles ih =>
      rw [Within.cons] at ht
      refine bind (copyObject hP (by simpa using ht.1)) fun n₁ h₁ copy hc => keeping ?_
      refine bind (update (Within.cons.1 hc).1.1.2 (fun n' h' t ht' => ?_) nofun) fun n₂ h₂ _ _ => ?_
      · simp only [Node.pointers, Object.tiles, Object.pointers, Within.append, Option.toList_some]
          at ht' ⊢
        exact ⟨⟨ht'.1.1, hp.mono (Nat.le_trans h₁ h')⟩, ht'.2⟩
      refine bind (reads Reads.fetch (Keeps.fetchTile (Within.cons.1 hc).1.1.1)) fun n₃ h₃ t htile => ?_
      refine bind (reads Reads.tilePoints (Keeps.tilePoints
        (htile.of_subset fun i hi => by simp [Object.pointers, hi]))) fun n₄ h₄ points _ => ?_
      have hle : n ≤ n₄ := by omega
      exact bind (ih (hp.mono hle) (ht.2.mono hle)) fun _ _ _ _ => ret fun _ _ => trivial
  exact (hx.also (fun _ => Untouched.closed) (Keeps.placeTiles hp ht)).imp fun _ _ _ h => h.2

theorem makePatch {tiles : List NodeId} (hP : P []) (ht : Within A n tiles) :
    Spares P A s₀ n (StoreM.makePatch tiles) fun n' id => Within A n' [id] := by
  refine bind (allocate (by simp [Object.pointers]) (by rintro _ ⟨⟩)) fun n₁ h₁ id hid => keeping ?_
  have hid₁ := hid.imp fun _ hi => hi.1
  refine bind (placeTiles hP hid₁ (ht.mono h₁)) fun n₂ h₂ r hr => ?_
  refine bind (update (Within.cons.1 hid).1.1.2 (fun n' h' p hp => ?_) (by rintro _ _ ⟨⟩)) fun n₃ h₃ _ _ =>
    ret fun n₄ h₄ => hid₁.mono (by omega)
  simp only [Node.pointers, Object.patches, Object.pointers, Within.append] at hp ⊢
  exact ⟨hr.mono h', hp.2⟩

/-! ## Primitives -/

theorem regularTile {sides : Value} :
    Spares P A s₀ n (Primitive.regularTile sides) fun n' v => Valid A n' v := by
  refine bind (reads Reads.ofExcept Keeps.toNumber) fun n₁ _ x _ => ?_
  split
  · exact bind makeTile fun _ _ _ hid => ret fun _ hn => hid.mono hn
  · exact fail

theorem patchOf {v : Value} (hP : P []) (h : Valid A n v) :
    Spares P A s₀ n (Primitive.patchOf v) fun n' v => Valid A n' v :=
  bind (reads Reads.itemsOf (Keeps.itemsOf h)) fun _ _ _ hds => bind (reads Reads.tilesOf (Keeps.tilesOf hds))
    fun _ _ _ hids => bind (keeping (makePatch hP hids)) fun _ _ _ hid => ret fun _ hn => hid.mono hn

theorem apply {f : Primitive} {args : List Value} (hP : P []) (h : ∀ v ∈ args, Valid A n v)
    (hlen : args.length = f.arity) :
    Spares P A s₀ n (f.apply args) fun n' v => Valid A n' v := by
  have hkeeps := Keeps.apply (P := P) h hlen
  cases f with
  | cluster k => exact makeCluster h
  | regular =>
    obtain ⟨a, rfl⟩ := List.length_eq_one_iff.1 hlen
    exact regularTile
  | polygon =>
    obtain ⟨a, rfl⟩ := List.length_eq_one_iff.1 hlen
    exact bind (reads Reads.pointsOf (Keeps.pointsOf (h a (by simp)))) fun _ _ _ _ =>
      bind makeTile fun _ _ _ hid => ret fun _ hn => hid.mono hn
  | patch =>
    obtain ⟨a, rfl⟩ := List.length_eq_one_iff.1 hlen
    exact patchOf hP (h a (by simp))
  | neg | sin | cos | sqrt | not =>
    obtain ⟨a, rfl⟩ := List.length_eq_one_iff.1 hlen
    exact reads Reads.ofExcept hkeeps
  | len =>
    obtain ⟨a, rfl⟩ := List.length_eq_one_iff.1 hlen
    exact reads (Reads.bind Reads.itemsOf fun _ => Reads.ret) hkeeps
  | add | sub | mul | div | pow | and | or | lt | le | gt | ge =>
    obtain ⟨a, b, rfl⟩ := List.length_eq_two.1 hlen
    exact reads Reads.ofExcept hkeeps
  | eq | ne =>
    obtain ⟨a, b, rfl⟩ := List.length_eq_two.1 hlen
    exact reads Reads.ret hkeeps
  | item =>
    obtain ⟨a, b, rfl⟩ := List.length_eq_two.1 hlen
    exact reads Reads.itemAt hkeeps

end Spares

end Mosaic.StoreM
