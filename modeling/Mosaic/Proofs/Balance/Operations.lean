import Mosaic.Proofs.Balance.Actions

/-!
# The operations, one by one

Each operation that finds its operands on a safe machine leaves a safe machine and an effect that fits
what `Flow` says of it: a value or nothing at the new depth, or items that lead there.
-/

namespace Mosaic

open Mosaic.Graph (NodeId Node)

/-- The effect of an operation at the depth `d` fits, if the machine is then at the depth `d'`. -/
def Effect.Fits (G : Prop) (A : NodeId → Prop) (op : Op) (d d' : Depth) (n : Nat) : Effect → Prop
  | .value v => op.yields = [.value] ∧ op.move d = some d' ∧ Valid A n v
  | .done => op.yields = [] ∧ op.move d = some d'
  | .items Q => Within A n (programNodes Q) ∧
    ∀ (S : List Slot) (τ : Shape) (K : Program),
      (∀ d₁, op.move d = some d₁ → Flow G ⟨op.yields ++ S, d₁⟩ K τ) → Flow G ⟨S, d'⟩ (Q ++ K) τ

/-- There is an innermost frame. -/
def Depth.Open (d : Depth) : Prop := ∃ n ns, d.frames = (n + 1) :: ns

/-- What an operation leads to. -/
def Does (G : Prop) (A : NodeId → Prop) (E : List NodeId) (op : Op) (d : Depth) (m : Machine)
    (e : Effect) (m' : Machine) : Prop :=
  ∃ d', Safe A E d' m' ∧ Same m m' ∧ e.Fits G A op d d' m'.next

namespace Frame.All

variable {V : Value → Prop} {L : NodeId → Prop} {f : Frame}

theorem defineAll {ps : List (Name × Value)} (h : f.All V L) (hps : ∀ p ∈ ps, V p.2) :
    (ps.foldl (fun f (name, v) => f.define name v) f).All V L := by
  induction ps generalizing f with
  | nil => exact h
  | cons p ps ih => exact ih (h.define (hps p (by simp))) fun q hq => hps q (by simp [hq])

theorem bindArguments {ps : List (Name × Value)} {i : Nat} (h : f.All V L)
    (hps : ∀ p ∈ ps, V p.2) : (MachineM.bindArguments f i ps).All V L := by
  induction ps generalizing f i with
  | nil => exact h
  | cons p ps ih =>
    have hp := hps p (by simp)
    exact ih ((h.define hp).define hp) fun q hq => hps q (by simp [hq])

end Frame.All

namespace MachineM.Leads

variable {G : Prop} {α : Type} {A : NodeId → Prop} {E : List NodeId} {d : Depth} {m m₀ : Machine}
  {op : Op}

theorem value (hm : Safe A E d m) (hs : Same m₀ m) {v : Value} (hv : Valid A m.next v)
    (hy : op.yields = [.value]) (hd : op.move d = some d) :
    Leads G (pure (.value v)) m (Does G A E op d m₀) :=
  ret ⟨d, hm, hs, hy, hd, hv⟩

theorem done {d' : Depth} (hm : Safe A E d' m) (hs : Same m₀ m) (hy : op.yields = [])
    (hd : op.move d = some d') : Leads G (pure .done) m (Does G A E op d m₀) :=
  ret ⟨d', hm, hs, hy, hd⟩

/-! ## Binding -/

theorem modifyFrame {g : Frame → Frame} (hm : Safe A E d m) (hd : G → d.Open)
    (hg : ∀ f, f.All (Valid A m.next) (fun id => A id ∧ id < m.next) →
      (g f).All (Valid A m.next) fun id => A id ∧ id < m.next) :
    Leads G (MachineM.setScopes (m.scopes.modifyFrame g)) m fun _ m' =>
      Safe A E d m' ∧ Same m m' := by
  refine setScopes (fun s hs => ?_) fun failure hf hG => ?_
  · exact ⟨hm.withScopes (hm.scopes.modifyFrame hs hg) ((Scopes.depths_modifyFrame hs).trans hm.depths),
      rfl, rfl, rfl, Nat.le_refl _⟩
  · obtain ⟨s, hs⟩ := (hm.opened (hd hG)).modifyFrame g
    rw [hs] at hf
    cases hf

theorem destructure {v : Value} {n : Nat} (hm : Safe A E d m) (hv : Valid A m.next v) :
    Leads G (MachineM.destructure v n) m fun vs m' =>
      Safe A E d m' ∧ Same m m' ∧ ∀ w ∈ vs, Valid A m'.next w := by
  unfold MachineM.destructure
  split
  · exact ret ⟨hm, .refl m, by simpa using hv⟩
  · split
    · rename_i id
      refine onStore (Q := fun n vs => ∀ w ∈ vs, Valid A n w) hm
        (StoreM.Keeps.bind (StoreM.Keeps.fetchCluster (valid_object.1 hv).1) fun n₁ h₁ c hc => ?_)
      have hR : ∀ n n' (v : Value), n ≤ n' → Valid A n v → Valid A n' v :=
        fun _ _ _ hn hv => hv.mono hn
      dsimp only
      split
      · exact StoreM.Keeps.failThen rfl
      · exact StoreM.Keeps.mapM hR fun d hd n' hn => StoreM.Keeps.load ((hc d hd).mono hn)
    · exact fail fun _ => rfl

theorem bindAll {ps : List (Operand × Value)} (hm : Safe A E d m) (hd : G → d.Open)
    (ht : ∀ p ∈ ps, p.1.slot = .var) (hv : ∀ p ∈ ps, Valid A m.next p.2) :
    Leads G (MachineM.bindAll ps) m fun _ m' => Safe A E d m' ∧ Same m m' := by
  induction ps generalizing m with
  | nil => exact ret ⟨hm, .refl m⟩
  | cons p ps ih =>
    obtain ⟨target, v⟩ := p
    refine variableThen (ht (target, v) (by simp)) fun name _ => ?_
    refine getThen (bind (modifyFrame hm hd fun f hf => hf.define (hv (target, v) (by simp)))
      fun _ m' ⟨hm', hs⟩ => ?_)
    refine (ih hm' (fun p hp => ht p (by simp [hp])) fun p hp => ?_).imp
      fun _ m'' ⟨hm'', hs'⟩ => ⟨hm'', hs.trans hs'⟩
    exact (hv p (by simp [hp])).mono hs.next

theorem assign {n : Nat} {v : Operand} {targets : List Operand} (hm : Safe A E d m)
    (hd : G → d.Open) (hv : v.slot = .value) (hin : Within A m.next v.node?.toList)
    (ht : ∀ t ∈ targets, t.slot = .var) :
    Leads G (MachineM.assign n v targets) m (Does G A E (.assign n) d m) := by
  refine valueThen hv fun w hw => ?_
  subst hw
  refine bind (destructure hm hin) fun ws m' ⟨hm', hs, hws⟩ => ?_
  refine bind (bindAll hm' hd (fun p hp => ht p.1 (List.of_mem_zip hp).1)
    fun p hp => hws p.2 (List.of_mem_zip hp).2) fun _ m'' ⟨hm'', hs'⟩ => ?_
  exact done hm'' (hs.trans hs') rfl rfl

/-! ## Fields -/

theorem getFieldRef {binding field : Name} (hm : Safe A E d m) :
    Leads G (MachineM.getFieldRef binding field) m (Does G A E (.getFieldRef field) d m) := by
  refine lookupThen hm fun v _ => ?_
  split
  · exact fun _ _ => rfl
  · exact value hm (.refl _) (by simp [Valid, Value.node?]) rfl rfl

theorem writeField {binding field : Name} {v : Value} (hm : Safe A E d m) (hd : G → d.Open)
    (hv : Valid A m.next v) :
    Leads G (MachineM.writeField binding field v) m fun _ m' => Safe A E d m' ∧ Same m m' := by
  refine lookupThen hm fun target htarget => datumThen fun datum hdatum => ?_
  subst hdatum
  split
  · rename_i t id
    refine bind (keeping (onStore hm (StoreM.Keeps.copyWithField htarget hv))) fun copy m' ⟨hm', hs, hc⟩ => ?_
    refine getThen (setScopes (fun s hs' => ?_) fun failure hf hG => ?_)
    · refine ⟨hm'.withScopes (hm'.scopes.assign ?_ hs') ((Scopes.depths_assign hs').trans hm'.depths),
        hs.trans ⟨rfl, rfl, rfl, Nat.le_refl _⟩⟩
      exact hc
    · obtain ⟨c, cs, f, fs, hc, _⟩ := (hm'.opened (hd hG)).exists_frame
      simp only [Scopes.assign, hc] at hf
      split at hf <;> cases hf
      rfl
  · exact fail fun _ => rfl

theorem writeAll {ps : List (Operand × Value)} (hm : Safe A E d m) (hd : G → d.Open)
    (ht : ∀ p ∈ ps, p.1.slot = .value) (hv : ∀ p ∈ ps, Valid A m.next p.2) :
    Leads G (MachineM.writeAll ps) m fun _ m' => Safe A E d m' ∧ Same m m' := by
  induction ps generalizing m with
  | nil => exact ret ⟨hm, .refl m⟩
  | cons p ps ih =>
    obtain ⟨target, v⟩ := p
    refine valueThen (ht (target, v) (by simp)) fun w _ => ?_
    split
    · refine bind (keeping (writeField hm hd (hv (target, v) (by simp)))) fun _ m' ⟨hm', hs⟩ => ?_
      refine (ih hm' (fun p hp => ht p (by simp [hp])) fun p hp => ?_).imp
        fun _ m'' ⟨hm'', hs'⟩ => ⟨hm'', hs.trans hs'⟩
      exact (hv p (by simp [hp])).mono hs.next
    · exact fun _ _ => rfl

theorem setField {n : Nat} {v : Operand} {targets : List Operand} (hm : Safe A E d m)
    (hd : G → d.Open) (hv : v.slot = .value) (hin : Within A m.next v.node?.toList)
    (ht : ∀ t ∈ targets, t.slot = .value) :
    Leads G (MachineM.setField n v targets) m (Does G A E (.setField n) d m) := by
  refine valueThen hv fun w hw => ?_
  subst hw
  refine bind (destructure hm hin) fun ws m' ⟨hm', hs, hws⟩ => ?_
  refine bind (writeAll hm' hd (fun p hp => ht p.1 (List.of_mem_zip hp).1)
    fun p hp => hws p.2 (List.of_mem_zip hp).2) fun _ m'' ⟨hm'', hs'⟩ => ?_
  exact done hm'' (hs.trans hs') rfl rfl

/-! ## Closures -/

theorem captureThen {names : List Name} {f : List (Name × Datum) → MachineM α}
    {K : α → Machine → Prop} (hm : Safe A E d m)
    (h : ∀ ps, (∀ p ∈ ps, Valid A m.next (.datum p.2)) → Leads G (f ps) m K) :
    Leads G (MachineM.capture names >>= f) m K := by
  rw [capture_eq, bind_assoc]
  refine getThen (okThen (fun ps hps => h ps fun p hp => ?_) fun failure hf _ => ?_)
  · exact hm.scopes.lookup? (lookup?_of_captured hps hp)
  · rw [captured_error hf]
    rfl

theorem makeLambda {label : Name} {t : Template} (hm : Safe A E d m) (hd : G → d.Open)
    (ht : IsCode t.body) :
    Leads G (MachineM.makeLambda label t) m
      (Does G A E (.makeLambda t.params t.body t.free) d m) := by
  refine captureThen hm fun ps hps => ?_
  refine bind (keeping (onStore hm (StoreM.Keeps.allocate ?_ ?_))) fun id m' hm' => ?_
  · simp only [Object.pointers, Lambda.ofTemplate, Fields.pointers_empty, List.append_nil]
    exact Within.fields.2 fun name d hd => hps (name, d) (mem_of_getElem?_ofList hd)
  · rintro l hl
    cases hl
    exact ht
  · obtain ⟨hm', hs, hid⟩ := hm'
    split
    · refine getThen (bind (modifyFrame hm' hd fun f hf => ⟨hf.values, fun i hi => ?_⟩) fun _ m'' hm'' => ?_)
      · rcases List.mem_append.1 hi with hi | hi
        · exact hf.parked i hi
        · rw [List.mem_singleton.1 hi]
          exact (Within.cons.1 hid).1
      · obtain ⟨hm'', hs'⟩ := hm''
        exact value hm'' (hs.trans hs') (hid.mono hs'.next) rfl rfl
    · exact value hm' hs hid rfl rfl

theorem complete {id : NodeId} (hm : Safe A E d m) (hid : A id) :
    Leads G (MachineM.complete id) m fun _ m' => Safe A E d m' ∧ Same m m' := by
  refine bind (onStore hm (StoreM.Keeps.fetch hid)) fun l m' ⟨hm', hs, _⟩ => ?_
  refine captureThen hm' fun ps hps => ?_
  split
  · refine (onStore hm' (StoreM.Keeps.update hid (fun n' hn l hl => ?_) ?_)).imp
      fun _ m'' ⟨hm'', hs', _⟩ => ⟨hm'', hs.trans hs'⟩
    · simp only [Node.pointers, Object.lambdas, Object.pointers, Within.append] at hl ⊢
      refine ⟨Within.fields.2 fun name d hd => ?_, hl.2⟩
      rcases getElem?_insertMany_cases hd with hd | hd
      · exact Within.fields.1 hl.1 name d hd
      · exact (hps (name, d) hd).mono hn
    · rintro l l' hl'
      cases hl'
      exact ⟨l, rfl, rfl⟩
  · exact ret ⟨hm', hs⟩

theorem completeAll {ids : List NodeId} (hm : Safe A E d m) (hids : ∀ id ∈ ids, A id) :
    Leads G (MachineM.completeAll ids) m fun _ m' => Safe A E d m' ∧ Same m m' := by
  induction ids generalizing m with
  | nil => exact ret ⟨hm, .refl m⟩
  | cons id ids ih =>
    refine bind (keeping (complete hm (hids id (by simp)))) fun _ m' ⟨hm', hs⟩ => ?_
    exact (ih hm' fun i hi => hids i (by simp [hi])).imp
      fun _ m'' ⟨hm'', hs'⟩ => ⟨hm'', hs.trans hs'⟩

theorem setDependencies (hm : Safe A E d m) (hd : G → d.Open) :
    Leads G MachineM.setDependencies m (Does G A E .setDependencies d m) := by
  refine getThen (okThen (fun r hr => ?_) fun failure hf hG => ?_)
  · obtain ⟨ids, s⟩ := r
    obtain ⟨hids, hs⟩ := hm.scopes.takeParked hr
    have hdepths := (Scopes.depths_modifyFrame (Scopes.takeParked_ok hr).2).trans hm.depths
    refine modifyThen (bind (completeAll (hm.withScopes hs hdepths) fun id hid => (hids id hid).1)
      fun _ m' ⟨hm', hs'⟩ => ?_)
    exact done hm' ⟨hs'.program, hs'.operands, hs'.config, hs'.next⟩ rfl rfl
  · obtain ⟨s, hs⟩ := (hm.opened (hd hG)).modifyFrame fun f => { f with parked := [] }
    simp [Scopes.takeParked, hs, Except.map] at hf

/-! ## Calls -/

theorem calleeFrame {n : Nat} {l : Lambda} {args : List Value} (hl : Within A n l.closure.pointers)
    (hargs : ∀ v ∈ args, Valid A n v) :
    StoreM.Keeps (Closed IsCode A) n (MachineM.calleeFrame l args) fun n' f =>
      f.All (Valid A n') fun id => A id ∧ id < n' := by
  have hR : ∀ n n' (p : Name × Value), n ≤ n' → Valid A n p.2 → Valid A n' p.2 :=
    fun _ _ _ hn hv => hv.mono hn
  refine StoreM.Keeps.bind (StoreM.Keeps.mapM hR fun p hp n' hn => ?_) fun n₁ h₁ ps hps =>
    StoreM.Keeps.ret fun n₂ h₂ => ?_
  · have hd := Within.fields.1 hl p.1 p.2 (Std.ExtTreeMap.mem_toList_iff_getElem?_eq_some.1 hp)
    exact StoreM.Keeps.bind (StoreM.Keeps.load (hd.mono hn)) fun _ _ _ hv =>
      StoreM.Keeps.ret fun _ hn' => hv.mono hn'
  · refine Frame.All.bindArguments (Frame.All.defineAll .empty fun p hp => (hps p hp).mono h₂)
      fun p hp => ?_
    exact (hargs p.2 (List.of_mem_zip hp).2).mono (Nat.le_trans h₁ h₂)

theorem flow_call {body memoize : Program} {S : List Slot} {K : Program} {τ : Shape}
    (hb : IsCode body) (hd : G → d.Open) (hmemo : IsMemoize memoize)
    (hK : Flow G ⟨.value :: S, d⟩ K τ) :
    Flow G ⟨S, 1 :: d.frames, d.builders⟩ ((body ++ .op .popContext none :: memoize) ++ K) τ := by
  obtain ⟨line, e, he, rfl⟩ := hb
  have hopen : G → Shape.Open ⟨S, 1 :: d.frames, d.builders⟩ := fun _ => ⟨0, d.frames, rfl⟩
  rw [List.append_assoc]
  refine Expr.yields_compileAt line e he _ _ _ hopen
    (.op none trivial rfl False.elim (fun hG => ⟨hopen hG, d, rfl⟩) fun d' hd' => ?_)
  cases hd'
  rcases hmemo with rfl | ⟨key, rfl⟩
  · exact hK
  · exact .plain trivial hd rfl (S := S) rfl hK

theorem enter {l : Lambda} {args : List Value} {key : Option String} (hm : Safe A E d m)
    (hs : Same m₀ m) (hd : G → d.Open) (hl : Within A m.next l.closure.pointers)
    (hb : IsCode l.body) (hargs : ∀ v ∈ args, Valid A m.next v) (hy : op.yields = [.value])
    (hmove : op.move d = some d) :
    Leads G (MachineM.enter l args key) m (Does G A E op d m₀) := by
  have hbody : Leads G (MachineM.enterBody l args key) m (Does G A E op d m₀) := by
    refine bind (onStore hm (calleeFrame hl hargs)) fun f m' ⟨hm', hs', hf⟩ => modifyThen (ret ?_)
    refine ⟨⟨1 :: d.frames, d.builders⟩, hm'.withScopes (hm'.scopes.pushContext ?_) ?_, ?_, ?_, ?_⟩
    · simpa using hf
    · simp [Scopes.depths, Scopes.pushContext, ← hm'.depths]
    · exact ⟨hs'.program.trans hs.program, hs'.operands.trans hs.operands,
        hs'.config.trans hs.config, Nat.le_trans hs.next hs'.next⟩
    · obtain ⟨line, e, _, he⟩ := hb
      cases key <;> simp [he, Item.nodes, Op.nodes]
    · intro S τ K hK
      have hK' := hK d hmove
      rw [hy] at hK'
      refine flow_call hb hd ?_ hK'
      cases key with
      | none => exact .inl rfl
      | some key => exact .inr ⟨key, rfl⟩
  intro pins
  rw [enter_apply]
  cases m.config.maxCallDepth with
  | none => exact hbody pins
  | some limit =>
    by_cases hlt : limit < m.scopes.depth
    · simp only [if_pos hlt]
      exact fun _ => rfl
    · simp only [if_neg hlt]
      exact hbody pins

/-- Asking the memo changes only how often it was asked. -/
theorem Safe.ask (hm : Safe A E d m) (key : String) :
    Safe A E d { m with memo := (m.memo.ask key).2 } ∧
      ∀ v, (m.memo.ask key).1 = some v → Valid A m.next v := by
  unfold Memo.ask
  cases hk : m.memo.entries[key]? with
  | none => exact ⟨⟨hm.store, hm.scopes, hm.memo, hm.depths, hm.builders⟩, nofun⟩
  | some v =>
    refine ⟨⟨hm.store, hm.scopes, hm.memo, hm.depths, hm.builders⟩, fun w hw => ?_⟩
    cases hw
    exact hm.memo key v hk

theorem answer {callee : NodeId} {l : Lambda} {args : List Value} (hm : Safe A E d m)
    (hs : Same m₀ m) (hd : G → d.Open) (hl : Within A m.next l.closure.pointers)
    (hb : IsCode l.body) (hargs : ∀ v ∈ args, Valid A m.next v) (hy : op.yields = [.value])
    (hmove : op.move d = some d) :
    Leads G (MachineM.answer callee l args) m (Does G A E op d m₀) := by
  refine getThen ?_
  split
  · rename_i key _
    obtain ⟨hm₁, hknown⟩ := Safe.ask hm key
    have hs₁ : Same m₀ { m with memo := (m.memo.ask key).2 } := ⟨hs.program, hs.operands, hs.config, hs.next⟩
    refine setThen ?_
    split
    · rename_i v hv
      exact bind (keeping (onStore hm₁ (StoreM.Keeps.copy (hknown v hv)))) fun w m' ⟨hm', hs', hw⟩ =>
        value hm' (hs₁.trans hs') hw hy hmove
    · exact enter hm₁ hs₁ hd hl hb hargs hy hmove
  · exact enter hm hs hd hl hb hargs hy hmove

theorem invoke {callee : NodeId} {args : List Value} (hm : Safe A E d m) (hs : Same m₀ m)
    (hd : G → d.Open) (hc : A callee) (hargs : ∀ v ∈ args, Valid A m.next v)
    (hy : op.yields = [.value]) (hmove : op.move d = some d) :
    Leads G (MachineM.invoke callee args) m (Does G A E op d m₀) := by
  rw [invoke_eq]
  refine bind (onStore hm (StoreM.Keeps.fetch hc)) fun l m₁ ⟨hm₁, hs₁, hp, hb⟩ => ?_
  split
  · exact fun _ _ => rfl
  · exact answer hm₁ (hs.trans hs₁) hd (Within.append.1 hp).1 (hb id l rfl)
      (fun v hv => (hargs v hv).mono hs₁.next) hy hmove

theorem getVariable {name : Name} (hm : Safe A E d m) (hd : G → d.Open) :
    Leads G (MachineM.getVariable name) m (Does G A E .getVariable d m) := by
  refine lookupThen hm fun v hv => ?_
  split
  · refine bind (onStore hm (StoreM.Keeps.fetch (valid_object.1 hv).1)) fun l m₁ ⟨hm₁, hs₁, _⟩ => ?_
    split
    · exact invoke hm₁ hs₁ hd (valid_object.1 hv).1 (by simp) rfl rfl
    · exact value hm₁ hs₁ (hv.mono hs₁.next) rfl rfl
  · exact value hm (.refl _) hv rfl rfl

theorem call {n : Nat} {operands : List Operand} (hm : Safe A E d m) (hd : G → d.Open)
    (hlen : operands ≠ []) (ho : ∀ o ∈ operands, o.slot = .value)
    (hin : ∀ o ∈ operands, Within A m.next o.node?.toList) :
    Leads G (MachineM.call operands) m (Does G A E (.call n) d m) := by
  refine valuesThen ho fun vs hvs => ?_
  subst hvs
  have hvalid : ∀ v ∈ vs, Valid A m.next v := fun v hv => hin (.value v) (List.mem_map_of_mem hv)
  split
  · exact absurd rfl hlen
  · rename_i id args
    have hid := valid_object.1 (hvalid (.object .lambda id) (by simp))
    exact invoke hm (.refl _) hd hid.1 (fun v hv => hvalid v (by simp [hv])) rfl rfl
  · exact fail fun _ => rfl

theorem memoize {key : String} {v : Value} (hm : Safe A E d m) (hv : Valid A m.next v) :
    Leads G (MachineM.memoize key v) m (Does G A E (.memoize key) d m) := by
  have hm' : Safe A E d { m with memo := m.memo.insert key v } := by
    refine ⟨hm.store, hm.scopes, fun key' w hw => ?_, hm.depths, hm.builders⟩
    rcases getElem?_insert_cases hw with ⟨_, rfl⟩ | ⟨_, hw⟩
    · exact hv
    · exact hm.memo key' w hw
  have hs : Same m { m with memo := m.memo.insert key v } := ⟨rfl, rfl, rfl, Nat.le_refl _⟩
  exact modifyThen (value hm' hs hv rfl rfl)

/-! ## Comprehensions -/

theorem element? {source : Value} {index : Nat} (hm : Safe A E d m) (hv : Valid A m.next source) :
    Leads G (MachineM.element? source index) m fun v? m' =>
      Safe A E d m' ∧ Same m m' ∧ ∀ v, v? = some v → Valid A m'.next v := by
  unfold MachineM.element?
  split
  · rename_i id
    refine onStore (Q := fun n v? => ∀ v, v? = some v → Valid A n v) hm
      (StoreM.Keeps.bind (StoreM.Keeps.fetchCluster (valid_object.1 hv).1) fun n₁ _ c hc => ?_)
    dsimp only
    cases hi : c.items[index]? with
    | none => exact StoreM.Keeps.ret fun _ _ => nofun
    | some d =>
      refine StoreM.Keeps.bind (StoreM.Keeps.load (hc d (List.mem_of_getElem? hi)))
        fun n₂ _ v hv => StoreM.Keeps.ret fun n₃ h₃ w hw => ?_
      cases hw
      exact hv.mono h₃
  · split
    · refine ret ⟨hm, .refl m, fun v hv => ?_⟩
      split at hv
      · cases hv
        simp [Valid, Value.node?, Datum.node?]
      · cases hv
    · exact fail fun _ => rfl
  · exact fail fun _ => by rfl

/-- A round leads to the value of the whole comprehension, and closes its cluster. -/
theorem flow_round {var : Name} {index b : Nat} {body : Program} {source element : Value}
    {S : List Slot} {ns : List Nat} {K : Program} {τ : Shape} (hb : IsCode body)
    (hd : G → Depth.Open ⟨ns, b⟩) (hK : Flow G ⟨.value :: S, ns, b⟩ K τ) :
    Flow G ⟨S, ns, b + 1⟩ (MachineM.round var index body source element ++ K) τ := by
  have hcode := hb
  obtain ⟨line, e, he, rfl⟩ := hb
  have hbind : YieldsAll G 0 [.value element, .var var, .op (.assign 1) none] :=
    fun _ _ _ hσ hQ => .value _ (.var _ (Flow.plain (show 1 + 1 < 2 ^ 64 by decide) hσ rfl rfl hQ))
  have hround : Yields G (.op .pushFrame none :: (_ ++ [.op .popFrame none])) :=
    Yields.framed (hbind.then (Expr.yields_compileAt line e he))
  have hiter : Flow G (Shape.push ⟨S, ns, b + 1⟩ .value)
      (.value source :: .op (.iterate var (index + 1) (e.compileAt line)) none :: K) τ := by
    refine .value source
      (.op none hcode (S := S) rfl (fun _ => Nat.succ_ne_zero b) (fun hG => ⟨hd hG, _, rfl⟩) fun d hd => ?_)
    cases hd
    exact hK
  simpa [MachineM.round] using hround ⟨S, ns, b + 1⟩ _ _ hd hiter

theorem schedule {var : Name} {index b : Nat} {body : Program} {source : Value} {ns : List Nat}
    (hm : Safe A E ⟨ns, b + 1⟩ m) (hs : Same m₀ m) (hd : G → Depth.Open ⟨ns, b⟩) (hb : IsCode body)
    (hv : Valid A m.next source) (hy : op.yields = [.value]) (hmove : op.move d = some ⟨ns, b⟩) :
    Leads G (MachineM.schedule var index body source) m (Does G A E op d m₀) := by
  refine bind (element? hm hv) fun v? m₁ ⟨hm₁, hs₁, hv?⟩ => ?_
  split
  · rename_i element _
    refine ret ⟨⟨ns, b + 1⟩, hm₁, hs.trans hs₁, ?_, fun S τ K hK => ?_⟩
    · obtain ⟨line, e, _, rfl⟩ := hb
      have he := hv? element rfl
      simpa [MachineM.round, Item.nodes, Op.nodes] using ⟨he, hv.mono hs₁.next⟩
    · have hK' := hK _ hmove
      rw [hy] at hK'
      exact flow_round hb hd hK'
  · refine getThen ?_
    obtain ⟨B, hB, hlen, hin⟩ := hm₁.builders
    obtain ⟨builder, B, rfl⟩ := List.exists_cons_of_length_eq_add_one hlen
    rw [hB]
    refine setThen (ret ⟨⟨ns, b⟩, ?_, ?_, hy, hmove, ?_⟩)
    · exact ⟨hm₁.store, hm₁.scopes, hm₁.memo, hm₁.depths,
        B, rfl, by simpa using hlen, (Within.cons.1 hin).2⟩
    · exact hs.trans ⟨hs₁.program, hs₁.operands, hs₁.config, hs₁.next⟩
    · exact valid_object.2 (Within.cons.1 hin).1

theorem openCluster {var : Name} {body : Program} {source : Operand} (hm : Safe A E d m)
    (hd : G → d.Open) (hb : IsCode body) (hv : source.slot = .value)
    (hin : Within A m.next source.node?.toList) :
    Leads G (MachineM.openCluster var body source) m (Does G A E (.iterate var 0 body) d m) := by
  refine valueThen hv fun v hv' => ?_
  subst hv'
  refine bind (keeping (onStore hm (StoreM.Keeps.allocate (by simp [Object.pointers]) nofun)))
    fun id m₁ ⟨hm₁, hs₁, hid⟩ => modifyThen ?_
  obtain ⟨B, hB, hlen, hin'⟩ := hm₁.builders
  have hm₂ : Safe A E ⟨d.frames, d.builders + 1⟩ { m₁ with builders := id :: m₁.builders } :=
    ⟨hm₁.store, hm₁.scopes, hm₁.memo, hm₁.depths, id :: B, by rw [hB]; rfl, by simp [hlen],
      Within.cons.2 ⟨(Within.cons.1 hid).1, hin'⟩⟩
  exact schedule hm₂ ⟨hs₁.program, hs₁.operands, hs₁.config, hs₁.next⟩ hd hb (hin.mono hs₁.next) rfl rfl

theorem addResult {var : Name} {index : Nat} {body : Program} {result source : Operand} {b : Nat}
    {ns : List Nat} (hm : Safe A E ⟨ns, b + 1⟩ m) (hd : G → Depth.Open ⟨ns, b⟩) (hb : IsCode body)
    (hr : result.slot = .value) (hv : source.slot = .value)
    (hin : Within A m.next source.node?.toList) (hin' : Within A m.next result.node?.toList) :
    Leads G (MachineM.addResult var (index + 1) body result source) m
      (Does G A E (.iterate var (index + 1) body) ⟨ns, b + 1⟩ m) := by
  refine valueThen hr fun r hr' => ?_
  subst hr'
  refine valueThen hv fun v hv' => ?_
  subst hv'
  refine datumThen fun datum hd' => ?_
  subst hd'
  refine getThen ?_
  obtain ⟨B, hB, hlen, hinB⟩ := hm.builders
  obtain ⟨builder, B, rfl⟩ := List.exists_cons_of_length_eq_add_one hlen
  rw [hB]
  refine bind (onStore hm (StoreM.Keeps.update (Within.cons.1 hinB).1.1 (fun n' hn c hc => ?_) nofun))
    fun _ m₁ ⟨hm₁, hs₁, _⟩ => schedule hm₁ hs₁ hd hb (hin.mono hs₁.next) rfl rfl
  simp only [Node.pointers, Object.clusters, Object.pointers, Within.append, List.filterMap_append]
    at hc ⊢
  refine ⟨⟨hc.1, within_data.2 fun d hd => ?_⟩, hc.2⟩
  rw [List.mem_singleton.1 hd]
  exact hin'.mono hn

/-! ## Scopes -/

theorem popContext (hm : Safe A E d m) (hd : G → d.Open) :
    Leads G (MachineM.perform .popContext []) m (Does G A E .popContext d m) := by
  refine getThen (okThen (fun r hr => ?_) fun failure hf hG => ?_)
  · obtain ⟨c, s⟩ := r
    have hc := Scopes.popContext_ok hr
    refine modifyThen (done (hm.withScopes (hm.scopes.popContext hr) rfl) ⟨rfl, rfl, rfl, Nat.le_refl _⟩ rfl ?_)
    obtain ⟨ns, b⟩ := d
    obtain rfl : m.scopes.depths = ns := hm.depths
    simp [Op.move, Scopes.depths, hc]
  · obtain ⟨c, cs, f, fs, hc, _⟩ := (hm.opened (hd hG)).exists_frame
    simp [Scopes.popContext, hc] at hf

theorem pushFrame (hm : Safe A E d m) (hd : G → d.Open) :
    Leads G (MachineM.perform .pushFrame []) m (Does G A E .pushFrame d m) := by
  refine getThen (bind (setScopes (Q := fun _ m' => ∃ s, m.scopes.pushFrame = .ok s ∧
    m' = { m with scopes := s }) (fun s hs => ⟨s, hs, rfl⟩) fun failure hf hG => ?_) ?_)
  · obtain ⟨c, cs, f, fs, hc, _⟩ := (hm.opened (hd hG)).exists_frame
    simp [Scopes.pushFrame, hc] at hf
  · rintro _ _ ⟨s, hs, rfl⟩
    obtain ⟨c, cs, hc, hc'⟩ := Scopes.pushFrame_ok hs
    refine done (hm.withScopes (hm.scopes.pushFrame hs) rfl) ⟨rfl, rfl, rfl, Nat.le_refl _⟩ rfl ?_
    obtain ⟨ns, b⟩ := d
    obtain rfl : m.scopes.depths = ns := hm.depths
    simp [Op.move, Scopes.depths, hc, hc']

theorem popFrame (hm : Safe A E d m) (hd : G → d.Open) :
    Leads G (MachineM.perform .popFrame []) m (Does G A E .popFrame d m) := by
  refine getThen (okThen (fun r hr => ?_) fun failure hf hG => ?_)
  · obtain ⟨f, s⟩ := r
    obtain ⟨c, cs, fs, hc, hf, hc'⟩ := Scopes.popFrame_ok hr
    refine modifyThen (done (hm.withScopes (hm.scopes.popFrame hr) rfl) ⟨rfl, rfl, rfl, Nat.le_refl _⟩ rfl ?_)
    obtain ⟨ns, b⟩ := d
    obtain rfl : m.scopes.depths = ns := hm.depths
    simp [Op.move, Scopes.depths, hc, hf, hc']
  · obtain ⟨c, cs, f, fs, hc, hf'⟩ := (hm.opened (hd hG)).exists_frame
    simp [Scopes.popFrame, hc, hf'] at hf

/-! ## All operations -/

/-- What an operation does with operands of the kinds it takes, given in the order in which they were
pushed. -/
theorem perform {args : List Operand} (hm : Safe A E d m) (sound : op.Sound)
    (hslots : args.map Operand.slot = op.slots.reverse)
    (hin : ∀ o ∈ args, Within A m.next o.node?.toList) (cluster : op.Closes → d.builders ≠ 0)
    (hd : G → d.Open) :
    Leads G (MachineM.perform op args) m (Does G A E op d m) := by
  cases op with
  | pushContext => exact sound.elim
  | popContext =>
    obtain rfl := List.map_eq_nil_iff.1 hslots
    exact popContext hm hd
  | pushFrame =>
    obtain rfl := List.map_eq_nil_iff.1 hslots
    exact pushFrame hm hd
  | popFrame =>
    obtain rfl := List.map_eq_nil_iff.1 hslots
    exact popFrame hm hd
  | setDependencies =>
    obtain rfl := List.map_eq_nil_iff.1 hslots
    exact setDependencies hm hd
  | getVariable =>
    obtain ⟨o, rfl, ho⟩ := List.map_eq_singleton_iff.1 hslots
    exact variableThen ho fun name _ => getVariable hm hd
  | getFieldRef field =>
    obtain ⟨o, rfl, ho⟩ := List.map_eq_singleton_iff.1 hslots
    exact variableThen ho fun name _ => getFieldRef hm
  | makeLambda params body free =>
    obtain ⟨o, rfl, ho⟩ := List.map_eq_singleton_iff.1 hslots
    exact variableThen ho fun name _ => makeLambda (t := ⟨params, body, free⟩) hm hd sound
  | getField name =>
    obtain ⟨o, rfl, ho⟩ := List.map_eq_singleton_iff.1 hslots
    refine valueThen ho fun v hv => ?_
    subst hv
    have hv := hin (.value v) (by simp)
    exact bind (keeping (onStore hm (StoreM.Keeps.getField hv))) fun w m' ⟨hm', hs', hw⟩ =>
      value hm' hs' hw rfl rfl
  | branch yes no =>
    obtain ⟨o, rfl, ho⟩ := List.map_eq_singleton_iff.1 hslots
    refine valueThen ho fun v _ => okThen (fun b _ => ?_) fun failure hf _ => ?_
    · have hcode : IsCode (if b then yes else no) := by cases b <;> simp [sound.1, sound.2]
      obtain ⟨line, e, he, hcode⟩ := hcode
      rw [hcode]
      refine ret ⟨d, hm, .refl m, by simp, fun S τ K hK => ?_⟩
      exact Expr.yields_compileAt line e he ⟨S, d⟩ τ K hd (hK d rfl)
    · rcases v.toBool_cases with ⟨x, hx⟩ | ⟨got, hx⟩ <;> rw [hx] at hf <;> cases hf
      rfl
  | memoize key =>
    obtain ⟨o, rfl, ho⟩ := List.map_eq_singleton_iff.1 hslots
    refine valueThen ho fun v hv => ?_
    subst hv
    exact memoize hm (hin (.value v) (by simp))
  | assign n =>
    rw [Op.slots, List.reverse_append, List.reverse_replicate] at hslots
    obtain ⟨v, targets, rfl, hv, ht⟩ := List.map_eq_cons_iff.1 hslots
    refine assign hm hd hv (hin v (by simp)) fun t ht' => ?_
    exact List.eq_of_mem_replicate (ht ▸ List.mem_map_of_mem ht')
  | setField n =>
    rw [Op.slots, List.reverse_replicate] at hslots
    obtain ⟨v, targets, rfl, hv, ht⟩ := List.map_eq_cons_iff.1 hslots
    refine setField hm hd hv (hin v (by simp)) fun t ht' => ?_
    exact List.eq_of_mem_replicate (ht ▸ List.mem_map_of_mem ht')
  | apply f =>
    rw [Op.slots, List.reverse_replicate] at hslots
    have hall : ∀ o ∈ args, o.slot = .value :=
      fun o ho => List.eq_of_mem_replicate (hslots ▸ List.mem_map_of_mem ho)
    refine valuesThen hall fun vs hvs => ?_
    have hlen := congrArg List.length hslots
    rw [hvs, List.length_map, List.length_map, List.length_replicate] at hlen
    refine bind (keeping (onStore hm (StoreM.Keeps.apply (fun v hv => ?_) hlen))) fun w m' ⟨hm', hs', hw⟩ =>
      value hm' hs' hw rfl rfl
    exact hin (.value v) (hvs ▸ List.mem_map_of_mem hv)
  | iterate var index body =>
    cases index with
    | zero =>
      obtain ⟨o, rfl, ho⟩ := List.map_eq_singleton_iff.1 hslots
      exact openCluster hm hd sound ho (hin o (by simp))
    | succ index =>
      obtain ⟨r, _, rfl, hr, ht⟩ := List.map_eq_cons_iff.1 hslots
      obtain ⟨o, rfl, ho⟩ := List.map_eq_singleton_iff.1 ht
      obtain ⟨ns, b⟩ := d
      cases b with
      | zero => exact absurd rfl (cluster trivial)
      | succ b => exact addResult hm hd sound hr ho (hin o (by simp)) (hin r (by simp))
  | call n =>
    rw [Op.slots, List.reverse_replicate] at hslots
    refine call hm hd ?_ (fun o ho => List.eq_of_mem_replicate (hslots ▸ List.mem_map_of_mem ho)) hin
    rintro rfl
    cases hslots

end MachineM.Leads

end Mosaic
