import Mosaic.Proofs.Balance.Operations
import Mosaic.Proofs.Cadence.Abreast

/-!
# The operations do the same

One lemma for each operation on machines that are side by side. The operands of an operation are no longer
mentioned when it begins: they are there, but it is for the operation to hold them while it allocates
(`openCluster`, `writeAll`). What it has no more use for may be collected.
-/

namespace Mosaic

open Mosaic.Graph (NodeId)

/-- The object that the operand is, if it is one, is there. -/
def Operand.Good (g : Fragment) : Operand → Prop
  | .value v => g.Good v
  | .var _ => True

theorem Operand.Good.isSome {g : Fragment} {o : Operand} (h : o.Good g) {id : NodeId}
    (hid : o.node? = some id) : (g id).isSome = true := by
  cases o with
  | value v => exact Fragment.Good.isSome h hid
  | var name => cases hid

theorem Operand.Good.leads {g g' : Fragment} {P L : List NodeId} {o : Operand} (h : o.Good g)
    (hg : g.Leads P L g') (hL : ∀ id, o.node? = some id → id ∈ L) : o.Good g' := by
  cases o with
  | value v => exact hg.good h hL
  | var name => trivial

theorem Fragment.isSome_of_good {g : Fragment} {vs : List Value} (h : ∀ v ∈ vs, g.Good v) :
    ∀ id ∈ vs.filterMap Value.node?, (g id).isSome = true := by
  intro id hid
  obtain ⟨v, hv, hid⟩ := List.mem_filterMap.1 hid
  exact (h v hv).isSome hid

theorem Fragment.Good.isSome_toList {g : Fragment} {v : Value} (h : g.Good v) :
    ∀ id ∈ v.node?.toList, (g id).isSome = true :=
  fun _ hid => h.isSome (Option.mem_toList.1 hid)

theorem Fragment.rooted_of_good {g : Fragment} {P : List NodeId} {vs : List Value} (h : ∀ v ∈ vs, g.Good v)
    (hP : vs.filterMap Value.node? ⊆ P) : ∀ v ∈ vs, g.Rooted P v :=
  fun v hv => ((h v hv).held fun _ hid => hP (List.mem_filterMap.2 ⟨v, hv, hid⟩)).rooted

/-- What the effect mentions is there, and its text is plain. -/
def Effect.Ready (C : Cause → Prop) (g : Fragment) : Effect → Prop
  | .value v => g.Good v
  | .items p => ∀ item ∈ p, item.Ready C g
  | .done => True

theorem Scopes.modifyFrame_error {s : Scopes} {f : Frame → Frame} {failure : Failure}
    (h : s.modifyFrame f = .error failure) : failure.cause.isGraph = false := by
  unfold modifyFrame at h
  split at h
  · cases h
    rfl
  · split at h <;> cases h
    rfl

@[simp] theorem Memo.entries_ask (m : Memo) (key : String) : (m.ask key).2.entries = m.entries := by
  unfold ask
  split <;> rfl

theorem Memo.ask_eq (m : Memo) (key : String) : (m.ask key).1 = m.entries[key]? := by
  unfold ask
  split
  · rename_i v hv
    exact hv.symm
  · rename_i hv
    exact hv.symm

namespace MachineM.Agree

variable {C : Cause → Prop} {B : Backdrop} {n : Nat} {L : List NodeId} {g : Fragment} {m : Machine} {α : Type}
  {Q : Fragment → α → Prop} {id : NodeId} {v : Value}

/-! ## Binding -/

theorem modifyFrameThen {h : Frame → Frame} {f : PUnit → MachineM α}
    (hh : ∀ f, f.All g.Good (g.At .lambda) → (h f).All g.Good (g.At .lambda))
    (hf : ∀ m', Agree C B n L g m' (f ⟨⟩) Q) :
    Agree C B n L g m (MachineM.setScopes (m.scopes.modifyFrame h) >>= f) Q :=
  setScopesThen (fun _ hs hall => hall.modifyFrame hs hh) (fun _ => Scopes.modifyFrame_error) hf

theorem destructure {k : Nat} (hv : g.Good v) :
    Agree C B n L g m (MachineM.destructure v k) fun g' ws => g' = g ∧ ∀ w ∈ ws, g.Good w := by
  unfold MachineM.destructure
  split
  · exact ret ⟨rfl, by simpa using hv⟩
  · split
    · rename_i id
      refine onStore (StoreM.Agree.readThen (StoreM.Steady.fetchCluster (hv _ rfl)) fun c hc => ?_)
      obtain ⟨-, hitems⟩ := hc
      dsimp only
      split
      · exact StoreM.Agree.failThen rfl
      · refine (StoreM.Agree.mapM (S := fun _ w => g.Good w) fun d hd =>
          (StoreM.Agree.load (hitems d hd)).imp fun _ _ _ h => ⟨h.1, ?_⟩).imp fun g' ws _ h => ?_
        · exact h.2 ▸ hitems d hd
        · obtain ⟨rfl, hws⟩ := h
          refine ⟨rfl, fun w hw => ?_⟩
          obtain ⟨_, _, hgood⟩ := exists_of_forall₂ hws hw
          exact hgood
    · exact fail rfl

theorem bindAll {ps : List (Operand × Value)} (hps : ∀ p ∈ ps, g.Good p.2) :
    Agree C B n L g m (MachineM.bindAll ps) fun _ _ => True := by
  induction ps generalizing m with
  | nil => exact ret trivial
  | cons p ps ih =>
    obtain ⟨hp, hps⟩ := List.forall_mem_cons.1 hps
    exact variableThen fun name => getThen (modifyFrameThen (fun _ hf => hf.define hp) fun _ => ih hps)
      fun _ => rfl

theorem assign {k : Nat} {value : Operand} {targets : List Operand} (hv : value.Good g) :
    Agree C B n L g m (MachineM.assign k value targets) fun g' e => e.Ready C g' := by
  refine valueThen fun w hw => ?_
  subst hw
  refine bind (destructure hv) fun g' ws m' _ hws => ?_
  obtain ⟨rfl, hws⟩ := hws
  exact bind (bindAll fun p hp => hws p.2 (List.of_mem_zip hp).2) fun _ _ _ _ _ => ret trivial

/-! ## Fields -/

theorem getFieldRef {binding field : Name} :
    Agree C B n L g m (MachineM.getFieldRef binding field) fun g' e => e.Ready C g' := by
  refine lookupThen fun v _ => ?_
  split
  · exact throwThen rfl
  · exact ret (Fragment.good_of_scalar rfl)

theorem writeField {binding field : Name} (hv : g.Rooted L v) :
    Agree C B n L g m (MachineM.writeField binding field v) fun _ _ => True := by
  refine known fun hm => lookupThen fun target htarget => datumThen fun d hd => ?_
  subst hd
  split
  · rename_i t id
    have hat : g.At t id := Fragment.good_object.1 (hm.scopes.lookup? htarget)
    refine bind (keeping (fun _ => by simpa using hat.isSome) (onStore (StoreM.Agree.protect (P := [])
      (StoreM.Steady.copyWithField hat (.root (by simp)) (hv.mono fun _ hid => by simp [hid])))))
      fun g' copy m' _ hcopy => getThen ?_ fun _ => rfl
    refine (setScopes (fun scopes hs hall => hall.assign (Fragment.good_object.2 hcopy.2) hs)
      fun failure hf => ?_).imp fun _ _ _ _ => trivial
    unfold Scopes.assign at hf
    split at hf
    · cases hf
      rfl
    · split at hf <;> cases hf
      rfl
  · exact fail rfl

theorem isSome_pairNodes {ps : List (Operand × Value)} (hps : ∀ p ∈ ps, p.1.Good g ∧ g.Good p.2) :
    ∀ id ∈ MachineM.pairNodes ps, (g id).isSome = true := by
  simp only [MachineM.pairNodes, List.forall_mem_append, List.mem_filterMap]
  exact ⟨fun id ⟨p, hp, hid⟩ => (hps p hp).1.isSome hid, fun id ⟨p, hp, hid⟩ => (hps p hp).2.isSome hid⟩

/-- What is left to be assigned is held while a field is assigned. -/
theorem writeAll {ps : List (Operand × Value)} (hps : ∀ p ∈ ps, p.1.Good g ∧ g.Good p.2) :
    Agree C B n L g m (MachineM.writeAll ps) fun _ _ => True := by
  induction ps generalizing g m with
  | nil => exact ret trivial
  | cons p ps ih =>
    obtain ⟨⟨-, hp⟩, hps⟩ := List.forall_mem_cons.1 hps
    refine valueThen fun w _ => ?_
    split
    · have hrooted : g.Rooted (p.2.node?.toList ++ MachineM.pairNodes ps ++ L) p.2 :=
        (hp.held fun id hid => by simp [hid]).rooted
      refine bind (keeping (fun _ => List.forall_mem_append.2 ⟨hp.isSome_toList, isSome_pairNodes hps⟩)
        ((writeField hrooted).imp fun g' _ hg _ => hg)) fun g' _ m' _ hg => ih fun q hq => ⟨?_, ?_⟩
      · exact (hps q hq).1.leads hg fun id hid => by
          simp only [MachineM.pairNodes, List.mem_append, List.mem_filterMap]
          exact .inl (.inr (.inl ⟨q, hq, hid⟩))
      · exact hg.good (hps q hq).2 fun id hid => by
          simp only [MachineM.pairNodes, List.mem_append, List.mem_filterMap]
          exact .inl (.inr (.inr ⟨q, hq, hid⟩))
    · exact throwThen rfl

theorem setField {k : Nat} {value : Operand} {targets : List Operand} (hv : value.Good g)
    (htargets : ∀ o ∈ targets, o.Good g) :
    Agree C B n L g m (MachineM.setField k value targets) fun g' e => e.Ready C g' := by
  refine valueThen fun w hw => ?_
  subst hw
  refine bind (destructure hv) fun g' ws m' _ hws => ?_
  obtain ⟨rfl, hws⟩ := hws
  exact bind (writeAll fun p hp => ⟨htargets p.1 (List.of_mem_zip hp).1, hws p.2 (List.of_mem_zip hp).2⟩)
    fun _ _ _ _ _ => ret trivial

/-! ## Closures -/

theorem captureThen {names : List Name} {f : List (Name × Datum) → MachineM α}
    (h : ∀ ps, (∀ p ∈ ps, g.Held (L ++ m.mentions) (.datum p.2)) → Agree C B n L g m (f ps) Q) :
    Agree C B n L g m (MachineM.capture names >>= f) Q := by
  rw [capture_eq, bind_assoc]
  refine known fun hm => getThen (okThen (fun ps hps => h ps fun p hp => ?_) fun failure hf => ?_) fun _ => rfl
  · exact hm.lookup? (lookup?_of_captured hps hp)
  · rw [captured_error hf]
    rfl

theorem links_ofTemplate {label : Name} {t : Template} {ps : List (Name × Datum)} {l : Link}
    (h : l ∈ (Object.lambda { Lambda.ofTemplate label t with
      closure := Std.ExtTreeMap.ofList ps compare }).links) :
    ∃ p ∈ ps, p.2.link? = some l := by
  rw [Object.links, Lambda.ofTemplate, Fields.links_empty, List.append_nil, Fields.mem_links] at h
  obtain ⟨name, d, hd, hl⟩ := h
  exact ⟨(name, d), mem_of_getElem?_ofList hd, hl⟩

theorem makeLambda {label : Name} {t : Template} (ht : Plain C t.body) :
    Agree C B n L g m (MachineM.makeLambda label t) fun g' e => e.Ready C g' := by
  refine captureThen fun ps hps => bind (keeping (fun hm id hid => ?_) (onStore (StoreM.Agree.allocate
    (fun l hl => ?_) fun l hl => ?_))) fun g' id m' _ hid => ?_
  · obtain ⟨p, hp, hid⟩ := List.mem_filterMap.1 hid
    exact (hps p hp).good.isSome hid
  · obtain ⟨p, hp, hl⟩ := links_ofTemplate hl
    obtain ⟨hid, hat⟩ := hps p hp l hl
    exact ⟨.root (by simp only [List.mem_append] at hid ⊢; grind), hat⟩
  · cases hl
    exact ⟨ht, programTethers_eq_nil.2 (plain_iff.1 ht).1⟩
  · have hat : g'.At .lambda id := ⟨_, hid.2.1, rfl⟩
    have hret : ∀ m, Agree C B n L g' m (pure (Effect.value (.object .lambda id))) fun g' e => e.Ready C g' :=
      fun _ => ret (Fragment.good_object.2 hat)
    split
    · refine getThen (modifyFrameThen (fun f hf => ⟨hf.values, fun i hi => ?_⟩) fun _ => hret _) fun _ => rfl
      rcases List.mem_append.1 hi with hi | hi
      · exact hf.parked i hi
      · rwa [List.mem_singleton.1 hi]
    · exact hret _

theorem links_insertMany {l : Lambda} {ps : List (Name × Datum)} {k : Link}
    (h : k ∈ (Object.lambda { l with closure := l.closure.insertMany ps }).links) :
    k ∈ (Object.lambda l).links ∨ ∃ p ∈ ps, p.2.link? = some k := by
  rcases List.mem_append.1 h with h | h
  · obtain ⟨name, d, hd, hk⟩ := Fields.mem_links.1 h
    rcases getElem?_insertMany_cases hd with hd | hd
    · exact .inl (List.mem_append_left _ (Fields.mem_links.2 ⟨name, d, hd, hk⟩))
    · exact .inr ⟨(name, d), hd, hk⟩
  · exact .inl (List.mem_append_right _ h)

theorem complete (hid : g.At .lambda id) :
    Agree C B n L g m (MachineM.complete id) fun _ _ => True := by
  obtain ⟨l, hl⟩ := hid.lambda
  refine bind (onStore (StoreM.Agree.fetch (k := Object.lambdas) hl)) fun g' l' m' _ hl' => ?_
  obtain ⟨rfl, rfl, hlinks, -⟩ := hl'
  refine captureThen fun ps hps => ?_
  split
  · refine onStore ((StoreM.Agree.update (k := Object.lambdas) hl Fragment.not_reach_nil (fun k hk => ?_)
      fun l₁ hl₁ => ?_).imp fun _ _ _ _ => trivial)
    · rcases links_insertMany hk with hk | ⟨p, hp, hk⟩
      · exact hlinks k hk
      · exact (hps p hp).good k hk
    · cases hl₁
      exact ⟨id, l', hl, rfl⟩
  · exact ret trivial

/-- The lambdas that are completed are held, though no scope has them any more. -/
theorem completeAll {ids : List NodeId} (hids : ∀ id ∈ ids, g.At .lambda id) :
    Agree C B n L g m (MachineM.completeAll ids) fun _ _ => True := by
  induction ids generalizing g m with
  | nil => exact ret trivial
  | cons id ids ih =>
    refine bind (keeping (fun _ i hi => (hids i hi).isSome)
      ((complete (hids id (by simp))).imp fun _ _ hg _ => hg)) fun g' _ m' _ hg => ih fun i hi => ?_
    exact hg.holds i (by simp [hi]) _ (hids i (List.mem_cons_of_mem _ hi))

theorem setDependencies : Agree C B n L g m MachineM.setDependencies fun g' e => e.Ready C g' := by
  refine known fun hm => getThen (okThen (fun r hr => ?_) fun failure hf => ?_) fun _ => rfl
  · obtain ⟨ids, s⟩ := r
    obtain ⟨hids, hs⟩ := hm.scopes.takeParked hr
    exact modifyThen (bind (completeAll hids) fun _ _ _ _ _ => ret trivial) (fun hm => hm.withScopes hs)
      rfl fun _ => rfl
  · unfold Scopes.takeParked at hf
    cases hframe : m.scopes.modifyFrame fun f => { f with parked := [] } with
    | ok s => rw [hframe] at hf; cases hf
    | error failure' =>
      rw [hframe] at hf
      cases hf
      exact Scopes.modifyFrame_error hframe

/-! ## Calls -/

theorem calleeFrame {E : Setting} {P : List NodeId} {l : Lambda} {args : List Value}
    (hl : ∀ k ∈ l.closure.links, g.At k.1 k.2) (hargs : ∀ v ∈ args, g.Good v) :
    StoreM.Steady E P L g (MachineM.calleeFrame l args) fun g' f =>
      g' = g ∧ f.All g.Good (g.At .lambda) := by
  refine StoreM.Agree.readThen (StoreM.Agree.mapM (S := fun _ p => g.Good p.2) fun p hp => ?_)
    fun ps hps => StoreM.Agree.ret ⟨rfl, ?_⟩
  · have hd := Std.ExtTreeMap.mem_toList_iff_getElem?_eq_some.1 hp
    refine StoreM.Agree.readThen (S := g.Good) ((StoreM.Agree.load (d := p.2) fun k hk => ?_).imp
      fun g' v _ h => ⟨h.1, ?_⟩) fun v hv => StoreM.Agree.ret ⟨rfl, hv⟩
    · exact hl k (Fields.mem_links.2 ⟨p.1, p.2, hd, hk⟩)
    · obtain ⟨rfl, rfl⟩ := h
      exact fun k hk => hl k (Fields.mem_links.2 ⟨p.1, p.2, hd, hk⟩)
  · refine Frame.All.bindArguments (Frame.All.defineAll .empty fun p hp => ?_) fun p hp => ?_
    · obtain ⟨_, _, hgood⟩ := exists_of_forall₂ hps hp
      exact hgood
    · exact hargs p.2 (List.of_mem_zip hp).2

theorem enter {l : Lambda} {args : List Value} {key : Option String}
    (hl : ∀ k ∈ l.closure.links, g.At k.1 k.2) (hb : Plain C l.body) (hargs : ∀ v ∈ args, g.Good v) :
    Agree C B n L g m (MachineM.enter l args key) fun g' e => e.Ready C g' := by
  have hbody : Agree C B n L g m (MachineM.enterBody l args key) fun g' e => e.Ready C g' := by
    refine bind (onStore (calleeFrame hl hargs)) fun g' f m' _ hf => ?_
    obtain ⟨rfl, hf⟩ := hf
    refine modifyThen (ret fun item hitem => ?_) (fun hm => hm.withScopes (hm.scopes.pushContext ?_)) rfl
      fun _ => rfl
    · rcases List.mem_append.1 hitem with hitem | hitem
      · exact .of_plain (hb item hitem)
      · refine .of_plain ?_
        cases key <;> simp at hitem <;> rcases hitem with rfl | rfl <;>
          exact ⟨rfl, by simp [Item.failures, Op.failures]⟩
    · simpa using hf
  rw [enter_eq]
  refine getThen ?_ fun _ => rfl
  split
  · split
    · exact fail rfl
    · exact hbody
  · exact hbody

theorem answer {callee : NodeId} {l : Lambda} {args : List Value} (hc : g.At .lambda callee)
    (hl : ∀ k ∈ l.closure.links, g.At k.1 k.2) (hb : Plain C l.body) (hargs : ∀ v ∈ args, g.Good v) :
    Agree C B n L g m (MachineM.answer callee l args) fun g' e => e.Ready C g' := by
  have henter : ∀ m key, Agree C B n L g m (MachineM.enter l args key) fun g' e => e.Ready C g' :=
    fun _ _ => enter hl hb hargs
  rw [answer_eq]
  refine known fun hm => getThen ?_ fun _ => rfl
  split
  · rename_i key _
    have hask : ∀ {m' : Machine}, m'.Whole C g → { m' with memo := (m'.memo.ask key).2 }.Whole C g :=
      fun hm => ⟨hm.program, hm.operands, hm.scopes, hm.builders, by rw [Memo.entries_ask]; exact hm.memo⟩
    refine modifyThen ?_ hask rfl fun _ => rfl
    split
    · rename_i v hv
      have hv' : (m.memo.ask key).2.entries[key]? = some v := by rw [Memo.entries_ask, ← Memo.ask_eq, hv]
      have hgood : g.Good v := (hask hm).memo key v hv'
      refine bind (keeping (fun _ => ?_) (onStore (StoreM.Agree.protect (P := []) (StoreM.Steady.copy
        (hgood.held fun id hid => ?_).rooted)))) fun _ _ _ _ hw => ret hw.2
      · exact List.forall_mem_append.2
          ⟨List.forall_mem_cons.2 ⟨hc.isSome, Fragment.isSome_of_good hargs⟩, hgood.isSome_toList⟩
      · have hheld : id ∈ heldByCall callee args v := List.mem_append_right _ (Option.mem_toList.2 hid)
        simp [hheld]
    · exact henter _ _
  · exact henter _ _

theorem invoke {callee : NodeId} {args : List Value} (hc : g.At .lambda callee)
    (hargs : ∀ v ∈ args, g.Good v) :
    Agree C B n L g m (MachineM.invoke callee args) fun g' e => e.Ready C g' := by
  obtain ⟨l, hl⟩ := hc.lambda
  rw [invoke_eq]
  refine bind (onStore (StoreM.Agree.fetch (k := Object.lambdas) hl)) fun g' l' m' _ hl' => ?_
  obtain ⟨rfl, rfl, hlinks, hbody⟩ := hl'
  split
  · exact fail rfl
  · exact answer hc (fun k hk => hlinks k (List.mem_append_left _ hk)) (hbody l' rfl) hargs

theorem getVariable {name : Name} :
    Agree C B n L g m (MachineM.getVariable name) fun g' e => e.Ready C g' := by
  refine known fun hm => lookupThen fun v hv => ?_
  have hgood : g.Good v := hm.scopes.lookup? hv
  split
  · rename_i id
    obtain ⟨l, hl⟩ := (Fragment.good_object.1 hgood).lambda
    refine bind (onStore (StoreM.Agree.fetch (k := Object.lambdas) hl)) fun g' l' m' _ hl' => ?_
    obtain ⟨rfl, rfl, -⟩ := hl'
    split
    · exact invoke (Fragment.good_object.1 hgood) (by simp)
    · exact ret hgood
  · exact ret hgood

theorem call {operands : List Operand} (ho : ∀ o ∈ operands, o.Good g) :
    Agree C B n L g m (MachineM.call operands) fun g' e => e.Ready C g' := by
  refine valuesThen fun vs hvs => ?_
  subst hvs
  have hgood : ∀ v ∈ vs, g.Good v := fun v hv => ho (.value v) (List.mem_map_of_mem hv)
  split
  · exact fail rfl
  · exact invoke (Fragment.good_object.1 (hgood _ (List.mem_cons_self ..))) fun v hv =>
      hgood v (List.mem_cons_of_mem _ hv)
  · exact fail rfl

theorem memoize {key : String} (hv : g.Good v) :
    Agree C B n L g m (MachineM.memoize key v) fun g' e => e.Ready C g' := by
  refine modifyThen (ret hv) (fun hm => ⟨hm.program, hm.operands, hm.scopes, hm.builders, fun key' w hw => ?_⟩)
    rfl fun _ => rfl
  rcases getElem?_insert_cases hw with ⟨_, rfl⟩ | ⟨_, hw⟩
  · exact hv
  · exact hm.memo key' w hw

/-! ## Comprehensions -/

theorem element? {source : Value} {index : Nat} (hv : g.Good source) :
    Agree C B n L g m (MachineM.element? source index) fun g' v? => g' = g ∧ ∀ v, v? = some v → g.Good v := by
  unfold MachineM.element?
  split
  · rename_i id
    refine onStore (StoreM.Agree.readThen (StoreM.Steady.fetchCluster (Fragment.good_object.1 hv))
      fun c hc => ?_)
    dsimp only
    cases hi : c.items[index]? with
    | none => exact StoreM.Agree.ret ⟨rfl, nofun⟩
    | some d =>
      have hd := hc.2 d (List.mem_of_getElem? hi)
      refine StoreM.Agree.readThen (StoreM.Agree.load hd) fun w hw => StoreM.Agree.ret ⟨rfl, fun v hv => ?_⟩
      obtain rfl : w = v := Option.some.inj hv
      exact hw ▸ hd
  · split
    · refine ret ⟨rfl, fun v hv => ?_⟩
      split at hv
      · cases hv
        exact Fragment.good_of_scalar rfl
      · cases hv
    · exact fail rfl
  · exact fail rfl

theorem ready_round {var : Name} {index : Nat} {body : Program} {source element : Value}
    (hb : Plain C body) (hs : g.Good source) (he : g.Good element) :
    ∀ item ∈ MachineM.round var index body source element, item.Ready C g := by
  have hop : ∀ op : Op, op.nodes = [] → op.failures = [] → (Item.op op none).Ready C g := fun op h h' =>
    ⟨h, by simp [Item.failures, h']⟩
  simp only [MachineM.round, List.forall_mem_append, List.forall_mem_cons]
  refine ⟨⟨⟨hop _ rfl rfl, he, ⟨rfl, by simp [Item.failures]⟩, hop _ rfl rfl, by simp⟩,
    fun item hitem => .of_plain (hb item hitem)⟩, hop _ rfl rfl, hs, ?_, by simp⟩
  exact plain_iterate.2 hb

theorem closeCluster : Agree C B n L g m MachineM.closeCluster fun g' e => e.Ready C g' := by
  refine known fun hm => getThen ?_ fun _ => rfl
  split
  · exact fail rfl
  · rename_i builder builders hbuilders
    have hat : ∀ id ∈ builder :: builders, g.At .cluster id := hbuilders ▸ hm.builders
    obtain ⟨hat, hrest⟩ := List.forall_mem_cons.1 hat
    exact modifyThen (ret (Fragment.good_object.2 hat))
      (fun hm => ⟨hm.program, hm.operands, hm.scopes, hrest, hm.memo⟩) rfl fun _ => rfl

theorem schedule {var : Name} {index : Nat} {body : Program} {source : Value} (hb : Plain C body)
    (hs : g.Good source) :
    Agree C B n L g m (MachineM.schedule var index body source) fun g' e => e.Ready C g' := by
  rw [schedule_eq]
  refine bind (element? hs) fun g' v? m' _ hv? => ?_
  obtain ⟨rfl, hv?⟩ := hv?
  split
  · exact ret (ready_round hb hs (hv? _ rfl))
  · exact closeCluster

theorem openCluster {var : Name} {body : Program} {source : Operand} (hb : Plain C body)
    (hs : source.Good g) :
    Agree C B n L g m (MachineM.openCluster var body source) fun g' e => e.Ready C g' := by
  refine valueThen fun v hv => ?_
  subst hv
  have hs' : g.Good v := hs
  have hallocate : Agree C B n (v.node?.toList ++ programNodes body ++ L) g m
      (MachineM.onStore (StoreM.allocate (.cluster {}))) fun g' id => g'.At .cluster id :=
    (onStore (StoreM.Agree.allocate (by simp [Object.links]) (by rintro _ ⟨⟩))).imp fun _ _ _ h => ⟨_, h.2.1, rfl⟩
  refine bind (keeping (fun _ => ?_) (hallocate.imp fun _ _ hg hid => And.intro hg hid))
    fun g' id m' _ h => ?_
  · rw [(plain_iff.1 hb).1, List.append_nil]
    exact hs'.isSome_toList
  · obtain ⟨hg, hid⟩ := h
    refine modifyThen (schedule hb (hg.good hs' fun id hid => by simp [hid])) (fun hm => ⟨hm.program,
      hm.operands, hm.scopes, List.forall_mem_cons.2 ⟨hid, hm.builders⟩, hm.memo⟩) rfl fun _ => rfl

theorem links_concat {c : Cluster} {d : Datum} {l : Link}
    (h : l ∈ (Object.cluster { c with items := c.items ++ [d] }).links) :
    l ∈ (Object.cluster c).links ∨ d.link? = some l := by
  simp only [Object.links, List.filterMap_append, List.mem_append, List.mem_filterMap, List.mem_singleton]
    at h ⊢
  grind

theorem addResult {var : Name} {index : Nat} {body : Program} {result source : Operand} (hb : Plain C body)
    (hr : result.Good g) (hs : source.Good g) :
    Agree C B n L g m (MachineM.addResult var index body result source) fun g' e => e.Ready C g' := by
  refine valueThen fun r hr' => valueThen fun v hv => datumThen fun d hd => ?_
  subst hr' hv hd
  refine known fun hm => getThen ?_ fun _ => rfl
  split
  · exact fail rfl
  · rename_i builder builders hbuilders
    obtain ⟨c, hc⟩ := (hm.builders builder (by simp [hbuilders])).cluster
    refine bind (onStore (StoreM.Agree.known fun hclosed => StoreM.Agree.update (k := Object.clusters) (a := c)
      hc Fragment.not_reach_nil (fun l hl => ?_) (by rintro _ ⟨⟩))) fun g' _ m' _ hg' =>
        schedule hb fun l hl => ?_
    · rcases links_concat hl with hl | hl
      · exact hclosed builder _ hc l hl
      · exact hr l hl
    · subst hg'
      have hs' : g.Good v := hs
      exact (hs' l hl).update hc rfl

/-! ## Scopes -/

theorem popContext : Agree C B n L g m (MachineM.perform .popContext []) fun g' e => e.Ready C g' := by
  refine known fun hm => getThen (okThen (fun r hr => ?_) fun failure hf => ?_) fun _ => rfl
  · obtain ⟨c, s⟩ := r
    exact modifyThen (ret trivial) (fun hm => hm.withScopes (hm.scopes.popContext hr)) rfl fun _ => rfl
  · unfold Scopes.popContext at hf
    split at hf <;> cases hf
    rfl

theorem pushFrame : Agree C B n L g m (MachineM.perform .pushFrame []) fun g' e => e.Ready C g' := by
  refine getThen (setScopesThen (fun s hs hall => hall.pushFrame hs) (fun failure hf => ?_) fun _ => ret trivial)
    fun _ => rfl
  unfold Scopes.pushFrame at hf
  split at hf <;> cases hf
  rfl

theorem popFrame : Agree C B n L g m (MachineM.perform .popFrame []) fun g' e => e.Ready C g' := by
  refine known fun hm => getThen (okThen (fun r hr => ?_) fun failure hf => ?_) fun _ => rfl
  · obtain ⟨f, s⟩ := r
    exact modifyThen (ret trivial) (fun hm => hm.withScopes (hm.scopes.popFrame hr)) rfl fun _ => rfl
  · unfold Scopes.popFrame at hf
    split at hf
    · cases hf
      rfl
    · split at hf <;> cases hf
      rfl

/-! ## All operations -/

theorem perform {op : Op} {line : Option Nat} {args : List Operand} (hop : (Item.op op line).Plain C)
    (ho : ∀ o ∈ args, o.Good g) (hlen : args.length = op.arity) :
    Agree C B n L g m (MachineM.perform op args) fun g' e => e.Ready C g' := by
  cases op with
  | pushContext =>
    refine modifyThen (ret trivial) (fun hm => hm.withScopes (hm.scopes.pushContext ?_)) rfl fun _ => rfl
    simpa using Frame.All.empty
  | popContext =>
    obtain rfl := List.length_eq_zero_iff.1 hlen
    exact popContext
  | pushFrame =>
    obtain rfl := List.length_eq_zero_iff.1 hlen
    exact pushFrame
  | popFrame =>
    obtain rfl := List.length_eq_zero_iff.1 hlen
    exact popFrame
  | setDependencies =>
    obtain rfl := List.length_eq_zero_iff.1 hlen
    exact setDependencies
  | getVariable =>
    obtain ⟨o, rfl⟩ := List.length_eq_one_iff.1 hlen
    exact variableThen fun name => getVariable
  | getFieldRef field =>
    obtain ⟨o, rfl⟩ := List.length_eq_one_iff.1 hlen
    exact variableThen fun name => getFieldRef
  | makeLambda params body free =>
    obtain ⟨o, rfl⟩ := List.length_eq_one_iff.1 hlen
    exact variableThen fun name => makeLambda (t := ⟨params, body, free⟩) (plain_makeLambda.1 hop)
  | getField name =>
    obtain ⟨o, rfl⟩ := List.length_eq_one_iff.1 hlen
    refine valueThen fun v hv => ?_
    subst hv
    have hgood : g.Good v := ho (.value v) (by simp)
    exact bind (keeping (fun _ => hgood.isSome_toList) (onStore (StoreM.Steady.getField hgood)))
      fun _ _ _ _ hw => ret hw
  | branch yes no =>
    obtain ⟨o, rfl⟩ := List.length_eq_one_iff.1 hlen
    refine valueThen fun v _ => okThen (fun b _ => ret fun item hitem => .of_plain ?_) fun failure hf => ?_
    · obtain ⟨hyes, hno⟩ := plain_branch.1 hop
      cases b
      · exact hno item hitem
      · exact hyes item hitem
    · rcases v.toBool_cases with ⟨x, hx⟩ | ⟨got, hx⟩ <;> rw [hx] at hf <;> cases hf
      rfl
  | memoize key =>
    obtain ⟨o, rfl⟩ := List.length_eq_one_iff.1 hlen
    refine valueThen fun v hv => ?_
    subst hv
    exact memoize (ho (.value v) (by simp))
  | assign k =>
    cases args with
    | nil => exact fail rfl
    | cons value targets => exact assign (ho value (by simp))
  | setField k =>
    cases args with
    | nil => exact fail rfl
    | cons value targets => exact setField (ho value (by simp)) fun o ho' => ho o (by simp [ho'])
  | apply f =>
    refine valuesThen fun vs hvs => ?_
    subst hvs
    have hgood : ∀ v ∈ vs, g.Good v := fun v hv => ho (.value v) (List.mem_map_of_mem hv)
    exact bind (keeping (fun _ => Fragment.isSome_of_good hgood) (onStore (StoreM.Agree.protect (P := [])
      (StoreM.Steady.apply (Fragment.rooted_of_good hgood fun id hid => by simp only [List.mem_append]; grind)
        ((List.length_map _).symm.trans hlen))))) fun _ _ _ _ hw => ret hw.2
  | iterate var index body =>
    cases index with
    | zero =>
      obtain ⟨o, rfl⟩ := List.length_eq_one_iff.1 hlen
      exact openCluster (plain_iterate.1 hop) (ho o (by simp))
    | succ index =>
      obtain ⟨r, o, rfl⟩ := List.length_eq_two.1 hlen
      exact addResult (plain_iterate.1 hop) (ho r (by simp)) (ho o (by simp))
  | call k => exact call ho

end MachineM.Agree

end Mosaic
