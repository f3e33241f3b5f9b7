import Mosaic.Proofs.Balance.Operations
import Mosaic.Proofs.Published.Actions

/-!
# What most operations guard

Field assignment, patches and calls that are answered from the memo change copies only, so these
operations leave every node as it was. The rounds of comprehensions and the completion of closures are
treated apart.
-/

namespace Mosaic.MachineM.Guards

open Mosaic.Graph (NodeId Node)

variable {n₀ : Nat} {A : NodeId → Prop} {s₀ : Store} {m : Machine} {α : Type}

/-! ## Binding -/

theorem modifyFrame {g : Frame → Frame} (hg : ∀ f,
    f.All (Valid A m.next) (fun id => A id ∧ id < m.next) →
      (g f).All (Valid A m.next) fun id => A id ∧ id < m.next) :
    Guards n₀ A s₀ m (MachineM.setScopes (m.scopes.modifyFrame g)) fun _ _ => True :=
  setScopes fun _ hs hm => hm.scopes.modifyFrame hs hg

theorem destructure {v : Value} {n : Nat} (hv : Valid A m.next v) :
    Guards n₀ A s₀ m (MachineM.destructure v n) fun n' vs => ∀ w ∈ vs, Valid A n' w := by
  unfold MachineM.destructure
  split
  · exact ret (by simpa using hv)
  · split
    · rename_i id
      have hR : ∀ n n' (v : Value), n ≤ n' → Valid A n v → Valid A n' v := fun _ _ _ hn hv => hv.mono hn
      refine onRead (.bind .fetch fun c => ?_)
        (.bind (StoreM.Keeps.fetchCluster (valid_object.1 hv).1) fun n₁ h₁ c hc => ?_)
      · dsimp only
        split
        · exact .bind .fail fun _ => .mapM fun _ _ => .load
        · exact .mapM fun _ _ => .load
      · dsimp only
        split
        · exact StoreM.Keeps.failThen rfl
        · exact .mapM hR fun d hd n' hn => StoreM.Keeps.load ((hc d hd).mono hn)
    · exact fail

theorem bindAll {ps : List (Operand × Value)} (hv : ∀ p ∈ ps, Valid A m.next p.2) :
    Guards n₀ A s₀ m (MachineM.bindAll ps) fun _ _ => True := by
  induction ps generalizing m with
  | nil => exact ret trivial
  | cons p ps ih =>
    obtain ⟨target, v⟩ := p
    refine okThen fun name _ => getThen (bind (modifyFrame fun f hf => hf.define ?_) fun _ m' hn _ => ?_)
    · exact hv (target, v) (by simp)
    · exact ih fun p hp => (hv p (by simp [hp])).mono hn

theorem assign {n : Nat} {v : Operand} {targets : List Operand} (hv : Within A m.next v.node?.toList) :
    Guards n₀ A s₀ m (MachineM.assign n v targets) fun n' e => e.Clear n₀ A n' :=
  valueThen hv fun _ _ hw => bind (destructure hw) fun _ _ _ hws =>
    bind (bindAll fun p hp => hws p.2 (List.of_mem_zip hp).2) fun _ _ _ _ => ret trivial

/-! ## Fields -/

theorem getFieldRef {binding field : Name} :
    Guards n₀ A s₀ m (MachineM.getFieldRef binding field) fun n' e => e.Clear n₀ A n' := by
  refine lookupThen fun v _ => ?_
  split
  · exact fun hm _ => hm
  · exact ret (by simp [Effect.Clear, Valid, Value.node?])

theorem writeField {binding field : Name} {v : Value} (hv : Valid A m.next v) :
    Guards n₀ A s₀ m (MachineM.writeField binding field v) fun _ _ => True := by
  refine lookupThen fun target htarget => okThen fun d hd => ?_
  rw [Value.eq_of_toDatum hd] at hv
  split
  · rename_i t id
    refine bind (keeping (onStore (.copyWithField (old_nil n₀) htarget hv))) fun copy m' _ hc => getThen ?_
    exact setScopes fun s hs hm => hm.scopes.assign (v := .object t copy) hc hs
  · exact fail

theorem writeAll {ps : List (Operand × Value)} (hv : ∀ p ∈ ps, Valid A m.next p.2) :
    Guards n₀ A s₀ m (MachineM.writeAll ps) fun _ _ => True := by
  induction ps generalizing m with
  | nil => exact ret trivial
  | cons p ps ih =>
    obtain ⟨target, v⟩ := p
    refine okThen fun w _ => ?_
    split
    · refine bind (keeping (writeField (hv (target, v) (by simp)))) fun _ m' hn _ => ?_
      exact ih fun p hp => (hv p (by simp [hp])).mono hn
    · exact fun hm _ => hm

theorem setField {n : Nat} {v : Operand} {targets : List Operand} (hv : Within A m.next v.node?.toList) :
    Guards n₀ A s₀ m (MachineM.setField n v targets) fun n' e => e.Clear n₀ A n' :=
  valueThen hv fun _ _ hw => bind (destructure hw) fun _ _ _ hws =>
    bind (writeAll fun p hp => hws p.2 (List.of_mem_zip hp).2) fun _ _ _ _ => ret trivial

/-! ## Lambdas -/

theorem captureThen {names : List Name} {f : List (Name × Datum) → MachineM α} {Q : Nat → α → Prop}
    (h : ∀ ps, (∀ p ∈ ps, Valid A m.next (.datum p.2)) → Guards n₀ A s₀ m (f ps) Q) :
    Guards n₀ A s₀ m (MachineM.capture names >>= f) Q := by
  rw [capture_eq, bind_assoc]
  refine known fun hm => getThen (okThen fun ps hps => h ps fun p hp => ?_)
  exact hm.scopes.lookup? (lookup?_of_captured hps hp)

theorem makeLambda {label : Name} {t : Template} (ht : Old n₀ t.body) :
    Guards n₀ A s₀ m (MachineM.makeLambda label t) fun n' e => e.Clear n₀ A n' := by
  refine captureThen fun ps hps => ?_
  refine bind (keeping (onStore (.allocate ?_ ?_))) fun id m' _ hid => ?_
  · simp only [Object.pointers, Lambda.ofTemplate, Fields.pointers_empty, List.append_nil]
    exact Within.fields.2 fun name d hd => hps (name, d) (mem_of_getElem?_ofList hd)
  · rintro l hl
    cases hl
    exact ht
  · have hid' : Within A m'.next [id] := hid.imp fun _ hi => hi.1
    split
    · refine getThen (bind (modifyFrame fun f hf => ⟨hf.values, fun i hi => ?_⟩) fun _ m'' hn _ =>
        ret (hid'.mono hn))
      rcases List.mem_append.1 hi with hi | hi
      · exact hf.parked i hi
      · rw [List.mem_singleton.1 hi]
        exact (Within.cons.1 hid').1
    · exact ret hid'

/-! ## Calls -/

theorem calleeFrame {n : Nat} {l : Lambda} {args : List Value} (hl : Within A n l.closure.pointers)
    (hargs : ∀ v ∈ args, Valid A n v) :
    StoreM.Spares (Old n₀) A s₀ n (MachineM.calleeFrame l args) fun n' f =>
      f.All (Valid A n') fun id => A id ∧ id < n' := by
  have hR : ∀ n n' (p : Name × Value), n ≤ n' → Valid A n p.2 → Valid A n' p.2 :=
    fun _ _ _ hn hv => hv.mono hn
  refine .bind (StoreM.Spares.reads (.mapM fun p _ => .bind .load fun _ => .ret) (.mapM hR fun p hp n' hn => ?_))
    fun n₁ h₁ ps hps => .ret fun n₂ h₂ => ?_
  · have hd := Within.fields.1 hl p.1 p.2 (Std.ExtTreeMap.mem_toList_iff_getElem?_eq_some.1 hp)
    exact .bind (StoreM.Keeps.load (hd.mono hn)) fun _ _ _ hv => .ret fun _ hn' => hv.mono hn'
  · refine Frame.All.bindArguments (Frame.All.defineAll .empty fun p hp => (hps p hp).mono h₂)
      fun p hp => ?_
    exact (hargs p.2 (List.of_mem_zip hp).2).mono (Nat.le_trans h₁ h₂)

theorem enter {l : Lambda} {args : List Value} {key : Option String}
    (hl : Within A m.next l.closure.pointers) (hb : Old n₀ l.body) (hargs : ∀ v ∈ args, Valid A m.next v) :
    Guards n₀ A s₀ m (MachineM.enter l args key) fun n' e => e.Clear n₀ A n' := by
  have hbody : Guards n₀ A s₀ m (MachineM.enterBody l args key) fun n' e => e.Clear n₀ A n' := by
    refine bind (onStore (calleeFrame hl hargs)) fun f m' _ hf => ?_
    refine known fun hm => modifyThen (fun hm => hm.withScopes (hm.scopes.pushContext (by simpa using hf)))
      ⟨⟨rfl, rfl, rfl, Nat.le_refl _⟩, rfl⟩ (ret fun item hitem => ?_)
    rcases List.mem_append.1 hitem with hitem | hitem
    · exact hb.clear hm.early hm.base_le item hitem
    · rcases List.mem_cons.1 hitem with rfl | hitem
      · simp [Item.Clear, Op.nodes]
      · cases key with
        | none => cases hitem
        | some key => rw [List.mem_singleton.1 hitem]; simp [Item.Clear, Op.nodes]
  rw [enter_eq]
  refine getThen ?_
  split
  · split
    · exact fail
    · exact hbody
  · exact hbody

theorem answer {callee : NodeId} {l : Lambda} {args : List Value}
    (hl : Within A m.next l.closure.pointers) (hb : Old n₀ l.body) (hargs : ∀ v ∈ args, Valid A m.next v) :
    Guards n₀ A s₀ m (MachineM.answer callee l args) fun n' e => e.Clear n₀ A n' := by
  rw [answer_eq]
  refine getThen ?_
  split
  · rename_i key _
    refine known fun hm => modifyThen (fun hm => (hm.ask key).1) ⟨⟨rfl, rfl, rfl, Nat.le_refl _⟩, rfl⟩ ?_
    split
    · rename_i v hv
      exact bind (keeping (onStore (.copy (old_nil n₀) ((hm.ask key).2 v hv)))) fun w m' _ hw => ret hw
    · exact enter hl hb hargs
  · exact enter hl hb hargs

/-- A lambda in the region has a closure in the region and an old body. -/
theorem fetchLambdaThen {id : NodeId} {f : Lambda → MachineM α} {Q : Nat → α → Prop} (hid : A id)
    (h : ∀ l m', m.next ≤ m'.next → Within A m'.next l.closure.pointers → Old n₀ l.body →
      Guards n₀ A s₀ m' (f l) Q) :
    Guards n₀ A s₀ m (MachineM.onStore (StoreM.fetch Object.lambdas id) >>= f) Q :=
  bind (onRead .fetch (.fetch hid)) fun l m' hn hl =>
    h l m' hn (Within.append.1 hl.1).1 (hl.2 (nomatch ·) l rfl)

theorem invoke {callee : NodeId} {args : List Value} (hc : A callee)
    (hargs : ∀ v ∈ args, Valid A m.next v) :
    Guards n₀ A s₀ m (MachineM.invoke callee args) fun n' e => e.Clear n₀ A n' := by
  rw [invoke_eq]
  refine fetchLambdaThen hc fun l m' hn hl hb => ?_
  split
  · exact fail
  · exact answer hl hb fun v hv => (hargs v hv).mono hn

theorem getVariable {name : Name} :
    Guards n₀ A s₀ m (MachineM.getVariable name) fun n' e => e.Clear n₀ A n' := by
  refine lookupThen fun v hv => ?_
  split
  · refine fetchLambdaThen (valid_object.1 hv).1 fun l m' hn _ _ => ?_
    split
    · exact invoke (valid_object.1 hv).1 (by simp)
    · exact ret (hv.mono hn)
  · exact ret hv

theorem call {operands : List Operand} (ho : ∀ o ∈ operands, Within A m.next o.node?.toList) :
    Guards n₀ A s₀ m (MachineM.call operands) fun n' e => e.Clear n₀ A n' := by
  refine valuesThen ho fun vs _ hvs => ?_
  split
  · exact fail
  · rename_i id args _
    exact invoke (valid_object.1 (hvs (.object .lambda id) (by simp))).1 fun v hv => hvs v (by simp [hv])
  · exact fail

theorem memoize {key : String} {v : Value} (hv : Valid A m.next v) :
    Guards n₀ A s₀ m (MachineM.memoize key v) fun n' e => e.Clear n₀ A n' := by
  refine modifyThen (fun hm => ⟨hm.store, hm.scopes, fun k w hw => ?_, hm.base, hm.early⟩)
    ⟨⟨rfl, rfl, rfl, Nat.le_refl _⟩, rfl⟩ (ret hv)
  rcases getElem?_insert_cases hw with ⟨_, rfl⟩ | ⟨_, hw⟩
  · exact hv
  · exact hm.memo k w hw

/-! ## All of them -/

/-- The operation writes into no node that is there: it is no round of a comprehension, and completes no
closures. -/
def Steady : Op → Prop
  | .iterate .. | .setDependencies => False
  | _ => True

theorem popContext : Guards n₀ A s₀ m (MachineM.perform .popContext []) fun n' e => e.Clear n₀ A n' := by
  exact getThen (okThen fun r hr => modifyThen (fun hm => hm.withScopes (hm.scopes.popContext hr))
    ⟨⟨rfl, rfl, rfl, Nat.le_refl _⟩, rfl⟩ (ret trivial))

theorem pushFrame : Guards n₀ A s₀ m (MachineM.perform .pushFrame []) fun n' e => e.Clear n₀ A n' := by
  exact getThen (bind (setScopes fun s hs hm => hm.scopes.pushFrame hs) fun _ _ _ _ => ret trivial)

theorem popFrame : Guards n₀ A s₀ m (MachineM.perform .popFrame []) fun n' e => e.Clear n₀ A n' := by
  exact getThen (okThen fun r hr => modifyThen (fun hm => hm.withScopes (hm.scopes.popFrame hr))
    ⟨⟨rfl, rfl, rfl, Nat.le_refl _⟩, rfl⟩ (ret trivial))

/-- What a steady operation does with as many operands as it takes, of whatever kinds they are. -/
theorem perform {op : Op} {args : List Operand} (hop : Steady op) (hnodes : ∀ id ∈ op.nodes, id < n₀)
    (hlen : args.length = op.arity) (hargs : ∀ o ∈ args, Within A m.next o.node?.toList) :
    Guards n₀ A s₀ m (MachineM.perform op args) fun n' e => e.Clear n₀ A n' := by
  cases op with
  | iterate var index body => exact hop.elim
  | setDependencies => exact hop.elim
  | pushContext =>
    exact modifyThen (fun hm => hm.withScopes (hm.scopes.pushContext (by simpa using .empty)))
      ⟨⟨rfl, rfl, rfl, Nat.le_refl _⟩, rfl⟩ (ret trivial)
  | popContext =>
    obtain rfl := List.length_eq_zero_iff.1 hlen
    exact popContext
  | pushFrame =>
    obtain rfl := List.length_eq_zero_iff.1 hlen
    exact pushFrame
  | popFrame =>
    obtain rfl := List.length_eq_zero_iff.1 hlen
    exact popFrame
  | getVariable =>
    obtain ⟨o, rfl⟩ := List.length_eq_one_iff.1 hlen
    exact okThen fun name _ => getVariable
  | getFieldRef field =>
    obtain ⟨o, rfl⟩ := List.length_eq_one_iff.1 hlen
    exact okThen fun name _ => getFieldRef
  | makeLambda params body free =>
    obtain ⟨o, rfl⟩ := List.length_eq_one_iff.1 hlen
    exact okThen fun name _ => makeLambda (t := ⟨params, body, free⟩) hnodes
  | getField name =>
    obtain ⟨o, rfl⟩ := List.length_eq_one_iff.1 hlen
    exact valueThen (hargs o (by simp)) fun v _ hv => bind (keeping (onStore (.getField hv))) fun _ _ _ hw => ret hw
  | branch yes no =>
    obtain ⟨o, rfl⟩ := List.length_eq_one_iff.1 hlen
    refine known fun hm => valueThen (hargs o (by simp)) fun v _ _ => okThen fun b _ => ret ?_
    have hold : Old n₀ (if b then yes else no) := by
      cases b
      · exact fun id hid => hnodes id (List.mem_append_right _ hid)
      · exact fun id hid => hnodes id (List.mem_append_left _ hid)
    exact hold.clear hm.early hm.base_le
  | memoize key =>
    obtain ⟨o, rfl⟩ := List.length_eq_one_iff.1 hlen
    exact valueThen (hargs o (by simp)) fun v _ hv => memoize hv
  | assign n =>
    cases args with
    | nil => exact fail
    | cons v targets => exact assign (hargs v (by simp))
  | setField n =>
    cases args with
    | nil => exact fail
    | cons v targets => exact setField (hargs v (by simp))
  | apply f =>
    refine valuesThen hargs fun vs hvs hvalid => ?_
    rw [hvs, List.length_map] at hlen
    exact bind (keeping (onStore (.apply (old_nil n₀) hvalid hlen))) fun _ _ _ hw => ret hw
  | call n => exact call hargs

end Mosaic.MachineM.Guards
