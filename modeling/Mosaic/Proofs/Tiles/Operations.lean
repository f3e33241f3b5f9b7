import Mosaic.Proofs.Published.Operations
import Mosaic.Proofs.Tiles.Patches

/-!
# Operations keep tiles well formed

Most of what an operation does is known of all its actions (`MachineM.orderly`). An operation that copies needs
to know besides that what it copies was given out before: what a guarded machine refers to is in a region that
its store encloses. So the assignment of a field, the making of a patch and the answer from the memo are looked
at apart, and the operation leaves an orderly store, whether or not it fails (`MachineM.Orders.perform`).
-/

namespace Mosaic

open Mosaic.Graph (NodeId Kind)

open Store

theorem Closed.encloses {P : Program → Prop} {A : NodeId → Prop} {s : Store} (h : Closed P A s) :
    s.Encloses fun id => A id ∧ id < s.pool.next :=
  ⟨fun _ hid => hid.2, fun id e hid he => h.pointers id e hid.1 he⟩

/-! ## Copies that are asked for -/

namespace StoreM

variable {P : Program → Prop} {A : NodeId → Prop} {pins : Pins} {s : Store} {α β : Type} {x : StoreM α}
  {f : α → StoreM β}

theorem Reads.bind_cases {R : Nat → α → Prop} (hr : x.Reads) (hk : Keeps (Closed P A) s.pool.next x R)
    (hc : Closed P A s) : (∃ failure, (x >>= f) pins s = .error failure s) ∨
      ∃ a, R s.pool.next a ∧ (x >>= f) pins s = f a pins s := by
  obtain ⟨g, hg⟩ := hr
  have hq := hk pins s hc (Nat.le_refl _)
  rw [bind_apply, hg]
  rw [hg] at hq
  cases hr : g s with
  | ok a =>
    rw [hr] at hq
    exact .inr ⟨a, hq.2.2, rfl⟩
  | error failure => exact .inl ⟨failure, rfl⟩

/-- A patch is made of tiles of the region, or not at all. -/
theorem patchOf_cases {v : Value} (hc : Closed P A s) (hv : Valid A s.pool.next v) :
    (∃ failure, Primitive.patchOf v pins s = .error failure s) ∨
      ∃ ids, (∀ id ∈ ids, A id ∧ id < s.pool.next) ∧
        Primitive.patchOf v pins s =
          (do return .object .patch (← keeping ids (makePatch ids)) : StoreM Value) pins s := by
  rcases Reads.bind_cases .itemsOf (.itemsOf hv) hc with hfail | ⟨ds, hds, hitems⟩
  · exact .inl hfail
  rcases Reads.bind_cases .tilesOf (.tilesOf hds) hc with ⟨failure, hfail⟩ | ⟨ids, hids, htiles⟩
  · exact .inl ⟨failure, hitems.trans hfail⟩
  · exact .inr ⟨ids, hids, hitems.trans htiles⟩

theorem adopts_of_patchOf {v w : Value} {s' : Store} (hs : s.Orderly) (hc : Closed P A s)
    (hv : Valid A s.pool.next v) (h : Primitive.patchOf v pins s = .ok w s') :
    ∃ id, w = .object .patch id ∧ s'.Adopts id := by
  rcases patchOf_cases hc hv with ⟨failure, hfail⟩ | ⟨ids, hids, hmake⟩
  · rw [hfail] at h
    cases h
  · have hyields : Yields (do return .object .patch (← keeping ids (makePatch ids)) : StoreM Value) pins s
        fun w s' => ∃ id, w = .object .patch id ∧ s'.Adopts id :=
      Yields.bind (Yields.makePatch hs hc.encloses hids) fun id _ h => .ret ⟨id, rfl, h.2⟩
    exact hyields.ok (hmake.symm.trans h)

namespace Orders

theorem patchOf {v : Value} (hs : s.Orderly) (hc : Closed P A s) (hv : Valid A s.pool.next v) :
    Orders (Primitive.patchOf v) pins s := by
  rcases patchOf_cases hc hv with ⟨failure, hfail⟩ | ⟨ids, hids, hmake⟩
  · rw [Orders, hfail]
    exact fun _ => hs
  · rw [Orders, hmake]
    exact Yields.orders (Yields.bind (Yields.keeping (Yields.makePatch hs hc.encloses hids)) fun _ _ h => .ret h.1)

theorem copy {v : Value} (hs : s.Orderly) (hc : Closed P A s) (hv : Valid A s.pool.next v) :
    Orders (StoreM.copy v) pins s := by
  cases v with
  | fieldRef binding field => exact fun _ => hs
  | datum d =>
    cases d with
    | object t id =>
      rw [copy_object]
      have hfree : ∀ (p i : NodeId), A i ∧ i < s.pool.next → ¬ False := fun _ _ _ => not_false
      refine Yields.orders (Yields.bind (Yields.copyObject hs hc.encloses hfree (valid_object.1 hv)) fun j s' h => ?_)
      exact Yields.bind Yields.fetchObject fun _ _ ho => .ret (ho.1 ▸ h.1)
    | _ => exact hs

end Orders

end StoreM

/-! ## Actions of a machine -/

namespace MachineM

/-- The action leaves the store of this machine orderly, also if it fails, unless the graph does. -/
abbrev Orders {α : Type} (x : MachineM α) (m : Machine) : Prop :=
  Action.Ends x m (fun failure m' => failure.cause.isGraph = false → m'.store.Orderly) fun _ m' => m'.store.Orderly

namespace Orders

export Action.Ends (ret getThen modifyThen keeping)

variable {α β : Type} {x : MachineM α} {f : α → MachineM β} {m : Machine}

theorem fail {cause : Cause} (hs : m.store.Orderly) : Orders (MachineM.fail cause : MachineM α) m :=
  Action.Ends.fail fun _ => hs

theorem bind (hx : Orders x m) (hf : ∀ pins a m', x pins m = .ok a m' → m'.store.Orderly → Orders (f a) m') :
    Orders (x >>= f) m := by
  intro pins
  refine Outcome.bind (Q := fun a m' => x pins m = .ok a m' ∧ m'.store.Orderly) ?_ fun a m' h =>
    hf pins a m' h.1 h.2 pins
  exact .intro (fun a m' hr => ⟨hr, hx.ok hr⟩) fun failure m' hr => hx.error hr

theorem okThen {y : Except Failure α} (hs : m.store.Orderly) (hf : ∀ a, y = .ok a → Orders (f a) m) :
    Orders (MachineM.ofExcept y >>= f) m :=
  Action.Ends.okThen hf fun _ _ _ => hs

theorem setScopes {y : Except Failure Scopes} (hs : m.store.Orderly) : Orders (MachineM.setScopes y) m :=
  Action.Ends.setScopes (fun _ _ => hs) fun _ _ _ => hs

theorem lookupThen {name : Name} {f : Value → MachineM β} (hs : m.store.Orderly)
    (hf : ∀ v, m.scopes.lookup? name = some v → Orders (f v) m) : Orders (MachineM.lookup name >>= f) m :=
  Action.Ends.lookupThen hf fun _ _ => hs

theorem onStore {x : StoreM α} (hx : ∀ pins, StoreM.Orders x pins m.store) : Orders (MachineM.onStore x) m :=
  Action.Ends.onStore fun _ => hx _

theorem readThen {x : StoreM α} (hr : x.Reads) (hs : m.store.Orderly) (hf : ∀ a, Orders (f a) m) :
    Orders (MachineM.onStore x >>= f) m := by
  obtain ⟨g, hg⟩ := hr
  intro pins
  rw [bind_apply, onStore_apply, hg]
  cases g m.store with
  | ok a => exact hf a pins
  | error failure => exact fun _ => hs

end Orders

/-- Whatever the scopes are, the bodies of the lambdas that are made are code. -/
def orderly : MachineM.Logic True where
  toRules := .ensuring (fun m => m.store.Orderly) (fun failure m => failure.cause.isGraph = false → m.store.Orderly)
    fun _ _ _ hs _ => hs
  store := StoreM.orderly
  Proper _ := True
  onStore hx := hx.onStore (fun _ hs => hs) (fun _ _ _ hs => hs) fun _ _ _ _ hf => hf
  scopes _ := trivial
  withScopes hs _ := hs
  withBuilders _ hs := hs
  ask _ hs := hs
  define _ _ := trivial
  assign _ _ := trivial
  park _ _ _ _ _ _ := trivial
  takeParked _ _ := trivial
  pushContext _ _ := trivial

namespace Orders

variable {n₀ : Nat} {A : NodeId → Prop} {s₀ : Store} {m : Machine}

/-! ## Operations that copy -/

/-- The object that a name is bound to is in the region. -/
theorem writeField {binding field : Name} {v : Value} (hm : Guarded n₀ A s₀ m) (hs : m.store.Orderly) :
    Orders (MachineM.writeField binding field v) m := by
  refine lookupThen hs fun target htarget => okThen hs fun d _ => ?_
  split
  · rename_i t id
    have hid := valid_object.1 (hm.scopes.lookup? htarget)
    refine bind (keeping (onStore fun pins => ?_)) fun _ copy m' _ hs' => getThen (setScopes hs')
    exact (StoreM.Yields.copyWithField hs hm.store.closed.encloses hid).orders
  · exact fail hs

/-- After each assignment the machine is still guarded. -/
theorem writeAll {ps : List (Operand × Value)} (hm : Guarded n₀ A s₀ m) (hs : m.store.Orderly)
    (hps : ∀ p ∈ ps, Valid A m.next p.2) : Orders (MachineM.writeAll ps) m := by
  induction ps generalizing m with
  | nil => exact ret hs
  | cons p ps ih =>
    refine okThen hs fun target _ => ?_
    split
    · refine bind (keeping (writeField hm hs)) fun pins _ m' hr hs' => ?_
      obtain ⟨hm', hstill, -⟩ := (Guards.writeField (hps p (by simp)) hm).ok hr
      exact ih hm' hs' fun q hq => (hps q (by simp [hq])).mono hstill.next
    · exact fun _ _ => hs

theorem setField {n : Nat} {value : Operand} {targets : List Operand} (hm : Guarded n₀ A s₀ m)
    (hs : m.store.Orderly) (hv : Within A m.next value.node?.toList) :
    Orders (MachineM.setField n value targets) m := by
  refine okThen hs fun w hw => bind ((MachineM.orderly.destructure w n).keeps hs) fun pins ws m' hr hs' => ?_
  have hw' : Valid A m.next w := by
    cases value <;> cases hw
    exact hv
  obtain ⟨hm', -, hws⟩ := (Guards.destructure hw' hm).ok hr
  exact bind (writeAll hm' hs' fun p hp => hws p.2 (List.of_mem_zip hp).2) fun _ _ _ _ hs'' => ret hs''

theorem answer {callee : NodeId} {l : Lambda} {args : List Value} (hm : Guarded n₀ A s₀ m) (hs : m.store.Orderly) :
    Orders (MachineM.answer callee l args) m := by
  rw [answer_eq]
  refine getThen ?_
  split
  · rename_i key _
    refine modifyThen ?_
    split
    · rename_i v hv
      obtain ⟨hasked, hvalid⟩ := hm.ask key
      exact bind (keeping (onStore fun pins => .copy hs hasked.store.closed (hvalid v hv))) fun _ _ _ _ hs' => ret hs'
    · exact (MachineM.orderly.enter l args (some key)).keeps hs
  · exact (MachineM.orderly.enter l args none).keeps hs

theorem invoke {callee : NodeId} {args : List Value} (hm : Guarded n₀ A s₀ m) (hs : m.store.Orderly) :
    Orders (MachineM.invoke callee args) m := by
  rw [invoke_eq]
  refine readThen .fetch hs fun l => ?_
  split
  · exact fail hs
  · exact answer hm hs

theorem getVariable {name : Name} (hm : Guarded n₀ A s₀ m) (hs : m.store.Orderly) :
    Orders (MachineM.getVariable name) m := by
  refine lookupThen hs fun v _ => ?_
  split
  · refine readThen .fetch hs fun l => ?_
    split
    · exact invoke hm hs
    · exact ret hs
  · exact ret hs

theorem call {operands : List Operand} (hm : Guarded n₀ A s₀ m) (hs : m.store.Orderly) :
    Orders (MachineM.call operands) m := by
  refine okThen hs fun vs _ => ?_
  split
  · exact fail hs
  · exact invoke hm hs
  · exact fail hs

theorem applyPatch {operands : List Operand} (hm : Guarded n₀ A s₀ m) (hs : m.store.Orderly)
    (hoperands : ∀ o ∈ operands, Within A m.next o.node?.toList) :
    Orders (MachineM.perform (.apply .patch) operands) m := by
  refine okThen hs fun vs hvs => bind (keeping (onStore fun pins => ?_)) fun _ _ _ _ hs' => ret hs'
  obtain rfl := eq_map_of_mapM_toValue hvs
  rcases vs with _ | ⟨v, _ | _⟩
  · exact fun _ => hs
  · exact .patchOf hs hm.store.closed (hoperands (.value v) (by simp))
  · exact fun _ => hs

theorem performCopying {op : Op} {args : List Operand} (hop : op.MayCopy) (hm : Guarded n₀ A s₀ m)
    (hs : m.store.Orderly) (hargs : ∀ o ∈ args, Within A m.next o.node?.toList) :
    Orders (MachineM.perform op args) m := by
  cases op with
  | getVariable =>
    rcases args with _ | ⟨o, _ | _⟩
    · exact fail hs
    · exact okThen hs fun _ _ => getVariable hm hs
    · exact fail hs
  | call n => exact call hm hs
  | setField n =>
    cases args with
    | nil => exact fail hs
    | cons value targets => exact setField hm hs (hargs value (by simp))
  | apply f =>
    cases f with
    | patch => exact applyPatch hm hs hargs
    | _ => exact hop.elim
  | _ => exact hop.elim

theorem perform {op : Op} {args : List Operand} (hm : Guarded n₀ A s₀ m) (hs : m.store.Orderly) (hop : op.Sound)
    (hargs : ∀ o ∈ args, Within A m.next o.node?.toList) : Orders (MachineM.perform op args) m := by
  by_cases hshift : op.Shifts ∧ ¬ op.Calls ∨ ∃ key, op = .memoize key
  · exact (MachineM.orderly.performShift (fun _ => trivial) (fun _ _ hs => hs) hshift args).keeps hs
  by_cases hcopies : op.MayCopy
  · exact performCopying hcopies hm hs hargs
  · refine (MachineM.orderly.perform (fun hs => by_contra fun hc => hshift (.inl ⟨hs, hc⟩))
      (fun key hkey => hshift (.inr ⟨key, hkey⟩)) (fun _ => trivial) (fun h => (hcopies h).elim) ?_ args).keeps hs
    rintro params body free rfl
    exact hop

end Orders

theorem adopts_of_applyPatch {n₀ : Nat} {A : NodeId → Prop} {s₀ : Store} {m m' : Machine} {operands : List Operand}
    {pins : Pins} {e : Effect} (hm : Guarded n₀ A s₀ m) (hs : m.store.Orderly)
    (hoperands : ∀ o ∈ operands, Within A m.next o.node?.toList)
    (h : MachineM.perform (.apply .patch) operands pins m = .ok e m') :
    ∃ id, e = .value (.object .patch id) ∧ m'.store.Adopts id := by
  obtain ⟨vs, m₁, hvs, hpatch⟩ := exists_of_bind_ok h
  obtain ⟨hmap, rfl⟩ := eq_of_ofExcept_ok hvs
  obtain rfl := eq_map_of_mapM_toValue hmap
  obtain ⟨w, m₂, hw, hvalue⟩ := exists_of_bind_ok hpatch
  cases hvalue
  obtain ⟨s, hs', rfl⟩ := exists_of_onStore_ok hw
  rcases vs with _ | ⟨v, _ | _⟩
  · cases hs'
  · obtain ⟨id, rfl, hadopts⟩ :=
      StoreM.adopts_of_patchOf hs hm.store.closed (hoperands (.value v) (by simp)) hs'
    exact ⟨id, rfl, hadopts⟩
  · cases hs'

end MachineM

end Mosaic
