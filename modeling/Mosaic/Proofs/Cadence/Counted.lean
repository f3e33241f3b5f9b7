import Mathlib.Order.Interval.Finset.Nat
import Mosaic.Proofs.Cadence.Logic
import Mosaic.Proofs.Composed
import Mosaic.Proofs.Graph.Collect
import Mosaic.Session

/-!
# Copies take addresses

`StoreM.Counts x size n`: the action gives out an address for each by which `size` of its result exceeds
`n`, and fails only if an address does. Where `size` is the number of copies, this says that copying gives
out no address but those of copies, and has no way to fail of its own (`CopyM.Counted.copyNode`).
-/

namespace Mosaic

open Mosaic.Graph (NodeId Node Kind Pool Heap)

namespace StoreM

/-- One address for each by which the size of the result exceeds `n`. -/
def Counts {α : Type} (x : StoreM α) (size : α → Nat) (n : Nat) : Prop :=
  ∀ (pins : Pins) (s : Store), Outcome (x pins s) (fun failure _ => failure.cause.isGraph = true)
    fun a s' => size a + s.pool.next = n + s'.pool.next

namespace Counts

variable {α β : Type} {x : StoreM α} {size : α → Nat} {size' : β → Nat} {n : Nat} {k : Kind Object α}
  {id : NodeId} {t : ObjectType} {o : Object}

theorem ret {a : α} (h : size a = n) : Counts (pure a) size n := fun _ _ => h ▸ rfl

theorem bind {f : α → StoreM β} (hx : Counts x size n) (hf : ∀ a, Counts (f a) size' (size a)) :
    Counts (x >>= f) size' n := by
  refine fun pins s => (hx pins s).bind fun a s₁ h₁ => ?_
  exact (hf a pins s₁).imp (fun _ _ hgraph => hgraph) fun b s₂ h₂ => by omega

theorem fetchObject : Counts (StoreM.fetchObject t id) (fun _ => n) n := by
  intro pins s
  rw [fetchObject_apply]
  cases s.pool.get (Object.ofType t) id <;> rfl

theorem load {d : Datum} : Counts (StoreM.load d) (fun _ => n) n := by
  cases d with
  | object t id => exact bind fetchObject fun _ => ret rfl
  | _ => exact ret rfl

theorem update {f : α → α} : Counts (StoreM.update k id f) (fun _ => n) n := by
  intro pins s
  rw [update_apply]
  cases hu : s.pool.update k id f with
  | error fault => rfl
  | ok p =>
    obtain ⟨e, a, _, _, rfl⟩ := Pool.update_eq_ok hu
    rfl

theorem allocate : Counts (StoreM.allocate o) (fun _ => n + 1) n := by
  intro pins s
  rw [allocate_apply]
  cases ha : s.allocate (pinsFor o s pins) o with
  | error fault => rfl
  | ok r =>
    obtain ⟨s₁, hc, hid, hs'⟩ := Heap.allocate_eq_ok ha
    obtain ⟨hn, -⟩ := Heap.collectIfDue_sub hc
    have hnext : r.2.pool.next = s.pool.next + 1 := by rw [hs', ← hn]; rfl
    show n + 1 + s.pool.next = n + r.2.pool.next
    rw [hnext, Nat.add_right_comm, Nat.add_assoc]

theorem keeping {ids : List NodeId} (hx : Counts x size n) : Counts (StoreM.keeping ids x) size n :=
  fun pins s => hx (pins.also fun _ => ids) s

end Counts

end StoreM

theorem Session.copyAll_cons_run {v : Value} {vs : List Value} {cs : Copies} :
    (Session.copyAll (v :: vs)).run cs = (do
      let (copy, cs₁) ← (CopyM.copyValue v).run cs
      let (rs, cs₂) ← (Session.copyAll vs).run cs₁
      return ((copy, cs₁.size) :: rs, cs₂)) := by
  rw [Session.copyAll, StateT.run_bind]
  rfl

namespace CopyM

/-- Each new copy takes one address, and only an address can fail. -/
def Counted {α : Type} (x : CopyM α) : Prop :=
  ∀ cs, StoreM.Counts (x.run cs) (fun r => r.2.size) cs.size

namespace Counted

variable {α β : Type} {x : CopyM α}

theorem ret {a : α} : Counted (pure a) := fun _ => StoreM.Counts.ret rfl

theorem bind {f : α → CopyM β} (hx : Counted x) (hf : ∀ a, Counted (f a)) : Counted (x >>= f) := by
  intro cs
  rw [StateT.run_bind]
  exact (hx cs).bind fun r => hf r.1 r.2

theorem renameNodes {f : ObjectType → NodeId → CopyM NodeId} (hf : ∀ t id, Counted (f t id)) (o : Object) :
    Counted (o.renameNodes f) :=
  Composable.renameNodes (C := ⟨Counted, ret, bind⟩) fun t id _ => hf t id

theorem copyNode (depth : Nat) (t : ObjectType) (id : NodeId) : Counted (CopyM.copyNode depth t id) := by
  induction depth generalizing t id with
  | zero => exact fun _ _ _ => rfl
  | succ depth ih =>
    intro cs
    cases hci : cs[id]? with
    | some copy =>
      rw [copyNode_run_of_some hci]
      exact StoreM.Counts.fetchObject.bind fun _ => StoreM.Counts.ret rfl
    | none =>
      rw [copyNode_run_of_none hci]
      refine StoreM.Counts.allocate.keeping.bind fun copy => ?_
      have hsize : (cs.insert id copy).size = cs.size + 1 := by
        rw [Std.ExtTreeMap.size_insert, if_neg]
        intro hmem
        rw [Std.ExtTreeMap.contains_eq_isSome_getElem?, hci] at hmem
        cases hmem
      have hparts : StoreM.Counts (CopyM.copyParts depth t id (cs.insert id copy))
          (fun r => r.2.size) (cs.size + 1) :=
        hsize ▸ StoreM.Counts.fetchObject.bind fun o => renameNodes ih o _
      exact hparts.bind fun r => StoreM.Counts.update.bind fun _ => StoreM.Counts.ret rfl

theorem copyObject (t : ObjectType) (id : NodeId) : Counted (CopyM.copyObject t id) := by
  intro cs pins s
  rw [copyObject_run]
  exact copyNode (s.pool.size + 1) t id cs pins s

theorem copyValue {d : Datum} : Counted (CopyM.copyValue (.datum d)) := by
  cases d with
  | object t id =>
    intro cs
    rw [copyValue_run]
    exact (copyObject t id cs).bind fun r => StoreM.Counts.load.bind fun _ => StoreM.Counts.ret rfl
  | _ => exact ret

theorem copyAll {vs : List Value} (hvs : ∀ v ∈ vs, ∃ d, v = .datum d) : Counted (Session.copyAll vs) := by
  induction vs with
  | nil => exact ret
  | cons v vs ih =>
    obtain ⟨d, rfl⟩ := hvs v (List.mem_cons_self ..)
    intro cs
    rw [Session.copyAll_cons_run]
    refine (copyValue cs).bind fun r => ?_
    exact (ih (fun w hw => hvs w (List.mem_cons_of_mem _ hw)) r.2).bind fun _ => StoreM.Counts.ret rfl

end Counted

end CopyM

/-- Only the graph can keep an object from being copied. -/
theorem StoreM.copyObject_graph (t : ObjectType) (id : NodeId) (pins : Pins) (s : Store) :
    Outcome (StoreM.copyObject t id pins s) (fun failure _ => failure.cause.isGraph = true) fun _ _ => True := by
  rw [copyObject_apply]
  exact (CopyM.Counted.copyNode (s.pool.size + 1) t id {} pins s).bind fun _ _ _ => .ret trivial

/-- If there are as many copies as addresses, every address is a copy. -/
theorem Copies.exists_of_size {cs : Copies} {n n' : NodeId}
    (hinj : ∀ i i' j : NodeId, cs[i]? = some j → cs[i']? = some j → i = i')
    (hmem : ∀ i j : NodeId, cs[i]? = some j → n ≤ j ∧ j < n') (hsize : cs.size + n = n') {j : NodeId}
    (hj : n ≤ j ∧ j < n') : ∃ i : NodeId, cs[i]? = some j := by
  have hget : ∀ i j : NodeId, cs[i]? = some j → cs.getD i 0 = j := fun i j hi => by
    rw [Std.ExtTreeMap.getD_eq_getD_getElem?, hi, Option.getD_some]
  have hsome : ∀ i ∈ {i | cs.contains i = true}, ∃ j, cs[i]? = some j := fun i hi =>
    Option.isSome_iff_exists.1 (Std.ExtTreeMap.contains_eq_isSome_getElem?.symm.trans hi)
  have hsub : (fun i : NodeId => cs.getD i 0) '' {i | cs.contains i = true} ⊆ (Finset.Ico n n' : Set NodeId) := by
    rintro _ ⟨i, hi, rfl⟩
    obtain ⟨j, hj⟩ := hsome i hi
    simpa [hget i j hj] using hmem i j hj
  have hcard : ((fun i : NodeId => cs.getD i 0) '' {i | cs.contains i = true}).ncard = cs.size := by
    rw [Set.InjOn.ncard_image, Graph.ncard_contains]
    intro i hi i' hi' heq
    obtain ⟨j, hj⟩ := hsome i hi
    obtain ⟨j', hj'⟩ := hsome i' hi'
    dsimp only at heq
    rw [hget i j hj, hget i' j' hj'] at heq
    exact hinj i i' j hj (heq ▸ hj')
  have heq := Set.eq_of_subset_of_ncard_le hsub (by
    rw [hcard, Set.ncard_coe_finset, Nat.card_Ico, ← hsize, Nat.add_sub_cancel]) (Finset.finite_toSet _)
  have hmem' : j ∈ (Finset.Ico n n' : Set NodeId) := by simpa using hj
  rw [← heq] at hmem'
  obtain ⟨i, hi, rfl⟩ := hmem'
  obtain ⟨j, hj⟩ := hsome i hi
  exact ⟨i, by rw [hj, ← hget i j hj]⟩

end Mosaic
