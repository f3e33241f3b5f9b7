import Mosaic.Proofs.Direct.Eval

/-!
# Actions that do not see the stacks

The actions that operations are made of work on the store and the scopes. They do what they do on the machine
without stacks if what the stacks hold is pinned there instead, and leave the stacks as they are.
-/

namespace Mosaic

open Mosaic.Graph (NodeId)

namespace Machine

/-- The machine without its stacks. -/
def bare (m : Machine) : Machine := { m with program := [], operands := [], builders := [], steps := 0 }

/-- The stacks of `m` on another machine. -/
def atop (m b : Machine) : Machine :=
  { b with program := m.program, operands := m.operands, builders := m.builders, steps := m.steps }

/-- The nodes on the stacks. -/
def stackNodes (m : Machine) : List NodeId :=
  programNodes m.program ++ m.operands.filterMap Operand.node? ++ m.builders

variable {m b : Machine}

@[simp] theorem bare_atop : (m.atop b).bare = b.bare := rfl

@[simp] theorem atop_atop {c : Machine} : (m.atop b).atop c = m.atop c := rfl

@[simp] theorem stackNodes_atop : (m.atop b).stackNodes = m.stackNodes := rfl

theorem mem_mentions_bare {id : NodeId} :
    id ∈ m.mentions ↔ id ∈ m.stackNodes ∨ id ∈ m.bare.mentions := by
  simp only [mentions, stackNodes, bare, programNodes_nil, List.filterMap_nil, List.nil_append,
    List.append_nil, List.mem_append]
  constructor <;> (intro h; simp only [or_assoc] at h ⊢; grind)

end Machine

/-- The action does not see the stacks. What they hold is among the pins without them. -/
def Stackless {α : Type} (x : MachineM α) : Prop :=
  ∀ (pins pins' : Pins) (m : Machine),
    (∀ id, id ∈ pins'.get ↔ id ∈ pins.get ∨ id ∈ m.stackNodes) →
    match x pins' m.bare with
    | .ok a b => b.bare = b ∧ x pins m = .ok a (m.atop b)
    | .error failure b => b.bare = b ∧ x pins m = .error failure (m.atop b)

namespace Stackless

open MachineM

variable {α β : Type} {x : MachineM α} {f : α → MachineM β}

theorem ret (a : α) : Stackless (pure a) := fun _ _ _ _ => ⟨rfl, rfl⟩

theorem throw (failure : Failure) : Stackless (MonadExcept.throw failure : MachineM α) :=
  fun _ _ _ _ => ⟨rfl, rfl⟩

theorem fail (cause : Cause) : Stackless (MachineM.fail cause : MachineM α) := throw _

theorem ofExcept (y : Except Failure α) : Stackless (MachineM.ofExcept y) := by
  cases y with
  | ok a => exact ret a
  | error failure => exact throw failure

theorem bind (hx : Stackless x) (hf : ∀ a, Stackless (f a)) : Stackless (x >>= f) := by
  intro pins pins' m hm
  have h := hx pins pins' m hm
  simp only [bind_apply]
  cases hr : x pins' m.bare with
  | error failure b => simp only [hr] at h; simp only [h.1, h.2, true_and]
  | ok a b =>
    simp only [hr] at h
    have h' := hf a pins pins' (m.atop b) (by simpa using hm)
    rw [Machine.bare_atop, h.1] at h'
    simpa only [h.2, Machine.atop_atop] using h'

theorem keeping (ids : List NodeId) (hx : Stackless x) : Stackless (MachineM.keeping ids x) := by
  intro pins pins' m hm
  refine hx _ _ m fun id => ?_
  rw [Pins.mem_also, Pins.mem_also, hm]
  exact or_right_comm

/-- An action on the store, which keeps what the stacks hold in any case. -/
theorem onStore (y : StoreM α) : Stackless (MachineM.onStore y) := by
  intro pins pins' m hm
  have hpins : (pins.also fun _ => m.mentions) = pins'.also fun _ => m.bare.mentions := by
    refine Pins.ext_mem fun id => ?_
    rw [Pins.mem_also, Pins.mem_also, hm, Machine.mem_mentions_bare (m := m), or_assoc]
  rw [onStore_apply, onStore_apply, hpins]
  have hstore : m.bare.store = m.store := rfl
  rw [hstore]
  cases y (pins'.also fun _ => m.bare.mentions) m.store <;> exact ⟨rfl, rfl⟩

theorem getThen {f : Machine → MachineM α} (hf : ∀ m, Stackless (f m)) (hb : ∀ m, f m.bare = f m) :
    Stackless ((get : MachineM Machine) >>= f) := by
  intro pins pins' m hm
  show match f m.bare pins' m.bare with | .ok a b => _ | .error failure b => _
  rw [hb m]
  exact hf m pins pins' m hm

theorem setScopes (s : Except Failure Scopes) : Stackless (MachineM.setScopes s) := by
  intro pins pins' m _
  simp only [setScopes_apply]
  cases s <;> exact ⟨rfl, rfl⟩

theorem modifyScopes (f : Scopes → Scopes) :
    Stackless (modify fun m => { m with scopes := f m.scopes } : MachineM PUnit) :=
  fun _ _ _ _ => ⟨rfl, rfl⟩

/-! ## The actions of operations -/

theorem lookup (name : Name) : Stackless (MachineM.lookup name) := by
  refine getThen (fun m => ?_) fun _ => rfl
  split
  · exact ret _
  · exact fail _

theorem pushFrame : Stackless MachineM.pushFrame :=
  getThen (fun _ => setScopes _) fun _ => rfl

theorem popFrame : Stackless MachineM.popFrame :=
  getThen (fun _ => bind (ofExcept _) fun r => modifyScopes fun _ => r.2) fun _ => rfl

theorem popContext : Stackless MachineM.popContext :=
  getThen (fun _ => bind (ofExcept _) fun r => modifyScopes fun _ => r.2) fun _ => rfl

theorem destructure (v : Value) (n : Nat) : Stackless (MachineM.destructure v n) := by
  unfold MachineM.destructure
  split
  · exact ret _
  · split
    · exact onStore _
    · exact fail _

theorem bindAll (ps : List (Operand × Value)) : Stackless (MachineM.bindAll ps) := by
  induction ps with
  | nil => exact ret _
  | cons p ps ih =>
    refine bind (ofExcept _) fun name => ?_
    exact getThen (fun _ => bind (setScopes _) fun _ => ih) fun _ => rfl

theorem assign (n : Nat) (v : Operand) (targets : List Operand) :
    Stackless (MachineM.assign n v targets) :=
  bind (ofExcept _) fun _ => bind (destructure _ _) fun _ => bind (bindAll _) fun _ => ret _

theorem fieldRef (binding field : Name) : Stackless (MachineM.fieldRef binding field) := by
  refine bind (lookup _) fun v => ?_
  split
  · exact bind (fail _) fun _ => ret _
  · exact ret _

theorem writeField (binding field : Name) (v : Value) :
    Stackless (MachineM.writeField binding field v) := by
  refine bind (lookup _) fun target => bind (ofExcept _) fun d => ?_
  split
  · exact bind (keeping _ (onStore _)) fun copy => getThen (fun _ => setScopes _) fun _ => rfl
  · exact fail _

theorem writeAll (ps : List (Operand × Value)) : Stackless (MachineM.writeAll ps) := by
  induction ps with
  | nil => exact ret _
  | cons p ps ih =>
    refine bind (ofExcept _) fun v => ?_
    split
    · exact bind (keeping _ (writeField _ _ _)) fun _ => ih
    · exact bind (fail _) fun _ => ih

theorem setField (n : Nat) (v : Operand) (targets : List Operand) :
    Stackless (MachineM.setField n v targets) :=
  bind (ofExcept _) fun _ => bind (destructure _ _) fun _ => bind (writeAll _) fun _ => ret _

theorem capture (names : List Name) : Stackless (MachineM.capture names) :=
  getThen (fun _ => ofExcept _) fun _ => rfl

theorem newLambda (label : Name) (t : Template) : Stackless (MachineM.newLambda label t) := by
  refine bind (capture _) fun ps => bind (keeping _ (onStore _)) fun id => ?_
  split
  · exact getThen (fun _ => bind (setScopes _) fun _ => ret _) fun _ => rfl
  · exact ret _

theorem complete (id : NodeId) : Stackless (MachineM.complete id) := by
  refine bind (onStore _) fun l => bind (capture _) fun ps => ?_
  split
  · exact onStore _
  · exact ret _

theorem completeAll (ids : List NodeId) : Stackless (MachineM.completeAll ids) := by
  induction ids with
  | nil => exact ret _
  | cons id ids ih => exact bind (keeping _ (complete id)) fun _ => ih

theorem setDependencies : Stackless MachineM.setDependencies :=
  getThen (fun _ => bind (ofExcept _) fun r => bind (modifyScopes fun _ => r.2) fun _ =>
    bind (completeAll _) fun _ => ret _) fun _ => rfl

theorem enterCall (callee : NodeId) (args : List Value) :
    Stackless (MachineM.enterCall callee args) := by
  refine bind (onStore _) fun l => ?_
  split
  · exact fail _
  · exact bind (onStore _) fun frame => bind (modifyScopes fun s => s.pushContext _) fun _ => ret _

theorem enterValue (f : Value) (args : List Value) : Stackless (MachineM.enterValue f args) := by
  unfold MachineM.enterValue
  split
  · exact enterCall _ _
  · exact fail _

theorem enterVariable (name : Name) : Stackless (MachineM.enterVariable name) := by
  refine bind (lookup _) fun v => ?_
  split
  · refine bind (onStore _) fun l => ?_
    split
    · exact bind (enterCall _ _) fun _ => ret _
    · exact ret _
  · exact ret _

theorem append (builder : NodeId) (v : Value) : Stackless (MachineM.append builder v) :=
  bind (ofExcept _) fun _ => onStore _

end Stackless

end Mosaic
