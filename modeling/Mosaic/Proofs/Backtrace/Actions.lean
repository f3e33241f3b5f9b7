import Mosaic.Proofs.Machine.Logic

/-!
# Operations tell only a cause

Whatever the operands of an operation are, if it fails, the failure is bare (`MachineM.bare_perform`). So the
line and the calls that a failure of the machine tells are those that the machine adds to it.
-/

namespace Mosaic

/-! ## Actions on the store -/

/-- Every action on the store fails with bare failures only. -/
def StoreM.bare : StoreM.Logic where
  toRules := .ensuring (fun _ => True) (fun failure _ => failure.Bare) fun _ _ hf _ => hf
  getThen hf := .getThen fun s _ => hf s
  allocate _ := .allocate (fun _ _ _ _ _ _ => trivial) fun _ _ _ => .of_cause
  update _ _ _ := .update (fun _ _ _ _ => trivial) fun _ _ _ => .of_cause

/-! ## Actions of the machine -/

namespace MachineM

/-- Nothing has to be known of a machine. -/
def bare : MachineM.Logic True where
  toRules := .ensuring (fun _ => True) (fun failure _ => failure.Bare) fun _ _ hf _ => hf
  store := StoreM.bare.interface
  Proper _ := True
  onStore hx := hx.onStore (fun _ _ => trivial) (fun _ _ _ _ => trivial) fun _ _ _ _ hf => hf
  scopes _ := trivial
  withScopes _ _ := trivial
  withBuilders _ _ := trivial
  ask _ _ := trivial
  define _ _ := trivial
  assign _ _ := trivial
  park _ _ _ _ _ _ := trivial
  takeParked _ _ := trivial
  pushContext _ _ := trivial

/-- However an operation fails, the failure tells neither a line nor calls. -/
theorem bare_perform (op : Op) (args : List Operand) : bare.Holds (MachineM.perform op args) :=
  bare.performAny (fun _ => trivial) (fun _ _ _ => trivial) (fun _ => trivial)
    (fun _ => StoreM.bare.copying_interface) (fun _ _ _ _ => trivial) args

theorem bare_runOp (op : Op) : bare.Holds (MachineM.runOp op) := by
  have hmodify : ∀ g : Machine → Machine, bare.Holds (modify g) := fun g => bare.modify fun _ _ => trivial
  rw [runOp_eq]
  refine bare.getThen fun m _ => ?_
  split
  · exact bare.fail
  · exact bare.bind (hmodify _) fun _ => bare.bind (bare_perform op _) fun _ => hmodify _

end MachineM

end Mosaic
