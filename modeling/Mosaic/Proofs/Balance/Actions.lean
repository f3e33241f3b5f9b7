import Mosaic.Proofs.Balance.Flow
import Mosaic.Proofs.Machine.Actions
import Mosaic.Proofs.Machine.Scopes
import Mosaic.Proofs.Store.ConfinedFields

/-!
# What operations do to the stacks

`Safe A E d m` says that the machine mentions only addresses of the region `A`, whose lambdas have
compiled bodies, and that its scopes and its clusters above the base `E` are as deep as `d` says. Every
operation keeps a machine safe, at the depth that `Op.move` says, and leaves the program and the other
operands alone. If there is a frame to work in, it does not fail for a structural cause.
-/

namespace Mosaic

open Mosaic.Graph (NodeId Node)

/-- The next address of the store of a machine. -/
abbrev Machine.next (m : Machine) : Nat := m.store.pool.next

structure Safe (A : NodeId → Prop) (E : List NodeId) (d : Depth) (m : Machine) : Prop where
  store : Closed IsCode A m.store
  scopes : m.scopes.All (Valid A m.next) fun id => A id ∧ id < m.next
  memo : ∀ (key : String) (v : Value), m.memo.entries[key]? = some v → Valid A m.next v
  depths : m.scopes.depths = d.frames
  builders : ∃ B, m.builders = B ++ E ∧ B.length = d.builders ∧ Within A m.next B

/-- What an operation leaves alone. -/
structure Same (m m' : Machine) : Prop where
  program : m'.program = m.program
  operands : m'.operands = m.operands
  config : m'.config = m.config
  next : m.next ≤ m'.next

namespace Same

variable {m m' m'' : Machine}

theorem refl (m : Machine) : Same m m := ⟨rfl, rfl, rfl, Nat.le_refl _⟩

theorem trans (h : Same m m') (h' : Same m' m'') : Same m m'' :=
  ⟨h'.program.trans h.program, h'.operands.trans h.operands, h'.config.trans h.config,
    Nat.le_trans h.next h'.next⟩

end Same

namespace Safe

variable {A : NodeId → Prop} {E : List NodeId} {d d' : Depth} {m : Machine}

theorem withStore (h : Safe A E d m) {s : Store} (hs : Closed IsCode A s)
    (hn : m.next ≤ s.pool.next) : Safe A E d { m with store := s } where
  store := hs
  scopes := h.scopes.imp (fun _ hv => hv.mono hn) fun _ hid => ⟨hid.1, Nat.lt_of_lt_of_le hid.2 hn⟩
  memo key v hv := (h.memo key v hv).mono hn
  depths := h.depths
  builders :=
    let ⟨B, hB, hlen, hin⟩ := h.builders
    ⟨B, hB, hlen, hin.mono hn⟩

theorem withScopes (h : Safe A E d m) {s : Scopes} {frames : List Nat}
    (hs : s.All (Valid A m.next) fun id => A id ∧ id < m.next) (hd : s.depths = frames) :
    Safe A E ⟨frames, d.builders⟩ { m with scopes := s } :=
  ⟨h.store, hs, h.memo, hd, h.builders⟩

theorem opened (h : Safe A E d m) (hd : ∃ n ns, d.frames = (n + 1) :: ns) : m.scopes.Open := by
  obtain ⟨n, ns, hd⟩ := hd
  exact ⟨n, ns, h.depths.trans hd⟩

end Safe

namespace MachineM

/-- From the machine `m`, the action leads to a result and a machine with the property `K`, or it fails,
for a cause that is not structural if `G` holds. -/
abbrev Leads {α : Type} (G : Prop) (x : MachineM α) (m : Machine) (K : α → Machine → Prop) : Prop :=
  Action.Ends x m (fun failure _ => G → failure.cause.isStructural = false) K

namespace Leads

export Action.Ends (ret bind keeping okThen getThen modifyThen setThen setScopes)

section

variable {G : Prop} {α β : Type} {x : MachineM α} {m : Machine} {K K' : α → Machine → Prop}

theorem imp (hx : Leads G x m K) (h : ∀ a m', K a m' → K' a m') : Leads G x m K' :=
  Action.Ends.imp hx (fun _ _ h => h) h

theorem fail {cause : Cause} (h : G → cause.isStructural = false) :
    Leads G (MachineM.fail cause : MachineM α) m K :=
  Action.Ends.fail h

end

variable {G : Prop} {α : Type} {A : NodeId → Prop} {E : List NodeId} {d : Depth} {m : Machine}

theorem onStore {x : StoreM α} {Q : Nat → α → Prop} (hm : Safe A E d m)
    (hx : StoreM.Keeps (Closed IsCode A) m.next x Q) :
    Leads G (MachineM.onStore x) m fun a m' => Safe A E d m' ∧ Same m m' ∧ Q m'.next a := by
  refine Action.Ends.onStore fun pins => ?_
  exact (hx (pins.also fun _ => m.mentions) m.store hm.store (Nat.le_refl _)).imp (fun _ _ h _ => h)
    fun a s ⟨hs, hn, hq⟩ => ⟨hm.withStore hs hn, ⟨rfl, rfl, rfl, hn⟩, hq⟩

theorem lookupThen {name : Name} {f : Value → MachineM α} {K : α → Machine → Prop}
    (hm : Safe A E d m) (h : ∀ v, Valid A m.next v → Leads G (f v) m K) :
    Leads G (MachineM.lookup name >>= f) m K :=
  Action.Ends.lookupThen (fun v hv => h v (hm.scopes.lookup? hv)) fun _ _ => rfl

theorem valueThen {operand : Operand} {f : Value → MachineM α} {K : α → Machine → Prop}
    (hs : operand.slot = .value) (h : ∀ v, operand = .value v → Leads G (f v) m K) :
    Leads G (MachineM.ofExcept operand.toValue >>= f) m K := by
  cases operand with
  | value v => exact h v rfl
  | var name => cases hs

theorem variableThen {operand : Operand} {f : Name → MachineM α} {K : α → Machine → Prop}
    (hs : operand.slot = .var) (h : ∀ name, operand = .var name → Leads G (f name) m K) :
    Leads G (MachineM.ofExcept operand.toVariable >>= f) m K := by
  cases operand with
  | value v => cases hs
  | var name => exact h name rfl

theorem datumThen {v : Value} {f : Datum → MachineM α} {K : α → Machine → Prop}
    (h : ∀ d, v = .datum d → Leads G (f d) m K) :
    Leads G (MachineM.ofExcept v.toDatum >>= f) m K :=
  okThen (fun d hd => h d (Value.eq_of_toDatum hd)) fun _ hf _ => by
    rw [Value.toDatum_error hf]; rfl

theorem valuesThen {operands : List Operand} {f : List Value → MachineM α}
    {K : α → Machine → Prop} (hs : ∀ o ∈ operands, o.slot = .value)
    (h : ∀ vs, operands = vs.map Operand.value → Leads G (f vs) m K) :
    Leads G (MachineM.ofExcept (operands.mapM Operand.toValue) >>= f) m K := by
  refine okThen (fun vs hvs => h vs (eq_map_of_mapM_toValue hvs)) fun failure hf => ?_
  obtain ⟨o, ho, hf⟩ := exists_of_mapM_error hf
  have hslot := hs o ho
  cases o <;> cases hf
  cases hslot

end Leads

end MachineM

end Mosaic
