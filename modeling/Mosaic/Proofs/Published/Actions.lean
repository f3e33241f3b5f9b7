import Mosaic.Proofs.Balance.Actions
import Mosaic.Proofs.Published.Primitives
import Mosaic.Proofs.Steps

/-!
# What operations guard

A machine is `Guarded` if nothing it mentions lies out of a region `A`, apart from the clusters of open
comprehensions, which are what the region leaves out. The bodies of lambdas name only nodes that were
given out before the address `n₀`, where the run began, so they name no open cluster. `Guards` says that
an action keeps this, also if it fails, and leaves the nodes of the store `s₀` as they were.
-/

namespace Mosaic

open Mosaic.Graph (NodeId Node)

/-- The code names only nodes that were given out before. -/
def Old (n₀ : Nat) (p : Program) : Prop := ∀ id ∈ programNodes p, id < n₀

theorem old_nil (n₀ : Nat) : Old n₀ [] := by simp [Old]

/-- The item names no node out of the region, and the code inside it only old ones. -/
def Item.Clear (n₀ : Nat) (A : NodeId → Prop) (n : Nat) : Item → Prop
  | .op code _ => ∀ id ∈ code.nodes, id < n₀
  | item => Within A n item.nodes

/-- What is left to be done names no node out of the region. -/
def Effect.Clear (n₀ : Nat) (A : NodeId → Prop) (n : Nat) : Effect → Prop
  | .value v => Valid A n v
  | .items p => ∀ item ∈ p, item.Clear n₀ A n
  | .done => True

section Clear

variable {n₀ n n' : Nat} {A A' : NodeId → Prop}

theorem Item.Clear.imp {item : Item} (h : item.Clear n₀ A n) (hA : ∀ id, A id → A' id) (hn : n ≤ n') :
    item.Clear n₀ A' n' := by
  cases item with
  | op code line => exact h
  | _ => exact (Within.imp h hA).mono hn

theorem Old.clear {p : Program} (h : Old n₀ p) (hA : ∀ id, id < n₀ → A id) (hn : n₀ ≤ n) :
    ∀ item ∈ p, item.Clear n₀ A n := by
  intro item hitem
  have hold : ∀ id ∈ item.nodes, id < n₀ := fun id hid => h id (mem_programNodes.2 ⟨item, hitem, hid⟩)
  have hin : Within A n item.nodes := fun id hid => ⟨hA id (hold id hid), Nat.lt_of_lt_of_le (hold id hid) hn⟩
  cases item with
  | op code line => exact hold
  | _ => exact hin

end Clear

structure Guarded (n₀ : Nat) (A : NodeId → Prop) (s₀ : Store) (m : Machine) : Prop where
  store : Untouched (Old n₀) A s₀ m.store
  scopes : m.scopes.All (Valid A m.next) fun id => A id ∧ id < m.next
  memo : ∀ (key : String) (v : Value), m.memo.entries[key]? = some v → Valid A m.next v
  base : n₀ ≤ s₀.pool.next
  early : ∀ id, id < n₀ → A id

/-- What most operations leave alone. -/
structure Still (m m' : Machine) : Prop extends Same m m' where
  builders : m'.builders = m.builders

namespace Still

variable {m m' m'' : Machine}

theorem refl (m : Machine) : Still m m := ⟨.refl m, rfl⟩

theorem trans (h : Still m m') (h' : Still m' m'') : Still m m'' :=
  ⟨h.toSame.trans h'.toSame, h'.builders.trans h.builders⟩

end Still

namespace Guarded

variable {n₀ : Nat} {A A' : NodeId → Prop} {s₀ : Store} {m : Machine}

theorem base_le (h : Guarded n₀ A s₀ m) : n₀ ≤ m.next := Nat.le_trans h.base h.store.le

theorem withStore (h : Guarded n₀ A s₀ m) {s : Store} (hs : Untouched (Old n₀) A s₀ s)
    (hn : m.next ≤ s.pool.next) : Guarded n₀ A s₀ { m with store := s } where
  store := hs
  scopes := h.scopes.imp (fun _ hv => hv.mono hn) fun _ hid => ⟨hid.1, Nat.lt_of_lt_of_le hid.2 hn⟩
  memo key v hv := (h.memo key v hv).mono hn
  base := h.base
  early := h.early

theorem withScopes (h : Guarded n₀ A s₀ m) {s : Scopes}
    (hs : s.All (Valid A m.next) fun id => A id ∧ id < m.next) :
    Guarded n₀ A s₀ { m with scopes := s } :=
  ⟨h.store, hs, h.memo, h.base, h.early⟩

theorem ask (h : Guarded n₀ A s₀ m) (key : String) :
    Guarded n₀ A s₀ { m with memo := (m.memo.ask key).2 } ∧
      ∀ v, (m.memo.ask key).1 = some v → Valid A m.next v := by
  unfold Memo.ask
  cases hk : m.memo.entries[key]? with
  | none => exact ⟨⟨h.store, h.scopes, h.memo, h.base, h.early⟩, nofun⟩
  | some v =>
    refine ⟨⟨h.store, h.scopes, h.memo, h.base, h.early⟩, fun w hw => ?_⟩
    cases hw
    exact h.memo key v hk

end Guarded

namespace MachineM

/-- From the machine `m`, the action leads to a result and a machine with the property `Q`, or it fails
and leaves a machine with the property `E`. -/
abbrev Ends {α : Type} (x : MachineM α) (m : Machine) (E : Machine → Prop) (Q : α → Machine → Prop) : Prop :=
  Action.Ends x m (fun _ => E) Q

namespace Ends

export Action.Ends (ret fail bind keeping getThen modifyThen)

variable {α β : Type} {x : MachineM α} {m : Machine} {E E' : Machine → Prop} {Q Q' : α → Machine → Prop}

theorem imp (hx : Ends x m E Q) (hE : ∀ m', E m' → E' m') (hQ : ∀ a m', Q a m' → Q' a m') :
    Ends x m E' Q' :=
  Action.Ends.imp hx (fun _ => hE) hQ

theorem okThen {y : Except Failure α} {f : α → MachineM β} {R : β → Machine → Prop} (hE : E m)
    (ok : ∀ a, y = .ok a → Ends (f a) m E R) : Ends (MachineM.ofExcept y >>= f) m E R :=
  Action.Ends.okThen ok fun _ _ => hE

theorem setScopes {s : Except Failure Scopes} {R : Unit → Machine → Prop} (hE : E m)
    (h : ∀ scopes, s = .ok scopes → R () { m with scopes }) : Ends (MachineM.setScopes s) m E R :=
  Action.Ends.setScopes h fun _ _ => hE

theorem onRead {x : StoreM α} {P : Program → Prop} {A : NodeId → Prop} {R : Nat → α → Prop} (hr : x.Reads)
    (hk : StoreM.Keeps (Closed P A) m.next x R) (hm : Closed P A m.store) :
    Ends (MachineM.onStore x) m (· = m) fun a m' => m' = m ∧ R m.next a := by
  obtain ⟨g, hg⟩ := hr
  intro pins
  have hq := hk (pins.also fun _ => m.mentions) m.store hm (Nat.le_refl _)
  rw [hg] at hq
  rw [onStore_apply, hg]
  cases hr : g m.store with
  | ok a =>
    rw [hr] at hq
    exact ⟨rfl, hq.2.2⟩
  | error failure => rfl

theorem rethrow {handle : Failure → MachineM α} (hx : Ends x m E Q)
    (hh : ∀ failure pins m, ∃ f, handle failure pins m = .error f m) : Ends (tryCatch x handle) m E Q := by
  intro pins
  have h := hx pins
  rw [tryCatch_apply]
  cases hr : x pins m with
  | ok a m' => rw [hr] at h; exact h
  | error failure m' =>
    rw [hr] at h
    obtain ⟨f, hf⟩ := hh failure pins m'
    simp only [hf]
    exact h

/-- An operation takes its operands, does its work, and leaves something to be done. The step that it
counts makes no difference. -/
theorem runItem_op {op : Op} {line : Option Nat} {R : Machine → Prop} (hE : ∀ steps, E { m with steps })
    (hperform : ∀ steps, (m.operands.take op.arity).reverse.length = op.arity →
      Ends (MachineM.perform op (m.operands.take op.arity).reverse)
        { m with steps, operands := m.operands.drop op.arity } E fun e m' => R (e.settle m')) :
    Ends (MachineM.runItem (.op op line)) m E fun _ => R := by
  have hrun : ∀ steps, Ends (MachineM.runOp op) { m with steps } E fun _ => R := by
    intro steps
    rw [runOp_eq]
    refine getThen ?_
    split
    · exact fail (hE steps)
    · rename_i hlen
      have htake : (m.operands.take op.arity).reverse.length = op.arity := by
        rw [List.length_reverse, List.length_take]
        exact Nat.min_eq_left (Nat.le_of_not_lt hlen)
      exact modifyThen (bind (hperform steps htake) fun _ _ h _ => h)
  have hat : ∀ steps, Ends (runOpAt op line) { m with steps } E fun _ => R := fun steps =>
    rethrow (hrun steps) fun failure _ m' => ⟨(failure.atLine line).withBacktrace m'.scopes.backtrace, rfl⟩
  rw [runItem_op_eq]
  refine modifyThen (getThen ?_)
  split
  · split
    · exact fun _ => hE _
    · exact hat _
  · exact hat _

theorem next {item : Item} {rest : Program} {R : Machine → Prop} {held : List NodeId}
    (hx : Ends (MachineM.runItem item) { m with program := rest } E fun _ => R) (hp : m.program = item :: rest) :
    (∀ m', m.next? held = some (.ok () m') → R m') ∧
      ∀ failure m', m.next? held = some (.error failure m') → E m' := by
  have h := hx (Pins.of fun _ => held)
  rw [Machine.next?_of_cons hp]
  constructor
  · intro m' hr
    rwa [Option.some.inj hr] at h
  · intro failure m' hr
    rwa [Option.some.inj hr] at h

end Ends

/-- From a guarded machine `m`, the action leads to a guarded one, also if it fails; if it does not, the
result has the property `Q`, which may depend on the next address. -/
def Guards {α : Type} (n₀ : Nat) (A : NodeId → Prop) (s₀ : Store) (m : Machine) (x : MachineM α)
    (Q : Nat → α → Prop) : Prop :=
  Guarded n₀ A s₀ m →
    Ends x m (Guarded n₀ A s₀) fun a m' => Guarded n₀ A s₀ m' ∧ Still m m' ∧ Q m'.next a

namespace Guards

variable {n₀ : Nat} {A : NodeId → Prop} {s₀ : Store} {m : Machine} {α β : Type} {x : MachineM α}
  {Q R : Nat → α → Prop}

theorem ret {a : α} (h : Q m.next a) : Guards n₀ A s₀ m (pure a) Q :=
  fun hm => .ret ⟨hm, .refl m, h⟩

theorem fail {cause : Cause} : Guards n₀ A s₀ m (MachineM.fail cause : MachineM α) Q :=
  fun hm => .fail hm

theorem known (h : Guarded n₀ A s₀ m → Guards n₀ A s₀ m x Q) : Guards n₀ A s₀ m x Q :=
  fun hm => h hm hm

theorem onward {m' : Machine} (hx : Guards n₀ A s₀ m' x Q) (hm : Guarded n₀ A s₀ m') (hs : Still m m') :
    Ends x m' (Guarded n₀ A s₀) fun a m'' => Guarded n₀ A s₀ m'' ∧ Still m m'' ∧ Q m''.next a :=
  (hx hm).imp (fun _ h => h) fun _ _ h => ⟨h.1, hs.trans h.2.1, h.2.2⟩

theorem bind {f : α → MachineM β} {R : Nat → β → Prop} (hx : Guards n₀ A s₀ m x Q)
    (hf : ∀ a m', m.next ≤ m'.next → Q m'.next a → Guards n₀ A s₀ m' (f a) R) :
    Guards n₀ A s₀ m (x >>= f) R :=
  fun hm => .bind (hx hm) fun a m' ⟨hm', hs, hq⟩ => onward (hf a m' hs.next hq) hm' hs

theorem keeping {ids : List NodeId} (hx : Guards n₀ A s₀ m x Q) :
    Guards n₀ A s₀ m (MachineM.keeping ids x) Q :=
  fun hm => .keeping (hx hm)

theorem okThen {y : Except Failure α} {f : α → MachineM β} {R : Nat → β → Prop}
    (ok : ∀ a, y = .ok a → Guards n₀ A s₀ m (f a) R) :
    Guards n₀ A s₀ m (MachineM.ofExcept y >>= f) R :=
  fun hm => .okThen hm fun a ha => ok a ha hm

theorem getThen {f : Machine → MachineM α} (h : Guards n₀ A s₀ m (f m) Q) :
    Guards n₀ A s₀ m ((get : MachineM Machine) >>= f) Q :=
  h

theorem modifyThen {g : Machine → Machine} {f : PUnit → MachineM α}
    (hg : Guarded n₀ A s₀ m → Guarded n₀ A s₀ (g m)) (hs : Still m (g m))
    (h : Guards n₀ A s₀ (g m) (f ⟨⟩) Q) :
    Guards n₀ A s₀ m ((modify g : MachineM PUnit) >>= f) Q :=
  fun hm => .modifyThen (onward h (hg hm) hs)

theorem setScopes {s : Except Failure Scopes}
    (h : ∀ scopes, s = .ok scopes → Guarded n₀ A s₀ m →
      scopes.All (Valid A m.next) fun id => A id ∧ id < m.next) :
    Guards n₀ A s₀ m (MachineM.setScopes s) fun _ _ => True :=
  fun hm => .setScopes hm fun scopes hs =>
    ⟨hm.withScopes (h scopes hs hm), ⟨⟨rfl, rfl, rfl, Nat.le_refl _⟩, rfl⟩, trivial⟩

theorem onStore {x : StoreM α} (hx : StoreM.Spares (Old n₀) A s₀ m.next x Q) :
    Guards n₀ A s₀ m (MachineM.onStore x) Q := by
  refine fun hm => Action.Ends.onStore fun pins => ?_
  refine (hx (pins.also fun _ => m.mentions) m.store hm.store (Nat.le_refl _)).imp
    (fun _ s h => hm.withStore h.1 h.2) fun a s h => ?_
  exact ⟨hm.withStore h.1 h.2.1, ⟨⟨rfl, rfl, rfl, h.2.1⟩, rfl⟩, h.2.2⟩

theorem onRead {x : StoreM α} (hr : x.Reads) (hk : StoreM.Keeps (Closed (Old n₀) A) m.next x Q) :
    Guards n₀ A s₀ m (MachineM.onStore x) Q := fun hm =>
  (Ends.onRead hr hk hm.store.closed).imp (fun _ h => h ▸ hm) fun _ _ h => by
    obtain ⟨rfl, hq⟩ := h
    exact ⟨hm, .refl _, hq⟩

theorem lookupThen {name : Name} {f : Value → MachineM α}
    (h : ∀ v, Valid A m.next v → Guards n₀ A s₀ m (f v) Q) :
    Guards n₀ A s₀ m (MachineM.lookup name >>= f) Q :=
  fun hm => Action.Ends.lookupThen (fun v hv => h v (hm.scopes.lookup? hv) hm) fun _ => hm

theorem valueThen {operand : Operand} {f : Value → MachineM α} (ho : Within A m.next operand.node?.toList)
    (h : ∀ v, operand = .value v → Valid A m.next v → Guards n₀ A s₀ m (f v) Q) :
    Guards n₀ A s₀ m (MachineM.ofExcept operand.toValue >>= f) Q :=
  okThen fun v hv => by
    cases operand <;> cases hv
    exact h v rfl ho

theorem valuesThen {operands : List Operand} {f : List Value → MachineM α}
    (ho : ∀ o ∈ operands, Within A m.next o.node?.toList)
    (h : ∀ vs, operands = vs.map Operand.value → (∀ v ∈ vs, Valid A m.next v) → Guards n₀ A s₀ m (f vs) Q) :
    Guards n₀ A s₀ m (MachineM.ofExcept (operands.mapM Operand.toValue) >>= f) Q := by
  refine okThen fun vs hvs => ?_
  obtain rfl := MachineM.eq_map_of_mapM_toValue hvs
  exact h vs rfl fun v hv => ho (.value v) (List.mem_map_of_mem hv)

end Guards

end MachineM

end Mosaic
