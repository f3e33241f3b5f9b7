import Mosaic.Proofs.Cadence.Plain
import Mosaic.Proofs.Cadence.Primitives
import Mosaic.Proofs.Machine.Actions
import Mosaic.Proofs.Machine.Scopes

/-!
# Machines side by side

`m.beside n s` is the machine `m` with another cadence `n` and another store `s`. `Agree C B n L g m x Q`
says that the action `x` does the same on both machines, if their stores share the fragment `g`, what `m`
mentions is there, and the nodes in `L` are held: it returns the same result, or it fails with the same
failure, which is not one of the graph, and either way it leaves machines that are side by side again. Outside of
the two machines, different nodes may be held (`Backdrop`). The rules follow the ways actions are composed.
-/

namespace Mosaic

open Mosaic.Graph (NodeId Pool)

/-! ## Values that are held -/

namespace Fragment

variable {g g' : Fragment} {P L L' : List NodeId} {v : Value} {t : ObjectType} {id : NodeId}

/-- The object that the value is, if it is one, is held and there. -/
def Held (g : Fragment) (L : List NodeId) (v : Value) : Prop :=
  ∀ l, v.link? = some l → l.2 ∈ L ∧ g.At l.1 l.2

theorem Good.held (h : g.Good v) (hL : ∀ id, v.node? = some id → id ∈ L) : g.Held L v :=
  fun l hl => ⟨hL l.2 (by simp [Value.node?_eq_link?, hl]), h l hl⟩

namespace Held

theorem good (h : g.Held L v) : g.Good v := fun l hl => (h l hl).2

theorem rooted (h : g.Held L v) : g.Rooted L v := fun l hl => ⟨.root (h l hl).1, (h l hl).2⟩

theorem leads (h : g.Held L v) (hg : g.Leads P L g') : g'.Held L v :=
  fun l hl => ⟨(h l hl).1, hg.holds _ (h l hl).1 _ (h l hl).2⟩

end Held

end Fragment

/-! ## What a machine mentions -/

/-- What the item names is there, and its text is plain. -/
def Item.Ready (C : Cause → Prop) (g : Fragment) : Item → Prop
  | .value v => g.Good v
  | item => item.Plain C

namespace Item.Ready

variable {C : Cause → Prop} {g g' : Fragment} {P L : List NodeId} {item : Item} {p : Program}

theorem of_plain (h : item.Plain C) : item.Ready C g := by
  cases item with
  | value v =>
    have hv : v.node?.toList = [] := h.1
    exact Fragment.good_of_scalar (Option.toList_eq_nil_iff.1 hv)
  | _ => exact h

theorem isSome (h : item.Ready C g) {id : NodeId} (hid : id ∈ item.nodes) : (g id).isSome = true := by
  cases item with
  | value v => exact Fragment.Good.isSome h (Option.mem_toList.1 hid)
  | _ => rw [h.1] at hid; cases hid

theorem leads (h : item.Ready C g) (hg : g.Leads P L g') (hL : ∀ id ∈ item.nodes, id ∈ L) :
    item.Ready C g' := by
  cases item with
  | value v => exact hg.good h fun id hid => hL id (Option.mem_toList.2 hid)
  | _ => exact h

end Item.Ready

theorem Scopes.All.isSome {g : Fragment} {s : Scopes} (h : s.All g.Good (g.At .lambda)) :
    ∀ id ∈ s.nodes, (g id).isSome = true :=
  (Scopes.all_iff fun _ => Iff.rfl).1 (h.imp (fun _ hv _ hid => hv.isSome hid) fun _ hid => hid.isSome)

theorem Scopes.All.mentioned {V : Value → Prop} {L : NodeId → Prop} {s : Scopes} (h : s.All V L) :
    s.All (fun v => V v ∧ ∀ id, v.node? = some id → id ∈ s.nodes) fun id => L id ∧ id ∈ s.nodes := by
  have hmem : s.All (fun v => ∀ id, v.node? = some id → id ∈ s.nodes) (· ∈ s.nodes) :=
    (Scopes.all_iff fun _ => Iff.rfl).2 fun _ hid => hid
  intro c hc f hf
  have hall := h c hc f hf
  have hnodes := hmem c hc f hf
  exact ⟨fun name v hv => ⟨hall.values name v hv, hnodes.values name v hv⟩,
    fun id hid => ⟨hall.parked id hid, hnodes.parked id hid⟩⟩

namespace Machine

/-- The same machine with another cadence and another store. -/
def beside (m : Machine) (n : Nat) (s : Store) : Machine :=
  { m with config := { m.config with collectEvery := n }, store := s }

/-- What the machine mentions is there, and of the type that it must have. -/
structure Whole (C : Cause → Prop) (g : Fragment) (m : Machine) : Prop where
  program : ∀ item ∈ m.program, item.Ready C g
  operands : ∀ v, .value v ∈ m.operands → g.Good v
  scopes : m.scopes.All g.Good (g.At .lambda)
  builders : ∀ id ∈ m.builders, g.At .cluster id
  memo : ∀ (key : String) (v : Value), m.memo.entries[key]? = some v → g.Good v

variable {C : Cause → Prop} {g g' : Fragment} {P L : List NodeId} {m : Machine} {id : NodeId}

theorem mem_mentions : id ∈ m.mentions ↔ (∃ item ∈ m.program, id ∈ item.nodes) ∨
    (∃ v, .value v ∈ m.operands ∧ v.node? = some id) ∨ id ∈ m.scopes.nodes ∨ id ∈ m.builders ∨
      ∃ (key : String) (v : Value), m.memo.entries[key]? = some v ∧ v.node? = some id := by
  have hoperands : (∃ o ∈ m.operands, o.node? = some id) ↔
      ∃ v, .value v ∈ m.operands ∧ v.node? = some id := by
    constructor
    · rintro ⟨o, ho, hid⟩
      cases o with
      | value v => exact ⟨v, ho, hid⟩
      | var name => cases hid
    · exact fun ⟨v, hv, hid⟩ => ⟨.value v, hv, hid⟩
  simp only [mentions, List.mem_append, mem_programNodes, List.mem_filterMap, hoperands, Memo.mem_nodes,
    or_assoc]

namespace Whole

theorem isSome (h : m.Whole C g) : ∀ id ∈ m.mentions, (g id).isSome = true := by
  intro id hid
  rcases mem_mentions.1 hid with ⟨item, hitem, hid⟩ | ⟨v, hv, hid⟩ | hid | hid | ⟨key, v, hv, hid⟩
  · exact (h.program item hitem).isSome hid
  · exact (h.operands v hv).isSome hid
  · exact h.scopes.isSome id hid
  · exact (h.builders id hid).isSome
  · exact (h.memo key v hv).isSome hid

theorem leads (h : m.Whole C g) (hg : g.Leads P L g') (hL : m.mentions ⊆ L) : m.Whole C g' where
  program item hitem := (h.program item hitem).leads hg fun _ hid =>
    hL (mem_mentions.2 (.inl ⟨item, hitem, hid⟩))
  operands v hv := hg.good (h.operands v hv) fun _ hid => hL (mem_mentions.2 (.inr (.inl ⟨v, hv, hid⟩)))
  scopes := h.scopes.mentioned.imp
    (fun _ hv => hg.good hv.1 fun id hid => hL (mem_mentions.2 (.inr (.inr (.inl (hv.2 id hid))))))
    fun id hid => hg.holds id (hL (mem_mentions.2 (.inr (.inr (.inl hid.2))))) _ hid.1
  builders id hid := hg.holds id (hL (mem_mentions.2 (.inr (.inr (.inr (.inl hid)))))) _ (h.builders id hid)
  memo key v hv := hg.good (h.memo key v hv) fun _ hid =>
    hL (mem_mentions.2 (.inr (.inr (.inr (.inr ⟨key, v, hv, hid⟩)))))

theorem withStore (h : m.Whole C g) (s : Store) : { m with store := s }.Whole C g :=
  ⟨h.program, h.operands, h.scopes, h.builders, h.memo⟩

theorem withScopes (h : m.Whole C g) {s : Scopes} (hs : s.All g.Good (g.At .lambda)) :
    { m with scopes := s }.Whole C g :=
  ⟨h.program, h.operands, hs, h.builders, h.memo⟩

theorem lookup? (h : m.Whole C g) {name : Name} {v : Value} (hv : m.scopes.lookup? name = some v) :
    g.Held (L ++ m.mentions) v := by
  obtain ⟨hgood, hid⟩ := h.scopes.mentioned.lookup? hv
  exact hgood.held fun id hv => List.mem_append_right _ (mem_mentions.2 (.inr (.inr (.inl (hid id hv)))))

theorem memoized (h : m.Whole C g) {key : String} {v : Value} (hv : m.memo.entries[key]? = some v) :
    g.Held (L ++ m.mentions) v :=
  (h.memo key v hv).held fun _ hid =>
    List.mem_append_right _ (mem_mentions.2 (.inr (.inr (.inr (.inr ⟨key, v, hv, hid⟩)))))

end Whole

end Machine

/-! ## Actions -/

/-- What is held outside of two machines that are side by side. -/
structure Backdrop where
  handles : Std.ExtTreeMap NodeId Nat compare := {}
  /-- The nodes that are held while the one machine runs. -/
  left : List NodeId := []
  /-- The nodes that are held while the other machine runs. -/
  right : List NodeId := []

/-- The bodies of lambdas are plain. Unless it is said otherwise, nothing is held by handles or outside of
the machines. -/
def Setting.plain (C : Cause → Prop) (B : Backdrop := {}) : Setting where
  handles := B.handles
  body := Plain C
  body_nil := by simp [Plain]
  start := 0
  left := B.left ++ B.handles.keys
  right := B.right ++ B.handles.keys

/-- Besides what is held outside, both machines have the nodes in `L` pinned. -/
theorem Setting.plain_pinned {C : Cause → Prop} {B : Backdrop} {pins pins' : Pins} {L : List NodeId}
    (hleft : ∀ id, id ∈ pins.get ↔ id ∈ B.left ∨ id ∈ L)
    (hright : ∀ id, id ∈ pins'.get ↔ id ∈ B.right ∨ id ∈ L) :
    (Setting.plain C B).Pinned pins pins' L := by
  have hkeys : ∀ id, id ∈ B.handles.keys ↔ id ∈ B.handles := fun id => Std.ExtTreeMap.mem_keys
  constructor
  · intro id
    show id ∈ pins.get ∨ id ∈ B.handles ↔ id ∈ L ++ (B.left ++ B.handles.keys)
    simp only [hleft, List.mem_append, hkeys]
    grind
  · intro id
    show id ∈ pins'.get ∨ id ∈ B.handles ↔ id ∈ L ++ (B.right ++ B.handles.keys)
    simp only [hright, List.mem_append, hkeys]
    grind

namespace MachineM

/-- The two outcomes are the same result, with machines as `S` says, or the same failure, with machines as `F`
says. -/
def Alike {α : Type} (C : Cause → Prop) (n : Nat) (S : α → Machine → Store → Prop)
    (F : Machine → Store → Prop) :
    EStateM.Result Failure Machine α → EStateM.Result Failure Machine α → Prop
  | .ok a m, .ok b m' => a = b ∧ ∃ s, m' = m.beside n s ∧ S a m s
  | .error f m, .error f' m' => f = f' ∧ (f.cause.isGraph = true → C f.cause) ∧
    ∃ s, m' = m.beside n s ∧ F m s
  | _, _ => False

namespace Alike

variable {α β : Type} {C : Cause → Prop} {n : Nat} {S S' : α → Machine → Store → Prop}
  {T : β → Machine → Store → Prop} {F F' : Machine → Store → Prop}

theorem imp {r r' : EStateM.Result Failure Machine α} (h : Alike C n S F r r')
    (hS : ∀ a m s, S a m s → S' a m s) (hF : ∀ m s, F m s → F' m s) : Alike C n S' F' r r' := by
  cases r <;> cases r'
  · obtain ⟨rfl, s, rfl, hs⟩ := h
    exact ⟨rfl, s, rfl, hS _ _ s hs⟩
  · exact h
  · exact h
  · obtain ⟨rfl, hc, s, rfl, hs⟩ := h
    exact ⟨rfl, hc, s, rfl, hF _ s hs⟩

theorem bind {x : MachineM α} {f : α → MachineM β} {pins pins' : Pins} {m : Machine} {s : Store}
    (hx : Alike C n S F (x pins m) (x pins' (m.beside n s)))
    (hf : ∀ a m' s', S a m' s' → Alike C n T F (f a pins m') (f a pins' (m'.beside n s'))) :
    Alike C n T F ((x >>= f) pins m) ((x >>= f) pins' (m.beside n s)) := by
  rw [bind_apply, bind_apply]
  generalize x pins m = r at hx ⊢
  generalize x pins' (m.beside n s) = r' at hx ⊢
  cases r <;> cases r'
  · obtain ⟨rfl, s', rfl, hs⟩ := hx
    exact hf _ _ s' hs
  · exact hx.elim
  · exact hx.elim
  · exact hx

end Alike

/-- The action does the same on machines that are side by side. -/
def Agree {α : Type} (C : Cause → Prop) (B : Backdrop) (n : Nat) (L : List NodeId) (g : Fragment)
    (m : Machine) (x : MachineM α) (Q : Fragment → α → Prop) : Prop :=
  m.Whole C g → ∀ (pins pins' : Pins) (s : Store), (Setting.plain C B).Pinned pins pins' L →
    (∀ id ∈ L, (g id).isSome = true) → Twin (.plain C B) g m.store s →
    Alike C n (fun a m' s' => ∃ g', Twin (.plain C B) g' m'.store s' ∧ m'.Whole C g' ∧ g.Leads [] L g' ∧ Q g' a)
      (fun m' s' => ∃ g', Twin (.plain C B) g' m'.store s' ∧ m'.Whole C g' ∧ g.Leads [] L g')
      (x pins m) (x pins' (m.beside n s))

namespace Agree

variable {C : Cause → Prop} {B : Backdrop} {n : Nat} {L : List NodeId} {g : Fragment} {m : Machine} {α β : Type}
  {x y : MachineM α} {Q Q' : Fragment → α → Prop} {R : Fragment → β → Prop} {f : α → MachineM β}

theorem ret {a : α} (ha : Q g a) : Agree C B n L g m (pure a) Q :=
  fun hm _ _ s _ _ ht => ⟨rfl, s, rfl, g, ht, hm, .refl g [] L, ha⟩

theorem bind (hx : Agree C B n L g m x Q)
    (hf : ∀ g' a m', g.Leads [] L g' → Q g' a → Agree C B n L g' m' (f a) R) :
    Agree C B n L g m (x >>= f) R := by
  intro hm pins pins' s hpins hL ht
  refine (hx hm pins pins' s hpins hL ht).bind fun a m' s' ⟨g', ht', hm', hg, hq⟩ => ?_
  exact (hf g' a m' hg hq hm' pins pins' s' hpins (hg.isSome hL) ht').imp
    (fun _ _ _ ⟨g'', ht'', hm'', hg', hq'⟩ => ⟨g'', ht'', hm'', hg.trans hg', hq'⟩)
    fun _ _ ⟨g'', ht'', hm'', hg'⟩ => ⟨g'', ht'', hm'', hg.trans hg'⟩

theorem imp (hx : Agree C B n L g m x Q) (hq : ∀ g' a, g.Leads [] L g' → Q g' a → Q' g' a) :
    Agree C B n L g m x Q' := by
  intro hm pins pins' s hpins hL ht
  exact (hx hm pins pins' s hpins hL ht).imp
    (fun a _ _ ⟨g', ht', hm', hg, hq'⟩ => ⟨g', ht', hm', hg, hq g' a hg hq'⟩) fun _ _ h => h

theorem congr (hy : Agree C B n L g m y Q) (hm : ∀ pins, x pins m = y pins m)
    (hb : ∀ pins s, x pins (m.beside n s) = y pins (m.beside n s)) : Agree C B n L g m x Q := by
  intro hw pins pins' s hpins hL ht
  rw [hm, hb]
  exact hy hw pins pins' s hpins hL ht

/-- What is known of the machine may be used. -/
theorem known (h : m.Whole C g → Agree C B n L g m x Q) : Agree C B n L g m x Q := fun hm => h hm hm

theorem fail {cause : Cause} (hc : cause.isGraph = false) :
    Agree C B n L g m (MachineM.fail cause : MachineM α) Q :=
  fun hm _ _ s _ _ ht => ⟨rfl, fun h => absurd h (by simp [hc]), s, rfl, g, ht, hm, .refl g [] L⟩

theorem throwThen {failure : Failure} {f : β → MachineM α} (hc : failure.cause.isGraph = false) :
    Agree C B n L g m ((throw failure : MachineM β) >>= f) Q :=
  fun hm _ _ s _ _ ht => ⟨rfl, fun h => absurd h (by simp [hc]), s, rfl, g, ht, hm, .refl g [] L⟩

theorem okThen {r : Except Failure α} (ok : ∀ a, r = .ok a → Agree C B n L g m (f a) R)
    (error : ∀ failure, r = .error failure → failure.cause.isGraph = false) :
    Agree C B n L g m (MachineM.ofExcept r >>= f) R := by
  cases r with
  | ok a => exact ok a rfl
  | error failure => exact throwThen (error failure rfl)

theorem getThen {f : Machine → MachineM α} (h : Agree C B n L g m (f m) Q)
    (hf : ∀ s, f (m.beside n s) = f m) : Agree C B n L g m ((get : MachineM Machine) >>= f) Q :=
  h.congr (fun _ => rfl) fun pins s => congrFun (congrFun (hf s) pins) (m.beside n s)

theorem modifyThen {h : Machine → Machine} {f : PUnit → MachineM α}
    (hf : Agree C B n L g (h m) (f ⟨⟩) Q) (hw : m.Whole C g → (h m).Whole C g)
    (hs : (h m).store = m.store) (hb : ∀ s, h (m.beside n s) = (h m).beside n s) :
    Agree C B n L g m ((modify h : MachineM PUnit) >>= f) Q := by
  intro hm pins pins' s hpins hL ht
  rw [bind_apply, bind_apply, modify_apply, modify_apply, hb]
  exact hf (hw hm) pins pins' s hpins hL (hs ▸ ht)

theorem setScopes {r : Except Failure Scopes}
    (ok : ∀ scopes, r = .ok scopes → m.scopes.All g.Good (g.At .lambda) → scopes.All g.Good (g.At .lambda))
    (error : ∀ failure, r = .error failure → failure.cause.isGraph = false) :
    Agree C B n L g m (MachineM.setScopes r) fun g' _ => g' = g := by
  cases r with
  | error failure => exact throwThen (error failure rfl)
  | ok scopes =>
    exact fun hm _ _ s _ _ ht => ⟨rfl, s, rfl, g, ht, hm.withScopes (ok scopes rfl hm.scopes), .refl g [] L, rfl⟩

theorem setScopesThen {r : Except Failure Scopes} {f : PUnit → MachineM α}
    (ok : ∀ scopes, r = .ok scopes → m.scopes.All g.Good (g.At .lambda) → scopes.All g.Good (g.At .lambda))
    (error : ∀ failure, r = .error failure → failure.cause.isGraph = false)
    (hf : ∀ m', Agree C B n L g m' (f ⟨⟩) Q) : Agree C B n L g m (MachineM.setScopes r >>= f) Q :=
  bind (setScopes ok error) fun _ _ m' _ h => h ▸ hf m'

/-- An action on the stores, while the nodes in `L` and what the machines mention are held. -/
theorem onStore {x : StoreM α} (hx : StoreM.Steady (.plain C B) [] (L ++ m.mentions) g x Q) :
    Agree C B n L g m (MachineM.onStore x) Q := by
  intro hm pins pins' s hpins hL ht
  have hsome : ∀ id ∈ L ++ m.mentions, (g id).isSome = true := fun id hid =>
    (List.mem_append.1 hid).elim (hL id) (hm.isSome id)
  have hxx := hx (pins.also fun _ => m.mentions) (pins'.also fun _ => m.mentions) m.store s
    (hpins.also fun id => by rw [List.nil_append, List.mem_append]) hsome ht
  have hwhole : ∀ g', g.Leads [] (L ++ m.mentions) g' → m.Whole C g' := fun _ hg =>
    hm.leads hg (List.subset_append_right ..)
  have hleads : ∀ g', g.Leads [] (L ++ m.mentions) g' → g.Leads [] L g' := fun _ hg =>
    ⟨hg.keeps, fun id hid => hg.holds id (List.mem_append_left _ hid)⟩
  have hb : (m.beside n s).mentions = m.mentions ∧ (m.beside n s).store = s := ⟨rfl, rfl⟩
  rw [onStore_apply, onStore_apply, hb.1, hb.2]
  cases hr : x (pins.also fun _ => m.mentions) m.store <;>
    cases hr' : x (pins'.also fun _ => m.mentions) s <;> rw [hr, hr'] at hxx
  · obtain ⟨rfl, g', ht', hg, hq⟩ := hxx
    exact ⟨rfl, _, rfl, g', ht', (hwhole g' hg).withStore _, hleads g' hg, hq⟩
  · exact hxx.elim
  · exact hxx.elim
  · obtain ⟨rfl, hc, g', ht', hg⟩ := hxx
    exact ⟨rfl, fun h => absurd h (by simp [hc]), _, rfl, g', ht', (hwhole g' hg).withStore _, hleads g' hg⟩

theorem keeping {ids : List NodeId} (hids : m.Whole C g → ∀ i ∈ ids, (g i).isSome = true)
    (hx : Agree C B n (ids ++ L) g m x Q) : Agree C B n L g m (MachineM.keeping ids x) Q := by
  intro hm pins pins' s hpins hL ht
  have hmem : ∀ id, id ∈ ids ++ L ↔ id ∈ L ∨ id ∈ ids := fun id => by rw [List.mem_append, or_comm]
  have hleads : ∀ g', g.Leads [] (ids ++ L) g' → g.Leads [] L g' := fun _ hg =>
    ⟨hg.keeps, fun id hid => hg.holds id (List.mem_append_right _ hid)⟩
  rw [keeping_apply, keeping_apply]
  exact (hx hm _ _ s (hpins.also hmem) (List.forall_mem_append.2 ⟨hids hm, hL⟩) ht).imp
    (fun _ _ _ ⟨g', ht', hm', hg, hq⟩ => ⟨g', ht', hm', hleads g' hg, hq⟩)
    fun _ _ ⟨g', ht', hm', hg⟩ => ⟨g', ht', hm', hleads g' hg⟩

theorem lookupThen {name : Name} {f : Value → MachineM α}
    (h : ∀ v, m.scopes.lookup? name = some v → Agree C B n L g m (f v) Q) :
    Agree C B n L g m (MachineM.lookup name >>= f) Q := by
  intro hm pins pins' s hpins hL ht
  have hb : (m.beside n s).scopes.lookup? name = m.scopes.lookup? name := rfl
  rw [bind_apply, bind_apply, lookup_apply, lookup_apply, hb]
  cases hl : m.scopes.lookup? name with
  | none => exact ⟨rfl, nofun, s, rfl, g, ht, hm, .refl g [] L⟩
  | some v => exact h v hl hm pins pins' s hpins hL ht

/-! ## Operands -/

theorem valueThen {operand : Operand} {f : Value → MachineM α}
    (h : ∀ v, operand = .value v → Agree C B n L g m (f v) Q) :
    Agree C B n L g m (MachineM.ofExcept operand.toValue >>= f) Q := by
  cases operand with
  | value v => exact h v rfl
  | var name => exact throwThen rfl

theorem variableThen {operand : Operand} {f : Name → MachineM α}
    (h : ∀ name, Agree C B n L g m (f name) Q) :
    Agree C B n L g m (MachineM.ofExcept operand.toVariable >>= f) Q := by
  cases operand with
  | value v => exact throwThen rfl
  | var name => exact h name

theorem valuesThen {operands : List Operand} {f : List Value → MachineM α}
    (h : ∀ vs, operands = vs.map Operand.value → Agree C B n L g m (f vs) Q) :
    Agree C B n L g m (MachineM.ofExcept (operands.mapM Operand.toValue) >>= f) Q := by
  refine okThen (fun vs hvs => h vs (MachineM.eq_map_of_mapM_toValue hvs)) fun failure hf => ?_
  obtain ⟨o, _, hf⟩ := exists_of_mapM_error hf
  cases o <;> cases hf
  rfl

theorem datumThen {v : Value} {f : Datum → MachineM α}
    (h : ∀ d, v = .datum d → Agree C B n L g m (f d) Q) :
    Agree C B n L g m (MachineM.ofExcept v.toDatum >>= f) Q :=
  okThen (fun d hd => h d (Value.eq_of_toDatum hd)) fun _ hf => by rw [Value.toDatum_error hf]; rfl

end Agree

end MachineM

end Mosaic
