import Mosaic.Proofs.Dependencies.Moored
import Mosaic.Proofs.Published.Writes

/-!
# Operations on two footings

`Follows X m s x y K` says that on the machine `m` with the scopes `s` instead of its own, the action `y` does
what `x` does on `m`: the result is the same, or the failure is, and so is what becomes of the machine apart
from its scopes. The scopes must keep the same nodes alive but for those in `X`, which are pinned. Each
operation of sighted code follows itself from scopes to others that are moored beside them, and leads to such
scopes again.
-/

namespace Mosaic

open Mosaic.Graph (NodeId Pool)

/-- The machine with other scopes. -/
def Machine.withScopes (m : Machine) (s : Scopes) : Machine := { m with scopes := s }

/-- The scopes keep the same nodes alive, but for those in `X`. -/
def Scopes.Level (X : List NodeId) (s s' : Scopes) : Prop :=
  ∀ id, id ∈ X ∨ id ∈ s'.nodes ↔ id ∈ X ∨ id ∈ s.nodes

theorem Machine.mem_mentions_withScopes {X : List NodeId} {m : Machine} {s : Scopes}
    (h : m.scopes.Level X s) (id : NodeId) :
    id ∈ X ∨ id ∈ (m.withScopes s).mentions ↔ id ∈ X ∨ id ∈ m.mentions := by
  have hid := h id
  simp only [mentions, List.mem_append] at hid ⊢
  simp only [withScopes]
  grind

namespace MachineM

/-- With the scopes `s`, `y` does what `x` does on `m`; then `K` holds of the result, the machine that `x`
leaves, and the other scopes. -/
def Follows {α : Type} (X : List NodeId) (m : Machine) (s : Scopes) (x y : MachineM α)
    (K : α → Machine → Scopes → Prop) : Prop :=
  ∀ pins : Pins, (∀ id ∈ X, id ∈ pins.get) →
    Outcome (x pins m) (fun failure m₁ => ∃ s₁, y pins (m.withScopes s) = .error failure (m₁.withScopes s₁))
      fun a m₁ => ∃ s₁, y pins (m.withScopes s) = .ok a (m₁.withScopes s₁) ∧ K a m₁ s₁

namespace Follows

variable {X : List NodeId} {α β : Type} {m : Machine} {s : Scopes} {x y : MachineM α} {f g : α → MachineM β}
  {K K' : α → Machine → Scopes → Prop} {L : β → Machine → Scopes → Prop}

theorem ret {a : α} (h : K a m s) : Follows X m s (pure a) (pure a) K := fun _ _ => ⟨s, rfl, h⟩

theorem fail {cause : Cause} : Follows X m s (MachineM.fail cause : MachineM α) (MachineM.fail cause) K :=
  fun _ _ => ⟨s, rfl⟩

theorem failThen {cause : Cause} : Follows X m s (MachineM.fail cause >>= f) (MachineM.fail cause >>= g) L :=
  fun _ _ => ⟨s, rfl⟩

theorem bind (hx : Follows X m s x y K) (hf : ∀ a m₁ s₁, K a m₁ s₁ → Follows X m₁ s₁ (f a) (g a) L) :
    Follows X m s (x >>= f) (y >>= g) L := by
  intro pins hpins
  refine .bind ((hx pins hpins).imp (fun failure m₁ h => ?_) fun _ _ h => h) fun a m₁ h => ?_
  · obtain ⟨s₁, hy⟩ := h
    exact ⟨s₁, by rw [bind_apply, hy]⟩
  · obtain ⟨s₁, hy, hK⟩ := h
    have hyg : (y >>= g) pins (m.withScopes s) = g a pins (m₁.withScopes s₁) := by rw [bind_apply, hy]
    rw [hyg]
    exact hf a m₁ s₁ hK pins hpins

theorem keeping {ids : List NodeId} (hx : Follows X m s x y K) :
    Follows X m s (MachineM.keeping ids x) (MachineM.keeping ids y) K :=
  fun pins hpins => hx (pins.also fun _ => ids) fun id hid => Pins.mem_also.2 (.inl (hpins id hid))

theorem imp (hx : Follows X m s x y K) (h : ∀ a m₁ s₁, K a m₁ s₁ → K' a m₁ s₁) : Follows X m s x y K' :=
  fun pins hpins => (hx pins hpins).imp (fun _ _ hf => hf) fun a m₁ ha =>
    ha.imp fun s₁ hs => hs.imp_right (h a m₁ s₁)

theorem and {E : Machine → Prop} {Q : α → Machine → Prop} (hx : Follows X m s x y K) (hq : Ends x m E Q) :
    Follows X m s x y fun a m₁ s₁ => K a m₁ s₁ ∧ Q a m₁ :=
  fun pins hpins => ((hx pins hpins).and (hq pins)).imp (fun _ _ hf => hf.1) fun _ _ ha =>
    ha.1.imp fun _ hs => hs.imp_right fun hK => ⟨hK, ha.2⟩

theorem pairedThen {γ : Type} {R : α → γ → Prop} {e : Except Failure α} {e' : Except Failure γ}
    {g : γ → MachineM β} (he : Paired R e e')
    (hf : ∀ a b, e = .ok a → e' = .ok b → R a b → Follows X m s (f a) (g b) L) :
    Follows X m s (MachineM.ofExcept e >>= f) (MachineM.ofExcept e' >>= g) L := by
  cases e with
  | ok a =>
    cases e' with
    | ok b => exact hf a b rfl rfl he
    | error failure => exact he.elim
  | error failure =>
    cases e' with
    | ok b => exact he.elim
    | error failure' =>
      obtain rfl : failure' = failure := he
      exact fun _ _ => ⟨s, rfl⟩

theorem okThen {e : Except Failure α} (hf : ∀ a, e = .ok a → Follows X m s (f a) (g a) L) :
    Follows X m s (MachineM.ofExcept e >>= f) (MachineM.ofExcept e >>= g) L := by
  cases e with
  | ok a => exact hf a rfl
  | error failure => exact fun _ _ => ⟨s, rfl⟩

theorem cond {p : Prop} [Decidable p] {x' y' : MachineM α} (hx : p → Follows X m s x y K)
    (hx' : ¬ p → Follows X m s x' y' K) : Follows X m s (if p then x else x') (if p then y else y') K := by
  by_cases h : p
  · rw [if_pos h, if_pos h]
    exact hx h
  · rw [if_neg h, if_neg h]
    exact hx' h

theorem getThen {f g : Machine → MachineM β} (h : Follows X m s (f m) (g (m.withScopes s)) L) :
    Follows X m s ((get : MachineM Machine) >>= f) ((get : MachineM Machine) >>= g) L :=
  h

theorem modifyThen {h h' : Machine → Machine} {f g : PUnit → MachineM β} {t : Scopes}
    (hs : h' (m.withScopes s) = (h m).withScopes t) (hf : Follows X (h m) t (f ⟨⟩) (g ⟨⟩) L) :
    Follows X m s ((modify h : MachineM PUnit) >>= f) ((modify h' : MachineM PUnit) >>= g) L := by
  intro pins hpins
  rw [bind_apply, bind_apply, modify_apply, modify_apply, hs]
  exact hf pins hpins

theorem setScopes {R : Scopes → Scopes → Prop} {e e' : Except Failure Scopes} {K : PUnit → Machine → Scopes → Prop}
    (he : Paired R e e') (hk : ∀ s₁ s₁', e = .ok s₁ → e' = .ok s₁' → R s₁ s₁' → K ⟨⟩ (m.withScopes s₁) s₁') :
    Follows X m s (MachineM.setScopes e) (MachineM.setScopes e') K :=
  pairedThen he fun s₁ s₁' h h' hr _ _ => ⟨s₁', rfl, hk s₁ s₁' h h' hr⟩

/-- An action on the store does the same, since the same nodes are kept. -/
theorem onStore (hs : m.scopes.Level X s) (x : StoreM α) :
    Follows X m s (MachineM.onStore x) (MachineM.onStore x) fun a m₁ s₁ =>
      s₁ = s ∧ ∃ pins s', x pins m.store = .ok a s' ∧ m₁ = { m with store := s' } := by
  intro pins hpins
  have hpins' : (pins.also fun _ => (m.withScopes s).mentions) = pins.also fun _ => m.mentions := by
    refine Pins.ext_mem fun id => ?_
    have hid := Machine.mem_mentions_withScopes hs id
    have hX := hpins id
    simp only [Pins.mem_also]
    grind
  rw [onStore_apply, onStore_apply, hpins', show (m.withScopes s).store = m.store from rfl]
  cases hr : x (pins.also fun _ => m.mentions) m.store with
  | ok a s' => exact ⟨s, rfl, rfl, _, s', hr, rfl⟩
  | error failure s' => exact ⟨s, rfl⟩

theorem lookup {name : Name} (hname : s.lookup? name = m.scopes.lookup? name) :
    Follows X m s (MachineM.lookup name) (MachineM.lookup name) fun v m₁ s₁ =>
      m.scopes.lookup? name = some v ∧ m₁ = m ∧ s₁ = s := by
  intro pins _
  rw [lookup_apply, lookup_apply, show (m.withScopes s).scopes = s from rfl, hname]
  cases hv : m.scopes.lookup? name with
  | some v => exact ⟨s, rfl, rfl, rfl, rfl⟩
  | none => exact ⟨s, rfl⟩

end Follows

/-- The action follows itself, and leaves the scopes alone. -/
abbrev Idles {α : Type} (X : List NodeId) (m : Machine) (s : Scopes) (x : MachineM α) : Prop :=
  Follows X m s x x fun _ m₁ s₁ => m₁.scopes = m.scopes ∧ s₁ = s

namespace Idles

open Mosaic.MachineM.Follows (okThen getThen modifyThen failThen cond)

variable {X : List NodeId} {α β : Type} {m : Machine} {s : Scopes} {x : MachineM α} {f : α → MachineM β}

theorem ret {a : α} : Idles X m s (pure a) := Follows.ret ⟨rfl, rfl⟩

theorem fail {cause : Cause} : Idles X m s (MachineM.fail cause : MachineM α) := Follows.fail

theorem bind (hx : Idles X m s x) (hf : ∀ a m₁, m₁.scopes = m.scopes → Idles X m₁ s (f a)) :
    Idles X m s (x >>= f) := by
  refine Follows.bind hx fun a m₁ s₁ ⟨hm₁, hs₁⟩ => ?_
  subst hs₁
  exact (hf a m₁ hm₁).imp fun _ _ _ h => ⟨h.1.trans hm₁, h.2⟩

theorem keeping {ids : List NodeId} (hx : Idles X m s x) : Idles X m s (MachineM.keeping ids x) :=
  Follows.keeping hx

theorem onStore (hs : m.scopes.Level X s) (x : StoreM α) : Idles X m s (MachineM.onStore x) :=
  (Follows.onStore hs x).imp fun _ _ _ ⟨hs₁, _, _, _, hm₁⟩ => ⟨hm₁ ▸ rfl, hs₁⟩

theorem valueOf (hs : m.scopes.Level X s) (ids : List NodeId) (x : StoreM Value) :
    Idles X m s (do return .value (← MachineM.keeping ids (MachineM.onStore x)) : MachineM Effect) :=
  bind (keeping (onStore hs x)) fun _ _ _ => ret

theorem destructure (hs : m.scopes.Level X s) (v : Value) (n : Nat) :
    Idles X m s (MachineM.destructure v n) := by
  unfold MachineM.destructure
  split
  · exact ret
  · split
    · exact onStore hs _
    · exact fail

theorem element? (hs : m.scopes.Level X s) (source : Value) (index : Nat) :
    Idles X m s (MachineM.element? source index) := by
  unfold MachineM.element?
  split
  · exact onStore hs _
  · split
    · exact ret
    · exact fail
  · exact fail

theorem closeCluster : Idles X m s MachineM.closeCluster := by
  refine getThen ?_
  rw [show (m.withScopes s).builders = m.builders from rfl]
  split
  · exact fail
  · exact modifyThen (by rfl) (Follows.ret ⟨rfl, rfl⟩)

theorem schedule (hs : m.scopes.Level X s) (var : Name) (index : Nat) (body : Program) (source : Value) :
    Idles X m s (MachineM.schedule var index body source) := by
  rw [schedule_eq]
  refine bind (element? hs source index) fun v? m₁ _ => ?_
  split
  · exact ret
  · exact closeCluster

theorem openCluster (hs : m.scopes.Level X s) (var : Name) (body : Program) (source : Operand) :
    Idles X m s (MachineM.openCluster var body source) := by
  refine okThen fun v _ => bind (keeping (onStore hs _)) fun builder m₁ hm₁ => ?_
  exact modifyThen (by rfl) (schedule (hm₁ ▸ hs) var 0 body v)

theorem addResult (hs : m.scopes.Level X s) (var : Name) (index : Nat) (body : Program)
    (result source : Operand) : Idles X m s (MachineM.addResult var index body result source) := by
  refine okThen fun v _ => okThen fun w _ => okThen fun d _ => getThen ?_
  rw [show (m.withScopes s).builders = m.builders from rfl]
  split
  · exact fail
  · exact bind (onStore hs _) fun _ m₁ hm₁ => schedule (hm₁ ▸ hs) var index body w

theorem memoize (key : String) (v : Value) : Idles X m s (MachineM.memoize key v) :=
  modifyThen (by rfl) (Follows.ret ⟨rfl, rfl⟩)

end Idles

end MachineM

end Mosaic
