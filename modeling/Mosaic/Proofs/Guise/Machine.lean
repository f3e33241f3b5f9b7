import Mosaic.Proofs.Guise.Store
import Mosaic.Proofs.Machine.Actions
import Mosaic.Proofs.Machine.Scopes

/-!
# Machines in another guise

A guise gives a machine another configuration, other source lines in its code, more contexts below its own,
and more to run after its own program. `Disguised G r m x y K` says that on the machine in the guise `G`,
the action `y` does what `x` does on the machine `m`: the outcome is the same up to `r`, and the machine it
leaves is again in the guise. The rules follow the ways actions are composed. They need a context of the
machine's own on top of those of the guise, and what the guise mentions must be pinned without it.
-/

namespace Mosaic

open Mosaic.Graph (NodeId Pool)

/-! ## Scopes with more contexts below -/

namespace Scopes

variable {s : Scopes} {C : List Context}

/-- The scopes with more contexts below. -/
def above (C : List Context) (s : Scopes) : Scopes := ⟨s.contexts ++ C⟩

/-- There is a context on top of those below, if there are any. -/
def Covers (C : List Context) (s : Scopes) : Prop := C = [] ∨ s.contexts ≠ []

theorem Covers.cases (h : s.Covers C) : C = [] ∨ ∃ c cs, s.contexts = c :: cs :=
  h.imp_right List.exists_cons_of_ne_nil

@[simp] theorem above_nil : s.above [] = s := by simp [above]

theorem lookup?_above (h : s.Covers C) (name : Name) : (s.above C).lookup? name = s.lookup? name := by
  obtain rfl | ⟨c, cs, hs⟩ := h.cases
  · rw [above_nil]
  · simp [lookup?, above, hs]

theorem modifyFrame_above (h : s.Covers C) (f : Frame → Frame) :
    (s.above C).modifyFrame f = (s.modifyFrame f).map (above C) := by
  obtain rfl | ⟨c, cs, hs⟩ := h.cases
  · cases hf : s.modifyFrame f <;> simp [hf, Except.map]
  · cases hc : c.frames <;> simp [modifyFrame, above, hs, hc, Except.map]

theorem assign_above (h : s.Covers C) (name : Name) (v : Value) :
    (s.above C).assign name v = (s.assign name v).map (above C) := by
  obtain rfl | ⟨c, cs, hs⟩ := h.cases
  · cases hf : s.assign name v <;> simp [hf, Except.map]
  · cases hc : Context.assign? name v c.frames <;> simp [assign, above, hs, hc, Except.map]

theorem pushFrame_above (h : s.Covers C) : (s.above C).pushFrame = s.pushFrame.map (above C) := by
  obtain rfl | ⟨c, cs, hs⟩ := h.cases
  · cases hf : s.pushFrame <;> simp [hf, Except.map]
  · simp [pushFrame, above, hs, Except.map]

theorem popFrame_above (h : s.Covers C) :
    (s.above C).popFrame = s.popFrame.map fun r => (r.1, r.2.above C) := by
  obtain rfl | ⟨c, cs, hs⟩ := h.cases
  · cases hf : s.popFrame <;> simp [hf, Except.map]
  · cases hc : c.frames <;> simp [popFrame, above, hs, hc, Except.map]

theorem popContext_above (h : s.Covers C) :
    (s.above C).popContext = s.popContext.map fun r => (r.1, r.2.above C) := by
  obtain rfl | ⟨c, cs, hs⟩ := h.cases
  · cases hf : s.popContext <;> simp [hf, Except.map]
  · simp [popContext, above, hs, Except.map]

theorem takeParked_above (h : s.Covers C) :
    (s.above C).takeParked = s.takeParked.map fun r => (r.1, r.2.above C) := by
  have hparked : (s.above C).parked = s.parked := by
    obtain rfl | ⟨c, cs, hs⟩ := h.cases
    · rw [above_nil]
    · simp [parked, above, hs]
  rw [takeParked, modifyFrame_above h, hparked, takeParked]
  cases s.modifyFrame fun f => { f with parked := [] } <;> rfl

theorem pushContext_above (c : Context) : (s.above C).pushContext c = (s.pushContext c).above C := rfl

end Scopes

/-! ## Guises -/

structure Guise where
  config : Config
  /-- What becomes of the source lines. -/
  lines : Lines := .keep
  /-- The contexts below. -/
  contexts : List Context := []
  /-- What is to be run after the program. -/
  program : Program := []

/-- What the guise mentions. -/
def Guise.nodes (G : Guise) : List NodeId :=
  G.contexts.flatMap Context.nodes ++ programNodes G.program

/-- The effect with other source lines. -/
def Effect.relined (ℓ : Lines) : Effect → Effect
  | .items program => .items (Mosaic.relined ℓ program)
  | e => e

namespace Machine

/-- The machine in a guise. -/
def under (G : Guise) (m : Machine) : Machine :=
  { m with
    config := G.config
    store := m.store.relined G.lines
    scopes := m.scopes.above G.contexts
    program := relined G.lines m.program ++ G.program }

/-- The machines are as deep in contexts, and have the same open clusters. -/
structure Level (m m' : Machine) : Prop where
  config : m'.config = m.config
  contexts : m'.scopes.contexts.length = m.scopes.contexts.length
  builders : m'.builders = m.builders

namespace Level

variable {m m' m'' : Machine}

theorem refl (m : Machine) : m.Level m := ⟨rfl, rfl, rfl⟩

theorem trans (h : m.Level m') (h' : m'.Level m'') : m.Level m'' :=
  ⟨h'.config.trans h.config, h'.contexts.trans h.contexts, h'.builders.trans h.builders⟩

theorem covers {C : List Context} (h : m.Level m') (hm : m.scopes.Covers C) : m'.scopes.Covers C :=
  hm.imp_right fun hne heq => hne (by simpa [heq, eq_comm] using h.contexts)

end Level

variable {G : Guise} {m : Machine}

theorem mem_mentions_under {id : NodeId} :
    id ∈ (m.under G).mentions ↔ id ∈ m.mentions ∨ id ∈ G.nodes := by
  have hscopes : (m.under G).scopes.nodes = m.scopes.nodes ++ G.contexts.flatMap Context.nodes :=
    List.flatMap_append
  have hprogram : programNodes (m.under G).program = programNodes m.program ++ programNodes G.program := by
    rw [under, programNodes_append, programNodes_relined]
  have hrest : (m.under G).operands = m.operands ∧ (m.under G).builders = m.builders ∧
      (m.under G).memo = m.memo := ⟨rfl, rfl, rfl⟩
  simp only [Guise.nodes, mentions, hscopes, hprogram, hrest, List.mem_append]
  constructor <;> (intro h; simp only [or_assoc] at h ⊢; grind)

end Machine

namespace MachineM

/-- The first pins are the second ones and what the guise mentions. -/
def Pinned (G : Guise) (pins pins' : Pins) : Prop :=
  ∀ id, id ∈ pins.get ↔ id ∈ pins'.get ∨ id ∈ G.nodes

/-- On the machine in the guise, `y` does what `x` does on `m` while what the guise mentions is pinned;
then `K` holds. -/
def Disguised {α β : Type} (G : Guise) (r : α → β) (m : Machine) (x : MachineM α) (y : MachineM β)
    (K : α → Machine → Prop) : Prop :=
  ∀ pins pins', Pinned G pins pins' →
    Outcome (x pins m) (fun failure m' => y pins' (m.under G) = .error failure (m'.under G)) fun a m' =>
      y pins' (m.under G) = .ok (r a) (m'.under G) ∧ K a m'

/-- The action does the same in the guise, and leaves the machine as deep. -/
abbrev Unaware {α : Type} (G : Guise) (m : Machine) (x : MachineM α) : Prop :=
  Disguised G id m x x fun _ m' => m.Level m'

namespace Disguised

variable {G : Guise} {α β γ δ : Type} {r : α → β} {r' : γ → δ} {m : Machine} {x : MachineM α}
  {y : MachineM β} {f : α → MachineM γ} {g : β → MachineM δ} {K K' : α → Machine → Prop}
  {L : γ → Machine → Prop}

theorem ret {a : α} (h : K a m) : Disguised G r m (pure a) (pure (r a)) K := fun _ _ _ => ⟨rfl, h⟩

theorem bind (hx : Disguised G r m x y K) (hf : ∀ a m', K a m' → Disguised G r' m' (f a) (g (r a)) L) :
    Disguised G r' m (x >>= f) (y >>= g) L := by
  intro pins pins' hpins
  refine .bind ((hx pins pins' hpins).imp (fun failure m' hy => ?_) fun _ _ h => h) fun a m' ⟨hy, hK⟩ => ?_
  · rw [bind_apply, hy]
  · have hyg : (y >>= g) pins' (m.under G) = g (r a) pins' (m'.under G) := by rw [bind_apply, hy]
    rw [hyg]
    exact hf a m' hK pins pins' hpins

theorem imp (hx : Disguised G r m x y K) (h : ∀ a m', K a m' → K' a m') : Disguised G r m x y K' :=
  fun pins pins' hpins => (hx pins pins' hpins).imp (fun _ _ hy => hy) fun a m' ha => ha.imp_right (h a m')

theorem keeping {ids : List NodeId} (hx : Disguised G r m x y K) :
    Disguised G r m (MachineM.keeping ids x) (MachineM.keeping ids y) K := by
  intro pins pins' hpins
  refine hx _ _ fun id => ?_
  rw [Pins.mem_also, Pins.mem_also, hpins]
  exact or_right_comm

theorem fail {cause : Cause} :
    Disguised G r m (MachineM.fail cause : MachineM α) (MachineM.fail cause : MachineM β) K :=
  fun _ _ _ => rfl

theorem failThen {cause : Cause} {f : α → MachineM γ} {g : α → MachineM δ} :
    Disguised G r' m (MachineM.fail cause >>= f) (MachineM.fail cause >>= g) L :=
  fun _ _ _ => rfl

theorem mapThen {e : Except Failure α} {e' : Except Failure β} (he : e' = e.map r)
    (hf : ∀ a, e = .ok a → Disguised G r' m (f a) (g (r a)) L) :
    Disguised G r' m (MachineM.ofExcept e >>= f) (MachineM.ofExcept e' >>= g) L := by
  subst he
  cases e with
  | ok a => exact hf a rfl
  | error failure => exact fun _ _ _ => rfl

theorem okThen {e : Except Failure α} {g : α → MachineM δ}
    (hf : ∀ a, e = .ok a → Disguised G r' m (f a) (g a) L) :
    Disguised G r' m (MachineM.ofExcept e >>= f) (MachineM.ofExcept e >>= g) L :=
  mapThen (r := id) (by cases e <;> rfl) hf

theorem cond {p : Prop} [Decidable p] {x' : MachineM α} {y' : MachineM β}
    (hx : p → Disguised G r m x y K) (hx' : ¬ p → Disguised G r m x' y' K) :
    Disguised G r m (if p then x else x') (if p then y else y') K := by
  by_cases h : p
  · rw [if_pos h, if_pos h]
    exact hx h
  · rw [if_neg h, if_neg h]
    exact hx' h

theorem getThen {f : Machine → MachineM γ} {g : Machine → MachineM δ}
    (h : Disguised G r' m (f m) (g (m.under G)) L) :
    Disguised G r' m ((get : MachineM Machine) >>= f) ((get : MachineM Machine) >>= g) L :=
  h

theorem modifyThen {h h' : Machine → Machine} {f : PUnit → MachineM γ} {g : PUnit → MachineM δ}
    (hu : h' (m.under G) = (h m).under G) (hf : Disguised G r' (h m) (f ⟨⟩) (g ⟨⟩) L) :
    Disguised G r' m ((modify h : MachineM PUnit) >>= f) ((modify h' : MachineM PUnit) >>= g) L := by
  intro pins pins' hpins
  rw [bind_apply, bind_apply, modify_apply, modify_apply, hu]
  exact hf pins pins' hpins

theorem setScopes {e e' : Except Failure Scopes} {K : PUnit → Machine → Prop}
    (he : e' = e.map (Scopes.above G.contexts)) (hk : ∀ s, e = .ok s → K ⟨⟩ { m with scopes := s }) :
    Disguised G id m (MachineM.setScopes e) (MachineM.setScopes e') K := by
  subst he
  cases e with
  | ok s => exact fun _ _ _ => ⟨rfl, hk s rfl⟩
  | error failure => exact fun _ _ _ => rfl

/-- An action on the store, which keeps what the machine mentions in the guise. -/
theorem onStore {x : StoreM α} {y : StoreM β} (hx : StoreM.Relined G.lines r x y) :
    Disguised G r m (MachineM.onStore x) (MachineM.onStore y) fun a m' =>
      ∃ pins s, x pins m.store = .ok a s ∧ m' = { m with store := s } := by
  intro pins pins' hpins
  have hpins' : (pins'.also fun _ => (m.under G).mentions) = pins.also fun _ => m.mentions := by
    refine Pins.ext_mem fun id => ?_
    rw [Pins.mem_also, Pins.mem_also, Machine.mem_mentions_under, hpins, or_right_comm, or_assoc]
  rw [onStore_apply, onStore_apply, hpins']
  have hstore : (m.under G).store = m.store.relined G.lines := rfl
  rw [hstore, hx]
  cases hr : x (pins.also fun _ => m.mentions) m.store with
  | ok a s => exact ⟨rfl, _, s, hr, rfl⟩
  | error failure s => rfl

end Disguised

namespace Unaware

open Disguised (getThen modifyThen okThen failThen)

variable {G : Guise} {α β : Type} {m : Machine} {x : MachineM α} {f : α → MachineM β}

theorem ret {a : α} : Unaware G m (pure a) := Disguised.ret (.refl m)

theorem keeping {ids : List NodeId} (hx : Unaware G m x) : Unaware G m (MachineM.keeping ids x) :=
  Disguised.keeping hx

theorem bind (hx : Unaware G m x) (hf : ∀ a m', m.Level m' → Unaware G m' (f a)) :
    Unaware G m (x >>= f) :=
  Disguised.bind hx fun a m' h => (hf a m' h).imp fun _ _ h' => h.trans h'

theorem onStore {x : StoreM α} (hx : StoreM.Blind G.lines x) : Unaware G m (MachineM.onStore x) :=
  (Disguised.onStore hx).imp fun _ _ ⟨_, _, _, h⟩ => h ▸ ⟨rfl, rfl, rfl⟩

theorem setScopes {e e' : Except Failure Scopes} (he : e' = e.map (Scopes.above G.contexts))
    (hs : ∀ s, e = .ok s → s.contexts.length = m.scopes.contexts.length) :
    Disguised G id m (MachineM.setScopes e) (MachineM.setScopes e') fun _ m' => m.Level m' :=
  Disguised.setScopes he fun s h => ⟨rfl, hs s h, rfl⟩

theorem lookup (hm : m.scopes.Covers G.contexts) (name : Name) :
    Disguised G id m (MachineM.lookup name) (MachineM.lookup name) fun v m' =>
      m.scopes.lookup? name = some v ∧ m' = m := by
  intro pins pins' _
  rw [lookup_apply, lookup_apply]
  have h : (m.under G).scopes.lookup? name = m.scopes.lookup? name := Scopes.lookup?_above hm name
  rw [h]
  cases m.scopes.lookup? name with
  | some v => exact ⟨rfl, rfl, rfl⟩
  | none => rfl

end Unaware

end MachineM

end Mosaic
