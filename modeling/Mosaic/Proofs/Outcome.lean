import Mosaic.Machine.Basic

/-!
# What comes of an action

An action on a store and an action of a machine are both run with pins from a state, and come to a result or
fail, and leave a state in either case. An `Outcome` is a condition on the result and the state, with another
one for a failure. The rules for returning, failing and going on with another action are here only: what is
proved of all actions elsewhere is an outcome, under the conditions of its own, for these pins or for all.
-/

namespace Mosaic

/-- An action on states of the type. -/
abbrev Action (σ : Type) := ReaderT Pins (EStateM Failure σ)

/-- The action has come to a result and a state as `Q` says, or it has failed, and `E` holds of the failure and
the state. -/
def Outcome {σ α : Type} (r : EStateM.Result Failure σ α) (E : Failure → σ → Prop) (Q : α → σ → Prop) : Prop :=
  match r with
  | .ok a s => Q a s
  | .error failure s => E failure s

section

variable {σ α β : Type} {r : EStateM.Result Failure σ α} {x : Action σ α} {f : α → Action σ β} {pins : Pins}
  {s s' : σ} {E E' : Failure → σ → Prop} {Q Q' : α → σ → Prop} {R : β → σ → Prop}

theorem Action.bind_apply (x : Action σ α) (f : α → Action σ β) :
    (x >>= f) pins s =
      match x pins s with
      | .ok a s' => f a pins s'
      | .error failure s' => .error failure s' := by
  show EStateM.bind (x pins) (fun a => f a pins) s = _
  unfold EStateM.bind
  cases x pins s <;> rfl

namespace Outcome

theorem intro (ok : ∀ a s', r = .ok a s' → Q a s') (error : ∀ failure s', r = .error failure s' → E failure s') :
    Outcome r E Q := by
  cases r with
  | ok a s' => exact ok a s' rfl
  | error failure s' => exact error failure s' rfl

theorem ok {a : α} (h : Outcome r E Q) (hr : r = .ok a s') : Q a s' := by
  subst hr
  exact h

theorem error {failure : Failure} (h : Outcome r E Q) (hr : r = .error failure s') : E failure s' := by
  subst hr
  exact h

theorem imp (h : Outcome r E Q) (hE : ∀ failure s', E failure s' → E' failure s')
    (hQ : ∀ a s', Q a s' → Q' a s') : Outcome r E' Q' := by
  cases r with
  | ok a s' => exact hQ a s' h
  | error failure s' => exact hE failure s' h

theorem and (h : Outcome r E Q) (h' : Outcome r E' Q') :
    Outcome r (fun failure s' => E failure s' ∧ E' failure s') fun a s' => Q a s' ∧ Q' a s' := by
  cases r with
  | ok a s' => exact ⟨h, h'⟩
  | error failure s' => exact ⟨h, h'⟩

theorem ret {a : α} (h : Q a s) : Outcome ((pure a : Action σ α) pins s) E Q := h

theorem bind (h : Outcome (x pins s) E Q) (hf : ∀ a s', Q a s' → Outcome (f a pins s') E R) :
    Outcome ((x >>= f) pins s) E R := by
  rw [Action.bind_apply]
  cases hr : x pins s with
  | ok a s' => exact hf a s' (h.ok hr)
  | error failure s' => exact h.error hr

end Outcome

/-! ## Whatever is pinned -/

/-- From the state, whatever is pinned, the action has this outcome. -/
def Action.Ends (x : Action σ α) (s : σ) (E : Failure → σ → Prop) (Q : α → σ → Prop) : Prop :=
  ∀ pins, Outcome (x pins s) E Q

namespace Action.Ends

theorem ok (h : Ends x s E Q) {a : α} (hr : x pins s = .ok a s') : Q a s' := (h pins).ok hr

theorem error (h : Ends x s E Q) {failure : Failure} (hr : x pins s = .error failure s') : E failure s' :=
  (h pins).error hr

theorem imp (h : Ends x s E Q) (hE : ∀ failure s', E failure s' → E' failure s')
    (hQ : ∀ a s', Q a s' → Q' a s') : Ends x s E' Q' :=
  fun pins => (h pins).imp hE hQ

theorem and (h : Ends x s E Q) (h' : Ends x s E' Q') :
    Ends x s (fun failure s' => E failure s' ∧ E' failure s') fun a s' => Q a s' ∧ Q' a s' :=
  fun pins => (h pins).and (h' pins)

theorem ret {a : α} (h : Q a s) : Ends (pure a) s E Q := fun _ => h

theorem fail {failure : Failure} (h : E failure s) : Ends (throw failure : Action σ α) s E Q := fun _ => h

theorem bind (h : Ends x s E Q) (hf : ∀ a s', Q a s' → Ends (f a) s' E R) : Ends (x >>= f) s E R :=
  fun pins => (h pins).bind fun a s' ha => hf a s' ha pins

/-- What is held besides makes no difference. -/
theorem keeping {ids : List Graph.NodeId} (h : Ends x s E Q) :
    Ends (fun pins => x (pins.also fun _ => ids)) s E Q :=
  fun _ => h _

theorem getThen {f : σ → Action σ α} (h : Ends (f s) s E Q) : Ends ((get : Action σ σ) >>= f) s E Q := h

theorem modifyThen {g : σ → σ} {f : PUnit → Action σ α} (h : Ends (f ⟨⟩) (g s) E Q) :
    Ends ((modify g : Action σ PUnit) >>= f) s E Q :=
  h

theorem setThen {f : PUnit → Action σ α} (h : Ends (f ⟨⟩) s' E Q) :
    Ends ((set s' : Action σ PUnit) >>= f) s E Q :=
  h

/-! What is common to the actions of a machine. -/

variable {m : Machine} {E : Failure → Machine → Prop} {Q : α → Machine → Prop} {R : β → Machine → Prop}
  {f : α → MachineM β}

theorem okThen {y : Except Failure α} (ok : ∀ a, y = .ok a → Ends (f a) m E R)
    (error : ∀ failure, y = .error failure → E failure m) : Ends (MachineM.ofExcept y >>= f) m E R := by
  cases y with
  | ok a => exact ok a rfl
  | error failure => exact fun _ => error failure rfl

theorem setScopes {y : Except Failure Scopes} {Q : PUnit → Machine → Prop}
    (ok : ∀ scopes, y = .ok scopes → Q ⟨⟩ { m with scopes })
    (error : ∀ failure, y = .error failure → E failure m) : Ends (MachineM.setScopes y) m E Q :=
  okThen (fun scopes hs _ => ok scopes hs) error

theorem lookupThen {name : Name} {f : Value → MachineM β}
    (some : ∀ v, m.scopes.lookup? name = some v → Ends (f v) m E R)
    (none : m.scopes.lookup? name = none → E { cause := .undefinedVariable name } m) :
    Ends (MachineM.lookup name >>= f) m E R := by
  have hlookup : Ends (MachineM.lookup name) m E fun v m' => m.scopes.lookup? name = .some v ∧ m' = m := by
    refine getThen ?_
    split
    · exact ret ⟨‹_›, rfl⟩
    · exact fun _ => none ‹_›
  exact bind hlookup fun v m' ⟨hv, hm⟩ => hm ▸ some v hv

theorem onStore {x : StoreM α}
    (h : ∀ pins : Pins, Outcome (x (pins.also fun _ => m.mentions) m.store)
      (fun failure store => E failure { m with store }) fun a store => Q a { m with store }) :
    Ends (MachineM.onStore x) m E Q := by
  intro pins
  have hx := h pins
  unfold MachineM.onStore
  cases hr : (x.run (pins.also fun _ => m.mentions)).run m.store with
  | ok a store => exact hx.ok hr
  | error failure store => exact hx.error hr

end Action.Ends

/-! ## From every state -/

/-- From every state with the property `I`, the action leads to one with the property and to a result with the
property `Q`, or it fails as `E` says. -/
def Action.Ensures (I : σ → Prop) (E : Failure → σ → Prop) (x : Action σ α) (Q : α → Prop) : Prop :=
  ∀ s, I s → x.Ends s E fun a s' => I s' ∧ Q a

namespace Action.Ensures

variable {I : σ → Prop} {P : α → Prop} {S : β → Prop}

theorem keeps (h : Ensures I E x P) (hs : I s) : x.Ends s E fun _ s' => I s' :=
  (h s hs).imp (fun _ _ he => he) fun _ _ ha => ha.1

theorem ret {a : α} (h : P a) : Ensures I E (pure a) P := fun _ hs => .ret ⟨hs, h⟩

theorem fail {failure : Failure} (h : ∀ s, I s → E failure s) : Ensures I E (throw failure : Action σ α) P :=
  fun s hs => .fail (h s hs)

theorem bind (h : Ensures I E x P) (hf : ∀ a, P a → Ensures I E (f a) S) : Ensures I E (x >>= f) S :=
  fun s hs => (h s hs).bind fun a s' ha => hf a ha.2 s' ha.1

theorem keeping {ids : List Graph.NodeId} (h : Ensures I E x P) :
    Ensures I E (fun pins => x (pins.also fun _ => ids)) P :=
  fun s hs => (h s hs).keeping

theorem getThen {f : σ → Action σ α} (h : ∀ s, I s → Ensures I E (f s) P) :
    Ensures I E ((get : Action σ σ) >>= f) P :=
  fun s hs => .getThen (h s hs s hs)

theorem modify {g : σ → σ} (h : ∀ s, I s → I (g s)) :
    Ensures I E (modify g : Action σ PUnit) fun _ => True :=
  fun s hs _ => ⟨h s hs, trivial⟩

theorem mapM {g : β → Action σ α} (hg : ∀ b, Ensures I E (g b) P) (l : List β) :
    Ensures I E (l.mapM g) fun as => ∀ a ∈ as, P a := by
  induction l with
  | nil =>
    rw [List.mapM_nil]
    exact ret (by simp)
  | cons b l ih =>
    rw [List.mapM_cons]
    exact bind (hg b) fun a ha => bind ih fun as has => ret (List.forall_mem_cons.2 ⟨ha, has⟩)

/-! What is common to the actions on a store and of a machine. -/

variable {J : Store → Prop} {F : Failure → Store → Prop} {I : Machine → Prop} {E : Failure → Machine → Prop}

theorem ofExcept {y : Except Failure α} (ok : ∀ a, y = .ok a → P a)
    (error : ∀ failure s, y = .error failure → J s → F failure s) : Ensures J F (StoreM.ofExcept y) P := by
  intro s hs
  cases y with
  | ok a => exact .ret ⟨hs, ok a rfl⟩
  | error failure => exact .fail (error failure s rfl hs)

theorem okThen {y : Except Failure α} {f : α → MachineM β} (ok : ∀ a, y = .ok a → Ensures I E (f a) S)
    (error : ∀ failure m, y = .error failure → I m → E failure m) : Ensures I E (MachineM.ofExcept y >>= f) S :=
  fun m hm => .okThen (fun a ha => ok a ha m hm) fun failure hf => error failure m hf hm

theorem setScopes {y : Except Failure Scopes} (ok : ∀ scopes m, y = .ok scopes → I m → I { m with scopes })
    (error : ∀ failure m, y = .error failure → I m → E failure m) :
    Ensures I E (MachineM.setScopes y) fun _ => True :=
  fun m hm => .setScopes (fun scopes hs => ⟨ok scopes m hs hm, trivial⟩) fun failure hf => error failure m hf hm

/-- An action on the store, whose invariant is a part of that of the machine. -/
theorem onStore {x : StoreM α} (hx : Ensures J F x P) (store : ∀ m, I m → J m.store)
    (ok : ∀ m store, I m → J store → I { m with store })
    (error : ∀ failure m store, I m → F failure store → E failure { m with store }) :
    Ensures I E (MachineM.onStore x) P :=
  fun m hm => .onStore fun _ => (hx m.store (store m hm) _).imp (fun failure s hf => error failure m s hm hf)
    fun _ s ha => ⟨ok m s hm ha.1, ha.2⟩

end Action.Ensures

end

end Mosaic
