import Mosaic.Machine.Run

/-!
# Runs as sequences of steps

`Machine.next?` is what the next item of the program does, `Steps held n m m'` says that `n` items
lead from `m` to `m'` without a failure. A run that has a result is such a sequence followed by the
end of the program or by an item that fails (`execute_inv`), and no other result is possible
(`Steps.execute_eq`).
-/

namespace Mosaic.Machine

open Mosaic.Graph (NodeId)

variable {held : List NodeId} {m m₁ m₂ m₃ : Machine} {n k fuel : Nat}

/-- What the next item of the program does; at the end there is none. -/
def next? (held : List NodeId) (m : Machine) : Option (EStateM.Result Failure Machine Unit) :=
  match m.program with
  | [] => none
  | item :: rest =>
    some ((MachineM.runItem item).run (Pins.of fun _ => held) |>.run
      { m with program := rest })

theorem next?_of_nil (h : m.program = []) : m.next? held = none := by
  simp [next?, h]

theorem next?_of_cons {item : Item} {rest : Program} (h : m.program = item :: rest) :
    m.next? held = some (MachineM.runItem item (Pins.of fun _ => held)
      { m with program := rest }) := by
  simp only [next?, h]; rfl

theorem exists_cons_of_next? {r : EStateM.Result Failure Machine Unit}
    (h : m.next? held = some r) : ∃ item rest, m.program = item :: rest := by
  cases hp : m.program with
  | nil => simp [next?_of_nil hp] at h
  | cons item rest => exact ⟨item, rest, rfl⟩

theorem program_of_next?_none (h : m.next? held = none) : m.program = [] := by
  cases hp : m.program with
  | nil => rfl
  | cons item rest => simp [next?_of_cons hp] at h

/-- So many items lead from one machine to another. -/
inductive Steps (held : List NodeId) : Nat → Machine → Machine → Prop
  | refl (m : Machine) : Steps held 0 m m
  | head {n : Nat} {m m₁ m₂ : Machine} (first : m.next? held = some (.ok () m₁))
      (rest : Steps held n m₁ m₂) : Steps held (n + 1) m m₂

namespace Steps

theorem one (h : m.next? held = some (.ok () m₁)) : Steps held 1 m m₁ := .head h (.refl _)

theorem trans (h₁ : Steps held n m m₁) (h₂ : Steps held k m₁ m₂) : Steps held (n + k) m m₂ := by
  induction h₁ with
  | refl => simpa using h₂
  | head first _ ih =>
    have := Steps.head first (ih h₂)
    rwa [Nat.add_right_comm] at this

theorem eq_of_zero (h : Steps held 0 m m₁) : m₁ = m := by
  cases h; rfl

theorem sub (h₁ : Steps held n m m₁) (h₂ : Steps held k m m₂) (hle : n ≤ k) :
    Steps held (k - n) m₁ m₂ := by
  induction h₁ generalizing k with
  | refl => exact h₂
  | @head n m m' m₁ first _ ih =>
    cases h₂ with
    | refl => omega
    | @head k _ m'' _ first' rest' =>
      rw [first] at first'
      cases first'
      have hk : k + 1 - (n + 1) = k - n := by omega
      rw [hk]
      exact ih rest' (by omega)

theorem exists_of_succ (h : Steps held (n + 1) m m₁) :
    ∃ m', Steps held n m m' ∧ m'.next? held = some (.ok () m₁) := by
  induction n generalizing m with
  | zero =>
    cases h with
    | head first rest => exact ⟨m, .refl m, rest.eq_of_zero ▸ first⟩
  | succ n ih =>
    cases h with
    | head first rest =>
      obtain ⟨m', hs, hn⟩ := ih rest
      exact ⟨m', .head first hs, hn⟩

theorem invariant {P : Machine → Prop}
    (step : ∀ m m', P m → m.next? held = some (.ok () m') → P m') (h : Steps held n m m₁)
    (start : P m) : P m₁ := by
  induction h with
  | refl => exact start
  | head first _ ih => exact ih (step _ _ start first)

end Steps

/-- The machine after so many items, if none of them fails. -/
def after? : Nat → Machine → Option Machine
  | 0, m => some m
  | n + 1, m =>
    match m.next? [] with
    | some (.ok () m') => after? n m'
    | _ => none

theorem steps_of_after? (h : after? n m = some m₁) : Steps [] n m m₁ := by
  induction n generalizing m with
  | zero => cases h; exact .refl _
  | succ n ih =>
    unfold after? at h
    split at h
    · exact .head ‹_› (ih h)
    · cases h

theorem next?_of_after? (h : after? 1 m = some m₁) : m.next? [] = some (.ok () m₁) := by
  cases steps_of_after? h with
  | head first rest => rw [first, rest.eq_of_zero]

/-- The machine at the start of a run. -/
def started (m : Machine) (program : Program) : Machine :=
  { m with program, operands := [], builders := [], steps := 0, memo := {} }

/-! ## Results -/

theorem execute_of_ended (h : m.program = []) :
    execute held (fuel + 1) m = some (.ok (), m) := by
  simp [execute, h]

theorem execute_of_failed {f : Failure} (h : m.next? held = some (.error f m₁)) :
    execute held (fuel + 1) m = some (.error f, m₁) := by
  obtain ⟨item, rest, hp⟩ := exists_cons_of_next? h
  simp only [next?, hp, Option.some.injEq] at h
  simp only [execute, hp, h]

theorem execute_of_next (h : m.next? held = some (.ok () m₁)) :
    execute held (fuel + 1) m = execute held fuel m₁ := by
  obtain ⟨item, rest, hp⟩ := exists_cons_of_next? h
  simp only [next?, hp, Option.some.injEq] at h
  simp only [execute, hp, h]

theorem Steps.execute_eq (h : Steps held n m m₁) (fuel : Nat) :
    execute held (n + fuel) m = execute held fuel m₁ := by
  induction h with
  | refl => simp
  | head first _ ih => rw [Nat.add_right_comm, execute_of_next first, ih]

/-- How a run comes to its result: at the end of its program, or by an item that fails. -/
theorem execute_inv {r : Except Failure Unit} (h : execute held fuel m = some (r, m₂)) :
    ∃ n m₁, n < fuel ∧ Steps held n m m₁ ∧
      (r = .ok () ∧ m₂ = m₁ ∧ m₁.program = [] ∨
        ∃ f, r = .error f ∧ m₁.next? held = some (.error f m₂)) := by
  induction fuel generalizing m with
  | zero => simp [execute] at h
  | succ fuel ih =>
    cases hn : m.next? held with
    | none =>
      cases hp : m.program with
      | nil =>
        rw [execute_of_ended hp] at h
        cases h
        exact ⟨0, _, by omega, .refl _, .inl ⟨rfl, rfl, hp⟩⟩
      | cons item rest => simp [next?, hp] at hn
    | some s =>
      cases s with
      | ok u m' =>
        rw [execute_of_next hn] at h
        obtain ⟨n, m₁, hlt, hs, hr⟩ := ih h
        exact ⟨n + 1, m₁, by omega, .head hn hs, hr⟩
      | error f m' =>
        rw [execute_of_failed hn] at h
        cases h
        exact ⟨0, m, by omega, .refl m, .inr ⟨f, rfl, hn⟩⟩

theorem run_of_failed {program : Program} {f : Failure} (hs : Steps held n (m.started program) m₁)
    (hf : m₁.next? held = some (.error f m₂)) (hlt : n < fuel) :
    m.run held fuel program = some (.error f, m₂.reset m.scopes.checkpoint) := by
  obtain ⟨k, rfl⟩ : ∃ k, fuel = n + (k + 1) := ⟨fuel - n - 1, by omega⟩
  show (execute held (n + (k + 1)) (m.started program)).map _ = _
  rw [hs.execute_eq, execute_of_failed hf]
  rfl

end Mosaic.Machine
