import Mosaic.Proofs.Limits

/-!
# The body of a call

While the body of a lambda runs, the contexts of the callers and what is left of their programs wait below.
A call by itself is the machine without them: its only context is that of the call, and its program ends
with the call. The machine with the callers is this one in the guise of its caller, and as compiled code
never leaves the context that it started in, the steps are those of the call by itself (`InBody.run`). Only
the limit on the calls counts the contexts of the callers too.
-/

namespace Mosaic

open Mosaic.Graph (NodeId)

/-- In the guise, the next item of the machine exceeds a limit, with this cause. -/
inductive Guise.Stops (G : Guise) (m : Machine) : Cause → Prop
  | steps {limit : Nat} (op : m.AtOp) (beyond : G.config.overdrawn? m.steps = some limit) :
    Stops G m (.stepBudgetExceeded limit)
  | calls {limit : Nat} (call : m.AtCall) (within : G.config.overdrawn? m.steps = none)
    (beyond : G.config.overflow? (m.scopes.depth + G.contexts.length) = some limit) :
    Stops G m (.stackOverflow limit)

namespace Machine

variable {G : Guise} {m : Machine}

theorem depth_under : (m.under G).scopes.depth = m.scopes.depth + G.contexts.length :=
  List.length_append

theorem under_eq_of_keep (h : G.lines = .keep) :
    m.under G = { m with
      config := G.config, scopes := m.scopes.above G.contexts, program := m.program ++ G.program } := by
  rw [under, h, Graph.Heap.relined_keep, relined_keep]

theorem AtCall.under (h : m.AtCall) (hlines : G.lines = .keep) (hcovers : m.scopes.Covers G.contexts)
    (hmemo : G.config.memoize = m.config.memoize) : (m.under G).AtCall := by
  obtain ⟨op, line, rest, hp, hlen, henters⟩ := h
  rw [under_eq_of_keep hlines]
  refine ⟨op, line, rest ++ G.program, by rw [hp]; rfl, hlen, ?_⟩
  unfold Enters Misses at henters ⊢
  dsimp only at henters ⊢
  simp only [Scopes.lookup?_above hcovers, hmemo]
  exact henters

end Machine

/-- The machine is a call by itself that runs what is left of its body, `Q`, and `G` is the guise of its
caller. -/
structure InBody (G : Guise) (A : NodeId → Prop) (P : Program) (S : List Operand) (E : List NodeId)
    (Q : Program) (O : List Operand) (b : Nat) (m : Machine) : Prop where
  inside : Inside True A P S E ⟨[.value], [1], 0⟩ Q O b m
  config : m.config = { G.config with maxCallDepth := none }
  lines : G.lines = .keep

namespace InBody

variable {G : Guise} {A : NodeId → Prop} {P Q : Program} {S O : List Operand} {E held : List NodeId}
  {b n : Nat} {m M : Machine} {f : Failure} {cause : Cause}

theorem covers (h : InBody G A P S E Q O b m) : m.scopes.Covers G.contexts := by
  obtain ⟨k, ks, hdepths⟩ := h.inside.flow.opened ⟨0, [], rfl⟩
  refine .inr fun hnil => ?_
  simp [Scopes.depths, hnil] at hdepths

theorem memoize (h : InBody G A P S E Q O b m) : G.config.memoize = m.config.memoize := by
  rw [h.config]

theorem fits (h : InBody G A P S E Q O b m) (hQ : Q ≠ []) (hstops : ∀ cause, ¬ G.Stops m cause) :
    G.Fits m where
  covers := h.covers
  program hp := by simp [h.inside.program, hQ] at hp
  memoize := h.memoize
  steps _ := by
    rw [h.config]
    rfl
  calls hcall := by
    show G.config.overflow? (m.under G).scopes.depth = _
    have hnone : m.config.overflow? m.scopes.depth = none := by
      rw [h.config]
      rfl
    rw [hnone, Machine.depth_under]
    cases hs : G.config.overdrawn? m.steps with
    | some limit => exact (hstops _ (.steps hcall.atOp hs)).elim
    | none =>
      cases hc : G.config.overflow? (m.scopes.depth + G.contexts.length) with
      | none => rfl
      | some limit => exact (hstops _ (.calls hcall hs hc)).elim

/-- Where a limit is exceeded the machine fails, and its contexts are left alone. -/
theorem next?_of_stops (h : InBody G A P S E Q O b m) (held : List NodeId) (hstops : G.Stops m cause) :
    ∃ f M, (m.under G).next? held = some (.error f M) ∧ f.cause = cause ∧
      M.scopes = m.scopes.above G.contexts := by
  refine Machine.next?_of_exceeds (m := m.under G) (c := G.config) held rfl ?_
  cases hstops with
  | steps op beyond =>
    obtain ⟨op, line, rest, hp⟩ := op
    refine .steps ⟨op, line, rest ++ G.program, ?_⟩ beyond
    rw [Machine.under_eq_of_keep h.lines, hp]
    rfl
  | calls call within beyond =>
    exact .calls (call.under h.lines h.covers h.memoize) within (by rwa [Machine.depth_under])

/-- A step that does not fail exceeds no limit. -/
theorem not_stops (h : InBody G A P S E Q O b m) (hn : (m.under G).next? held = some (.ok () M))
    (cause : Cause) :
    ¬ G.Stops m cause := by
  intro hstops
  obtain ⟨f, M', hf, -⟩ := h.next?_of_stops held hstops
  rw [hf] at hn
  cases hn

theorem step (h : InBody G A P S E Q O b m) (hQ : Q ≠ [])
    (hn : (m.under G).next? held = some (.ok () M)) :
    ∃ m' Q' O' b', M = m'.under G ∧ m.next? (held ++ G.nodes) = some (.ok () m') ∧
      InBody G A P S E Q' O' b' m' := by
  obtain ⟨r₀, hr₀, hr⟩ := Machine.next?_of_under (h.fits hQ (h.not_stops hn)) hn
  cases r₀ with
  | error f m' => exact hr.elim
  | ok u m' =>
    obtain ⟨hconfig, Q', O', b', hin⟩ := h.inside.step hQ hr₀
    exact ⟨m', Q', O', b', hr, hr₀, hin, hconfig.trans h.config, h.lines⟩

/-- A step that fails leaves the contexts of the callers alone. It is one of the call by itself, or it
exceeds a limit. -/
theorem failed (h : InBody G A P S E Q O b m) (hQ : Q ≠ [])
    (hn : (m.under G).next? held = some (.error f M)) :
    (∃ own, M.scopes.contexts = own ++ G.contexts) ∧
      (G.Stops m f.cause ∨
        (∀ cause, ¬ G.Stops m cause) ∧
          ∃ f₀ m', m.next? (held ++ G.nodes) = some (.error f₀ m') ∧ f.cause = f₀.cause) := by
  by_cases hstops : ∃ cause, G.Stops m cause
  · obtain ⟨cause, hstops⟩ := hstops
    obtain ⟨f', M', hf, rfl, hscopes⟩ := h.next?_of_stops held hstops
    rw [hf] at hn
    cases hn
    exact ⟨⟨_, congrArg Scopes.contexts hscopes⟩, .inl hstops⟩
  · have hnot := not_exists.1 hstops
    obtain ⟨r₀, hr₀, hr⟩ := Machine.next?_of_under (h.fits hQ hnot) hn
    cases r₀ with
    | ok u m' => exact hr.elim
    | error f₀ m' =>
      obtain ⟨rfl, htells⟩ := hr
      exact ⟨⟨m'.scopes.contexts, rfl⟩, .inr ⟨hnot, f₀, m', hr₀, htells.cause⟩⟩

/-- A run is one of the call by itself until the body is used up. -/
theorem run (h : InBody G A P S E Q O b m) (hs : Machine.Steps held n (m.under G) M) :
    (∃ m' Q' O' b', Q' ≠ [] ∧ M = m'.under G ∧ Machine.Steps (held ++ G.nodes) n m m' ∧
        InBody G A P S E Q' O' b' m') ∨
      ∃ k m' O' b', k ≤ n ∧ Machine.Steps held k (m.under G) (m'.under G) ∧
        Machine.Steps (held ++ G.nodes) k m m' ∧ InBody G A P S E [] O' b' m' := by
  generalize hM₀ : m.under G = M₀ at hs
  induction hs generalizing m Q O b with
  | refl =>
    subst hM₀
    by_cases hQ : Q = []
    · subst hQ
      exact .inr ⟨0, m, O, b, Nat.le_refl _, .refl _, .refl _, h⟩
    · exact .inl ⟨m, Q, O, b, hQ, rfl, .refl _, h⟩
  | @head n M₀ M₁ M first rest ih =>
    subst hM₀
    by_cases hQ : Q = []
    · subst hQ
      exact .inr ⟨0, m, O, b, Nat.zero_le _, .refl _, .refl _, h⟩
    · obtain ⟨m₁, Q₁, O₁, b₁, rfl, first', h₁⟩ := h.step hQ first
      rcases ih h₁ rfl with ⟨m', Q', O', b', hQ', hM, hs, h'⟩ | ⟨k, m', O', b', hk, hs, hs', h'⟩
      · exact .inl ⟨m', Q', O', b', hQ', hM, .head first' hs, h'⟩
      · exact .inr ⟨k + 1, m', O', b', Nat.succ_le_succ hk, .head first hs, .head first' hs', h'⟩

/-! ## The end of the body -/

section

variable {memoize : Program}

theorem ended (h : InBody G A (.op .popContext none :: memoize) S E [] O b m) :
    (m.under G).program = .op .popContext none :: (memoize ++ G.program) ∧
      (∃ v, (m.under G).operands = .value v :: S) ∧ (∃ c, (m.under G).scopes.contexts = c :: G.contexts) ∧
      (m.under G).builders = E := by
  obtain ⟨hprogram, hoperands, hdepths, hbuilders⟩ := h.inside.ended
  obtain ⟨c, hc, -⟩ := List.map_eq_singleton_iff.1 hdepths
  refine ⟨?_, hoperands, ⟨c, ?_⟩, hbuilders⟩
  · rw [Machine.under_eq_of_keep h.lines, hprogram]
    rfl
  · show m.scopes.contexts ++ G.contexts = _
    rw [hc]
    rfl

theorem next?_of_ended (h : InBody G A (.op .popContext none :: memoize) S E [] O b m) (held : List NodeId) :
    (∃ limit f M, G.config.overdrawn? m.steps = some limit ∧ (m.under G).next? held = some (.error f M) ∧
      f.cause = .stepBudgetExceeded limit ∧ M.scopes = (m.under G).scopes) ∨
    G.config.overdrawn? m.steps = none ∧ (m.under G).next? held = some (.ok () { m.under G with
      program := memoize ++ G.program, scopes := ⟨G.contexts⟩, steps := m.steps + 1 }) := by
  obtain ⟨hprogram, -, ⟨c, hc⟩, -⟩ := h.ended
  cases hover : G.config.overdrawn? m.steps with
  | some limit => exact .inl ⟨limit, _, _, rfl, Machine.next?_of_overdrawn hprogram hover, rfl, rfl⟩
  | none => exact .inr ⟨rfl, Machine.next?_of_popContext hprogram hover hc⟩

theorem pop (h : InBody G A (.op .popContext none :: memoize) S E [] O b m)
    (hn : (m.under G).next? held = some (.ok () M)) :
    M.program = memoize ++ G.program ∧ M.operands = (m.under G).operands ∧ M.scopes.contexts = G.contexts := by
  rcases h.next?_of_ended held with ⟨limit, f, M', -, hf, -⟩ | ⟨-, hok⟩
  · rw [hf] at hn
    cases hn
  · rw [hok] at hn
    cases hn
    exact ⟨rfl, rfl, rfl⟩

/-- A step of the call that fails leaves the contexts of the callers alone, also at its end. -/
theorem contexts_of_failed (h : InBody G A (.op .popContext none :: memoize) S E Q O b m)
    (hn : (m.under G).next? held = some (.error f M)) : ∃ own, M.scopes.contexts = own ++ G.contexts := by
  by_cases hQ : Q = []
  · subst hQ
    rcases h.next?_of_ended held with ⟨limit, f', M', -, hf, -, hscopes⟩ | ⟨-, hok⟩
    · rw [hf] at hn
      cases hn
      exact ⟨m.scopes.contexts, by rw [hscopes]; rfl⟩
    · rw [hok] at hn
      cases hn
  · exact (h.failed hQ hn).1

end

end InBody

/-! ## Entering a body -/

namespace Machine

/-- The machine with its innermost context only, and the program `Q`. The limit on the calls is left to
the callers. -/
def alone (m : Machine) (Q : Program) : Machine :=
  { m with
    config := { m.config with maxCallDepth := none }
    scopes := ⟨m.scopes.contexts.take 1⟩
    program := Q }

/-- The guise of the callers of the machine, of whose program `R` is left. -/
def callers (m : Machine) (R : Program) : Guise :=
  { config := m.config, contexts := m.scopes.contexts.drop 1, program := R }

theorem under_callers {m : Machine} {Q R : Program} (h : m.program = Q ++ R) :
    (m.alone Q).under (m.callers R) = m := by
  rw [under_eq_of_keep rfl, alone, callers, Scopes.above, List.take_append_drop, ← h]

end Machine

theorem InBody.alone {A : NodeId → Prop} {m : Machine} {frame : Frame} {label : Option Name}
    {C : List Context} {body P R : Program} (hstore : Closed IsCode A m.store)
    (hframe : frame.All (Valid A m.next) fun id => A id ∧ id < m.next)
    (hmemo : ∀ (key : String) (v : Value), m.memo.entries[key]? = some v → Valid A m.next v)
    (hscopes : m.scopes.contexts = { frames := [frame], label } :: C) (hbody : IsCode body) :
    InBody (m.callers R) A P m.operands m.builders body [] 0 (m.alone (body ++ P)) := by
  have hown : (m.alone (body ++ P)).scopes.contexts = [{ frames := [frame], label }] := by
    simp [Machine.alone, hscopes]
  have hdepths : (m.alone (body ++ P)).scopes.depths = [1] := by
    simp [Scopes.depths, hown]
  obtain ⟨line, e, he, rfl⟩ := hbody
  refine ⟨hdepths ▸ .of_code ⟨hstore, ?_, hmemo, rfl, [], rfl, rfl, by simp⟩ he
    (fun _ => ⟨0, [], hdepths⟩) rfl rfl, rfl, rfl⟩
  intro c hc f hf
  rw [hown, List.mem_singleton] at hc
  subst hc
  obtain rfl := List.mem_singleton.1 hf
  exact hframe

end Mosaic
