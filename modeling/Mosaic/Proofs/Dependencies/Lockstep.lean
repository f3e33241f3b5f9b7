import Mosaic.Proofs.Comprehension.Body
import Mosaic.Proofs.Dependencies.Standing
import Mosaic.Proofs.Globals.Failed
import Mosaic.Proofs.Isolation.Callers

/-!
# Runs on two footings

While the code of an expression runs, the machine stands on the two footings, or it is in a call that was made
from there, above scopes that are moored (`Machine.Aligned`). With the other scopes below it takes the same
steps (`Machine.Aligned.step`, `Machine.Aligned.failed`). For this the lambdas that are set aside must keep
their free names: they do, as all that the machine mentions stays in its store (`Machine.Steady.keepsFree`).
-/

namespace Mosaic

open Mosaic.Graph (NodeId Pool)

theorem Guise.Matches.symm {G G' : Guise} (h : G.Matches G') : G'.Matches G :=
  ⟨h.config.symm, h.program.symm, h.length.symm⟩

/-- The limits count the contexts of the callers, and do not look at them. -/
theorem Guise.Stops.of_matches {G G' : Guise} {m : Machine} {cause : Cause} (hstops : G.Stops m cause)
    (h : G.Matches G') : G'.Stops m cause := by
  cases hstops with
  | steps op beyond => exact .steps op (h.config.symm ▸ beyond)
  | calls call within beyond =>
    rw [← h.config, ← h.length] at beyond
    exact .calls call (h.config.symm ▸ within) beyond

namespace Machine

variable {D : Name → Prop} {X : List NodeId} {ns : List (List Name)} {K : List Operand} {m m₁ : Machine}
  {s s₁ : Scopes} {held held' : List NodeId} {f : Failure}

/-! ## What a run keeps -/

/-- The machine runs compiled code, and all that it mentions is in its store. -/
structure Steady (held : List NodeId) (m : Machine) : Prop where
  inside : ∃ S E τ Q O b, Inside False (fun _ => True) [] S E τ Q O b m
  veiled : ∃ n₀, m.Veiled n₀
  whole : ∃ B g t, B.left = held ∧ Twin (.plain Cause.Ordinary B) g m.store t ∧ m.Whole Cause.Ordinary g

namespace Steady

theorem sound {op : Op} {line : Option Nat} {R : Program} (h : m.Steady held) (hp : m.program = .op op line :: R) :
    op.Sound := by
  obtain ⟨S, E, τ, Q, O, b, hinside⟩ := h.inside
  obtain rfl : Q = .op op line :: R := by rw [← hp, hinside.program, List.append_nil]
  cases hinside.flow with
  | op _ sound => exact sound

theorem step (h : m.Steady held) (hn : m.next? held = some (.ok () m₁)) : m₁.Steady held := by
  obtain ⟨item, rest, hp⟩ := exists_cons_of_next? hn
  obtain ⟨S, E, τ, Q, O, b, hinside⟩ := h.inside
  obtain ⟨n₀, hveiled⟩ := h.veiled
  obtain ⟨B, g, t, rfl, ht, hwhole⟩ := h.whole
  have hQ : Q ≠ [] := by
    rintro rfl
    simp [hinside.program] at hp
  obtain ⟨-, Q₁, O₁, b₁, hinside₁⟩ := hinside.step hQ hn
  obtain ⟨t₁, g₁, -, ht₁, hwhole₁⟩ := next?_beside_of_ok (n := 0) hwhole ht hn
  exact ⟨⟨S, E, τ, Q₁, O₁, b₁, hinside₁⟩, ⟨n₀, ((hveiled.step hp).1 m₁ hn).veiled⟩, B, g₁, t₁, rfl, ht₁, hwhole₁⟩

/-- A step fills closures, but it leaves the templates of the lambdas alone. -/
theorem keepsFree (h : m.Steady held) (hn : m.next? held = some (.ok () m₁)) : m.KeepsFree m₁ := by
  intro c hc frame hframe id hid t ht
  obtain ⟨item, rest, hp⟩ := exists_cons_of_next? hn
  obtain ⟨n₀, hveiled⟩ := h.veiled
  obtain ⟨B, g, t', -, htwin, hwhole⟩ := h.whole
  obtain ⟨l, hl⟩ := ((hwhole.scopes c hc frame hframe).parked id hid).lambda
  obtain ⟨e, he, hnode, -⟩ := htwin.left.entry id _ hl
  obtain ⟨e₁, he₁, hnode₁⟩ := Pool.get_eq_ok_iff.1 ht
  refine ⟨l, Pool.get_eq_ok_iff.2 ⟨e, he, hnode⟩, ?_⟩
  rcases ((hveiled.step hp).1 m₁ hn).frames id e e₁ he he₁ with hsame | ⟨op, line, -, hwrites⟩
  · rw [hnode, hnode₁] at hsame
    cases hsame
    rfl
  · rw [hnode, hnode₁] at hwrites
    cases hwrites with
    | fill _ filled =>
      rw [filled.rest]

end Steady

/-! ## Calls -/

/-- What a machine does depends on the nodes that are held, and not on how often or in which order. -/
theorem next?_of_held (h : ∀ id, id ∈ held' ↔ id ∈ held) (m : Machine) : m.next? held' = m.next? held := by
  cases hp : m.program with
  | nil => rw [next?_of_nil hp, next?_of_nil hp]
  | cons item rest =>
    have hpins : (Pins.of fun _ => held') = Pins.of fun _ => held := by
      refine Pins.ext_mem fun id => ?_
      simp only [Pins.mem_of, h id]
    rw [next?_of_cons hp, next?_of_cons hp, hpins]

/-- With scopes that are moored beside those of the callers, the same nodes are held during a call. -/
theorem mem_held_of_moored {G : Guise} (hX : ∀ id ∈ X, id ∈ held) {p : Pool Object} {C : List Context}
    (h : Moored D X p ns ⟨G.contexts⟩ ⟨C⟩) (id : NodeId) :
    id ∈ held ++ { G with contexts := C }.nodes ↔ id ∈ held ++ G.nodes := by
  have hnodes := h.mem_nodes id
  have hheld := hX id
  simp only [Scopes.nodes, Guise.nodes, List.mem_append] at hnodes ⊢
  grind

/-- The machine stands on the two footings, or it is in a call that was made from there. -/
inductive Aligned (D : Name → Prop) (X : List NodeId) (m : Machine) : Scopes → Prop
  | standing {ns : List (List Name)} {K : List Operand} {s : Scopes} (h : Standing D X ns K m s) : Aligned D X m s
  | inCall {ns : List (List Name)} {G : Guise} {A : NodeId → Prop} {memoize : Program} {S : List Operand}
    {E : List NodeId} {Q : Program} {O : List Operand} {b : Nat} {m₀ : Machine} {C : List Context}
    (body : InBody G A (.op .popContext none :: memoize) S E Q O b m₀) (memo : IsMemoize memoize)
    (eq : m₀.under G = m) (after : Sighted D ns [] G.program)
    (moored : Moored D X m.store.pool ns ⟨G.contexts⟩ ⟨C⟩) : Aligned D X m (m₀.scopes.above C)

namespace Aligned

theorem of_entered {R : Program} {callee : NodeId} {l : Lambda} {memoize : Program} {c : Context}
    (hm : m.Steady held) (hn : m.next? held = some (.ok () m₁)) (h : m.Entered m₁ R callee l memoize)
    (hafter : Sighted D ns [] R) (hc : m₁.scopes = m.scopes.pushContext c)
    (hmoored : Moored D X m₁.store.pool ns m.scopes s) : Aligned D X m₁ (s.pushContext c) := by
  obtain ⟨item, rest, hp⟩ := exists_cons_of_next? hn
  obtain ⟨S, E, τ, Q, O, b, hinside⟩ := hm.inside
  have hQ : Q ≠ [] := by
    rintro rfl
    simp [hinside.program] at hp
  obtain ⟨-, Q₁, O₁, b₁, hinside₁⟩ := hinside.step hQ hn
  obtain ⟨G, m₀, hcontexts, rfl, rfl, hbody⟩ := h.inBody hinside hQ hinside₁
  have hown : m₀.scopes.contexts = [c] := by
    have hscopes : m₀.scopes.contexts ++ G.contexts = [c] ++ m.scopes.contexts := congrArg Scopes.contexts hc
    rw [hcontexts] at hscopes
    exact List.append_cancel_right hscopes
  have hpush : s.pushContext c = m₀.scopes.above s.contexts := by
    rw [Scopes.above, hown]
    rfl
  rw [hpush]
  refine .inCall hbody h.memo rfl hafter ?_
  rw [hcontexts]
  exact hmoored

/-- At the end of a call the machine stands on the two footings again. -/
theorem returned {G : Guise} {memoize : Program} {C : List Context} (hmemo : IsMemoize memoize)
    (hafter : Sighted D ns [] G.program) (hp : m₁.program = memoize ++ G.program)
    (hscopes : m₁.scopes = ⟨G.contexts⟩) (hmoored : Moored D X m₁.store.pool ns ⟨G.contexts⟩ ⟨C⟩) :
    Aligned D X m₁ ⟨C⟩ := by
  have hsighted : Sighted D ns [] m₁.program := by
    rw [hp]
    rcases hmemo with rfl | ⟨key, rfl⟩
    · exact hafter
    · exact .blind none trivial hafter
  exact .standing ⟨hsighted, ⟨_, rfl⟩, hscopes ▸ hmoored⟩

section

variable {G : Guise} {A : NodeId → Prop} {memoize Q : Program} {S O : List Operand} {E : List NodeId} {b : Nat}
  {m₀ : Machine} {C : List Context}

theorem inBody_of_contexts (h : InBody G A (.op .popContext none :: memoize) S E Q O b m₀) (C : List Context) :
    InBody { G with contexts := C } A (.op .popContext none :: memoize) S E Q O b m₀ :=
  ⟨h.inside, h.config, h.lines⟩

theorem matches_of_moored {p : Pool Object} (h : Moored D X p ns ⟨G.contexts⟩ ⟨C⟩) :
    G.Matches { G with contexts := C } :=
  ⟨rfl, rfl, h.depth⟩

theorem step_inCall (h : InBody G A (.op .popContext none :: memoize) S E Q O b m₀) (hQ : Q ≠ [])
    (hX : ∀ id ∈ X, id ∈ held) {p : Pool Object} (hmoored : Moored D X p ns ⟨G.contexts⟩ ⟨C⟩)
    (hn : (m₀.under G).next? held = some (.ok () m₁)) :
    ∃ m₂ Q₂ O₂ b₂, m₁ = m₂.under G ∧ InBody G A (.op .popContext none :: memoize) S E Q₂ O₂ b₂ m₂ ∧
      ((m₀.under G).withScopes (m₀.scopes.above C)).next? held =
        some (.ok () (m₁.withScopes (m₂.scopes.above C))) := by
  obtain ⟨m₂, Q₂, O₂, b₂, rfl, hstep, h₂⟩ := h.step hQ hn
  have hfits := (inBody_of_contexts h C).fits hQ fun cause hstops =>
    h.not_stops hn cause (hstops.of_matches (matches_of_moored hmoored).symm)
  rw [← next?_of_held (mem_held_of_moored hX hmoored)] at hstep
  exact ⟨m₂, Q₂, O₂, b₂, rfl, h₂, next?_under_of_ok hfits hstep⟩

theorem failed_inCall (h : InBody G A (.op .popContext none :: memoize) S E Q O b m₀) (hQ : Q ≠ [])
    (hX : ∀ id ∈ X, id ∈ held) {p : Pool Object} (hmoored : Moored D X p ns ⟨G.contexts⟩ ⟨C⟩)
    (hn : (m₀.under G).next? held = some (.error f m₁)) :
    ∃ f' m₁', ((m₀.under G).withScopes (m₀.scopes.above C)).next? held = some (.error f' m₁') ∧
      f'.cause = f.cause := by
  have h' := inBody_of_contexts h C
  have hmatches := matches_of_moored hmoored
  rcases (h.failed hQ hn).2 with hstops | ⟨hstops, f₀, m₂, hfails, hcause⟩
  · obtain ⟨f', m₁', hf', hcause, -⟩ := h'.next?_of_stops held (hstops.of_matches hmatches)
    exact ⟨f', m₁', hf', hcause⟩
  · have hfits := h'.fits hQ fun cause hc => hstops cause (hc.of_matches hmatches.symm)
    rw [← next?_of_held (mem_held_of_moored hX hmoored)] at hfails
    obtain ⟨f', hf', htells⟩ := next?_under_of_error hfits hfails
    exact ⟨f', _, hf', htells.cause.trans hcause.symm⟩

end

/-- With the other scopes the machine takes the same step. -/
theorem step (h : Aligned D X m s) (hm : m.Steady held) (hX : ∀ id ∈ X, id ∈ held)
    (hn : m.next? held = some (.ok () m₁)) :
    ∃ s₁, (m.withScopes s).next? held = some (.ok () (m₁.withScopes s₁)) ∧ Aligned D X m₁ s₁ := by
  cases h with
  | standing h =>
    obtain ⟨s₁, hn', hstanding⟩ := h.step hX (fun _ _ _ => hm.sound) (hm.keepsFree hn) hn
    refine ⟨s₁, hn', ?_⟩
    rcases hstanding with ⟨ns, K, h₁⟩ | ⟨R, callee, l, memoize, c, hentered, hafter, hc, rfl, hmoored⟩
    · exact .standing h₁
    · exact of_entered hm hn hentered hafter hc hmoored
  | @inCall ns G A memoize S E Q O b m₀ C body memo eq after moored =>
    subst eq
    have hkept := hm.keepsFree hn
    have hmoored₁ : Moored D X m₁.store.pool ns ⟨G.contexts⟩ ⟨C⟩ :=
      moored.of_pool fun c hc => hkept c (List.mem_append_right _ hc)
    by_cases hQ : Q = []
    · subst hQ
      rcases body.next?_of_ended held with ⟨_, _, _, -, hf, -⟩ | ⟨hwithin, hok⟩
      · cases hn.symm.trans hf
      rcases (inBody_of_contexts body C).next?_of_ended held with ⟨_, _, _, hover, -⟩ | ⟨-, hok'⟩
      · cases hwithin.symm.trans hover
      cases hn.symm.trans hok
      exact ⟨⟨C⟩, hok', returned memo after rfl rfl hmoored₁⟩
    · obtain ⟨m₂, Q₂, O₂, b₂, rfl, body₂, hn'⟩ := step_inCall body hQ hX moored hn
      exact ⟨_, hn', .inCall body₂ memo rfl after hmoored₁⟩

/-- With the other scopes the machine fails for the same cause. -/
theorem failed (h : Aligned D X m s) (hm : m.Steady held) (hX : ∀ id ∈ X, id ∈ held)
    (hn : m.next? held = some (.error f m₁)) :
    ∃ f' m₁', (m.withScopes s).next? held = some (.error f' m₁') ∧ f'.cause = f.cause := by
  cases h with
  | standing h => exact h.failed hX (fun _ _ _ => hm.sound) hn
  | @inCall ns G A memoize S E Q O b m₀ C body memo eq after moored =>
    subst eq
    by_cases hQ : Q = []
    · subst hQ
      rcases body.next?_of_ended held with ⟨limit, f₀, m₂, hover, hf, hcause, -⟩ | ⟨-, hok⟩
      · cases hn.symm.trans hf
        rcases (inBody_of_contexts body C).next?_of_ended held with
          ⟨limit', f', m₁', hover', hf', hcause', -⟩ | ⟨hwithin, -⟩
        · obtain rfl : limit = limit' := Option.some.inj (hover.symm.trans hover')
          exact ⟨f', m₁', hf', hcause'.trans hcause.symm⟩
        · cases hwithin.symm.trans hover
      · cases hn.symm.trans hok
    · exact failed_inCall body hQ hX moored hn

end Aligned

/-! ## Runs -/

/-- With the other scopes the run ends in the same way. -/
theorem Finishes.of_aligned {ending : Ending} (hf : Finishes held [] m ending) (h : Aligned D X m s)
    (hm : m.Steady held) (hX : ∀ id ∈ X, id ∈ held) : Finishes held [] (m.withScopes s) ending := by
  induction hf generalizing s with
  | returned program result => exact .returned (m := _) program result
  | failed program step =>
    obtain ⟨f', m₁', hn, hcause⟩ := h.failed hm hX step
    exact hcause ▸ .failed program hn
  | step program step rest ih =>
    obtain ⟨s₁, hn, h₁⟩ := h.step hm hX step
    exact .step program hn (ih h₁ (hm.step step))

end Machine

end Mosaic
