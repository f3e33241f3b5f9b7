import Mosaic.Proofs.Globals.Surface
import Mosaic.Proofs.Isolation.Body

/-!
# What a failed run leaves

During the run of an expression the machine is at the surface, or in a call that was made there. So however
the run fails, the frames that were there at the start are still there below, with the same names, and only
names whose fields the expression assigns are bound to other values (`Machine.globals_of_failed_run`).
-/

namespace Mosaic

open Mosaic.Graph (NodeId Pool)

/-! ## Calls from the surface -/

section

variable {G : Prop} {A : NodeId → Prop} {R Q : Program} {S O : List Operand} {E : List NodeId} {τ : Shape}
  {b : Nat} {m m' : Machine}

theorem Inside.calls {op : Op} {line : Option Nat} {callee : NodeId}
    (h : Inside G A R S E τ (.op op line :: Q) O b m) (hcalls : m.Calls op (m.arguments op) callee) :
    A callee := by
  obtain ⟨O₁, O₂, rfl, -, hlen⟩ := h.exists_operands
  have hargs : m.arguments op = O₁.reverse := by
    rw [Machine.arguments, h.operands, List.append_assoc, List.take_left' hlen]
  rw [hargs] at hcalls
  unfold Machine.Calls at hcalls
  split at hcalls
  · exact (valid_object.1 (h.safe.scopes.lookup? hcalls)).1
  · have hmem := List.mem_reverse.1 (List.mem_of_mem_head? hcalls)
    exact (valid_object (t := .lambda).1 (h.valid _ (List.mem_append_left _ hmem))).1
  · exact hcalls.elim

theorem Machine.Entered.inBody {G' : Prop} {Q' : Program} {O' : List Operand} {b' : Nat} {callee : NodeId}
    {l : Lambda} {memoize R' : Program} (h : m.Entered m' R' callee l memoize)
    (hm : Inside G A R S E τ Q O b m) (hQ : Q ≠ []) (hm' : Inside G' A R S E τ Q' O' b' m') :
    ∃ G : Guise, ∃ m₀, G.contexts = m.scopes.contexts ∧ G.program = R' ∧ m₀.under G = m' ∧
      InBody G A (.op .popContext none :: memoize) m'.operands m'.builders l.body [] 0 m₀ := by
  obtain ⟨⟨op, line, hp, hop, hcalls⟩, hstored, -, hprogram, frame, hscopes⟩ := h
  obtain ⟨item, Q, rfl⟩ := List.exists_cons_of_ne_nil hQ
  obtain ⟨rfl, rfl⟩ := List.cons.inj (hm.program.symm.trans hp)
  have hcallee := hm.calls hcalls
  have hbody := (hm.safe.store.get hcallee hstored).2 id l rfl
  have hcontexts := congrArg Scopes.contexts hscopes
  refine ⟨m'.callers (Q ++ R), m'.alone (l.body ++ .op .popContext none :: memoize), ?_, rfl,
    under_callers hprogram, ?_⟩
  · rw [callers, hcontexts]
    rfl
  · refine InBody.alone hm'.safe.store ?_ hm'.safe.memo hcontexts hbody
    have hall := hm'.safe.scopes
    rw [hscopes] at hall
    exact hall _ (List.mem_cons_self ..) frame (List.mem_singleton.2 rfl)

end

namespace Machine

variable {held : List NodeId} {m m₁ m₂ : Machine} {e : Expr} {n : Nat} {f : Failure}

/-- The machine is in a call that a run made from its surface. -/
def InCall (W : Name → Prop) (start : Scopes) (m : Machine) : Prop :=
  ∃ d G A S E Q O b m₀ memoize, InBody G A (.op .popContext none :: memoize) S E Q O b m₀ ∧ m = m₀.under G ∧
    start.Extends W d ⟨G.contexts⟩

theorem surface_started (m : Machine) (e : Expr) :
    Surface (· ∈ e.assigned) m.scopes 0 [] (m.started e.compile) where
  tame := by
    have htame := e.gentle_compileAt none (fun _ h => h) 0 [] (.nil [])
    rwa [List.append_nil] at htame
  known := ⟨_, rfl⟩
  scopes := .refl _

/-- During the run of an expression the machine is at the surface or in a call. -/
theorem surface_or_inCall (hm : m.Grounded) (hc : m.Compiled) (he : e.Countable) {d j : Nat}
    {K : List Operand} (hreach : Steps held j (m.started e.compile) m₁)
    (h : Surface (· ∈ e.assigned) m.scopes d K m₁) (hs : Steps held n m₁ m₂) :
    (∃ d K, Surface (· ∈ e.assigned) m.scopes d K m₂) ∨ InCall (· ∈ e.assigned) m.scopes m₂ := by
  induction n using Nat.strongRecOn generalizing m₁ d K j with
  | ind n ih =>
    cases hs with
    | refl => exact .inl ⟨d, K, h⟩
    | @head n _ m₁' _ first rest =>
      have hreach' := hreach.trans (.one first)
      rcases h.step first with ⟨d', K', h'⟩ | ⟨R, callee, l, memoize, hentered, htame⟩
      · exact ih n (Nat.lt_succ_self n) hreach' h' rest
      -- The steps that follow are those of the call, and what comes after its end.
      obtain ⟨Q, O, b, hin⟩ := inside_of_steps hm hc he (False.elim : False → m.scopes.Open) hreach
      obtain ⟨Q', O', b', hin'⟩ := inside_of_steps hm hc he (False.elim : False → m.scopes.Open) hreach'
      have hQ : Q ≠ [] := by
        obtain ⟨item, rest, hp⟩ := exists_cons_of_next? first
        rintro rfl
        simp [hin.program] at hp
      obtain ⟨G, m₀, hcontexts, hprogram, rfl, hbody⟩ := hentered.inBody hin hQ hin'
      have hextends : m.scopes.Extends (· ∈ e.assigned) d ⟨G.contexts⟩ := h.scopes.of_eq hcontexts
      rcases hbody.run rest with ⟨m₀', Q', O', b', -, rfl, -, h'⟩ | ⟨k, m₀', O', b', hk, hs₁, -, h'⟩
      · exact .inr ⟨d, G, _, _, _, Q', O', b', m₀', memoize, h', rfl, hextends⟩
      · have hrest := hs₁.sub rest hk
        generalize hi : n - k = i at hrest
        cases hrest with
        | refl => exact .inr ⟨d, G, _, _, _, [], O', b', m₀', memoize, h', rfl, hextends⟩
        | @head i _ m₁'' _ first' rest' =>
          obtain ⟨hprogram', -, hcontexts'⟩ := h'.pop first'
          have htame' : Tame (· ∈ e.assigned) d [] m₁''.program := by
            rw [hprogram', hprogram]
            rcases hentered.memo with rfl | ⟨key, rfl⟩
            · exact htame
            · exact .mild none trivial htame
          exact ih i (by omega) ((hreach'.trans hs₁).trans (.one first'))
            ⟨htame', ⟨_, rfl⟩, hextends.of_eq hcontexts'⟩ rest'

theorem scopes_of_failed (hm : m.Grounded) (hc : m.Compiled) (he : e.Countable)
    (hs : Steps held n (m.started e.compile) m₁) (hn : m₁.next? held = some (.error f m₂)) :
    ∃ own C d, m₂.scopes.contexts = own ++ C ∧ m.scopes.Extends (· ∈ e.assigned) d ⟨C⟩ := by
  rcases surface_or_inCall hm hc he (.refl _) (surface_started m e) hs with
    ⟨d, K, h⟩ | ⟨d, G, A, S, E, Q, O, b, m₀, memoize, h, rfl, hextends⟩
  · exact ⟨[], _, d, rfl, h.failed hn⟩
  · obtain ⟨own, hown⟩ := h.contexts_of_failed hn
    exact ⟨own, _, d, hown, hextends⟩

/-- A run that comes to its end ends at the surface. -/
theorem scopes_of_ended (hm : m.Grounded) (hc : m.Compiled) (he : e.Countable)
    (hs : Steps held n (m.started e.compile) m₁) (hp : m₁.program = []) :
    m.scopes.Extends (· ∈ e.assigned) 0 m₁.scopes := by
  rcases surface_or_inCall hm hc he (.refl _) (surface_started m e) hs with
    ⟨d, K, h⟩ | ⟨d, G, A, S, E, Q, O, b, m₀, memoize, h, rfl, -⟩
  · have htame := h.tame
    rw [hp] at htame
    cases htame
    exact h.scopes
  · rw [under_eq_of_keep h.lines, h.inside.program] at hp
    simp at hp

/-- A failed run is atomic but for the fields it has assigned. However the run of an expression fails on a
machine whose lambdas have compiled bodies, nothing is left on its stacks, there are as many contexts, and
frames in each of them, as before, the same names are bound, and every name whose fields the expression does
not assign has the value it had. -/
theorem globals_of_failed_run (held : List NodeId) {m m' : Machine} {e : Expr} {fuel : Nat} {failure : Failure}
    (hm : m.Grounded) (hc : m.Compiled) (he : e.Countable)
    (hr : m.run held fuel e.compile = some (.error failure, m')) :
    m'.program = [] ∧ m'.operands = [] ∧ m'.builders = [] ∧ m'.scopes.depths = m.scopes.depths ∧
    (∀ name, (m'.scopes.lookup? name).isSome = (m.scopes.lookup? name).isSome) ∧
    ∀ name, name ∉ e.assigned → m'.scopes.lookup? name = m.scopes.lookup? name := by
  obtain ⟨⟨ended, m₁⟩, hex, hr⟩ := Option.map_eq_some_iff.1 hr
  obtain ⟨n, m₂, _, hs, hend⟩ := execute_inv hex
  have hscopes : m.scopes.Extends (· ∈ e.assigned) 0 (m₁.reset m.scopes.checkpoint).scopes := by
    rcases hend with ⟨-, rfl, hp⟩ | ⟨f, -, hf⟩
    · exact (scopes_of_ended hm hc he hs hp).restore (List.nil_append _).symm
    · obtain ⟨own, C, d, hown, hextends⟩ := scopes_of_failed hm hc he hs hf
      exact hextends.restore hown
  obtain rfl : m' = m₁.reset m.scopes.checkpoint := by
    dsimp only at hr
    split at hr <;> cases hr
    rfl
  exact ⟨rfl, rfl, rfl, hscopes.depths, fun name => (hscopes.lookup? name).1,
    fun name => (hscopes.lookup? name).2⟩

/-! ## A failed run that has assigned a field -/

/-- A machine whose global `x` is an empty cluster. -/
def holding : Machine :=
  { store := { pool := (({} : Pool Object).allocate (.cluster {})).2 }
    scopes := ⟨[{ frames := [Frame.define {} "x" (.object .cluster 1)] }]⟩ }

theorem entries_holding {id : NodeId} {e : Graph.Entry Object} (h : holding.store.pool.entries[id]? = some e) :
    id = 1 ∧ e.node = .cluster {} := by
  rcases getElem?_insert_cases h with ⟨rfl, rfl⟩ | ⟨_, h⟩
  · exact ⟨rfl, rfl⟩
  · simp at h

theorem grounded_holding : holding.Grounded := by
  refine ⟨fun id e he => ?_, ?_⟩
  · obtain ⟨rfl, hnode⟩ := entries_holding he
    rw [hnode]
    exact ⟨by decide, by simp [Object.pointers]⟩
  · decide

theorem compiled_holding : holding.Compiled := by
  intro id e l _ he hl
  rw [(entries_holding he).2] at hl
  cases hl

/-- A block that binds a name `x` of its own before the run fails. -/
def shadowing : Expr :=
  .letIn [.bind ["x"] (.number (.ofNat 1))] (.binary .div (.var "x") (.number (.ofNat 0)))

theorem globals_of_failed_run_shadowing :
    holding.Grounded ∧ holding.Compiled ∧ shadowing.Countable ∧
    ∃ failure m', holding.run [] 20 shadowing.compile = some (.error failure, m') ∧
      m'.scopes.depths = [1] ∧ m'.scopes.lookup? "x" = some (.object .cluster 1) := by
  have he : shadowing.Countable := by simp [shadowing, Expr.Countable, CountableBindings]
  have hfails : (holding.run [] 20 shadowing.compile).map (fun r => r.1.isOk) = some false := by
    decide +kernel
  obtain ⟨⟨_ | v, m'⟩, hr, hok⟩ := Option.map_eq_some_iff.1 hfails
  · obtain ⟨-, -, -, hdepths, -, hlookup⟩ := globals_of_failed_run [] grounded_holding compiled_holding he hr
    refine ⟨grounded_holding, compiled_holding, he, _, m', hr, hdepths, ?_⟩
    exact hlookup "x" (by decide)
  · cases hok

/-- A block that assigns a field of the global `x` before the run fails. -/
def marking : Expr :=
  .letIn [.setField [("x", "f")] (.number (.ofNat 1))]
    (.binary .div (.number (.ofNat 1)) (.number (.ofNat 0)))

/-- The assignment stays when the run fails after it. -/
theorem marking_stays :
    holding.Grounded ∧ holding.Compiled ∧ marking.Countable ∧
    ∃ failure m', holding.run [] 20 marking.compile = some (.error failure, m') ∧
      holding.scopes.lookup? "x" = some (.object .cluster 1) ∧
      m'.scopes.lookup? "x" = some (.object .cluster 2) := by
  have hfails : (holding.run [] 20 marking.compile).map
      (fun r => (r.1.isOk, r.2.scopes.lookup? "x")) = some (false, some (.object .cluster 2)) := by
    decide +kernel
  obtain ⟨⟨_ | v, m'⟩, hr, hx⟩ := Option.map_eq_some_iff.1 hfails
  · refine ⟨grounded_holding, compiled_holding, ?_, _, m', hr, by decide, congrArg Prod.snd hx⟩
    simp [marking, Expr.Countable, CountableBindings]
  · cases congrArg Prod.fst hx

end Machine

end Mosaic
