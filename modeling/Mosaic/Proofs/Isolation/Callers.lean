import Mosaic.Proofs.Isolation.Entry

/-!
# Calls are isolated from their callers

Two machines that differ in the contexts of the callers run the body of a call side by side: without the
callers they are the same machine, except that what the callers keep alive may be swept at other times. So
the call ends in the same way (`InBody.finishes_of_beside`). That the contexts of the callers stay what they
are needs all lambdas to have compiled bodies, not only the one that is called: `h(1)` may leave the context
of the body that it is called from, if the body of `h` says so (`Machine.reaching_rebinds`).
-/

namespace Mosaic

open Mosaic.Graph (NodeId)

/-! ## How a call ends -/

/-- The end of a call: a value with the objects that can be reached from it, or the cause of a failure. -/
inductive Ending where
  | returned (v : Value) (objects : Fragment)
  | failed (cause : Cause)

/-- The call ends: the program comes down to `R` with a result on top of the operands, or a step fails
before. -/
inductive Machine.Finishes (held : List NodeId) (R : Program) : Machine → Ending → Prop
  | returned {m : Machine} {v : Value} (program : m.program = R)
    (result : m.operands.head? = some (.value v)) :
    Finishes held R m (.returned v ((Fragment.of m.store.pool).cut (nodesOf [v])))
  | failed {m m' : Machine} {f : Failure} (program : m.program ≠ R)
    (step : m.next? held = some (.error f m')) :
    Finishes held R m (.failed f.cause)
  | step {m m' : Machine} {ending : Ending} (program : m.program ≠ R) (step : m.next? held = some (.ok () m'))
    (rest : Finishes held R m' ending) : Finishes held R m ending

/-- What can be reached from a value that is in the fragment is the same in both stores. -/
theorem Twin.cut_eq {E : Setting} {g : Fragment} {s t : Store} {v : Value} (h : Twin E g s t)
    (hv : g.Good v) :
    (Fragment.of t.pool).cut (nodesOf [v]) = (Fragment.of s.pool).cut (nodesOf [v]) := by
  have hV : ∀ i ∈ nodesOf [v], (g i).isSome = true := by
    intro i hi
    obtain ⟨w, hw, hw'⟩ := List.mem_filterMap.1 hi
    obtain rfl := List.mem_singleton.1 hw
    exact hv.isSome hw'
  have hcut : ∀ {r : Store}, Hosts E g r → (Fragment.of r.pool).cut (nodesOf [v]) = g.cut (nodesOf [v]) := by
    intro r hr
    funext id
    by_cases hid : g.Reach (nodesOf [v]) id
    · obtain ⟨o, ho⟩ := Option.isSome_iff_exists.1 (hid.isSome h.closed hV)
      have hid' := hid.of_sub (fun _ _ => hr.of_eq) (List.Subset.refl _)
      rw [Fragment.cut_of_reach hid, Fragment.cut_of_reach hid', ho, hr.of_eq ho]
    · have hid' := fun hid' => hid (hr.reach h.closed hV hid')
      rw [Fragment.cut_of_not_reach hid, Fragment.cut_of_not_reach hid']
  rw [hcut h.left, hcut h.right]

/-! ## Limits -/

section

variable {G G' : Guise} {E : Setting} {C : Cause → Prop} {B : Backdrop} {g : Fragment} {m : Machine} {n : Nat}
  {s : Store} {cause : Cause}

theorem Machine.misses_beside {callee : NodeId} {args : List Value} (ht : Twin E g m.store s)
    (hcallee : g.At .lambda callee) : (m.beside n s).Misses callee args ↔ m.Misses callee args := by
  obtain ⟨l, hl⟩ := hcallee.lambda
  have hleft : m.store.pool.get Object.lambdas callee = .ok l := ht.left.get hl
  have hright : (m.beside n s).store.pool.get Object.lambdas callee = .ok l := ht.right.get hl
  unfold Misses
  rw [hleft, hright]
  rfl

theorem Machine.enters_beside {op : Op} {args : List Operand} (ht : Twin E g m.store s) (hm : m.Whole C g)
    (hargs : ∀ v, .value v ∈ args → g.Good v) : (m.beside n s).Enters op args ↔ m.Enters op args := by
  unfold Enters
  split
  · exact exists_congr fun id => and_congr_right fun hname =>
      misses_beside ht (Fragment.good_object.1 (hm.scopes.lookup? hname))
  · exact exists_congr fun vs => and_congr_right fun _ =>
      misses_beside ht (Fragment.good_object.1 (hargs _ (List.mem_cons_self ..)))
  · rfl

theorem Machine.atCall_beside (ht : Twin E g m.store s) (hm : m.Whole C g) :
    (m.beside n s).AtCall ↔ m.AtCall := by
  unfold AtCall
  exact exists₃_congr fun op line rest => and_congr_right fun _ => and_congr_right fun _ =>
    enters_beside ht hm fun v hv => hm.operands v (List.mem_of_mem_take (List.mem_reverse.1 hv))

/-- The callers have the same limits, and are as many. -/
structure Guise.Matches (G G' : Guise) : Prop where
  config : G'.config = G.config
  program : G'.program = G.program
  length : G'.contexts.length = G.contexts.length

theorem Guise.Matches.stops (hG : G.Matches G') (ht : Twin E g m.store s) (hm : m.Whole C g) :
    G'.Stops (m.beside n s) cause ↔ G.Stops m cause := by
  constructor
  · intro h
    cases h with
    | steps op beyond => exact .steps op (hG.config ▸ beyond)
    | calls call within beyond =>
      rw [hG.config, hG.length] at beyond
      exact .calls ((Machine.atCall_beside ht hm).1 call) (hG.config ▸ within) beyond
  · intro h
    cases h with
    | steps op beyond => exact .steps op (hG.config.symm ▸ beyond)
    | calls call within beyond =>
      rw [← hG.config, ← hG.length] at beyond
      exact .calls ((Machine.atCall_beside ht hm).2 call) (hG.config.symm ▸ within) beyond

end

/-! ## Two callers -/

namespace Machine.Finishes

variable {held : List NodeId} {R : Program} {m m' : Machine} {ending : Ending}

/-- A call ends as it does from any later machine. -/
theorem of_step (hR : m.program ≠ R) (h : m.next? held = some (.ok () m')) :
    Finishes held R m ending ↔ Finishes held R m' ending := by
  refine ⟨fun hf => ?_, .step hR h⟩
  cases hf with
  | returned program => exact (hR program).elim
  | failed _ step => cases h.symm.trans step
  | step _ step rest =>
    cases h.symm.trans step
    exact rest

theorem of_failed {f : Failure} (hR : m.program ≠ R) (h : m.next? held = some (.error f m')) :
    Finishes held R m ending ↔ ending = .failed f.cause := by
  refine ⟨fun hf => ?_, fun heq => heq ▸ .failed hR h⟩
  cases hf with
  | returned program => exact (hR program).elim
  | failed _ step =>
    cases h.symm.trans step
    rfl
  | step _ step => cases h.symm.trans step

theorem of_returned {v : Value} {S : List Operand} (hp : m.program = R) (hp' : m'.program = R)
    (hv : m.operands = .value v :: S) (hv' : m'.operands = .value v :: S)
    (hobjects : (Fragment.of m'.store.pool).cut (nodesOf [v]) = (Fragment.of m.store.pool).cut (nodesOf [v])) :
    Finishes held R m' ending ↔ Finishes held R m ending := by
  have hreturned : ∀ {M : Machine}, M.program = R → M.operands = .value v :: S →
      (Finishes held R M ending ↔ ending = .returned v ((Fragment.of M.store.pool).cut (nodesOf [v]))) := by
    refine fun hp hv => ⟨fun hf => ?_, fun heq => heq ▸ .returned hp (by rw [hv]; rfl)⟩
    cases hf with
    | returned _ result =>
      rw [hv] at result
      cases result
      rfl
    | failed program => exact (program hp).elim
    | step program => exact (program hp).elim
  rw [hreturned hp hv, hreturned hp' hv', hobjects]

/-- After the end of a body a result is remembered at most. -/
theorem of_memoize {memoize : Program} {v : Value} {S : List Operand} (hmemoize : IsMemoize memoize)
    (hconfig : m'.config = m.config) (hsteps : m'.steps = m.steps) (hp : m.program = memoize ++ R)
    (hp' : m'.program = memoize ++ R)
    (hv : m.operands = .value v :: S) (hv' : m'.operands = .value v :: S)
    (hobjects : (Fragment.of m'.store.pool).cut (nodesOf [v]) = (Fragment.of m.store.pool).cut (nodesOf [v])) :
    Finishes held R m' ending ↔ Finishes held R m ending := by
  rcases hmemoize with rfl | ⟨key, rfl⟩
  · exact of_returned hp hp' hv hv' hobjects
  · have hR : ∀ {M : Machine}, M.program = [.op (.memoize key) none] ++ R → M.program ≠ R := fun h =>
      h ▸ List.cons_ne_self _ _
    cases hover : m.config.overdrawn? m.steps with
    | some limit =>
      have hover' : m'.config.overdrawn? m'.steps = some limit := by rw [hconfig, hsteps, hover]
      rw [of_failed (hR hp) (next?_of_overdrawn hp hover), of_failed (hR hp') (next?_of_overdrawn hp' hover')]
    | none =>
      have hover' : m'.config.overdrawn? m'.steps = none := by rw [hconfig, hsteps, hover]
      rw [of_step (hR hp) (next?_of_memoize hp hover hv), of_step (hR hp') (next?_of_memoize hp' hover' hv')]
      exact of_returned rfl rfl hv hv' hobjects

end Machine.Finishes

namespace InBody

variable {G G' : Guise} {A : NodeId → Prop} {memoize Q Q' : Program} {S O O' : List Operand}
  {E held : List NodeId} {b b' n : Nat} {m : Machine} {s : Store} {g : Fragment} {C : Cause → Prop}
  {handles : Std.ExtTreeMap NodeId Nat compare} {ending : Ending}

theorem program_ne (h : InBody G A (.op .popContext none :: memoize) S E Q O b m) :
    (m.under G).program ≠ G.program := by
  intro heq
  have hlength := congrArg List.length heq
  rw [Machine.under_eq_of_keep h.lines, h.inside.program] at hlength
  simp only [List.length_append, List.length_cons] at hlength
  omega

/-- The call by itself is as far in the one machine as in the other. -/
theorem eq_nil {m' : Machine} (h : InBody G A (.op .popContext none :: memoize) S E Q O b m)
    (h' : InBody G' A (.op .popContext none :: memoize) S E [] O' b' m') (hp : m'.program = m.program) :
    Q = [] := by
  rw [h.inside.program, h'.inside.program] at hp
  exact (List.append_cancel_right hp).symm

/-- Where the body is used up, the calls go on in the same way. -/
theorem finishes_of_ended (hG : G.Matches G') (hmemoize : IsMemoize memoize)
    (h : InBody G A (.op .popContext none :: memoize) S E [] O b m)
    (h' : InBody G' A (.op .popContext none :: memoize) S E [] O' b' (m.beside n s)) {D : Setting}
    (ht : Twin D g m.store s) (hm : m.Whole C g) :
    Machine.Finishes held G.program ((m.beside n s).under G') ending ↔
      Machine.Finishes held G.program (m.under G) ending := by
  have hne : ((m.beside n s).under G').program ≠ G.program := hG.program ▸ h'.program_ne
  obtain ⟨-, ⟨v, hv⟩, -⟩ := h.ended
  have hgood : g.Good v := hm.operands v (hv ▸ List.mem_cons_self ..)
  rcases h.next?_of_ended held with ⟨limit, f, M, hover, hf, hcause, -⟩ | ⟨hwithin, hok⟩ <;>
    rcases h'.next?_of_ended held with ⟨limit', f', M', hover', hf', hcause', -⟩ | ⟨hwithin', hok'⟩
  · rw [hG.config] at hover'
    obtain rfl : limit = limit' := Option.some.inj (hover.symm.trans hover')
    rw [Machine.Finishes.of_failed h.program_ne hf, Machine.Finishes.of_failed hne hf', hcause, hcause']
  · rw [hG.config] at hwithin'
    cases hover.symm.trans hwithin'
  · rw [hG.config] at hover'
    cases hwithin.symm.trans hover'
  · rw [Machine.Finishes.of_step h.program_ne hok, Machine.Finishes.of_step hne hok']
    refine Machine.Finishes.of_memoize hmemoize hG.config rfl rfl ?_ hv hv ?_
    · show memoize ++ G'.program = _
      rw [hG.program]
    · rw [Machine.under_eq_of_keep h.lines, Machine.under_eq_of_keep h'.lines]
      exact ht.cut_eq hgood

theorem finishes_of_failed (hG : G.Matches G') {P' : Program}
    (h : InBody G A (.op .popContext none :: memoize) S E Q O b m) (hQ : Q ≠ [])
    (h' : InBody G' A (.op .popContext none :: memoize) S E Q' O' b' (m.beside n s)) (hQ' : Q' ≠ [])
    (ht : Twin (.plain C ⟨handles, held ++ G.nodes, held ++ G'.nodes⟩) g m.store s) (hm : m.Whole C g)
    {M : Machine} {f : Failure} (hf : (m.under G).next? held = some (.error f M))
    (hP' : ((m.beside n s).under G').program ≠ P') :
    Machine.Finishes held P' ((m.beside n s).under G') (.failed f.cause) := by
  rcases (h.failed hQ hf).2 with hstops | ⟨hstops, f₀, m₀, hfails, hcause⟩
  · obtain ⟨f', M', hf', hcause, -⟩ := h'.next?_of_stops held ((hG.stops ht hm).2 hstops)
    exact hcause ▸ .failed hP' hf'
  · obtain ⟨s₁, -, hfails', -⟩ := Machine.next?_beside_of_error (n := n) hm ht hfails
    have hfits := h'.fits hQ' fun cause hc => hstops cause ((hG.stops ht hm).1 hc)
    obtain ⟨f', hf', htells⟩ := Machine.next?_under_of_error hfits hfails'
    rw [hcause, ← htells.cause]
    exact .failed hP' hf'

/-- The call ends as it does with other callers. -/
theorem finishes_of_beside (hG : G.Matches G') (hmemoize : IsMemoize memoize)
    (h : InBody G A (.op .popContext none :: memoize) S E Q O b m)
    (h' : InBody G' A (.op .popContext none :: memoize) S E Q' O' b' (m.beside n s))
    (ht : Twin (.plain C ⟨handles, held ++ G.nodes, held ++ G'.nodes⟩) g m.store s) (hm : m.Whole C g)
    (hf : Machine.Finishes held G.program (m.under G) ending) :
    Machine.Finishes held G.program ((m.beside n s).under G') ending := by
  generalize hM : m.under G = M at hf
  induction hf generalizing m s g Q O b Q' O' b' with
  | returned program => exact (h.program_ne (hM ▸ program)).elim
  | @failed M M' f program step =>
    subst hM
    by_cases hQ : Q = []
    · subst hQ
      obtain rfl := h'.eq_nil h rfl
      exact (finishes_of_ended hG hmemoize h h' ht hm).2 (.failed program step)
    have hQ' : Q' ≠ [] := fun hQ' => hQ (by subst hQ'; exact h.eq_nil h' rfl)
    have hne : ((m.beside n s).under G').program ≠ G.program := hG.program ▸ h'.program_ne
    exact finishes_of_failed hG h hQ h' hQ' ht hm step hne
  | @step M M' ending program step rest ih =>
    subst hM
    by_cases hQ : Q = []
    · subst hQ
      obtain rfl := h'.eq_nil h rfl
      exact (finishes_of_ended hG hmemoize h h' ht hm).2 (.step program step rest)
    have hQ' : Q' ≠ [] := fun hQ' => hQ (by subst hQ'; exact h.eq_nil h' rfl)
    have hne : ((m.beside n s).under G').program ≠ G.program := hG.program ▸ h'.program_ne
    obtain ⟨m₁, Q₁, O₁, b₁, rfl, hstep, h₁⟩ := h.step hQ step
    obtain ⟨s₁, g₁, hstep', ht₁, hm₁⟩ := Machine.next?_beside_of_ok (n := n) hm ht hstep
    have hfits := h'.fits hQ' fun cause hc => h.not_stops step cause ((hG.stops ht hm).1 hc)
    have hunder := Machine.next?_under_of_ok hfits hstep'
    obtain ⟨m₂, Q₂, O₂, b₂, -, hstep₂, h₂⟩ := h'.step hQ' hunder
    cases hstep'.symm.trans hstep₂
    exact .step hne hunder (ih h₁ h₂ ht₁ hm₁ rfl)

end InBody

/-! ## The contexts of the callers -/

/-- The contexts `C` lie below at least one other, and also if the next step fails they are still there. -/
structure Machine.IsAbove (held : List NodeId) (C : List Context) (m : Machine) : Prop where
  contexts : ∃ own, own ≠ [] ∧ m.scopes.contexts = own ++ C
  failed : ∀ f m', m.next? held = some (.error f m') → ∃ own, m'.scopes.contexts = own ++ C

namespace InBody

variable {G : Guise} {A : NodeId → Prop} {memoize Q : Program} {S O : List Operand} {E held : List NodeId}
  {b n : Nat} {m M : Machine}

theorem isAbove (h : InBody G A (.op .popContext none :: memoize) S E Q O b m) :
    (m.under G).IsAbove held G.contexts where
  contexts := by
    obtain ⟨k, ks, hdepths⟩ := h.inside.flow.opened ⟨0, [], rfl⟩
    exact ⟨m.scopes.contexts, fun hnil => by simp [Scopes.depths, hnil] at hdepths, rfl⟩
  failed _ _ hn := h.contexts_of_failed hn

/-- The callers are left alone until the end of the call, which leaves its context. -/
theorem isAbove_of_steps (h : InBody G A (.op .popContext none :: memoize) S E Q O b m)
    (hs : Machine.Steps held n (m.under G) M) :
    M.IsAbove held G.contexts ∨
      ∃ k M₁ M₂, k < n ∧ Machine.Steps held k (m.under G) M₁ ∧ M₁.IsAbove held G.contexts ∧
        M₁.program = .op .popContext none :: (memoize ++ G.program) ∧
        M₁.next? held = some (.ok () M₂) ∧ M₂.scopes.contexts = G.contexts := by
  rcases h.run hs with ⟨m', Q', O', b', -, rfl, -, h'⟩ | ⟨k, m', O', b', hk, hs', -, h'⟩
  · exact .inl h'.isAbove
  · have hrest := hs'.sub hs hk
    generalize hi : n - k = i at hrest
    cases hrest with
    | refl => exact .inl h'.isAbove
    | head first _ =>
      exact .inr ⟨k, _, _, by omega, hs', h'.isAbove, h'.ended.1, first, (h'.pop first).2.2⟩

end InBody

/-! ## The main result -/

namespace Machine

variable {held : List NodeId} {g : Fragment} {m m₁ : Machine} {callee : NodeId} {args : List Value}
  {items : Program} {pins : Pins}

theorem Sound.isSome_callers (hm : m.Sound g) {C : List Context} (hC : Scopes.All g.Good (g.At .lambda) ⟨C⟩)
    (hheld : ∀ id ∈ held, (g id).isSome = true) {l : Lambda} {frame : Frame} {memoize : Program} {memo : Memo} :
    ∀ id ∈ held ++ ((m.entering l frame memoize memo C).callers m.program).nodes, (g id).isSome = true := by
  intro id hid
  rcases List.mem_append.1 hid with hid | hid
  · exact hheld id hid
  rcases List.mem_append.1 hid with hid | hid
  · exact hC.isSome id hid
  · exact hm.program id hid

/-- With other callers, a call ends in the same way. -/
theorem Sound.finishes_entering (hm : m.Sound g) (hheld : ∀ id ∈ held, (g id).isSome = true)
    {l : Lambda} {frame : Frame} {memoize : Program} {memo : Memo}
    (hbody : IsCode l.body) (hframe : frame.All g.Good (g.At .lambda)) (hmemo : memo.entries = m.memo.entries)
    (hmemoize : IsMemoize memoize) {C C' : List Context}
    (hC : Scopes.All g.Good (g.At .lambda) ⟨C⟩) (hC' : Scopes.All g.Good (g.At .lambda) ⟨C'⟩)
    (hlength : C'.length = C.length) {ending : Ending} :
    let M := m.entering l frame memoize memo
    Finishes held m.program (M C) ending → Finishes held m.program (M C') ending := by
  intro M hf
  have ht := hm.twin (B := ⟨m.store.pool.handles, held ++ ((M C).callers m.program).nodes,
    held ++ ((M C').callers m.program).nodes⟩) rfl (hm.isSome_callers hC hheld) (hm.isSome_callers hC' hheld)
  have hmatches : ((M C).callers m.program).Matches ((M C').callers m.program) := ⟨rfl, rfl, hlength⟩
  rw [show M C = _ from under_entering.symm] at hf
  rw [show M C' = _ from under_entering.symm]
  exact InBody.finishes_of_beside (n := m.config.collectEvery) (s := m.store) hmatches hmemoize
    (hm.inBody hbody hframe hmemo memoize C) (hm.inBody hbody hframe hmemo memoize C') ht
    (hm.whole hbody hframe hmemo hmemoize C) hf

/-- Calls are isolated from their callers. Let a call enter the body of a lambda, on a machine whose lambdas
have compiled bodies. Then in every state up to the end of the call, and also where it fails, the contexts of
the callers are what they were. With any other contexts, but as many of them, the call enters the same body,
and it ends in the same way: with the same value, from which the same objects can be reached, or with the same
cause. -/
theorem calls_isolated (held : List NodeId) (hm : m.Sound g) (hheld : ∀ id ∈ held, (g id).isSome = true)
    (hcallee : g.At .lambda callee) (hargs : ∀ v ∈ args, g.Good v)
    (hcall : MachineM.invoke callee args pins m = .ok (.items items) m₁) :
    ∃ body memoize, items = body ++ .op .popContext none :: memoize ∧
    (∀ n M, Steps held n ((Effect.items items).settle m₁) M →
      M.IsAbove held m.scopes.contexts ∨
      ∃ k M₁ M₂, k < n ∧ Steps held k ((Effect.items items).settle m₁) M₁ ∧
        M₁.IsAbove held m.scopes.contexts ∧ M₁.program = .op .popContext none :: (memoize ++ m.program) ∧
        M₁.next? held = some (.ok () M₂) ∧ M₂.scopes.contexts = m.scopes.contexts) ∧
    ∀ C, C.length = m.scopes.contexts.length → Scopes.All g.Good (g.At .lambda) ⟨C⟩ → ∃ m₂,
      (∀ pins', MachineM.invoke callee args pins' { m with scopes := ⟨C⟩ } = .ok (.items items) m₂) ∧
      ∀ ending, Finishes held m.program ((Effect.items items).settle m₂) ending ↔
        Finishes held m.program ((Effect.items items).settle m₁) ending := by
  obtain ⟨l, frame, memoize, memo, hl, rfl, hmemoize, hframe, hmemo, hinvoke⟩ :=
    MachineM.exists_of_invoke_items hcall
  cases hcall.symm.trans (hinvoke pins m.scopes.contexts rfl)
  have hbody := hm.isCode hl
  have hall := hm.all_frame hcallee hargs hl (hframe pins)
  refine ⟨l.body, memoize, rfl, fun n M hs => ?_,
    fun C hlength hC => ⟨_, fun pins' => hinvoke pins' C hlength, fun ending => ⟨?_, ?_⟩⟩⟩
  · have h := (hm.inBody hbody hall hmemo memoize m.scopes.contexts).isAbove_of_steps
      (by rw [under_entering]; exact hs)
    rwa [under_entering] at h
  · exact hm.finishes_entering hheld hbody hall hmemo hmemoize hC hm.scopes hlength.symm
  · exact hm.finishes_entering hheld hbody hall hmemo hmemoize hm.scopes hC hlength

/-! ## A call with other callers -/

/-- Adds its argument to itself. -/
def doubler : Lambda :=
  { label := "f", params := ["x"], body := (Expr.binary .add (.var "x") (.var "x")).compile }

/-- A machine with a lambda, and a global of the name of its parameter. -/
def doubling : Machine :=
  { store := { pool := (({} : Graph.Pool Object).allocate (.lambda doubler)).2 }
    scopes := ⟨[{ frames := [Frame.define {} "x" (.count 5)] }]⟩ }

theorem entries_doubling {id : NodeId} {e : Graph.Entry Object}
    (h : doubling.store.pool.entries[id]? = some e) :
    id = 1 ∧ e = ⟨.lambda doubler, Graph.Edges.addAll {} (Object.pointers (.lambda doubler))⟩ := by
  rcases getElem?_insert_cases h with h | ⟨_, h⟩
  · exact h
  · simp at h

theorem sound_doubling : doubling.Sound (Fragment.of doubling.store.pool) where
  entries id e he := by
    obtain ⟨rfl, rfl⟩ := entries_doubling he
    exact ⟨by decide, by simp [doubler, Object.pointers_eq, Object.links]⟩
  compiled id e l he hl := by
    obtain ⟨-, rfl⟩ := entries_doubling he
    cases hl
    exact ⟨none, _, by simp [Expr.Countable], rfl⟩
  closed id o ho l hl := by
    obtain ⟨e, he, rfl⟩ := Fragment.of_eq_some.1 ho
    obtain ⟨-, rfl⟩ := entries_doubling he
    simp [doubler, Object.links] at hl
  entry id o ho := by
    obtain ⟨e, he, rfl⟩ := Fragment.of_eq_some.1 ho
    obtain ⟨-, rfl⟩ := entries_doubling he
    exact ⟨_, he, rfl, Graph.Edges.Counts.nil.addAll⟩
  handles id hid := (Std.ExtTreeMap.not_mem_empty hid).elim
  program := nofun
  operands := nofun
  scopes c hc f hf := by
    obtain rfl := List.mem_singleton.1 hc
    obtain rfl := List.mem_singleton.1 hf
    exact Frame.All.empty.define (Fragment.good_of_scalar rfl)
  builders := nofun
  memo key v hv := by simp [doubling] at hv

/-- The machine after so many of the items that an operation leaves to be run next. -/
def within? (n : Nat) : EStateM.Result Failure Machine Effect → Option Machine
  | .ok (.items items) m => after? n ((Effect.items items).settle m)
  | _ => none

theorem exists_of_within? {n : Nat} {r : EStateM.Result Failure Machine Effect} {M : Machine}
    (h : within? n r = some M) :
    ∃ items m, r = .ok (.items items) m ∧ Steps [] n ((Effect.items items).settle m) M := by
  unfold within? at h
  split at h
  · exact ⟨_, _, rfl, steps_of_after? h⟩
  · cases h

/-- With a global that the callers bind to a text, the call returns the same number. -/
theorem calls_isolated_doubling :
    doubling.Sound (Fragment.of doubling.store.pool) ∧
    ∃ items m₁ m₂, MachineM.invoke 1 [.count 3] (.of fun _ => []) doubling = .ok (.items items) m₁ ∧
      MachineM.invoke 1 [.count 3] (.of fun _ => [])
        { doubling with scopes := ⟨[{ frames := [Frame.define {} "x" (.text "a")] }]⟩ } = .ok (.items items) m₂ ∧
      ∀ ending, Finishes [] [] ((Effect.items items).settle m₂) ending ↔
        Finishes [] [] ((Effect.items items).settle m₁) ending := by
  have hcall : (within? 0 (MachineM.invoke 1 [.count 3] (.of fun _ => []) doubling)).isSome = true := by
    decide +kernel
  have hlambda : (Fragment.of doubling.store.pool).At .lambda 1 := ⟨_, rfl, rfl⟩
  have hargs : ∀ v ∈ [Value.count 3], (Fragment.of doubling.store.pool).Good v := by
    simpa using Fragment.good_of_scalar (v := .count 3) rfl
  obtain ⟨M, hM⟩ := Option.isSome_iff_exists.1 hcall
  obtain ⟨items, m₁, hcall', -⟩ := exists_of_within? hM
  obtain ⟨body, memoize, -, -, hother⟩ := calls_isolated [] sound_doubling nofun hlambda hargs hcall'
  obtain ⟨m₂, hm₂, hending⟩ := hother [{ frames := [Frame.define {} "x" (.text "a")] }] rfl (by
    intro c hc f hf
    obtain rfl := List.mem_singleton.1 hc
    obtain rfl := List.mem_singleton.1 hf
    exact Frame.All.empty.define (Fragment.good_of_scalar rfl))
  exact ⟨sound_doubling, items, m₁, m₂, hcall', hm₂ _, hending⟩

/-! ## Bodies that are not compiled -/

/-- A machine with a global `x`. The second of its lambdas calls its argument. The first has a body that is
not compiled: it leaves its own context and the one below, binds `x` anew, and makes up for the contexts. -/
def reaching : Machine :=
  { store := { pool := lambdas.foldl (fun p l => (p.allocate (.lambda l)).2) {} }
    scopes := ⟨[{ frames := [Frame.define {} "x" (.count 5)] }]⟩ }
where
  caller : Expr := .call (.var "h") [.number (.ofNat 1)]
  lambdas : List Lambda :=
    [{ label := "h", params := ["a"], body := [.op .popContext none, .op .popContext none, .value (.count 9),
        .var "x", .op (.assign 1) none, .op .pushContext none, .op .pushContext none, .value .nil] },
      { label := "f", params := ["h"], body := caller.compile }]

/-- The last item is the end of a call. -/
def endsCall (program : Program) : Bool :=
  match program.getLast? with
  | some (.op .popContext none) => true
  | _ => false

theorem getLast?_of_endsCall {program : Program} (h : endsCall program = true) :
    program.getLast? = some (.op .popContext none) := by
  unfold endsCall at h
  split at h
  · assumption
  · cases h

/-- A call of a compiled body that calls one that is not. Before the end of the call, the context of its
caller is another one. -/
theorem reaching_rebinds :
    reaching.caller.Countable ∧
    (reaching.store.pool.get Object.lambdas 2).map Lambda.body = .ok reaching.caller.compile ∧
    ∃ items m₁ M, MachineM.invoke 2 [.object .lambda 1] (.of fun _ => []) reaching = .ok (.items items) m₁ ∧
      Steps [] 9 ((Effect.items items).settle m₁) M ∧ M.program.getLast? = some (.op .popContext none) ∧
      ∀ own, M.scopes.contexts ≠ own ++ reaching.scopes.contexts := by
  have hstate : (within? 9 (MachineM.invoke 2 [.object .lambda 1] (.of fun _ => []) reaching)).map (fun M =>
      (M.scopes.lookup? "x", M.scopes.depth, endsCall M.program)) = some (some (.count 9), 1, true) := by
    decide +kernel
  refine ⟨by simp [reaching.caller, Expr.Countable, CountableAll], rfl, ?_⟩
  obtain ⟨M, hM, heq⟩ := Option.map_eq_some_iff.1 hstate
  obtain ⟨items, m₁, hcall, hsteps⟩ := exists_of_within? hM
  obtain ⟨hx, hdepth, hlast⟩ : M.scopes.lookup? "x" = some (.count 9) ∧ M.scopes.depth = 1 ∧ _ = true := by
    simpa only [Prod.mk.injEq] using heq
  refine ⟨items, m₁, M, hcall, hsteps, getLast?_of_endsCall hlast, fun own hown => ?_⟩
  -- There is as much below as there was, so the context is the one that was there.
  have hlength : own = [] := by
    have hlen : M.scopes.contexts.length = 1 := hdepth
    rw [hown, List.length_append] at hlen
    exact List.length_eq_zero_iff.1 (Nat.add_eq_right.1 hlen)
  rw [hlength, List.nil_append] at hown
  have hsame : M.scopes.lookup? "x" = reaching.scopes.lookup? "x" := by
    rw [Scopes.lookup?, hown, Scopes.lookup?]
  rw [hx] at hsame
  exact absurd hsame (by decide)

end Machine

end Mosaic
