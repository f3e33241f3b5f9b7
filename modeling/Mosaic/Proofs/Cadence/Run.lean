import Mosaic.Proofs.Cadence.Operations
import Mosaic.Proofs.Steps

/-!
# Collection is invisible

Two machines that differ in their cadence run a program side by side: after each item they are equal but
for their stores, and the stores share what the machines mention. So they dispatch the same operations, give
out the same addresses and come to the same end, and no collection makes a run fail
(`Machine.cadence_invisible`).
-/

namespace Mosaic

open Mosaic.Graph (NodeId Pool)

/-! ## Items -/

theorem Effect.Ready.settle {C : Cause → Prop} {g : Fragment} {m : Machine} {e : Effect} (h : e.Ready C g)
    (hm : m.Whole C g) : (e.settle m).Whole C g := by
  cases e with
  | value v =>
    refine ⟨hm.program, fun w hw => ?_, hm.scopes, hm.builders, hm.memo⟩
    rcases List.mem_cons.1 hw with hw | hw
    · cases hw
      exact h
    · exact hm.operands w hw
  | items p =>
    exact ⟨List.forall_mem_append.2 ⟨h, hm.program⟩, hm.operands, hm.scopes, hm.builders, hm.memo⟩
  | done => exact hm

theorem Machine.Whole.good {C : Cause → Prop} {g : Fragment} {m : Machine} (h : m.Whole C g) :
    ∀ o ∈ m.operands, o.Good g := by
  intro o ho
  cases o with
  | value v => exact h.operands v ho
  | var name => trivial

namespace MachineM.Agree

variable {C : Cause → Prop} {B : Backdrop} {n : Nat} {L : List NodeId} {g : Fragment} {m : Machine} {α : Type}
  {x : MachineM α} {Q : Fragment → α → Prop}

theorem change {h : Machine → Machine} (hw : m.Whole C g → (h m).Whole C g) (hs : (h m).store = m.store)
    (hb : ∀ s, h (m.beside n s) = (h m).beside n s) :
    Agree C B n L g m (modify h) fun _ _ => True := by
  rw [← bind_pure (modify h : MachineM PUnit)]
  exact modifyThen (ret trivial) hw hs hb

theorem rethrow {handle : Failure → MachineM α} (hx : Agree C B n L g m x Q)
    (hh : ∀ failure m, ∃ f, f.cause = failure.cause ∧ ∀ pins, handle failure pins m = .error f m ∧
      ∀ s, handle failure pins (m.beside n s) = .error f (m.beside n s)) :
    Agree C B n L g m (tryCatch x handle) Q := by
  intro hm pins pins' s hpins hL ht
  have hxx := hx hm pins pins' s hpins hL ht
  rw [tryCatch_apply, tryCatch_apply]
  cases hr : x pins m with
  | ok a m₁ =>
    cases hr' : x pins' (m.beside n s) with
    | ok b m₁' => rw [hr, hr'] at hxx; exact hxx
    | error f' m₁' => rw [hr, hr'] at hxx; exact hxx.elim
  | error failure m₁ =>
    cases hr' : x pins' (m.beside n s) with
    | ok b m₁' => rw [hr, hr'] at hxx; exact hxx.elim
    | error failure' m₁' =>
      rw [hr, hr'] at hxx
      obtain ⟨rfl, hc, s', rfl, hend⟩ := hxx
      obtain ⟨f, hcause, hf⟩ := hh failure m₁
      dsimp only
      rw [(hf pins).1, (hf pins').2 s']
      exact ⟨rfl, hcause ▸ hc, s', rfl, hend⟩

theorem runOp {op : Op} {line : Option Nat} (hop : (Item.op op line).Plain C) :
    Agree C B n L g m (MachineM.runOp op) fun _ _ => True := by
  rw [runOp_eq]
  refine known fun hm => getThen ?_ fun _ => rfl
  split
  · exact fail rfl
  · rename_i hlen
    refine modifyThen (bind (perform hop (fun o ho => hm.good o ?_) ?_) fun g' e m' _ he => ?_)
      (fun hm => ⟨hm.program, fun v hv => hm.operands v (List.mem_of_mem_drop hv), hm.scopes, hm.builders,
        hm.memo⟩) rfl fun _ => rfl
    · exact List.mem_of_mem_take (List.mem_reverse.1 ho)
    · rw [List.length_reverse, List.length_take]
      omega
    · exact change he.settle (by cases e <;> rfl) fun s => by cases e <;> rfl

theorem runItem {item : Item} (hitem : item.Ready C g) :
    Agree C B n L g m (MachineM.runItem item) fun _ _ => True := by
  have hpush : ∀ o : Operand, o.Good g → Agree C B n L g m (MachineM.pushOperand o) fun _ _ => True := by
    intro o ho
    refine change (fun hm => ⟨hm.program, fun v hv => ?_, hm.scopes, hm.builders, hm.memo⟩) rfl fun _ => rfl
    rcases List.mem_cons.1 hv with rfl | hv
    · exact ho
    · exact hm.operands v hv
  cases item with
  | value v =>
    exact hpush (.value v) hitem
  | literal handle t id => cases hitem.1
  | var name => exact hpush (.var name) trivial
  | error failure =>
    exact fun hm _ _ s _ _ ht => ⟨rfl, fun _ => hitem.2 failure (by simp [Item.failures]), s, rfl, g, ht, hm,
      .refl g [] L⟩
  | op op line =>
    have hat : Agree C B n L g { m with steps := m.steps + 1 } (runOpAt op line) fun _ _ => True :=
      rethrow (runOp hitem) fun failure m =>
        ⟨(failure.atLine line).withBacktrace m.scopes.backtrace, rfl, fun _ => ⟨rfl, fun _ => rfl⟩⟩
    rw [runItem_op_eq]
    refine modifyThen (getThen ?_ fun _ => rfl)
      (fun hm => ⟨hm.program, hm.operands, hm.scopes, hm.builders, hm.memo⟩) rfl fun _ => rfl
    split
    · split
      · exact fun hm _ _ s _ _ ht => ⟨rfl, nofun, s, rfl, g, ht, hm, .refl g [] L⟩
      · exact hat
    · exact hat

end MachineM.Agree

/-! ## Steps -/

namespace Machine

variable {C : Cause → Prop} {B : Backdrop} {n k : Nat} {g : Fragment} {m m₁ : Machine} {s : Store}

/-- One step of machines that are side by side. -/
theorem next?_beside (hm : m.Whole C g) (ht : Twin (.plain C B) g m.store s) :
    Option.Rel (MachineM.Alike C n (fun _ m' s' => ∃ g', Twin (.plain C B) g' m'.store s' ∧ m'.Whole C g')
      fun m' s' => ∃ g', Twin (.plain C B) g' m'.store s' ∧ m'.Whole C g')
      (m.next? B.left) ((m.beside n s).next? B.right) := by
  cases hp : m.program with
  | nil =>
    rw [next?_of_nil hp, next?_of_nil (m := m.beside n s) hp]
    exact .none
  | cons item rest =>
    rw [next?_of_cons hp, next?_of_cons (m := m.beside n s) hp]
    refine .some ?_
    have hprogram : ∀ i ∈ item :: rest, i.Ready C g := hp ▸ hm.program
    obtain ⟨hitem, hrest⟩ := List.forall_mem_cons.1 hprogram
    have hstep := MachineM.Agree.runItem (n := n) (L := []) (m := { m with program := rest }) hitem
      ⟨hrest, hm.operands, hm.scopes, hm.builders, hm.memo⟩ (Pins.of fun _ => B.left)
      (Pins.of fun _ => B.right) s (Setting.plain_pinned (by simp) (by simp)) (by simp) ht
    exact hstep.imp (fun _ _ _ ⟨g', ht', hm', _⟩ => ⟨g', ht', hm'⟩) fun _ _ ⟨g', ht', hm', _⟩ => ⟨g', ht', hm'⟩

theorem next?_beside_of_ok (hm : m.Whole C g) (ht : Twin (.plain C B) g m.store s)
    (h : m.next? B.left = some (.ok () m₁)) :
    ∃ s₁ g₁, (m.beside n s).next? B.right = some (.ok () (m₁.beside n s₁)) ∧
      Twin (.plain C B) g₁ m₁.store s₁ ∧ m₁.Whole C g₁ := by
  have hstep := next?_beside (n := n) hm ht
  rw [h] at hstep
  cases hr : (m.beside n s).next? B.right with
  | none => rw [hr] at hstep; cases hstep
  | some r =>
    rw [hr] at hstep
    cases hstep with
    | some hr' =>
      cases r with
      | error f m' => exact hr'.elim
      | ok u m' =>
        obtain ⟨-, s₁, rfl, g₁, ht₁, hm₁⟩ := hr'
        exact ⟨s₁, g₁, rfl, ht₁, hm₁⟩

theorem next?_beside_of_error (hm : m.Whole C g) (ht : Twin (.plain C B) g m.store s) {failure : Failure}
    (h : m.next? B.left = some (.error failure m₁)) :
    ∃ s₁ g₁, (m.beside n s).next? B.right = some (.error failure (m₁.beside n s₁)) ∧
      (failure.cause.isGraph = true → C failure.cause) ∧ Twin (.plain C B) g₁ m₁.store s₁ ∧ m₁.Whole C g₁ := by
  have hstep := next?_beside (n := n) hm ht
  rw [h] at hstep
  cases hr : (m.beside n s).next? B.right with
  | none => rw [hr] at hstep; cases hstep
  | some r =>
    rw [hr] at hstep
    cases hstep with
    | some hr' =>
      cases r with
      | ok u m' => exact hr'.elim
      | error f m' =>
        obtain ⟨rfl, hc, s₁, rfl, g₁, ht₁, hm₁⟩ := hr'
        exact ⟨s₁, g₁, rfl, hc, ht₁, hm₁⟩

/-- Machines that are side by side take the same steps. -/
theorem Steps.beside (hs : Steps B.left k m m₁) (hm : m.Whole C g) (ht : Twin (.plain C B) g m.store s) :
    ∃ s₁ g₁, Steps B.right k (m.beside n s) (m₁.beside n s₁) ∧ Twin (.plain C B) g₁ m₁.store s₁ ∧
      m₁.Whole C g₁ := by
  induction hs generalizing g s with
  | refl m => exact ⟨s, g, .refl _, ht, hm⟩
  | head first _ ih =>
    obtain ⟨s₁, g₁, first', ht₁, hm₁⟩ := next?_beside_of_ok (n := n) hm ht first
    obtain ⟨s₂, g₂, rest, ht₂, hm₂⟩ := ih hm₁ ht₁
    exact ⟨s₂, g₂, .head first' rest, ht₂, hm₂⟩

/-! ## Runs -/

/-- The machines have come to the same end. -/
structure EndedAlike (C : Cause → Prop) (n : Nat) (r r' : Except Failure Unit × Machine) : Prop where
  result : r'.1 = r.1
  rest : ∃ s g, r'.2 = r.2.beside n s ∧ Twin (.plain C) g r.2.store s ∧ r.2.Whole C g
  cause : ∀ failure, r.1 = .error failure → failure.cause.isGraph = true → C failure.cause

theorem execute_beside (fuel : Nat) (hm : m.Whole C g) (ht : Twin (.plain C) g m.store s) :
    Option.Rel (EndedAlike C n) (execute [] fuel m) (execute [] fuel (m.beside n s)) := by
  induction fuel generalizing m g s with
  | zero => exact .none
  | succ fuel ih =>
    cases hp : m.program with
    | nil =>
      rw [execute_of_ended hp, execute_of_ended (m := m.beside n s) hp]
      exact .some ⟨rfl, ⟨s, g, rfl, ht, hm⟩, nofun⟩
    | cons item rest =>
      obtain ⟨r, hr⟩ : ∃ r, m.next? [] = some r := ⟨_, next?_of_cons hp⟩
      cases r with
      | ok u m₁ =>
        obtain ⟨s₁, g₁, hr', ht₁, hm₁⟩ := next?_beside_of_ok (n := n) hm ht hr
        rw [execute_of_next hr, execute_of_next hr']
        exact ih hm₁ ht₁
      | error failure m₁ =>
        obtain ⟨s₁, g₁, hr', hc, ht₁, hm₁⟩ := next?_beside_of_error (n := n) hm ht hr
        rw [execute_of_failed hr, execute_of_failed hr']
        refine .some ⟨rfl, ⟨s₁, g₁, rfl, ht₁, hm₁⟩, fun f hf => ?_⟩
        cases hf
        exact hc

theorem result_error {start : Checkpoint} {failure : Failure} (h : m.result start = .error failure) :
    failure.cause.isGraph = false := by
  unfold result at h
  dsimp only at h
  split at h
  · cases h; rfl
  · split at h
    · cases h; rfl
    · split at h
      · cases h; rfl
      · split at h <;> cases h <;> rfl

theorem result_ok {start : Checkpoint} {v : Value} (h : m.result start = .ok v) : m.operands = [.value v] := by
  unfold result at h
  dsimp only at h
  split at h
  · cases h
  · split at h
    · cases h
    · split at h
      · cases h
      · split at h <;> cases h
        assumption

/-- Machines that differ in their cadences and their stores only, which have given out as many addresses
in as many allocations. -/
structure Abreast (m m' : Machine) : Prop where
  eq : m' = m.beside m'.config.collectEvery m'.store
  even : StoreM.Even m.store m'.store

/-- The runs have the same result, which shows the same and is made of the same objects at the same
addresses; if it is a failure of the graph, it is one in the text of the program. -/
structure SameOutcome (program : Program) (r r' : Except Failure Value × Machine) : Prop where
  result : r'.1 = r.1
  abreast : Abreast r.2 r'.2
  graph : ∀ v, r.1 = .ok v → ∀ id, (Fragment.of r.2.store.pool).Reach (nodesOf [v]) id →
    ∃ o, Fragment.of r.2.store.pool id = some o ∧ Fragment.of r'.2.store.pool id = some o
  shown : ∀ v, r.1 = .ok v → v.display r'.2.store.pool = v.display r.2.store.pool
  cause : ∀ failure, r.1 = .error failure → failure.cause.isGraph = true → Asks program failure.cause

end Machine

namespace Hosts

variable {E : Setting} {g : Fragment} {s : Store} {V : List NodeId} {id : NodeId} {o : Object}

theorem of_eq (h : Hosts E g s) (ho : g id = some o) : Fragment.of s.pool id = some o := by
  obtain ⟨e, he, hn, _⟩ := h.entry id o ho
  exact Fragment.of_eq_some.2 ⟨e, he, hn⟩

/-- What can be reached in the store from what is in the fragment is in the fragment. -/
theorem reach (h : Hosts E g s) (hg : g.Closed) (hV : ∀ i ∈ V, (g i).isSome = true)
    (hid : (Fragment.of s.pool).Reach V id) : g.Reach V id := by
  induction hid with
  | root hid => exact .root hid
  | link _ ho hl ih =>
    obtain ⟨o', ho'⟩ := Option.isSome_iff_exists.1 (ih.isSome hg hV)
    obtain rfl := Option.some.inj ((h.of_eq ho').symm.trans ho)
    exact .link ih ho' hl

end Hosts

namespace Machine

variable {C : Cause → Prop} {n k : Nat} {g : Fragment} {m : Machine} {s : Store} {program : Program}

/-- A value that is in the fragment is the same in both stores. -/
theorem same_value {E : Setting} {t : Store} {v : Value} (ht : Twin E g s t) (hv : g.Good v) :
    (∀ id, (Fragment.of s.pool).Reach (nodesOf [v]) id →
      ∃ o, Fragment.of s.pool id = some o ∧ Fragment.of t.pool id = some o) ∧
    v.display t.pool = v.display s.pool := by
  have hV : ∀ i ∈ nodesOf [v], (g i).isSome = true := by
    intro i hi
    obtain ⟨w, hw, hw'⟩ := List.mem_filterMap.1 hi
    obtain rfl := List.mem_singleton.1 hw
    exact hv.isSome hw'
  have hin : ∀ {r : Store}, Hosts E g r → g.In r.pool := fun h id o ho =>
    Fragment.of_eq_some.1 (h.of_eq ho)
  refine ⟨fun id hid => ?_, ?_⟩
  · obtain ⟨o, ho⟩ := Option.isSome_iff_exists.1 ((ht.left.reach ht.closed hV hid).isSome ht.closed hV)
    exact ⟨o, ht.left.of_eq ho, ht.right.of_eq ho⟩
  · refine (Corresponds.of_keeps ht.closed hV (.refl g _)).display_eq ht.closed (hin ht.left)
      (hin ht.right) (.self fun l hl => ⟨rfl, .root ?_⟩) hv
    exact List.mem_filterMap.2 ⟨v, List.mem_singleton.2 rfl, by simp [Value.node?_eq_link?, hl]⟩

/-- What a run makes of its end. -/
def conclude (start : Checkpoint) : Except Failure Unit × Machine → Except Failure Value × Machine
  | (ended, m) =>
    match ended.bind fun _ => m.result start with
    | .ok v => (.ok v, { m with operands := [] })
    | .error failure => (.error failure, m.reset start)

theorem run_eq (m : Machine) (held : List NodeId) (fuel : Nat) (program : Program) :
    m.run held fuel program = (execute held fuel (m.started program)).map (conclude m.scopes.checkpoint) :=
  rfl

theorem EndedAlike.conclude {start : Checkpoint} {r r' : Except Failure Unit × Machine}
    (h : EndedAlike (Asks program) n r r') :
    SameOutcome program (Machine.conclude start r) (Machine.conclude start r') := by
  obtain ⟨_, m⟩ := r
  obtain ⟨ended, m'⟩ := r'
  obtain ⟨hresult, ⟨s, g, hs, ht, hm⟩, hcause⟩ := h
  dsimp only at hresult hs ht hm hcause
  subst hresult hs
  have hfail : ∀ failure, (failure.cause.isGraph = true → Asks program failure.cause) →
      SameOutcome program (.error failure, m.reset start) (.error failure, (m.beside n s).reset start) := by
    refine fun failure hf => ⟨rfl, ⟨rfl, ht.next, ht.allocations⟩, nofun, nofun, fun f hf' => ?_⟩
    cases hf'
    exact hf
  cases ended with
  | error failure => exact hfail failure (hcause failure rfl)
  | ok u =>
    have hb : (m.beside n s).result start = m.result start := rfl
    simp only [Machine.conclude, Except.bind, hb]
    cases hr : m.result start with
    | error failure => exact hfail failure fun h => absurd h (by simp [result_error hr])
    | ok v =>
      have hsame := same_value ht (hm.operands v (by simp [result_ok hr]))
      refine ⟨rfl, ⟨rfl, ht.next, ht.allocations⟩, fun w hw => ?_, fun w hw => ?_, nofun⟩ <;> cases hw
      · exact hsame.1
      · exact hsame.2

/-- Runs of machines that are side by side have the same outcome. -/
theorem run_beside (fuel : Nat) (hm : (m.started program).Whole (Asks program) g)
    (ht : Twin (.plain (Asks program)) g m.store s) :
    Option.Rel (SameOutcome program) (m.run [] fuel program) ((m.beside n s).run [] fuel program) := by
  have hrel := execute_beside (n := n) fuel hm ht
  rw [run_eq, run_eq]
  show Option.Rel _ ((execute [] fuel (m.started program)).map _)
    ((execute [] fuel ((m.started program).beside n s)).map _)
  generalize execute [] fuel (m.started program) = r at hrel ⊢
  generalize execute [] fuel ((m.started program).beside n s) = r' at hrel ⊢
  cases hrel with
  | none => exact .none
  | some h => exact .some h.conclude

/-! ## New machines -/

/-- A new machine with some scopes. -/
def fresh (config : Config) (scopes : Scopes) : Machine := { ofConfig config with scopes }

theorem twin_empty (C : Cause → Prop) (s t : Store) (hs : s.pool = {}) (ht : t.pool = {})
    (ha : t.totals.allocations = s.totals.allocations) : Twin (.plain C) (fun _ => none) s t := by
  have hhosts : ∀ r : Store, r.pool = {} → Hosts (.plain C) (fun _ => none) r := fun r hr =>
    ⟨by rw [hr]; rfl, nofun, fun id e l he => by simp [hr] at he⟩
  have hharbors : ∀ r : Store, r.pool = {} → Harbors (.plain C) [] (fun _ => none) r := fun r hr =>
    .of_hosts (hhosts r hr) nofun (by simp [Store.tethered, Pool.tethers, hr]) nofun
  exact ⟨by rw [hs, ht], ha, nofun, Nat.zero_le _, hharbors s hs, hharbors t ht⟩

theorem whole_fresh (config : Config) {scopes : Scopes} (hs : scopes.nodes = [])
    (hp : programNodes program = []) :
    ((fresh config scopes).started program).Whole (Asks program) fun _ => none where
  program item hitem := .of_plain (plain_asks hp item hitem)
  operands v hv := by cases hv
  scopes := by
    have hall : scopes.All (fun v => ∀ id, v.node? = some id → False) fun _ => False :=
      (Scopes.all_iff fun _ => Iff.rfl).2 fun id hid => by rw [hs] at hid; cases hid
    exact hall.imp (fun v hv => Fragment.good_of_scalar (Option.eq_none_iff_forall_ne_some.2 hv))
      fun _ h => h.elim
  builders id hid := by cases hid
  memo key v hv := by simp [started] at hv

/-- The code of an expression never fails with a cause of the graph. -/
theorem isGraph_of_run_compile {config : Config} {scopes : Scopes} (hs : scopes.nodes = []) {e : Expr}
    {fuel : Nat} {failure : Failure} {m : Machine}
    (h : (fresh config scopes).run [] fuel e.compile = some (.error failure, m)) :
    failure.cause.isGraph = false := by
  have hp : programNodes e.compile = [] := by simp [Expr.compile]
  have hrel := run_beside (n := config.collectEvery) fuel (whole_fresh config hs hp)
    (twin_empty _ (fresh config scopes).store (fresh config scopes).store rfl rfl rfl)
  rw [h] at hrel
  generalize Machine.run _ [] fuel e.compile = r' at hrel
  cases hrel with
  | some hsame =>
    by_contra hc
    exact (e.sober_compileAt none).not_asks (by simpa using hc) (hsame.cause failure rfl (by simpa using hc))

/-- Collection inside a run is invisible. A program without objects, on a new machine with scalar globals,
does the same at every cadence: after so many items the machines are equal but for their stores, which
have given out as many addresses in as many allocations; and if the run ends, it has the same outcome. -/
theorem cadence_invisible (config : Config) {scopes : Scopes} {program : Program} (hs : scopes.nodes = [])
    (hp : programNodes program = []) (n k : Nat) :
    (∀ i m, Steps [] i ((fresh { config with collectEvery := n } scopes).started program) m →
      ∃ m', Steps [] i ((fresh { config with collectEvery := k } scopes).started program) m' ∧
        Abreast m m') ∧
    ∀ fuel, Option.Rel (SameOutcome program)
      ((fresh { config with collectEvery := n } scopes).run [] fuel program)
      ((fresh { config with collectEvery := k } scopes).run [] fuel program) := by
  have hm := whole_fresh { config with collectEvery := n } hs hp
  have ht := twin_empty (Asks program) (fresh { config with collectEvery := n } scopes).store
    (fresh { config with collectEvery := k } scopes).store rfl rfl rfl
  refine ⟨fun i m hsteps => ?_, fun fuel => run_beside (n := k) fuel hm ht⟩
  obtain ⟨s₁, g₁, hsteps', ht₁, -⟩ := hsteps.beside (B := {}) (n := k) hm ht
  exact ⟨_, hsteps', rfl, ht₁.next, ht₁.allocations⟩

/-- One global name, which is a number. -/
def globals : Scopes := ⟨[{ frames := [Frame.define {} "y" (.count 2)] }]⟩

/-- Clusters that are made by the calls of a comprehension. -/
def pairs : Expr :=
  .letIn [.bind ["f"] (.lambda "f" ["x"] (.cluster [.var "x", .var "y"]))]
    (.comprehension "i" (.number (.ofNat 3)) (.call (.var "f") [.var "i"]))

theorem cadence_invisible_pairs :
    globals.nodes = [] ∧ programNodes pairs.compile = [] ∧
    (∀ i m, Steps [] i ((fresh { collectEvery := 0 } globals).started pairs.compile) m →
      ∃ m', Steps [] i ((fresh { collectEvery := 7 } globals).started pairs.compile) m' ∧ Abreast m m') ∧
    ∀ fuel, Option.Rel (SameOutcome pairs.compile)
      ((fresh { collectEvery := 0 } globals).run [] fuel pairs.compile)
      ((fresh { collectEvery := 7 } globals).run [] fuel pairs.compile) :=
  have hp : programNodes pairs.compile = [] := by simp [Expr.compile]
  ⟨rfl, hp, cadence_invisible {} (show globals.nodes = [] from rfl) hp 0 7⟩

end Machine

end Mosaic
