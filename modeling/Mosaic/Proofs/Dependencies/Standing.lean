import Mosaic.Proofs.Dependencies.Operations
import Mosaic.Proofs.Globals.Surface

/-!
# Sighted code on two footings

Outside of the calls that it makes, code looks up only names that are known, so with scopes that are moored
beside its own it takes the same steps (`Machine.Standing.step`), up to a call that enters a body, and fails
in the same way (`Machine.Standing.failed`).
-/

namespace Mosaic

open Mosaic.Graph (NodeId Pool)

namespace MachineM

variable {X : List NodeId} {m : Machine} {s : Scopes}

/-- These operations leave the scopes alone, and look up no name. -/
theorem Idles.perform (hs : m.scopes.Level X s) {op : Op} (hop : op.Blind ∧ ¬ op.Calls ∨
      (∃ yes no, op = .branch yes no) ∨ ∃ var index body, op = .iterate var index body) (args : List Operand) :
    Idles X m s (MachineM.perform op args) := by
  rcases hop with ⟨hblind, hcalls⟩ | ⟨yes, no, rfl⟩ | ⟨var, index, body, rfl⟩
  · cases op with
    | apply f => exact Follows.okThen fun vs _ => valueOf hs _ _
    | getField name =>
      rcases args with _ | ⟨o, _ | _⟩
      · exact fail
      · exact Follows.okThen fun v _ => valueOf hs _ _
      · exact fail
    | memoize key =>
      rcases args with _ | ⟨o, _ | _⟩
      · exact fail
      · exact Follows.okThen fun v _ => memoize key v
      · exact fail
    | call => exact (hcalls trivial).elim
    | _ => exact hblind.elim
  · rcases args with _ | ⟨o, _ | _⟩
    · exact fail
    · exact Follows.okThen fun v _ => Follows.okThen fun b _ => ret
    · exact fail
  · rcases index with _ | index <;> rcases args with _ | ⟨o, _ | ⟨o', _ | _⟩⟩
    · exact fail
    · exact openCluster hs var body o
    · exact addResult hs var 0 body o o'
    · exact fail
    · exact fail
    · exact fail
    · exact addResult hs var (index + 1) body o o'
    · exact fail

end MachineM

namespace Machine

variable {D : Name → Prop} {X : List NodeId} {ns ns₁ : List (List Name)} {K : List Operand} {m m₁ : Machine}
  {s s₁ : Scopes} {op : Op} {line : Option Nat} {R : Program} {held : List NodeId} {f : Failure} {e : Effect}

/-- The program is sighted, with the operands `K` on top of the stack, and the scopes are moored beside those
of the machine. -/
structure Standing (D : Name → Prop) (X : List NodeId) (ns : List (List Name)) (K : List Operand) (m : Machine)
    (s : Scopes) : Prop where
  sighted : Sighted D ns K m.program
  known : ∃ rest, m.operands = K ++ rest
  moored : Moored D X m.store.pool ns m.scopes s

/-- The lambdas that are set aside have the free names that they had. -/
def KeepsFree (m m₁ : Machine) : Prop :=
  ∀ c ∈ m.scopes.contexts, ∀ f ∈ c.frames, ∀ id ∈ f.parked, ∀ t,
    m₁.store.pool.get Object.lambdas id = .ok t →
      ∃ t₀, m.store.pool.get Object.lambdas id = .ok t₀ ∧ t.free = t₀.free

/-- What an operation that does not call leads to: from scopes that are moored to scopes that are, with sighted
code to run. -/
def Onward (D : Name → Prop) (X : List NodeId) (ns ns₁ : List (List Name)) (m : Machine) (s : Scopes) (e : Effect)
    (m₁ : Machine) (s₁ : Scopes) : Prop :=
  (Moored D X m₁.store.pool ns m.scopes s → Moored D X m₁.store.pool ns₁ m₁.scopes s₁) ∧
    ∃ K, Sighted D ns₁ K (e.settle m₁).program ∧ ∃ rest, (e.settle m₁).operands = K ++ rest

theorem sighted_of_eq_nil (rest : Sighted D ns [] R) : ∀ p, p = [] → Sighted D ns [] (p ++ R) := by
  rintro _ rfl
  exact rest

theorem onward_of_lands {args : List Operand} {x : MachineM Effect} (hx : x = MachineM.perform op args)
    (hcalls : ¬ op.Calls) (hrest : ∀ p, op.Unfolds p → Sighted D ns₁ [] (p ++ m.program))
    (h : MachineM.Follows X m s x x fun _ m₁ s₁ =>
      Moored D X m₁.store.pool ns m.scopes s → Moored D X m₁.store.pool ns₁ m₁.scopes s₁) :
    MachineM.Follows X m s x x (Onward D X ns ns₁ m s) := by
  subst hx
  refine (h.and ((MachineM.Ends.perform_kept op args).and
    ((MachineM.Unfolding.perform hcalls args).ends m))).imp fun e m₁ s₁ ⟨hmoored, hkept, hcode⟩ => ?_
  refine ⟨hmoored, [], ?_, ⟨_, rfl⟩⟩
  rw [Effect.program_settle, hkept.program]
  exact hrest e.code hcode

theorem onward_of_idles {args : List Operand} (hcalls : ¬ op.Calls)
    (hrest : ∀ p, op.Unfolds p → Sighted D ns [] (p ++ m.program))
    (h : MachineM.Idles X m s (MachineM.perform op args)) :
    MachineM.Follows X m s (MachineM.perform op args) (MachineM.perform op args) (Onward D X ns ns m s) :=
  onward_of_lands rfl hcalls hrest (h.imp fun _ _ _ ⟨hm₁, hs₁⟩ hp => by rwa [hm₁, hs₁])

namespace Standing

theorem moored_taking (h : Standing D X ns K m s) (op : Op) (R : Program) :
    Moored D X (m.taking op R).store.pool ns (m.taking op R).scopes s :=
  h.moored

/-- The arguments of an assignment are its value and the targets in the text. -/
theorem arguments_assign {names : List Name} (h : ∃ rest, m.operands = names.reverse.map .var ++ K ++ rest)
    (hsound : (Op.assign names.length).Sound) (hlen : (Op.assign names.length).arity ≤ m.operands.length) :
    ∃ value, m.arguments (.assign names.length) = value :: names.map .var := by
  obtain ⟨rest, hrest⟩ := h
  have harity : (Op.assign names.length).arity = names.length + 1 := Nat.mod_eq_of_lt hsound
  rw [harity, hrest, List.append_assoc] at hlen
  have hpos : 0 < (K ++ rest).length := by
    simp only [List.length_append, List.length_map, List.length_reverse] at hlen ⊢
    omega
  obtain ⟨value, below, hbelow⟩ := List.exists_cons_of_length_pos hpos
  refine ⟨value, ?_⟩
  have hlength : (names.reverse.map Operand.var).length = names.length := by simp
  rw [arguments, harity, hrest, List.append_assoc, hbelow, List.take_append, hlength, Nat.add_sub_cancel_left,
    List.take_of_length_le (by simp)]
  simp

theorem known_of_setField {n : Nat} (h : ∃ rest, m.operands = K ++ rest) (known : n ≤ K.length)
    (seen : ∀ binding field, .value (.fieldRef binding field) ∈ K.take n → Known D ns binding)
    {binding field : Name} (hmem : .value (.fieldRef binding field) ∈ (m.arguments (.setField n)).tail) :
    Known D ns binding := by
  obtain ⟨rest, hrest⟩ := h
  have hle : (Op.setField n).arity - 1 ≤ n := Nat.sub_le_of_le_add (Nat.mod_le _ _)
  rw [arguments, List.tail_reverse, List.mem_reverse, List.dropLast_eq_take, List.take_take] at hmem
  have hmem : _ ∈ m.operands.take n := List.take_subset_take_left _ (by simp; omega) hmem
  rw [hrest, List.take_append_of_le_length known] at hmem
  exact seen binding field hmem

theorem arguments_of_known {o : Operand} (h : ∃ rest, m.operands = o :: K ++ rest) (harity : op.arity = 1) :
    m.arguments op = [o] := by
  obtain ⟨rest, hrest⟩ := h
  rw [arguments, harity, hrest]
  rfl

theorem getVariable {name : Name} (h : Standing D X ns (.var name :: K) m s) (seen : Known D ns name) (R : Program) :
    let x := MachineM.perform .getVariable (m.arguments .getVariable)
    MachineM.Follows X (m.taking .getVariable R) s x x (MachineM.Above (m.taking .getVariable R) s) := by
  have hmoored := h.moored_taking .getVariable R
  dsimp only
  rw [arguments_of_known h.known rfl]
  exact .getVariable hmoored.level hmoored.depth (hmoored.lookup? seen)

theorem getFieldRef {binding field : Name} (h : Standing D X ns (.var binding :: K) m s) (seen : Known D ns binding)
    (rest : Sighted D ns (.value (.fieldRef binding field) :: K) R) :
    let x := MachineM.perform (.getFieldRef field) (m.arguments (.getFieldRef field))
    MachineM.Follows X (m.taking (.getFieldRef field) R) s x x
      (Onward D X ns ns (m.taking (.getFieldRef field) R) s) := by
  obtain ⟨below, hbelow⟩ := h.known
  dsimp only
  rw [arguments_of_known h.known rfl]
  refine ((MachineM.Follows.getFieldRef (h.moored_taking _ R) seen).and MachineM.Ends.getFieldRef).imp ?_
  rintro e m₁ s₁ ⟨⟨hm₁, hs₁⟩, rfl, stays⟩
  refine ⟨fun hp => by rwa [hm₁, hs₁], .value (.fieldRef binding field) :: K, ?_, below, ?_⟩
  · rw [Effect.program_settle, stays.program]
    exact rest
  · have hbelow' : m₁.operands = K ++ below := by
      rw [stays.operands, taking, hbelow]
      rfl
    exact congrArg _ hbelow'

theorem setField {n : Nat} (h : Standing D X ns K m s) (known : n ≤ K.length)
    (seen : ∀ binding field, .value (.fieldRef binding field) ∈ K.take n → Known D ns binding)
    (rest : Sighted D ns [] R) :
    let x := MachineM.perform (.setField n) (m.arguments (.setField n))
    MachineM.Follows X (m.taking (.setField n) R) s x x (Onward D X ns ns (m.taking (.setField n) R) s) := by
  refine onward_of_lands rfl id (sighted_of_eq_nil rest) ?_
  have htail : ∀ binding field, .value (.fieldRef binding field) ∈ (m.arguments (.setField n)).tail →
      Known D ns binding := fun _ _ => known_of_setField h.known known seen
  generalize m.arguments (.setField n) = args at htail
  cases args with
  | nil => exact .fail
  | cons value targets =>
    exact (MachineM.Follows.setField (h.moored_taking _ R) htail).imp fun _ _ _ h hp => h _ hp

theorem makeLambda {params free : List Name} {body : Program} (h : Standing D X ns K m s)
    (seen : ∀ name ∈ free, Known D ns name) (rest : Sighted D ns [] R) :
    let op := Op.makeLambda params body free
    let x := MachineM.perform op (m.arguments op)
    MachineM.Follows X (m.taking op R) s x x (Onward D X ns ns (m.taking op R) s) := by
  intro op x
  refine onward_of_lands rfl id (sighted_of_eq_nil rest) ?_
  simp only [x]
  generalize m.arguments op = args
  rcases args with _ | ⟨o, _ | _⟩
  · exact .fail
  · refine MachineM.Follows.okThen fun label _ => ?_
    refine ((MachineM.Follows.makeLambda (h.moored_taking op R) seen).and MachineM.free_of_makeLambda).imp ?_
    rintro e m₁ s₁ ⟨hlands, id, l, he, hl, hfree⟩ hp
    refine hlands _ (fun i hi t ht n hn => ?_) hp
    -- What is looked up is the lambda that was made.
    obtain rfl : id = i := by
      rw [he] at hi
      cases hi
      rfl
    cases hl.symm.trans ht
    rw [hfree] at hn
    exact seen n hn
  · exact .fail

/-- What the next operation does, with either scopes: it calls, or it leads from scopes that are moored to
scopes that are. -/
theorem perform (h : Standing D X ns K m s) (hp : m.program = .op op line :: R) (hsound : op.Sound)
    (hlen : op.arity ≤ m.operands.length) :
    let x := MachineM.perform op (m.arguments op)
    (op.Calls ∧ Sighted D ns [] R ∧ MachineM.Follows X (m.taking op R) s x x (MachineM.Above (m.taking op R) s)) ∨
      ∃ ns₁, MachineM.Follows X (m.taking op R) s x x (Onward D X ns ns₁ (m.taking op R) s) := by
  intro x
  have hsighted := h.sighted
  have hmoored := h.moored_taking op R
  rw [hp] at hsighted
  cases hsighted with
  | getVariable line seen rest => exact .inl ⟨trivial, rest, h.getVariable seen R⟩
  | fieldRef line seen rest => exact .inr ⟨ns, h.getFieldRef seen rest⟩
  | setField line known seen rest => exact .inr ⟨ns, h.setField known seen rest⟩
  | makeLambda line seen rest => exact .inr ⟨ns, h.makeLambda seen rest⟩
  | @assign ns l _ _ line names rest =>
    obtain ⟨value, hargs⟩ := arguments_assign h.known hsound hlen
    refine .inr ⟨(names.reverse ++ l) :: ns, onward_of_lands rfl id (sighted_of_eq_nil rest) ?_⟩
    simp only [x, hargs]
    exact (MachineM.Follows.assign hmoored).imp fun _ _ _ h hp => h _ hp
  | pushFrame line rest =>
    refine .inr ⟨_, onward_of_lands rfl id (sighted_of_eq_nil rest) ?_⟩
    exact (MachineM.Follows.pushFrame hmoored).imp fun _ _ _ h hp => h _ hp
  | popFrame line rest =>
    refine .inr ⟨_, onward_of_lands rfl id (sighted_of_eq_nil rest) ?_⟩
    exact (MachineM.Follows.popFrame hmoored).imp fun _ _ _ h hp => h _ hp
  | setDependencies line rest =>
    refine .inr ⟨_, onward_of_lands rfl id (sighted_of_eq_nil rest) ?_⟩
    exact (MachineM.Follows.setDependencies hmoored).imp fun _ _ _ h hp => h _ hp
  | @branch _ _ yes no _ line taken other =>
    refine .inr ⟨ns, onward_of_idles id ?_ (.perform hmoored.level (.inr (.inl ⟨yes, no, rfl⟩)) _)⟩
    rintro p (rfl | rfl)
    · exact taken
    · exact other
  | @iterate _ _ _ var index line inner e seen rest =>
    refine .inr ⟨ns, onward_of_idles id ?_ (.perform hmoored.level (.inr (.inr ⟨var, index, _, rfl⟩)) _)⟩
    rintro p (rfl | ⟨source, element, rfl⟩)
    · exact rest
    · exact rest.round inner source element seen
  | blind line hblind rest =>
    by_cases hcalls : op.Calls
    · refine .inl ⟨hcalls, rest, ?_⟩
      cases op with
      | call n => exact .call hmoored.level hmoored.depth
      | getVariable => exact hblind.elim
      | _ => exact hcalls.elim
    · refine .inr ⟨ns, onward_of_idles hcalls (fun p hp => ?_) (.perform hmoored.level (.inl ⟨hblind, hcalls⟩) _)⟩
      obtain rfl : p = [] := by
        cases op with
        | branch | iterate => exact hblind.elim
        | _ => exact hp
      exact rest

/-! ## Steps -/

theorem settle_withScopes (e : Effect) (m : Machine) (s : Scopes) :
    e.settle (m.withScopes s) = (e.settle m).withScopes s := by
  cases e <;> rfl

/-- The call was answered at once, or it has entered the body of a lambda. -/
theorem called {e : Effect} (h : Standing D X ns K m s) (hp : m.program = .op op line :: R)
    (hcalls : op.Calls) (hrest : Sighted D ns [] R)
    (hcalled : Called ((m.taking op R).Calls op (m.arguments op)) (m.taking op R) e m₁)
    (habove : MachineM.Above (m.taking op R) s e m₁ s₁) (hkept : m.KeepsFree m₁) :
    (∃ ns K, Standing D X ns K (e.settle m₁) s₁) ∨
      ∃ callee l memoize c, m.Entered (e.settle m₁) R callee l memoize ∧
        m₁.scopes = m.scopes.pushContext c ∧ s₁ = s.pushContext c ∧ Moored D X m₁.store.pool ns m.scopes s := by
  have hmoored := h.moored.of_pool hkept
  obtain ⟨C, hC, hs₁⟩ := habove
  cases hcalled with
  | answered v stays =>
    have hnil : C ++ m.scopes.contexts = m.scopes.contexts :=
      (congrArg Scopes.contexts hC).symm.trans (congrArg Scopes.contexts stays.scopes)
    obtain rfl : C = [] := by simpa using hnil
    refine .inl ⟨ns, [], stays.program.symm ▸ hrest, ⟨_, rfl⟩, ?_⟩
    show Moored D X m₁.store.pool ns m₁.scopes s₁
    rw [stays.scopes, hs₁]
    exact hmoored
  | entered callee l frame memoize called stored memo kept scopes limit =>
    have hcons : C ++ m.scopes.contexts = [{ frames := [frame], label := some l.label }] ++ m.scopes.contexts :=
      (congrArg Scopes.contexts hC).symm.trans (congrArg Scopes.contexts scopes)
    obtain rfl := List.append_cancel_right hcons
    exact .inr ⟨callee, l, memoize, _, ⟨⟨op, line, hp, hcalls, called⟩, stored, memo,
      congrArg (_ ++ ·) kept.program, frame, scopes⟩, scopes, hs₁, hmoored⟩

/-- With the other scopes the machine takes the same step: it still stands on the two footings, or it has
entered the body of a lambda. -/
theorem step (h : Standing D X ns K m s) (hX : ∀ id ∈ X, id ∈ held)
    (hready : ∀ op line R, m.program = .op op line :: R → op.Sound) (hkept : m.KeepsFree m₁)
    (hn : m.next? held = some (.ok () m₁)) :
    ∃ s₁, (m.withScopes s).next? held = some (.ok () (m₁.withScopes s₁)) ∧
      ((∃ ns K, Standing D X ns K m₁ s₁) ∨ ∃ R callee l memoize c, m.Entered m₁ R callee l memoize ∧
        Sighted D ns [] R ∧ m₁.scopes = m.scopes.pushContext c ∧ s₁ = s.pushContext c ∧
          Moored D X m₁.store.pool ns m.scopes s) := by
  obtain ⟨below, hbelow⟩ := h.known
  cases stepped_of_next? hn with
  | @push item rest o program operand =>
    refine ⟨s, next?_of_operand (m := m.withScopes s) program operand, .inl ?_⟩
    have hsighted := h.sighted
    rw [program] at hsighted
    cases hsighted with
    | value v hrest => exact ⟨ns, [], hrest, ⟨_, rfl⟩, h.moored⟩
    | var name hrest =>
      cases operand
      exact ⟨ns, .var name :: K, hrest, ⟨below, congrArg _ hbelow⟩, h.moored⟩
    | _ => cases operand
  | @perform op line R e m₁ program within operands performed =>
    have hother : ∀ {s₁}, MachineM.perform op (m.arguments op) (Pins.of fun _ => held)
        ((m.taking op R).withScopes s) = .ok e (m₁.withScopes s₁) →
          (m.withScopes s).next? held = some (.ok () ((e.settle m₁).withScopes s₁)) := by
      intro s₁ hs₁
      rw [next?_of_op (m := m.withScopes s) program,
        show (m.withScopes s).config.overdrawn? (m.withScopes s).steps = none from within]
      simp only [show (m.withScopes s).operands = m.operands from rfl, if_neg (Nat.not_lt.2 operands)]
      rw [show (m.withScopes s).arguments op = m.arguments op from rfl,
        show (m.withScopes s).taking op R = (m.taking op R).withScopes s from rfl, hs₁, ← settle_withScopes]
    have hpinned : ∀ id ∈ X, id ∈ (Pins.of fun _ => held).get := fun id hid => by
      simp [hX id hid]
    rcases h.perform program (hready op line R program) operands with ⟨hcalls, hrest, hfollows⟩ | ⟨ns₁, hfollows⟩
    · have houtcome := hfollows _ hpinned
      rw [performed] at houtcome
      obtain ⟨s₁, hs₁, habove⟩ := houtcome
      have hcalled := (MachineM.Ends.performCall hcalls).ok performed
      have hkept' : m.KeepsFree m₁ := by cases e <;> exact hkept
      refine ⟨s₁, hother hs₁, ?_⟩
      rcases h.called program hcalls hrest hcalled habove hkept' with
        hstanding | ⟨callee, l, memoize, c, hentered, hc, hc', hm⟩
      · exact .inl hstanding
      · refine .inr ⟨R, callee, l, memoize, c, hentered, hrest, ?_, hc', ?_⟩
        · rwa [Effect.scopes_settle]
        · cases e <;> exact hm
    · have houtcome := hfollows _ hpinned
      rw [performed] at houtcome
      obtain ⟨s₁, hs₁, hmoored, K₁, hsighted, hknown⟩ := houtcome
      refine ⟨s₁, hother hs₁, .inl ⟨ns₁, K₁, hsighted, hknown, ?_⟩⟩
      have hmoored₁ := hmoored (h.moored.of_pool (by cases e <;> exact hkept))
      cases e <;> exact hmoored₁

/-- With the other scopes the machine fails in the same way, but perhaps in other calls. -/
theorem failed (h : Standing D X ns K m s) (hX : ∀ id ∈ X, id ∈ held)
    (hready : ∀ op line R, m.program = .op op line :: R → op.Sound) (hn : m.next? held = some (.error f m₁)) :
    ∃ f' m₁', (m.withScopes s).next? held = some (.error f' m₁') ∧ f'.cause = f.cause := by
  cases stopped_of_next? hn with
  | @error failure rest program => exact ⟨_, _, next?_of_cons (m := m.withScopes s) program, rfl⟩
  | overdrawn program beyond => exact ⟨_, _, next?_of_overdrawn (m := m.withScopes s) program beyond, rfl⟩
  | @underflow op line rest program within operands =>
    refine ⟨({ cause := .stackUnderflow op.name op.arity m.operands.length } : Failure).atLine line
      |>.withBacktrace s.backtrace, { m.withScopes s with program := rest, steps := m.steps + 1 }, ?_, rfl⟩
    rw [next?_of_op (m := m.withScopes s) program,
      show (m.withScopes s).config.overdrawn? (m.withScopes s).steps = none from within]
    simp only [show (m.withScopes s).operands = m.operands from rfl, if_pos operands]
    rfl
  | @perform op line R failure m₁ program within operands performed =>
    have hpinned : ∀ id ∈ X, id ∈ (Pins.of fun _ => held).get := fun id hid => by
      simp [hX id hid]
    have houtcome : ∃ s₁, MachineM.perform op (m.arguments op) (Pins.of fun _ => held)
        ((m.taking op R).withScopes s) = .error failure (m₁.withScopes s₁) := by
      rcases h.perform program (hready op line R program) operands with ⟨-, -, hfollows⟩ | ⟨ns₁, hfollows⟩
      all_goals
        have houtcome := hfollows _ hpinned
        rwa [performed] at houtcome
    obtain ⟨s₁, hs₁⟩ := houtcome
    exact ⟨_, m₁.withScopes s₁, next?_of_failed (m := m.withScopes s) program within operands hs₁, rfl⟩

end Standing

end Machine

end Mosaic
