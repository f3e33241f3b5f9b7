import Mathlib.Logic.Relation
import Mosaic.Proofs.Balance.Operations
import Mosaic.Proofs.Steps

/-!
# Stack discipline of compiled code

While the code of an expression runs on top of a program `R`, operands `S` and open clusters `E`, the
machine is `Inside` it: what is left of the code flows from the shape of the stacks to one more value.
One step keeps this, so a whole run does, and when the code is used up the stacks are as before with
one value on top.
-/

namespace Mosaic

open Mosaic.Graph (NodeId Node Pool)

/-- The machine runs `Q` on top of `R`, with operands `O` on top of `S` and `b` clusters on top of
`E`. -/
structure Inside (G : Prop) (A : NodeId → Prop) (R : Program) (S : List Operand) (E : List NodeId)
    (τ : Shape) (Q : Program) (O : List Operand) (b : Nat) (m : Machine) : Prop where
  safe : Safe A E ⟨m.scopes.depths, b⟩ m
  program : m.program = Q ++ R
  nodes : Within A m.next (programNodes Q)
  operands : m.operands = O ++ S
  valid : ∀ o ∈ O, Within A m.next o.node?.toList
  flow : Flow G ⟨O.map Operand.slot, m.scopes.depths, b⟩ Q τ

namespace Inside

variable {G : Prop} {A : NodeId → Prop} {R : Program} {S : List Operand} {E : List NodeId} {τ : Shape}
  {Q : Program} {O : List Operand} {b n : Nat} {m m' : Machine} {held : List NodeId}

/-- What one step from the machine `m` may lead to. -/
def Next (G : Prop) (A : NodeId → Prop) (R : Program) (S : List Operand) (E : List NodeId) (τ : Shape)
    (m : Machine) : EStateM.Result Failure Machine Unit → Prop
  | .ok _ m' => m'.config = m.config ∧ ∃ Q O b, Inside G A R S E τ Q O b m'
  | .error failure _ => G → failure.cause.isStructural = false

theorem of_push {item : Item} {o : Operand} (h : Inside G A R S E τ (item :: Q) O b m)
    (ho : Within A m.next o.node?.toList)
    (flow : Flow G ⟨o.slot :: O.map Operand.slot, m.scopes.depths, b⟩ Q τ) :
    Inside G A R S E τ Q (o :: O) b { m with program := Q ++ R, operands := o :: m.operands } where
  safe := ⟨h.safe.store, h.safe.scopes, h.safe.memo, h.safe.depths, h.safe.builders⟩
  program := rfl
  nodes := (Within.append.1 h.nodes).2
  operands := by rw [h.operands]; rfl
  valid := by simpa using ⟨ho, h.valid⟩
  flow := flow

theorem settle {op : Op} {d : Depth} {O : List Operand} {m m' : Machine} {e : Effect}
    (hdoes : Does G A E op d m e m') (hp : m.program = Q ++ R) (ho : m.operands = O ++ S)
    (hn : Within A m.next (programNodes Q)) (hv : ∀ o ∈ O, Within A m.next o.node?.toList)
    (rest : ∀ d', op.move d = some d' → Flow G ⟨op.yields ++ O.map Operand.slot, d'⟩ Q τ) :
    Next G A R S E τ m (.ok ⟨⟩ (e.settle m')) := by
  obtain ⟨⟨ns, b'⟩, hsafe, hsame, hfits⟩ := hdoes
  refine ⟨by cases e <;> exact hsame.config, ?_⟩
  obtain rfl : m'.scopes.depths = ns := hsafe.depths
  have hn' := hn.mono hsame.next
  have hv' : ∀ o ∈ O, Within A m'.next o.node?.toList := fun o ho => (hv o ho).mono hsame.next
  have hp' := hsame.program.trans hp
  have ho' := hsame.operands.trans ho
  have hsafe' : ∀ program operands,
      Safe A E ⟨m'.scopes.depths, b'⟩ { m' with program, operands } := fun _ _ =>
    ⟨hsafe.store, hsafe.scopes, hsafe.memo, hsafe.depths, hsafe.builders⟩
  cases e with
  | value v =>
    obtain ⟨hy, hmove, hvalid⟩ := hfits
    have hflow := rest _ hmove
    rw [hy] at hflow
    exact ⟨Q, .value v :: O, b', hsafe' _ _, hp', hn', by simp [Effect.settle, ho'],
      by simpa using ⟨hvalid, hv'⟩, hflow⟩
  | done =>
    obtain ⟨hy, hmove⟩ := hfits
    have hflow := rest _ hmove
    rw [hy] at hflow
    exact ⟨Q, O, b', hsafe, hp', hn', ho', hv', hflow⟩
  | items items =>
    obtain ⟨hitems, hflow⟩ := hfits
    refine ⟨items ++ Q, O, b', hsafe' _ _, ?_, ?_, ho', hv', hflow _ _ _ rest⟩
    · simp [Effect.settle, hp']
    · simpa using ⟨hitems, hn'⟩

theorem exists_operands {op : Op} {line : Option Nat}
    (h : Inside G A R S E τ (.op op line :: Q) O b m) :
    ∃ O₁ O₂, O = O₁ ++ O₂ ∧ O₁.map Operand.slot = op.slots ∧ O₁.length = op.arity := by
  cases h.flow with
  | op _ sound slots cluster ready rest =>
    obtain ⟨O₁, O₂, hO, h₁, _⟩ := List.map_eq_append_iff.1 slots
    refine ⟨O₁, O₂, hO, h₁, ?_⟩
    rw [← Op.length_slots sound, ← h₁, List.length_map]

theorem runOp {op : Op} {line : Option Nat} (h : Inside G A R S E τ (.op op line :: Q) O b m)
    (pins : Pins) {m₁ : Machine} (hm₁ : m₁ = { m with program := Q ++ R, steps := m₁.steps }) :
    Next G A R S E τ m (MachineM.runOp op pins m₁) := by
  obtain ⟨O₁, O₂, rfl, hslots, hlen⟩ := h.exists_operands
  have hop : m₁.operands = O₁ ++ (O₂ ++ S) := by rw [hm₁, ← List.append_assoc]; exact h.operands
  have hnodes := h.nodes
  rw [programNodes_cons, Within.append] at hnodes
  rw [MachineM.runOp_apply, hop, if_neg (by simp; omega), List.take_left' hlen, List.drop_left' hlen]
  cases h.flow with
  | @op _ _ _ _ S' _ sound slots cluster ready rest =>
    obtain rfl : O₂.map Operand.slot = S' := by
      simp only [List.map_append, hslots] at slots
      exact List.append_cancel_left slots
    have hsafe : Safe A E ⟨m.scopes.depths, b⟩ { m₁ with operands := O₂ ++ S } := by
      rw [hm₁]
      exact ⟨h.safe.store, h.safe.scopes, h.safe.memo, h.safe.depths, h.safe.builders⟩
    have hnext : Machine.next { m₁ with operands := O₂ ++ S } = m.next := by rw [hm₁]
    have hdoes := MachineM.Leads.perform hsafe sound
      (by rw [List.map_reverse, hslots]) (fun o ho => by
        rw [hnext]; exact h.valid o (List.mem_append_left _ (List.mem_reverse.1 ho))) cluster
      (fun hG => (ready hG).1) pins
    cases hr : MachineM.perform op O₁.reverse pins { m₁ with operands := O₂ ++ S } with
    | error failure m' => rw [hr] at hdoes; exact hdoes
    | ok e m' =>
      rw [hr] at hdoes
      have hvalid : ∀ o ∈ O₂, Within A (Machine.next { m₁ with operands := O₂ ++ S })
          o.node?.toList := fun o ho => by rw [hnext]; exact h.valid o (by simp [ho])
      obtain ⟨hconfig, hin⟩ := settle hdoes (by rw [hm₁]) rfl (hnext ▸ hnodes.2) hvalid rest
      exact ⟨hconfig.trans (by rw [hm₁]), hin⟩

theorem step (h : Inside G A R S E τ Q O b m) {r : EStateM.Result Failure Machine Unit}
    (hQ : Q ≠ []) (hr : m.next? held = some r) : Next G A R S E τ m r := by
  obtain ⟨item, Q, rfl⟩ := List.exists_cons_of_ne_nil hQ
  rw [Machine.next?_of_cons (h.program : m.program = item :: (Q ++ R)), Option.some.injEq] at hr
  subst hr
  have hnodes := h.nodes
  rw [programNodes_cons, Within.append] at hnodes
  cases h.flow with
  | value v rest => exact ⟨rfl, Q, .value v :: O, b, h.of_push hnodes.1 rest⟩
  | var name rest => exact ⟨rfl, Q, .var name :: O, b, h.of_push (by simp [Operand.node?]) rest⟩
  | error hf _ => exact fun _ => hf
  | @op _ _ _ op _ line _ _ _ _ _ =>
    have hop : ∀ m₁ : Machine, m₁ = { m with program := Q ++ R, steps := m₁.steps } →
        Next G A R S E τ m (MachineM.runOpAt op line (Pins.of fun _ => held) m₁) := by
      intro m₁ hm₁
      have hnext := h.runOp (Pins.of fun _ => held) hm₁
      rw [MachineM.runOpAt, MachineM.tryCatch_apply]
      cases hr : MachineM.runOp op (Pins.of fun _ => held) m₁ <;> rw [hr] at hnext <;>
        exact hnext
    rw [MachineM.runItem_op_eq, MachineM.bind_apply, MachineM.modify_apply]
    dsimp only
    rw [MachineM.bind_apply, MachineM.get_apply]
    dsimp only
    cases m.config.maxSteps with
    | none => exact hop _ rfl
    | some limit =>
      by_cases hlimit : limit < m.steps + 1
      · simp only [if_pos hlimit]
        exact fun _ => rfl
      · simp only [if_neg hlimit]
        exact hop _ rfl

/-- A run stays inside the code until the code is used up. -/
theorem run (h : Inside G A R S E τ Q O b m) (hs : Machine.Steps held n m m') :
    (∃ Q O b, Q ≠ [] ∧ Inside G A R S E τ Q O b m') ∨
      ∃ k m₁ O b, k ≤ n ∧ Machine.Steps held k m m₁ ∧ Inside G A R S E τ [] O b m₁ := by
  induction hs generalizing Q O b with
  | refl m =>
    by_cases hQ : Q = []
    · subst hQ
      exact .inr ⟨0, m, O, b, Nat.le_refl _, .refl m, h⟩
    · exact .inl ⟨Q, O, b, hQ, h⟩
  | @head n m m₁ m₂ first rest ih =>
    by_cases hQ : Q = []
    · subst hQ
      exact .inr ⟨0, m, O, b, Nat.zero_le _, .refl m, h⟩
    · obtain ⟨_, Q', O', b', h'⟩ := h.step hQ first
      rcases ih h' with hin | ⟨k, m₃, O₃, b₃, hk, hs, h₃⟩
      · exact .inl hin
      · exact .inr ⟨k + 1, m₃, O₃, b₃, by omega, .head first hs, h₃⟩

theorem of_code {line : Option Nat} {e : Expr} (hs : Safe A E ⟨m.scopes.depths, 0⟩ m) (he : e.Countable)
    (hG : G → m.scopes.Open) (hp : m.program = e.compileAt line ++ R) (ho : m.operands = S) :
    Inside G A R S E ⟨[.value], m.scopes.depths, 0⟩ (e.compileAt line) [] 0 m where
  safe := hs
  program := hp
  nodes := by simp
  operands := ho
  valid := by simp
  flow := by
    have := Expr.yields_compileAt line e he ⟨[], m.scopes.depths, 0⟩ _ [] hG (.nil _)
    rwa [List.append_nil] at this

/-- When the code is used up there is one more value, and nothing else has changed. -/
theorem ended {ns : List Nat} (h : Inside G A R S E ⟨[.value], ns, 0⟩ [] O b m) :
    m.program = R ∧ (∃ v, m.operands = .value v :: S) ∧ m.scopes.depths = ns ∧ m.builders = E := by
  have hflow := h.flow
  generalize hσ : (⟨O.map Operand.slot, m.scopes.depths, b⟩ : Shape) = σ at hflow
  cases hflow with
  | nil =>
    simp only [Shape.mk.injEq, Depth.mk.injEq] at hσ
    obtain ⟨hO, hdepths, rfl⟩ := hσ
    obtain ⟨o, rfl, ho⟩ := List.map_eq_singleton_iff.1 hO
    obtain ⟨B, hB, hlen, _⟩ := h.safe.builders
    obtain rfl := List.eq_nil_of_length_eq_zero hlen
    refine ⟨h.program, ?_, hdepths, hB⟩
    cases o with
    | value v => exact ⟨v, h.operands⟩
    | var name => cases ho

theorem of_steps {ns : List Nat} (h : Inside G A [] S E ⟨[.value], ns, 0⟩ Q O b m)
    (hs : Machine.Steps held n m m') : ∃ Q O b, Inside G A [] S E ⟨[.value], ns, 0⟩ Q O b m' := by
  rcases h.run hs with ⟨Q, O, b, _, h⟩ | ⟨k, m₁, O, b, hk, hs₁, h⟩
  · exact ⟨Q, O, b, h⟩
  · -- The code was used up before, and there is nothing below it, so the run has ended.
    have hrest := hs₁.sub hs hk
    generalize n - k = j at hrest
    cases hrest with
    | refl => exact ⟨[], O, b, h⟩
    | head first _ =>
      obtain ⟨item, rest, hp⟩ := Machine.exists_cons_of_next? first
      rw [h.ended.1] at hp
      cases hp

end Inside

/-! ## Machines with compiled lambdas -/

/-- Some object at the first address points at the second. -/
def PointsTo (p : Pool Object) (a b : NodeId) : Prop :=
  ∃ e, p.entries[a]? = some e ∧ b ∈ Object.pointers e.node

namespace Machine

/-- The address can be reached from the scopes or the memo. -/
def Reaches (m : Machine) (id : NodeId) : Prop :=
  ∃ root ∈ m.scopes.nodes ++ m.memo.nodes, Relation.ReflTransGen (PointsTo m.store.pool) root id

/-- Every address that is stored or mentioned was given out. -/
structure Grounded (m : Machine) : Prop where
  entries : ∀ (id : NodeId) e, m.store.pool.entries[id]? = some e →
    id < m.next ∧ ∀ p ∈ Object.pointers e.node, p < m.next
  roots : ∀ id ∈ m.scopes.nodes ++ m.memo.nodes, id < m.next

/-- The bodies of the lambdas that can be reached are the code of expressions. -/
def Compiled (m : Machine) : Prop :=
  ∀ (id : NodeId) e l, m.Reaches id → m.store.pool.entries[id]? = some e → e.node = .lambda l →
    IsCode l.body

variable {m : Machine}

/-- The region of what the machine can reach now or will allocate. -/
def Region (m : Machine) (id : NodeId) : Prop := m.Reaches id ∨ m.next ≤ id

theorem Grounded.safe (h : m.Grounded) (hc : m.Compiled) :
    Safe m.Region m.builders ⟨m.scopes.depths, 0⟩ m := by
  have hroot : ∀ id ∈ m.scopes.nodes ++ m.memo.nodes, m.Region id ∧ id < m.next :=
    fun id hid => ⟨.inl ⟨id, hid, .refl⟩, h.roots id hid⟩
  refine ⟨⟨fun id e he => (h.entries id e he).1, fun id hid => .inr hid, ?_, ?_⟩, ?_, ?_, rfl,
    [], rfl, rfl, by simp⟩
  · rintro id e (⟨root, hr, hpath⟩ | hid) he p hp
    · exact ⟨.inl ⟨root, hr, hpath.tail ⟨e, he, hp⟩⟩, (h.entries id e he).2 p hp⟩
    · exact absurd (h.entries id e he).1 (Nat.not_lt.2 hid)
  · rintro id e l (hr | hid) _ he hl
    · exact hc id e l hr he hl
    · exact absurd (h.entries id e he).1 (Nat.not_lt.2 hid)
  · refine (Scopes.all_iff fun v => ?_).2 fun id hid => hroot id (List.mem_append_left _ hid)
    simp [Valid, Within]
  · intro key v hv id hid
    exact hroot id (List.mem_append_right _ (Memo.mem_nodes.2 ⟨key, v, hv, by simpa using hid⟩))

theorem Grounded.inside {G : Prop} (h : m.Grounded) (hc : m.Compiled) {e : Expr} (he : e.Countable)
    (hG : G → m.scopes.Open) (R : Program) (S : List Operand) :
    Inside G m.Region R S m.builders ⟨[.value], m.scopes.depths, 0⟩ e.compile [] 0
      { m with program := e.compile ++ R, operands := S } :=
  have hs := h.safe hc
  .of_code (m := { m with program := e.compile ++ R, operands := S })
    ⟨hs.store, hs.scopes, hs.memo, hs.depths, hs.builders⟩ he hG rfl rfl

theorem nodes_started (m : Machine) (program : Program) :
    (m.started program).scopes.nodes ++ (m.started program).memo.nodes = m.scopes.nodes := by
  simp [Machine.started]

theorem Grounded.started (h : m.Grounded) (program : Program) : (m.started program).Grounded :=
  ⟨h.entries, fun id hid => h.roots id (List.mem_append_left _ (nodes_started m program ▸ hid))⟩

theorem Compiled.started (h : m.Compiled) (program : Program) : (m.started program).Compiled := by
  rintro id e l ⟨root, hroot, hpath⟩ he hl
  rw [nodes_started] at hroot
  exact h id e l ⟨root, List.mem_append_left _ hroot, hpath⟩ he hl

variable {held : List NodeId} {e : Expr} {n : Nat} {m' : Machine}

/-- During a run the machine is inside the code, or at its end with one value. -/
theorem inside_of_steps {G : Prop} (hm : m.Grounded) (hc : m.Compiled) (he : e.Countable)
    (ho : G → m.scopes.Open) (hs : Steps held n (m.started e.compile) m') :
    ∃ Q O b, Inside G (m.started e.compile).Region [] [] [] ⟨[.value], m.scopes.depths, 0⟩ Q O b
      m' := by
  have hin := (hm.started e.compile).inside (hc.started e.compile) he ho [] []
  rw [List.append_nil] at hin
  exact hin.of_steps hs

theorem result_of_ended {ns : List Nat} {v : Value} (start : Machine) (hp : m.scopes.depths = ns)
    (hs : start.scopes.depths = ns) (ho : m.operands = [.value v]) (hb : m.builders = []) :
    m.result start.scopes.checkpoint = .ok v := by
  have hcheck : m.scopes.checkpoint = start.scopes.checkpoint := Scopes.checkpoint_eq_of_depths (hp.trans hs.symm)
  simp [result, hcheck, ho, hb]

/-- A run of the code of an expression that fails does so before the end of the code. -/
theorem exists_execute_of_run (hm : m.Grounded) (hc : m.Compiled) (he : e.Countable) {fuel : Nat} {failure : Failure}
    (hr : m.run held fuel e.compile = some (.error failure, m')) :
    ∃ m₂, execute held fuel (m.started e.compile) = some (.error failure, m₂) := by
  obtain ⟨⟨ended, m₂⟩, hex, hr⟩ := Option.map_eq_some_iff.1 hr
  obtain ⟨n, m₁, -, hs, hend⟩ := execute_inv hex
  obtain ⟨Q, O, b, hin⟩ := inside_of_steps hm hc he (False.elim : False → m.scopes.Open) hs
  rcases hend with ⟨rfl, rfl, hp⟩ | ⟨f, rfl, -⟩
  · obtain rfl : Q = [] := (List.append_eq_nil_iff.1 (hin.program.symm.trans hp)).1
    obtain ⟨-, ⟨v, hoperands⟩, hdepths, hbuilders⟩ := hin.ended
    simp [Except.bind, result_of_ended m hdepths rfl hoperands hbuilders] at hr
  · obtain ⟨rfl, -⟩ : f = failure ∧ _ := by simpa [Except.bind] using hr
    exact ⟨m₂, hex⟩

/-- Stack discipline of compiled code. However the machine is set up, if its lambdas have compiled
bodies, the code of an expression on top of any program `R` and any operands `S` runs until it is used
up, and then the program is `R`, one value is on top of `S`, and there are as many contexts, frames in
each of them, and open clusters as before. If there is a frame to work in, a run of the code does not
fail for a structural cause, and every operation finds operands of the kinds it takes. -/
theorem stack_discipline (held : List NodeId) {m : Machine} {e : Expr} (hm : m.Grounded)
    (hc : m.Compiled) (he : e.Countable) :
    (∀ (R : Program) (S : List Operand) (n : Nat) (m' : Machine),
      Steps held n { m with program := e.compile ++ R, operands := S } m' →
      (∃ Q O, Q ≠ [] ∧ m'.program = Q ++ R ∧ m'.operands = O ++ S) ∨
      ∃ k m₁ v, k ≤ n ∧ Steps held k { m with program := e.compile ++ R, operands := S } m₁ ∧
        m₁.program = R ∧ m₁.operands = .value v :: S ∧ m₁.scopes.depths = m.scopes.depths ∧
        m₁.builders = m.builders) ∧
    (m.scopes.Open →
      (∀ fuel failure m', m.run held fuel e.compile = some (.error failure, m') →
        failure.cause.isStructural = false) ∧
      ∀ n m' op line rest, Steps held n (m.started e.compile) m' →
        m'.program = .op op line :: rest →
        (m'.operands.take op.arity).map Operand.slot = op.slots) := by
  refine ⟨fun R S n m' hs => ?_, fun ho => ⟨fun fuel failure m' hr => ?_, ?_⟩⟩
  · have hin := hm.inside hc he (False.elim : False → m.scopes.Open) R S
    rcases hin.run hs with ⟨Q, O, b, hQ, h⟩ | ⟨k, m₁, O, b, hk, hs₁, h⟩
    · exact .inl ⟨Q, O, hQ, h.program, h.operands⟩
    · obtain ⟨hp, ⟨v, hv⟩, hd, hb⟩ := h.ended
      exact .inr ⟨k, m₁, v, hk, hs₁, hp, hv, hd, hb⟩
  · obtain ⟨⟨r, m₁⟩, hex, hr⟩ := Option.map_eq_some_iff.1 hr
    obtain ⟨n, m₂, _, hs, hend⟩ := execute_inv hex
    obtain ⟨Q, O, b, h⟩ := inside_of_steps hm hc he (fun _ : True => ho) hs
    rcases hend with ⟨rfl, rfl, hp⟩ | ⟨f, rfl, hf⟩
    · obtain rfl : Q = [] := by simpa [hp] using h.program
      obtain ⟨_, ⟨v, hv⟩, hd, hb⟩ := h.ended
      have hres := result_of_ended m hd rfl hv hb
      simp only [Except.bind, hres] at hr
      cases hr
    · have hQ : Q ≠ [] := by
        obtain ⟨item, rest, hp⟩ := exists_cons_of_next? hf
        rintro rfl
        simp [h.program] at hp
      cases hr
      exact h.step hQ hf trivial
  · intro n m' op line rest hs hp
    obtain ⟨Q, O, b, h⟩ := inside_of_steps hm hc he (fun _ : True => ho) hs
    obtain rfl : Q = .op op line :: rest := by simpa [hp] using h.program.symm
    obtain ⟨O₁, O₂, rfl, hslots, hlen⟩ := h.exists_operands
    rw [h.operands, List.append_assoc, List.take_left' hlen, hslots]

theorem grounded_ofConfig (config : Config) : (ofConfig config).Grounded :=
  ⟨fun id e he => by simp [ofConfig] at he,
    by simp [ofConfig, Scopes.nodes, Context.nodes]⟩

theorem compiled_ofConfig (config : Config) : (ofConfig config).Compiled :=
  fun id e l _ he => by simp [ofConfig] at he

/-- On a new machine, a comprehension that calls a lambda of its block never fails for a structural
cause. -/
theorem stack_discipline_fresh :
    (ofConfig {}).Grounded ∧ (ofConfig {}).Compiled ∧ (ofConfig {}).scopes.Open ∧
    ∀ fuel failure m', (ofConfig {}).run [] fuel
      (Expr.letIn [.bind ["f"] (.lambda "f" ["x"] (.binary .add (.var "x") (.number (.ofNat 1))))]
        (.comprehension "i" (.number (.ofNat 3)) (.call (.var "f") [.var "i"]))).compile =
        some (.error failure, m') → failure.cause.isStructural = false :=
  ⟨grounded_ofConfig {}, compiled_ofConfig {}, ⟨0, [], rfl⟩,
    ((stack_discipline [] (grounded_ofConfig {}) (compiled_ofConfig {})
      (by simp [Expr.Countable, CountableAll, CountableBindings])).2 ⟨0, [], rfl⟩).1⟩

end Machine

end Mosaic
