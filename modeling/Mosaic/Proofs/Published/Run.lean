import Mosaic.Proofs.Published.Writes

/-!
# Published objects never change

Between runs a machine mentions only nodes that were given out, so a run starts veiled, without an open
cluster (`Machine.Rested`). Each item keeps it veiled and writes only what `Op.Writes` says, and a run
that has ended, with or without a failure, leaves the machine at rest again. So on every machine that
definitions and runs lead to, the payload of a node that is there stays as it is, apart from those
writes, and nothing refers to an open cluster (`Machine.published_unchanged`).
-/

namespace Mosaic

open Mosaic.Graph (NodeId Node Pool)

/-! ## Items -/

/-- Every node that is there before and after has the payload it had, apart from what the item may write
as an operation. -/
def Item.Frames (item : Item) (m m' : Machine) : Prop :=
  ∀ (id : NodeId) e e', m.store.pool.entries[id]? = some e → m'.store.pool.entries[id]? = some e' →
    e'.node = e.node ∨ ∃ op line, item = .op op line ∧
      op.Writes m.builders m.scopes.parked id e.node e'.node

section

variable {n₀ : Nat} {item : Item} {op : Op} {line : Option Nat} {m m' : Machine}

theorem Item.Frames.of_store (h : m'.store = m.store) : item.Frames m m' := by
  intro id e e' he he'
  rw [h, he] at he'
  cases he'
  exact .inl rfl

theorem Op.Frames.of_item (h : op.Frames m m') : (Item.op op line).Frames m m' :=
  fun id e e' he he' => (h id e e' he he').imp (fun h => h) fun hw => ⟨op, line, rfl, hw⟩

/-- What a failed item leaves. -/
structure Item.Failed (item : Item) (m m' : Machine) : Prop where
  guarded : ∃ n₀ A, Guarded n₀ A m'.store m'
  frames : item.Frames m m'

/-- What an item leads to that does not fail. -/
structure Item.Leaves (n₀ : Nat) (item : Item) (m m' : Machine) : Prop where
  veiled : m'.Veiled n₀
  frames : item.Frames m m'
  appends : ∀ var index body line, item = .op (.iterate var (index + 1) body) line →
    ∃ d source operands, m.operands = source :: .value (.datum d) :: operands ∧ m.Appends m' d

namespace Machine.Veiled

theorem narrow (h : m.Veiled n₀) (steps : Nat) {program : Program} {operands : List Operand}
    (hp : program ⊆ m.program) (ho : operands ⊆ m.operands) :
    Veiled n₀ { m with program, operands, steps } :=
  ⟨⟨h.guarded.store, h.guarded.scopes, h.guarded.memo, h.guarded.base, h.guarded.early⟩,
    fun item hitem => h.program item (hp hitem), fun o hop => h.operands o (ho hop), h.nodup⟩

theorem push (h : m.Veiled n₀) {o : Operand} (ho : Within (· ∉ m.builders) m.next o.node?.toList) :
    Veiled n₀ { m with operands := o :: m.operands } :=
  ⟨⟨h.guarded.store, h.guarded.scopes, h.guarded.memo, h.guarded.base, h.guarded.early⟩, h.program,
    List.forall_mem_cons.2 ⟨ho, h.operands⟩, h.nodup⟩

theorem settle (h : m.Veiled n₀) {e : Effect} (he : e.Clear n₀ (· ∉ m.builders) m.next) :
    (e.settle m).Veiled n₀ := by
  cases e with
  | value v => exact h.push (o := .value v) he
  | items p =>
    exact ⟨⟨h.guarded.store, h.guarded.scopes, h.guarded.memo, h.guarded.base, h.guarded.early⟩,
      List.forall_mem_append.2 ⟨he, h.program⟩, h.operands, h.nodup⟩
  | done => exact h

end Machine.Veiled

namespace MachineM.Ends

theorem runItem (h : m.Veiled n₀) (hitem : item.Clear n₀ (· ∉ m.builders) m.next) :
    Ends (MachineM.runItem item) m (item.Failed m) fun _ m' => item.Leaves n₀ m m' := by
  have hm : ∀ {steps}, item.Failed m { m with steps } := fun {steps} =>
    ⟨⟨n₀, _, (h.narrow steps (List.Subset.refl _) (List.Subset.refl _)).guarded⟩, .of_store rfl⟩
  cases item with
  | value v => exact fun _ => ⟨h.push (o := .value v) hitem, .of_store rfl, nofun⟩
  | literal handle t id => exact fun _ => ⟨h.push (o := .value (.object t id)) hitem, .of_store rfl, nofun⟩
  | var name => exact fun _ => ⟨h.push (o := .var name) (by simp [Operand.node?]), .of_store rfl, nofun⟩
  | error failure => exact fun _ => hm
  | op op line =>
    refine runItem_op (fun _ => hm) fun steps htake => ?_
    have hdrop := h.narrow steps (List.Subset.refl _) (List.drop_subset op.arity m.operands)
    refine (perform hdrop hitem htake fun o ho => ?_).imp (fun m' hm' => ?_) fun e m' hm' => ?_
    · exact h.operands o (List.mem_of_mem_take (List.mem_reverse.1 ho))
    · obtain ⟨A, hA⟩ := hm'.guarded
      exact ⟨⟨n₀, A, hA⟩, hm'.frames.of_item⟩
    · obtain ⟨hleaves, happends⟩ := hm'
      refine ⟨hleaves.veiled.settle hleaves.clear, ?_, fun var index body line' heq => ?_⟩
      · cases e <;> exact Op.Frames.of_item hleaves.frames
      · cases heq
        obtain ⟨d, source, hargs, happ⟩ := happends var index body rfl
        refine ⟨d, source, m.operands.drop 2, ?_, by cases e <;> exact happ⟩
        have htop : m.operands.take 2 = [source, .value (.datum d)] := by
          rw [← List.reverse_reverse (m.operands.take 2)]
          exact congrArg List.reverse hargs
        rw [← List.take_append_drop 2 m.operands, htop]
        simp

end MachineM.Ends

end

/-! ## Between runs -/

theorem Scopes.All.restore {V : Value → Prop} {L : NodeId → Prop} {s : Scopes} (h : s.All V L)
    (start : Checkpoint) : (s.restore start).All V L := by
  have hfit : ∀ {α : Type} {fresh x : α} {n : Nat} {xs : List α}, x ∈ fitLast fresh n xs → x = fresh ∨ x ∈ xs :=
    fun hx => (List.mem_append.1 hx).imp List.eq_of_mem_replicate List.mem_of_mem_drop
  have hcontexts : ∀ c ∈ fitLast {} start.contexts s.contexts, ∀ f ∈ c.frames, f.All V L := by
    intro c hc f hf
    rcases hfit hc with rfl | hc
    · rw [List.mem_singleton.1 hf]
      exact .empty
    · exact h c hc f hf
  unfold Scopes.restore
  split
  · exact fun c hc => absurd hc (by simp)
  · rename_i c cs heq
    rw [heq] at hcontexts
    refine All.cons.2 ⟨fun f hf => ?_, fun c' hc' => hcontexts c' (List.mem_cons_of_mem _ hc')⟩
    rcases hfit hf with rfl | hf
    · exact .empty
    · exact hcontexts c (List.mem_cons_self ..) f hf

namespace Machine

variable {n₀ : Nat} {A : NodeId → Prop} {s₀ : Store} {held : List NodeId} {m m' : Machine}
  {program : Program}

/-- What a machine stores and its scopes mention was given out. -/
structure Rested (m : Machine) : Prop where
  store : Mosaic.Veiled (Old m.next) (fun _ => True) m.store
  scopes : m.scopes.All (Valid (fun _ => True) m.next) fun id => True ∧ id < m.next

theorem rested_of_guarded (h : Guarded n₀ A s₀ m) : m.Rested :=
  have hg : Guarded n₀ (fun _ => True) m.store m := h.imp fun _ _ => trivial
  ⟨hg.store.toVeiled.imp (fun _ hp id hid => Nat.lt_of_lt_of_le (hp id hid) h.base_le) fun _ h => h, hg.scopes⟩

namespace Rested

theorem started (h : m.Rested) (hp : Old m.next program) : (m.started program).Veiled m.next where
  guarded := by
    have hA : ∀ id : NodeId, True → id ∉ (m.started program).builders := fun _ _ => List.not_mem_nil
    refine ⟨.refl (h.store.imp (fun _ hp => hp) hA), ?_, fun key v hv => ?_, Nat.le_refl _, fun id _ => hA id trivial⟩
    · exact h.scopes.imp (fun _ hv => Within.imp hv hA) fun _ hid => ⟨hA _ trivial, hid.2⟩
    · simp [Machine.started] at hv
  program := hp.clear (fun _ _ => List.not_mem_nil) (Nat.le_refl _)
  operands o ho := absurd ho List.not_mem_nil
  nodup := List.nodup_nil

theorem reset (h : m.Rested) (start : Checkpoint) : (m.reset start).Rested :=
  ⟨h.store, h.scopes.restore start⟩

end Rested

theorem rested_ofConfig (config : Config) : (ofConfig config).Rested where
  store := ⟨fun id e he => by simp [ofConfig] at he, fun _ _ => trivial, fun id e he => by simp [ofConfig] at he,
    fun id e l he => by simp [ofConfig] at he⟩
  scopes := by
    intro c hc f hf
    rw [List.mem_singleton.1 hc] at hf
    rw [List.mem_singleton.1 hf]
    exact .empty

theorem Veiled.step (h : m.Veiled n₀) {item : Item} {rest : Program} (hp : m.program = item :: rest) :
    (∀ m', m.next? held = some (.ok () m') → item.Leaves n₀ m m') ∧
      ∀ failure m', m.next? held = some (.error failure m') → item.Failed m m' := by
  have hitem := h.program item (hp ▸ List.mem_cons_self ..)
  have hm : Veiled n₀ { m with program := rest } :=
    h.narrow m.steps (fun i hi => hp ▸ List.mem_cons_of_mem _ hi) (List.Subset.refl _)
  obtain ⟨hok, herror⟩ := (MachineM.Ends.runItem hm hitem).next hp
  refine ⟨fun m' hr => ?_, fun failure m' hr => ?_⟩
  · obtain ⟨hveiled, hframes, happends⟩ := hok m' hr
    exact ⟨hveiled, hframes, happends⟩
  · obtain ⟨hguarded, hframes⟩ := herror failure m' hr
    exact ⟨hguarded, hframes⟩

theorem Veiled.steps (h : m.Veiled n₀) {n : Nat} (hs : Steps held n m m') : m'.Veiled n₀ :=
  hs.invariant (fun m m' hm hnext => by
    obtain ⟨item, rest, hp⟩ := exists_cons_of_next? hnext
    exact ((hm.step hp).1 m' hnext).veiled) h

/-- A run that ends, with or without a failure, leaves the machine at rest. -/
theorem Rested.run (h : m.Rested) (hp : Old m.next program) {fuel : Nat} {r : Except Failure Value}
    (hr : m.run held fuel program = some (r, m')) : m'.Rested := by
  obtain ⟨⟨ended, m₁⟩, hex, hr⟩ := Option.map_eq_some_iff.1 hr
  have hm₁ : m₁.Rested := by
    obtain ⟨n, m₂, -, hs, hend⟩ := execute_inv hex
    have hm₂ := (h.started hp).steps hs
    rcases hend with ⟨-, rfl, -⟩ | ⟨failure, -, hf⟩
    · exact rested_of_guarded hm₂.guarded
    · obtain ⟨item, rest, hitem⟩ := exists_cons_of_next? hf
      obtain ⟨n₀, A, hg⟩ := ((hm₂.step hitem).2 failure m₁ hf).guarded
      exact rested_of_guarded hg
  dsimp only at hr
  split at hr <;> cases hr
  · exact ⟨hm₁.store, hm₁.scopes⟩
  · exact hm₁.reset _

/-! ## All machines that runs lead to -/

/-- The machines between runs: a new one, after definitions and after runs. Values that are defined and
programs name only nodes that were given out before. -/
inductive Idle : Machine → Prop
  | new (config : Config) : Idle (ofConfig config)
  | define {m m' : Machine} {name : Name} {v : Value} (idle : Idle m) (known : ∀ id, v.node? = some id → id < m.next)
      (defined : m.define name v = .ok m') : Idle m'
  | run {m m' : Machine} {held : List NodeId} {fuel : Nat} {program : Program} {r : Except Failure Value}
      (idle : Idle m) (known : ∀ id ∈ programNodes program, id < m.next)
      (ran : m.run held fuel program = some (r, m')) : Idle m'

/-- The machine is in the middle of a run. -/
def Running (held : List NodeId) (m : Machine) : Prop :=
  ∃ m₀ program n, Idle m₀ ∧ (∀ id ∈ programNodes program, id < m₀.next) ∧
    Steps held n (m₀.started program) m

/-- The next item leads to the second machine, or it fails and leaves it. -/
def After (held : List NodeId) (m m' : Machine) : Prop :=
  m.next? held = some (.ok () m') ∨ ∃ failure, m.next? held = some (.error failure m')

/-- No value, slot or binding refers to the node. -/
structure Unreferenced (m : Machine) (id : NodeId) : Prop where
  program : id ∉ programNodes m.program
  operands : ∀ o ∈ m.operands, o.node? ≠ some id
  scopes : id ∉ m.scopes.nodes
  memo : id ∉ m.memo.nodes
  slots : ∀ (owner : NodeId) e, m.store.pool.entries[owner]? = some e → id ∉ Node.pointers e.node
  bodies : ∀ t ∈ m.store.pool.tethers, t.2 ≠ id

theorem Idle.rested (h : Idle m) : m.Rested := by
  induction h with
  | new config => exact rested_ofConfig config
  | @define m m' name v _ known defined ih =>
    cases hs : m.scopes.define name v with
    | error failure => simp [Machine.define, hs, Except.map] at defined
    | ok scopes =>
      simp only [Machine.define, hs, Except.map, Except.ok.injEq] at defined
      subst defined
      exact ⟨ih.store, ih.scopes.define (fun id hid => ⟨trivial, known id (Option.mem_toList.1 hid)⟩) hs⟩
  | run _ known ran ih => exact ih.run known ran

theorem Running.veiled (h : m.Running held) : ∃ n₀, m.Veiled n₀ :=
  let ⟨m₀, _, _, idle, known, hs⟩ := h
  ⟨m₀.next, (idle.rested.started known).steps hs⟩

theorem Veiled.unreferenced (h : m.Veiled n₀) {b : NodeId} (hb : b ∈ m.builders) : m.Unreferenced b where
  program hid := by
    obtain ⟨item, hitem, hid⟩ := mem_programNodes.1 hid
    have hclear := h.program item hitem
    cases item with
    | op code line => exact h.guarded.early b (hclear b hid) hb
    | _ => exact (hclear b hid).1 hb
  operands o ho hid := (h.operands o ho b (by simp [hid])).1 hb
  scopes hid :=
    have hall := (Scopes.all_iff (L := (· ∉ m.builders)) fun _ => Iff.rfl).1 (h.guarded.scopes.imp
      (fun v hv id hid => (hv id (by simp [hid])).1) fun id hid => hid.1)
    hall b hid hb
  memo hid :=
    let ⟨key, v, hv, hid⟩ := Memo.mem_nodes.1 hid
    (h.guarded.memo key v hv b (by simp [hid])).1 hb
  slots owner e he hid := (h.guarded.store.pointers owner e he b hid).1 hb
  bodies t ht := by
    rintro rfl
    obtain ⟨e, he, ht⟩ := List.mem_flatMap.1 ht
    obtain ⟨owner, he⟩ := mem_values.1 he
    cases hnode : e.node with
    | lambda l =>
      rw [hnode] at ht
      have hid : t.2 ∈ programNodes l.body := by
        rw [← map_programTethers]
        exact List.mem_map_of_mem ht
      exact h.guarded.early t.2 (h.guarded.store.body owner e l he hnode t.2 hid) hb
    | _ =>
      rw [hnode] at ht
      cases ht

/-- Published objects never change. On every machine that definitions and runs of any programs lead to,
an item leaves the payload of each node that is there before and after it as it is, whether or not it
fails, with two exceptions: a later round of a comprehension may add a slot at the end of the innermost
open cluster, and the end of a block may add to the closures of the lambdas set aside in the innermost
frame data for free names that they missed. A later round that does not fail adds exactly one slot, the
value that the body has left. No open cluster is referred to by a value, a slot or a binding. -/
theorem published_unchanged (h : m.Running held) :
    (∀ item rest m', m.program = item :: rest → m.After held m' → item.Frames m m') ∧
    (∀ var index body line rest m', m.program = .op (.iterate var (index + 1) body) line :: rest →
      m.next? held = some (.ok () m') →
      ∃ d source operands, m.operands = source :: .value (.datum d) :: operands ∧ m.Appends m' d) ∧
    ∀ b ∈ m.builders, m.Unreferenced b := by
  obtain ⟨n₀, hm⟩ := h.veiled
  refine ⟨fun item rest m' hp hafter => ?_, fun var index body line rest m' hp hnext => ?_,
    fun b hb => hm.unreferenced hb⟩
  · rcases hafter with hnext | ⟨failure, hnext⟩
    · exact ((hm.step hp).1 m' hnext).frames
    · exact ((hm.step hp).2 failure m' hnext).frames
  · exact ((hm.step hp).1 m' hnext).appends var index body line rfl

/-- The next item is a later round of a comprehension. -/
def atLaterRound (m : Machine) : Bool :=
  match m.program with
  | .op (.iterate _ (_ + 1) _) _ :: _ => true
  | _ => false

/-- A comprehension over two numbers. -/
def counting : Expr := .comprehension "i" (.number (.ofNat 2)) (.var "i")

/-- After ten of its items the cluster of a comprehension is open, nothing refers to it, and the next
item adds a slot to it. -/
theorem published_unchanged_counting :
    ∃ m m', Running [] m ∧ m.builders = [1] ∧ m.next? [] = some (.ok () m') ∧
      (∃ d, m.Appends m' d) ∧ m.Unreferenced 1 := by
  have hstate : (after? 10 ((ofConfig {}).started counting.compile)).map (fun m =>
      (m.builders, m.atLaterRound, (after? 1 m).isSome)) = some ([1], true, true) := by
    decide +kernel
  obtain ⟨m, hm, heq⟩ := Option.map_eq_some_iff.1 hstate
  simp only [Prod.mk.injEq] at heq
  obtain ⟨hb, hround, hnext⟩ := heq
  obtain ⟨m', hm'⟩ := Option.isSome_iff_exists.1 hnext
  have hrunning : Running [] m :=
    ⟨ofConfig {}, counting.compile, 10, .new {}, by simp [Expr.compile], steps_of_after? hm⟩
  have hstep := next?_of_after? hm'
  obtain ⟨-, happends, hunreferenced⟩ := published_unchanged hrunning
  refine ⟨m, m', hrunning, hb, hstep, ?_, hunreferenced 1 (by simp [hb])⟩
  unfold atLaterRound at hround
  split at hround
  · obtain ⟨d, _, _, _, happ⟩ := happends _ _ _ _ _ m' ‹_› hstep
    exact ⟨d, happ⟩
  · cases hround

end Machine

end Mosaic
