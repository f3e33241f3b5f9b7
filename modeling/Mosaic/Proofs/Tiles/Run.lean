import Mosaic.Proofs.Comprehension.Body
import Mosaic.Proofs.Tiles.Edges
import Mosaic.Proofs.Tiles.Operations

/-!
# Tiles stay well formed

A step of a run of compiled code leaves the store orderly, and so does a step that fails, since the graph never
does. So the machine is sound and its store orderly after a run, too, whatever has come of it
(`Machine.Serving.sound`), and in the middle of the next one (`Machine.Working.orderly`).
-/

namespace Mosaic

open Mosaic.Graph (NodeId)

namespace Machine

variable {held held' : List NodeId} {m m' : Machine} {g : Fragment} {e : Expr} {n n₀ : Nat} {failure : Failure}
  {A : NodeId → Prop} {Q : Program} {O : List Operand} {τ : Shape} {b : Nat}

/-! ## Steps -/

theorem Veiled.orders {op : Op} {line : Option Nat} {rest : Program} (h : m.Veiled n₀)
    (hin : Inside False A [] [] [] τ Q O b m) (hs : m.store.Orderly) (hp : m.program = .op op line :: rest) :
    MachineM.Orders (MachineM.perform op (m.arguments op)) (m.taking op rest) := by
  obtain rfl : Q = .op op line :: rest := by rw [← hp, hin.program, List.append_nil]
  have hsound : op.Sound := by
    cases hin.flow with
    | op _ sound => exact sound
  have htaking : (m.taking op rest).Veiled n₀ :=
    h.narrow _ (fun i hi => hp ▸ List.mem_cons_of_mem _ hi) (List.drop_subset op.arity m.operands)
  refine .perform htaking.guarded hs hsound fun o ho => ?_
  exact h.operands o (List.mem_of_mem_take (List.mem_reverse.1 ho))

theorem Veiled.orderly_of_next (h : m.Veiled n₀) (hin : Inside False A [] [] [] τ Q O b m)
    (hs : m.store.Orderly) (hn : m.next? held = some (.ok () m')) : m'.store.Orderly := by
  cases stepped_of_next? hn with
  | push => exact hs
  | @perform op line rest effect m₁ program within operands performed =>
    have h₁ := h.orders hin hs program (Pins.of fun _ => held)
    rw [performed] at h₁
    cases effect <;> exact h₁

theorem Veiled.orderly_of_failed (h : m.Veiled n₀) (hin : Inside False A [] [] [] τ Q O b m)
    (hs : m.store.Orderly) (hn : m.next? held = some (.error failure m')) (hf : failure.cause.isGraph = false) :
    m'.store.Orderly := by
  cases stopped_of_next? hn with
  | @perform op line rest failure m₁ program within operands performed =>
    have h₁ := h.orders hin hs program (Pins.of fun _ => held)
    rw [performed] at h₁
    exact h₁ hf
  | _ => exact hs

/-! ## Runs -/

namespace Sound

theorem veiled_of_steps (h : m.Sound g) (hs : Steps held n (m.started e.compile) m') : m'.Veiled m.next :=
  (h.rested.started (by simp [Old, Expr.compile])).steps hs

theorem orderly_of_steps (h : m.Sound g) (hs₀ : m.store.Orderly) (he : e.Countable)
    (hs : Steps held n (m.started e.compile) m') : m'.store.Orderly := by
  induction n generalizing m' with
  | zero =>
    rw [hs.eq_of_zero]
    exact hs₀
  | succ n ih =>
    obtain ⟨m₁, hs₁, hn⟩ := hs.exists_of_succ
    obtain ⟨Q, O, b, hin⟩ := (h.inside_started he).of_steps hs₁
    exact (h.veiled_of_steps hs₁).orderly_of_next hin (ih hs₁) hn

/-- A step that fails leaves a sound machine and an orderly store. -/
theorem failed (h : m.Sound g) (hs₀ : m.store.Orderly) (hheld : ∀ id ∈ held, (g id).isSome = true)
    (he : e.Countable) {m₁ : Machine} (hs : Steps held n (m.started e.compile) m₁)
    (hn : m₁.next? held = some (.error failure m')) :
    m'.store.Orderly ∧ ∃ g', m'.Sound g' ∧ ∀ id ∈ held, (g' id).isSome = true := by
  obtain ⟨s, g₁, ht, hwhole⟩ := h.whole_of_steps hheld he hs
  obtain ⟨s', g₂, -, hcause, ht', hwhole'⟩ := next?_beside_of_error (n := 0) hwhole ht hn
  have hf : failure.cause.isGraph = false := by
    cases hgraph : failure.cause.isGraph with
    | false => rfl
    | true => exact hgraph.symm.trans (hcause hgraph)
  obtain ⟨Q, O, b, hin⟩ := (h.inside_started he).of_steps hs
  have hveiled := h.veiled_of_steps hs
  have hs' := hveiled.orderly_of_failed hin (h.orderly_of_steps hs₀ he hs) hn hf
  obtain ⟨item, rest, hitem⟩ := exists_cons_of_next? hn
  obtain ⟨n₀, A, hguarded⟩ := ((hveiled.step hitem).2 failure m' hn).guarded
  refine ⟨hs', of_whole ht' hwhole' (fun id e he => ?_) fun id e l he hl => ?_⟩
  · exact ⟨hguarded.store.below id e he, fun p hp => (hguarded.store.pointers id e he p hp).2⟩
  · have hplaced := hs'.placed (Fragment.of_eq_some.2 ⟨e, he, hl⟩)
    exact hplaced

theorem dropped (h : m.Sound g) {scopes : Scopes} (hscopes : scopes.All g.Good (g.At .lambda)) :
    Sound g { m with program := [], operands := [], builders := [], scopes } where
  entries := h.entries
  compiled := h.compiled
  closed := h.closed
  entry := h.entry
  handles := h.handles
  program := nofun
  operands := nofun
  scopes := hscopes
  builders := nofun
  memo := h.memo

theorem reset (h : m.Sound g) (start : Checkpoint) : (m.reset start).Sound g := h.dropped (h.scopes.restore start)

/-- A run leaves a sound machine and an orderly store. The result is there, too. -/
theorem run (h : m.Sound g) (hs₀ : m.store.Orderly) (hheld : ∀ id ∈ held, (g id).isSome = true)
    (he : e.Countable) {fuel : Nat} {r : Except Failure Value} (hr : m.run held fuel e.compile = some (r, m')) :
    m'.store.Orderly ∧ ∃ g', m'.Sound g' ∧ (∀ v, r = .ok v → g'.Good v) ∧ ∀ id ∈ held, (g' id).isSome = true := by
  obtain ⟨⟨ended, m₁⟩, hex, hr⟩ := Option.map_eq_some_iff.1 hr
  have hend : m₁.store.Orderly ∧ ∃ g', m₁.Sound g' ∧ ∀ id ∈ held, (g' id).isSome = true := by
    obtain ⟨n, m₂, -, hs, hend⟩ := execute_inv hex
    rcases hend with ⟨-, rfl, -⟩ | ⟨failure, -, hn⟩
    · exact ⟨h.orderly_of_steps hs₀ he hs, h.of_steps hheld he hs⟩
    · exact h.failed hs₀ hheld he hs hn
  obtain ⟨hs₁, g', h', hheld'⟩ := hend
  dsimp only at hr
  split at hr <;> cases hr
  · rename_i v hv
    refine ⟨hs₁, g', ⟨h'.entries, h'.compiled, h'.closed, h'.entry, h'.handles, h'.program, nofun, h'.scopes,
      h'.builders, h'.memo⟩, fun w hw => ?_, hheld'⟩
    cases hw
    cases ended with
    | error failure => cases hv
    | ok u => exact h'.operands v (by simp [result_ok hv])
  · exact ⟨hs₁, g', h'.reset _, nofun, hheld'⟩

end Sound

/-! ## Machines that serve -/

/-- The machines between runs of expressions, while the nodes in `held` are held: a new one, after values were
defined that are held, and after runs, whatever has come of them. -/
inductive Serving : List NodeId → Machine → Prop
  | new (config : Config) : Serving [] (ofConfig config)
  | define {held : List NodeId} {m m' : Machine} {name : Name} {v : Value} (serving : Serving held m)
      (known : ∀ l, v.link? = some l → l.2 ∈ held ∧ (Fragment.of m.store.pool).At l.1 l.2)
      (defined : m.define name v = .ok m') : Serving held m'
  | run {held : List NodeId} {m m' : Machine} {e : Expr} {fuel : Nat} {r : Except Failure Value}
      (serving : Serving held m) (countable : e.Countable) (ran : m.run held fuel e.compile = some (r, m')) :
      Serving (nodesOf r.toOption.toList ++ held) m'
  | release {held held' : List NodeId} {m : Machine} (serving : Serving held m) (rest : held' ⊆ held) :
      Serving held' m

/-- The machine is in the middle of a run of an expression. -/
def Working (held : List NodeId) (m : Machine) : Prop :=
  ∃ (m₀ : Machine) (e : Expr) (n : Nat), Serving held m₀ ∧ e.Countable ∧ Steps held n (m₀.started e.compile) m

theorem Serving.sound (h : Serving held m) :
    m.store.Orderly ∧ ∃ g, m.Sound g ∧ ∀ id ∈ held, (g id).isSome = true := by
  induction h with
  | new config => exact ⟨.empty rfl, _, sound_ofConfig config, nofun⟩
  | @define held m m' name v _ known defined ih =>
    obtain ⟨hs, g, hg, hheld⟩ := ih
    cases hd : m.scopes.define name v with
    | error failure => simp [Machine.define, hd, Except.map] at defined
    | ok scopes =>
      simp only [Machine.define, hd, Except.map, Except.ok.injEq] at defined
      subst defined
      have hv : g.Good v := by
        intro l hl
        obtain ⟨hmem, o, ho, ht⟩ := known l hl
        obtain ⟨o', ho'⟩ := Option.isSome_iff_exists.1 (hheld l.2 hmem)
        obtain ⟨e, he, rfl, -⟩ := hg.entry l.2 o' ho'
        obtain ⟨e', he', rfl⟩ := Fragment.of_eq_some.1 ho
        obtain rfl : e = e' := Option.some.inj (he.symm.trans he')
        exact ⟨e.node, ho', ht⟩
      exact ⟨hs, g, ⟨hg.entries, hg.compiled, hg.closed, hg.entry, hg.handles, hg.program, hg.operands,
        hg.scopes.define hv hd, hg.builders, hg.memo⟩, hheld⟩
  | @run held m m' e fuel r _ countable ran ih =>
    obtain ⟨hs, g, hg, hheld⟩ := ih
    obtain ⟨hs', g', hg', hv, hheld'⟩ := hg.run hs hheld countable ran
    refine ⟨hs', g', hg', fun id hid => ?_⟩
    rcases List.mem_append.1 hid with hid | hid
    · obtain ⟨v, hmem, hnode⟩ := List.mem_filterMap.1 hid
      cases r with
      | error failure => cases hmem
      | ok w =>
        obtain rfl := List.mem_singleton.1 hmem
        exact (hv v rfl).isSome hnode
    · exact hheld' id hid
  | release _ rest ih =>
    obtain ⟨hs, g, hg, hheld⟩ := ih
    exact ⟨hs, g, hg, fun id hid => hheld id (rest hid)⟩

theorem Working.orderly (h : Working held m) : m.store.Orderly :=
  let ⟨_, _, _, hserving, he, hs⟩ := h
  let ⟨hs₀, _, hg, _⟩ := hserving.sound
  hg.orderly_of_steps hs₀ he hs

/-! ## Tiles in the middle of a run -/

/-- Tiles stay well formed. On every machine in the middle of a run of an expression, whatever was run on it
before, each tile in the store has three vertices or more and as many edges, which are different nodes, know their
index and point back at it; each vertex and each edge is in the tile that it points at, at its own index. So an
edge leads from a vertex to a vertex and has a length, where no field hides that, and it ends where the next edge
of the tile starts. Indices are 64-bit words, so this is said of tiles that have no more vertices than that. -/
theorem Working.wellFormed (h : Working held m) :
    (∀ id t, Fragment.of m.store.pool id = some (.tile t) → (Fragment.of m.store.pool).WellFormed id t) ∧
    (∀ id x, Fragment.of m.store.pool id = some (.vertex x) →
      ∃ i t, x.tile = some i ∧ Fragment.of m.store.pool i = some (.tile t) ∧ t.vertices[x.index]? = some id) ∧
    (∀ id x, Fragment.of m.store.pool id = some (.edge x) →
      (∃ i t, x.tile = some i ∧ Fragment.of m.store.pool i = some (.tile t) ∧ t.edges[x.index]? = some id) ∧
        ∃ v w, m.store.Spans id x v w) ∧
    ∀ (id : NodeId) t (k : Nat) a b x y, Fragment.of m.store.pool id = some (.tile t) →
      t.vertices.length ≤ 2 ^ 64 → t.edges[k]? = some a → t.edges[(k + 1) % t.edges.length]? = some b →
      Fragment.of m.store.pool a = some (.edge x) → Fragment.of m.store.pool b = some (.edge y) →
      ∃ u v w, m.store.Spans a x u v ∧ m.store.Spans b y v w := by
  have hs := h.orderly
  refine ⟨fun id t ht => hs.tile ht, fun id x hx => hs.vertex hx, fun id x hx => ?_,
    fun id t k a b x y ht hn ha hb hx hy => hs.joined ht hn ha hb hx hy⟩
  obtain ⟨i, t, hi, ht, hplace⟩ := hs.edge hx
  obtain ⟨v, w, -, -, hspans⟩ := hs.spans ht hx hi
  exact ⟨⟨i, t, hi, ht, hplace⟩, v, w, hspans⟩

/-- A triangle. -/
def triangle : Expr :=
  let point (x y : Nat) : Expr := .cluster [.number (.ofNat x), .number (.ofNat y)]
  .primitive "polygon" [.cluster [point 0 0, point 1 0, point 0 1]]

/-- At the end of its run the triangle is at the fifth address, and its last edge leads back to the first one. -/
theorem Working.wellFormed_triangle :
    ∃ m t x y, Working [] m ∧ Fragment.of m.store.pool 5 = some (.tile t) ∧ t.vertices = [6, 7, 8] ∧
      Fragment.of m.store.pool 11 = some (.edge x) ∧ Fragment.of m.store.pool 9 = some (.edge y) ∧
      (Fragment.of m.store.pool).WellFormed 5 t ∧ ∃ u v w, m.store.Spans 11 x u v ∧ m.store.Spans 9 y v w := by
  have hstate : (after? 11 ((ofConfig {}).started triangle.compile)).map (fun m =>
      ((m.store.pool.get Object.tiles 5).toOption.map fun t => (t.vertices, t.edges),
        (m.store.pool.get Object.edges 11).toOption.map Edge.index,
        (m.store.pool.get Object.edges 9).toOption.map Edge.index)) =
      some (some ([6, 7, 8], [9, 10, 11]), some 2, some 0) := by
    decide +kernel
  obtain ⟨m, hm, hread⟩ := Option.map_eq_some_iff.1 hstate
  have hworking : Working [] m :=
    ⟨ofConfig {}, triangle, 11, .new {}, by simp [triangle, Expr.Countable, CountableAll], steps_of_after? hm⟩
  obtain ⟨hformed, -, -, hjoined⟩ := hworking.wellFormed
  obtain ⟨htile, hedges⟩ := Prod.mk.inj hread
  obtain ⟨hlast, hfirst⟩ := Prod.mk.inj hedges
  obtain ⟨t, ht, hparts⟩ := Store.exists_of_get htile
  obtain ⟨hvertices, hedges⟩ := Prod.mk.inj hparts
  obtain ⟨x, hx, -⟩ := Store.exists_of_get hlast
  obtain ⟨y, hy, -⟩ := Store.exists_of_get hfirst
  refine ⟨m, t, x, y, hworking, ht, hvertices, hx, hy, hformed 5 t ht, ?_⟩
  exact hjoined 5 t 2 11 9 x y ht (by rw [hvertices]; decide) (by rw [hedges]; rfl) (by rw [hedges]; rfl) hx hy

end Machine

end Mosaic
