import Mosaic.Proofs.Cadence.Plain
import Mosaic.Proofs.Leftover.Step
import Mosaic.Proofs.Published.Run

/-!
# What a run leaves behind

After a run on a new machine that remembers no results, whether or not it has failed, the machine mentions
nothing but the lambdas that are set aside in its outermost frame. If there is none, a collection that keeps
what the machine mentions leaves nothing at all. None is left if no lambda with free names was made outside of
blocks, comprehensions and calls (`Machine.leftover_of_run`). The end of a block drops what was set aside in
its frame, and so do the end of a call and a failure; but the outermost frame stays, and no block ends in it,
so what is set aside there is left for good (`Machine.leftover_of_run_parked`).
-/

namespace Mosaic

open Mosaic.Graph (NodeId Node Pool Heap)

/-! ## Collections without roots -/

namespace Graph.Heap

variable {ν : Type}

theorem exists_collect_of_unrooted {h : Heap ν} (hh : h.pool.handles = {}) :
    ∃ c h', h.collect {} = .ok (c, h') ∧ h'.pool.entries = {} := by
  have hroots : (h.pool.roots {}).toList = [] := by
    simp [Pool.roots, hh]
  have hwalk : Pool.walk h.pool.entries {} (h.pool.roots {}).toList = .ok (h.pool.entries, {}) := by
    rw [hroots, Pool.walk]
  refine ⟨_, _, by rw [collect, Pool.collect, hwalk]; rfl, rfl⟩

end Graph.Heap

/-! ## The scopes at the end -/

namespace Scopes

variable {W : Name → Prop} {d : Nat} {C : List Context} {s : Scopes}

/-- The outermost context is that of no call, and `f` is its outermost frame, which binds nothing. -/
def Outermost (f : Frame) (s : Scopes) : Prop :=
  f.bindings = {} ∧ ∃ (upper : List Context) (own : List Frame), s.contexts = upper ++ [{ frames := own ++ [f] }]

theorem Extends.outermost (h : ({} : Scopes).Extends W d ⟨C⟩) {upper : List Context}
    (hs : s.contexts = upper ++ C) : ∃ f, s.Outermost f := by
  rcases h with ⟨hnil, -, -⟩ | ⟨c, D, own, fs, hstart, rfl, hlen, hagrees⟩
  · cases hnil
  · obtain ⟨rfl, rfl⟩ := List.cons.inj hstart
    cases hagrees with
    | @cons _ f _ _ hf hnil =>
      cases hnil
      refine ⟨f, ?_, upper, own, hs⟩
      refine Std.ExtTreeMap.ext_getElem? fun name => ?_
      have hbound : (f.lookup? name).isSome = false := by rw [hf.bound, Frame.lookup?_empty, Option.isSome_none]
      rw [Std.ExtTreeMap.getElem?_empty]
      exact Option.isSome_eq_false_iff.1 hbound |> Option.isNone_iff_eq_none.1

namespace Outermost

variable {f : Frame}

theorem aside (h : s.Outermost f) : s.aside = f.parked := by
  obtain ⟨-, upper, own, hs⟩ := h
  simp [Scopes.aside, hs]

theorem restore (h : s.Outermost f) : s.restore (({} : Scopes).checkpoint) = ⟨[{ frames := [f] }]⟩ := by
  obtain ⟨-, upper, own, hs⟩ := h
  rw [restore_append hs rfl]
  exact restore_of_frames (c := { frames := own ++ [f] }) rfl rfl rfl

theorem nodes (h : s.Outermost f) : (⟨[{ frames := [f] }]⟩ : Scopes).nodes = f.parked := by
  simp [Scopes.nodes, Context.nodes, Frame.nodes, h.1]

end Outermost

end Scopes

/-! ## Runs -/

namespace Machine

variable {config : Config} {held : List NodeId} {e : Expr} {n : Nat} {m m' : Machine} {f : Failure}

theorem thrifty_started (hmemo : config.memoize = false) (e : Expr) :
    ((ofConfig config).started e.compile).Thrifty e.Settled where
  frugal := ⟨hmemo, rfl, rfl, List.cons_ne_nil _ _, fun _ => rfl, fun _ hF => hF.elim⟩
  inward := by
    have hcode := e.inward_compileAt none 0 [] (fun hS _ => hS) [] (.nil _)
    rwa [List.append_nil] at hcode

theorem thrifty_of_steps (hmemo : config.memoize = false) (he : e.Countable)
    (hs : Steps held n ((ofConfig config).started e.compile) m) : m.Thrifty e.Settled := by
  induction n generalizing m with
  | zero =>
    rw [hs.eq_of_zero]
    exact thrifty_started hmemo e
  | succ n ih =>
    obtain ⟨m₁, hs₁, hn⟩ := hs.exists_of_succ
    obtain ⟨Q, O, b, hin⟩ := inside_of_steps (grounded_ofConfig config) (compiled_ofConfig config) he
      (False.elim : False → (ofConfig config).scopes.Open) hs₁
    exact (ih hs₁).step hin hn

/-- On a new machine neither the store nor the code names a node. -/
theorem veiled_started (config : Config) (e : Expr) : ((ofConfig config).started e.compile).Veiled 0 where
  guarded := by
    have hrested := rested_ofConfig config
    have hempty : ∀ (id : NodeId) o, (ofConfig config).store.pool.entries[id]? ≠ some o := fun id o h => by
      simp [ofConfig] at h
    exact {
      store := .refl ⟨hrested.store.below, fun _ _ => List.not_mem_nil, fun id o h => (hempty id o h).elim,
        fun id o _ h => (hempty id o h).elim⟩
      scopes := hrested.scopes.imp (fun _ hv => Within.imp hv fun _ _ => List.not_mem_nil)
        fun _ hid => ⟨List.not_mem_nil, hid.2⟩
      memo := fun key v hv => by simp [Machine.started] at hv
      base := Nat.zero_le _
      early := fun _ _ => List.not_mem_nil }
  program := by
    have hold : Old 0 e.compile := by simp [Old, Expr.compile]
    exact hold.clear (fun _ _ => List.not_mem_nil) (Nat.zero_le _)
  operands o ho := absurd ho List.not_mem_nil
  nodup := List.nodup_nil

theorem tethers_of_guarded {A : NodeId → Prop} {s : Store} (h : Guarded 0 A s m) :
    m.store.pool.tethers = [] :=
  tethers_eq_nil fun id e l he hl => List.eq_nil_iff_forall_not_mem.2 fun i hi =>
    absurd (h.store.body id e l he hl i hi) (Nat.not_lt_zero _)

theorem tethers_of_failed (h : m.Veiled 0) (hn : m.next? held = some (.error f m')) :
    m'.store.pool.tethers = [] := by
  have hplain : m.store.pool.tethers = [] := tethers_of_guarded h.guarded
  cases stopped_of_next? hn with
  | @perform op line rest failure m₁ program within operands performed =>
    have htaking : (m.taking op rest).Veiled 0 :=
      h.narrow _ (fun i hi => program ▸ List.mem_cons_of_mem _ hi) (List.drop_subset op.arity m.operands)
    have hitem := h.program (.op op line) (program ▸ List.mem_cons_self ..)
    have hlen : (m.arguments op).length = op.arity := by
      simp [arguments, operands]
    have hargs : ∀ o ∈ m.arguments op, Within (· ∉ m.builders) m.next o.node?.toList :=
      fun o ho => h.operands o (List.mem_of_mem_take (List.mem_reverse.1 ho))
    obtain ⟨A, hguarded⟩ := ((MachineM.Ends.perform htaking hitem hlen hargs).error performed).guarded
    exact tethers_of_guarded hguarded
  | error | overdrawn | underflow => exact hplain

/-- However a run ends, what is left is that of a reset: at the end of the code nothing has to be dropped. -/
theorem exists_reset (hmemo : config.memoize = false) (he : e.Countable) {fuel : Nat} {r : Except Failure Value}
    (hr : (ofConfig config).run held fuel e.compile = some (r, m')) :
    ∃ m frame, m' = reset m (ofConfig config).scopes.checkpoint ∧ m.Frugal e.Settled False ∧
      m.scopes.Outermost frame ∧ m.store.pool.tethers = [] := by
  have hgrounded := grounded_ofConfig config
  have hcompiled := compiled_ofConfig config
  obtain ⟨⟨ended, m₂⟩, hex, hr⟩ := Option.map_eq_some_iff.1 hr
  obtain ⟨n, m₁, -, hs, hend⟩ := execute_inv hex
  obtain ⟨Q, O, b, hin⟩ := inside_of_steps hgrounded hcompiled he
    (False.elim : False → (ofConfig config).scopes.Open) hs
  have hthrifty := thrifty_of_steps hmemo he hs
  have hveiled := (veiled_started config e).steps hs
  rcases hend with ⟨rfl, rfl, hp⟩ | ⟨failure, rfl, hn⟩
  · obtain ⟨frame, hframe⟩ := (scopes_of_ended hgrounded hcompiled he hs hp).outermost (List.nil_append _).symm
    obtain rfl : Q = [] := (List.append_eq_nil_iff.1 (hin.program.symm.trans hp)).1
    obtain ⟨-, ⟨v, hoperands⟩, hdepths, hbuilders⟩ := hin.ended
    have hresult := result_of_ended (ofConfig config) hdepths rfl hoperands hbuilders
    obtain ⟨-, rfl⟩ : .ok v = r ∧ { m₂ with operands := [] } = m' := by
      simpa [Except.bind, hresult] using hr
    have hrestore : m₂.scopes.restore (ofConfig config).scopes.checkpoint = m₂.scopes := by
      rw [← Scopes.checkpoint_eq_of_depths hdepths, Scopes.restore_checkpoint]
    refine ⟨m₂, frame, ?_, hthrifty.frugal, hframe, tethers_of_guarded hveiled.guarded⟩
    rw [reset, hrestore, ← hp, ← hbuilders]
  · obtain ⟨upper, C, d, hC, hextends⟩ := scopes_of_failed hgrounded hcompiled he hs hn
    obtain ⟨frame, hframe⟩ := hextends.outermost hC
    obtain ⟨-, rfl⟩ : .error failure = r ∧ m₂.reset (ofConfig config).scopes.checkpoint = m' := by
      simpa [Except.bind] using hr
    exact ⟨m₂, frame, rfl, hthrifty.failed hin hn, hframe, tethers_of_failed hveiled hn⟩

/-- What a run leaves behind. After the run of an expression on a new machine that remembers no results, whether
or not it has failed, no node has a handle, and the machine mentions only the lambdas that are set aside in its
outermost frame. There are none if the expression is settled. If there are none, a collection that keeps what the
machine mentions removes every node. -/
theorem leftover_of_run (hmemo : config.memoize = false) (he : e.Countable) {fuel : Nat}
    {r : Except Failure Value} (hr : (ofConfig config).run held fuel e.compile = some (r, m')) :
    m'.store.pool.handles = {} ∧ m'.nodes = m'.scopes.parked ∧ (e.Settled → m'.scopes.parked = []) ∧
    (m'.scopes.parked = [] →
      ∃ c store, m'.store.collect (.ofList m'.nodes compare) = .ok (c, store) ∧ store.pool.entries = {}) := by
  obtain ⟨m, frame, rfl, hfrugal, hframe, hplain⟩ := exists_reset hmemo he hr
  have hscopes : (m.reset (ofConfig config).scopes.checkpoint).scopes = ⟨[{ frames := [frame] }]⟩ :=
    hframe.restore
  have hparked : (m.reset (ofConfig config).scopes.checkpoint).scopes.parked = frame.parked := by
    rw [hscopes]
    rfl
  have hnodes : (m.reset (ofConfig config).scopes.checkpoint).nodes = frame.parked := by
    rw [nodes, mentions, hscopes, hframe.nodes]
    simp [reset, Memo.nodes, hfrugal.memo, hplain]
  refine ⟨hfrugal.handles, hnodes.trans hparked.symm, fun hS => ?_, fun hnil => ?_⟩
  · rw [hparked, ← hframe.aside]
    exact hfrugal.scopes.aside hS
  · rw [hnodes, ← hparked, hnil]
    exact Graph.Heap.exists_collect_of_unrooted hfrugal.handles

/-- A block with a lambda that is in its own closure and returns itself and its argument. -/
def circular : Expr :=
  .letIn [.bind ["f"] (.lambda "f" ["n"] (.cluster [.var "f", .var "n"]))] (.call (.var "f") [.number (.ofNat 1)])

/-- The lambda and the cluster, of which each refers to the lambda, are removed. -/
theorem leftover_of_run_circular :
    circular.Countable ∧ circular.Settled ∧ ∃ r m' c store,
      (ofConfig { memoize := false }).run [] 30 circular.compile = some (r, m') ∧ m'.store.pool.live = [1, 2] ∧
      m'.store.collect (.ofList m'.nodes compare) = .ok (c, store) ∧ store.pool.entries = {} := by
  have he : circular.Countable := by simp [circular, Expr.Countable, CountableAll, CountableBindings]
  have hruns : ((ofConfig { memoize := false }).run [] 30 circular.compile).map
      (fun r => r.2.store.pool.live) = some [1, 2] := by
    decide +kernel
  obtain ⟨⟨r, m'⟩, hr, hlive⟩ := Option.map_eq_some_iff.1 hruns
  obtain ⟨-, -, hparked, hcollect⟩ := leftover_of_run rfl he hr
  obtain ⟨c, store, hc, hempty⟩ := hcollect (hparked trivial)
  exact ⟨he, trivial, r, m', c, store, hr, hlive, hc, hempty⟩

/-- A lambda that is made outside of blocks, and whose name is not bound when it is made. -/
def unsettled : Expr := .lambda "f" ["n"] (.call (.var "f") [.var "n"])

/-- After its run the lambda is set aside in the outermost frame, so the machine still mentions it. -/
theorem leftover_of_run_parked :
    ((ofConfig { memoize := false }).run [] 10 unsettled.compile).map
      (fun r => (r.1.isOk, r.2.scopes.parked, r.2.nodes, r.2.store.pool.live)) =
        some (true, [1], [1], [1]) := by
  decide +kernel

end Machine

end Mosaic
