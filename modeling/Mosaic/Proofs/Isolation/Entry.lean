import Mosaic.Proofs.Cadence.Run
import Mosaic.Proofs.Isolation.Body
import Mosaic.Proofs.Store.Reads

/-!
# Entering a body

A call whose result is not known enters the body of its lambda, with a frame made of the closure and the
arguments. Of the contexts of the callers it looks at nothing but their number
(`MachineM.exists_of_invoke_items`). `Machine.Sound g` is what is assumed of the machine that calls: the
fragment `g` of its heap has all that the machine mentions, and no dangling edge. The machines that a run of
compiled code goes through are sound (`Machine.Sound.of_steps`).
-/

namespace Mosaic

open Mosaic.Graph (NodeId Pool)

/-! ## The frame of a call -/

theorem StoreM.of_mapM_ok {α β : Type} {f : β → StoreM α} {Q : α → Prop} {bs : List β} {as : List α}
    {pins : Pins} {s s' : Store} (hf : ∀ b ∈ bs, ∀ s a s', f b pins s = .ok a s' → Q a)
    (h : bs.mapM f pins s = .ok as s') : ∀ a ∈ as, Q a := by
  induction bs generalizing as s with
  | nil =>
    rw [List.mapM_nil] at h
    cases h
    simp
  | cons b bs ih =>
    rw [List.mapM_cons, bind_apply] at h
    cases hb : f b pins s with
    | error failure s₁ => rw [hb] at h; cases h
    | ok a s₁ =>
      rw [hb] at h
      dsimp only at h
      rw [bind_apply] at h
      cases hbs : bs.mapM f pins s₁ with
      | error failure s₂ => rw [hbs] at h; cases h
      | ok as s₂ =>
        rw [hbs] at h
        cases h
        exact List.forall_mem_cons.2 ⟨hf b (List.mem_cons_self ..) s a s₁ hb,
          ih (fun b' hb' => hf b' (List.mem_cons_of_mem _ hb')) hbs⟩

namespace MachineM

variable {l : Lambda} {args : List Value} {pins : Pins} {s s' : Store} {frame : Frame}

theorem reads_calleeFrame (l : Lambda) (args : List Value) : StoreM.Reads (calleeFrame l args) :=
  .bind (.mapM fun _ _ => .bind .load fun _ => .ret) fun _ => .ret

/-- The frame that a body starts with is made of what the closure has and of the arguments. -/
theorem all_of_calleeFrame {V : Value → Prop} {L : NodeId → Prop}
    (h : calleeFrame l args pins s = .ok frame s')
    (hclosure : ∀ (name : Name) d, l.closure[name]? = some d → V (.datum d)) (hargs : ∀ v ∈ args, V v) :
    frame.All V L := by
  unfold calleeFrame at h
  rw [StoreM.bind_apply] at h
  split at h
  · rename_i ps s₁ hps
    cases h
    refine Frame.All.bindArguments (Frame.All.defineAll .empty ?_) fun p hp => hargs p.2 (List.of_mem_zip hp).2
    refine StoreM.of_mapM_ok (Q := fun p => V p.2) (fun p hp s a s' ha => ?_) hps
    dsimp only at ha
    rw [StoreM.bind_apply] at ha
    cases hv : StoreM.load p.2 pins s with
    | error failure s'' => rw [hv] at ha; cases ha
    | ok v s'' =>
      rw [hv] at ha
      cases ha
      rw [(StoreM.load_eq_ok hv).1]
      exact hclosure p.1 p.2 (Std.ExtTreeMap.mem_toList_iff_getElem?_eq_some.1 hp)
  · cases h

/-! ## Calls that enter a body -/

variable {callee : NodeId} {items : Program} {m m₁ : Machine}

/-- Only a call whose result is not known leaves anything to be run. -/
theorem misses_of_invoke_items (h : invoke callee args pins m = .ok (.items items) m₁) :
    m.Misses callee args := by
  rw [invoke_eq, bind_apply, onStore_apply, StoreM.fetch_apply] at h
  cases hl : m.store.pool.get Object.lambdas callee with
  | error fault => rw [hl] at h; cases h
  | ok l =>
    rw [hl] at h
    dsimp only at h
    split at h
    · cases h
    · rename_i harity
      refine ⟨⟨l, hl, not_not.1 harity⟩, fun hon key hkey => ?_⟩
      rw [answer_eq, bind_apply, get_apply] at h
      simp only [hon, hkey, if_true] at h
      rw [bind_apply, modify_apply] at h
      cases hknown : m.memo.entries[key]? with
      | none => rfl
      | some v =>
        simp only [Memo.ask_eq, hknown] at h
        rw [bind_apply] at h
        split at h <;> cases h

theorem exists_of_enterBody {key : Option String} {e : Effect} (h : enterBody l args key pins m = .ok e m₁) :
    ∃ frame memoize, e = .items (l.body ++ .op .popContext none :: memoize) ∧ IsMemoize memoize ∧
      (∀ pins, calleeFrame l args pins m.store = .ok frame m.store) ∧
      ∀ pins' (m' : Machine), m'.store = m.store → enterBody l args key pins' m' = .ok e { m' with
        scopes := m'.scopes.pushContext { frames := [frame], label := some l.label } } := by
  unfold enterBody at h ⊢
  rw [bind_apply, onStore_apply] at h
  cases hframe : calleeFrame l args (pins.also fun _ => m.mentions) m.store with
  | error failure s => rw [hframe] at h; cases h
  | ok frame s =>
    rw [hframe] at h
    cases h
    obtain ⟨rfl, hpins⟩ := (reads_calleeFrame l args).of_ok hframe
    refine ⟨frame, _, rfl, ?_, hpins, fun pins' m' hstore => ?_⟩
    · cases key
      · exact .inl rfl
      · exact .inr ⟨_, rfl⟩
    · rw [bind_apply, onStore_apply, hstore, hpins]
      dsimp only
      rw [← hstore]
      rfl

/-- A call that enters a body leaves the store alone. On a machine with other contexts, but as many of them,
it enters the same body with the same frame. -/
theorem exists_of_invoke_items (h : invoke callee args pins m = .ok (.items items) m₁) :
    ∃ l frame memoize memo, m.store.pool.get Object.lambdas callee = .ok l ∧
      items = l.body ++ .op .popContext none :: memoize ∧ IsMemoize memoize ∧
      (∀ pins, calleeFrame l args pins m.store = .ok frame m.store) ∧ memo.entries = m.memo.entries ∧
      ∀ pins' C, C.length = m.scopes.depth → invoke callee args pins' { m with scopes := ⟨C⟩ } =
        .ok (.items items) { m with
          memo, scopes := ⟨{ frames := [frame], label := some l.label } :: C⟩ } := by
  obtain ⟨l, key, memo, hl, -, hmemo, hinvoke⟩ := invoke_of_misses (misses_of_invoke_items h)
  have henter := (hinvoke pins m.scopes).symm.trans h
  cases hover : m.config.overflow? m.scopes.depth with
  | some limit =>
    rw [enter_eq_of_overflow (m := { m with memo }) hover] at henter
    cases henter
  | none =>
    rw [enter_eq_of_within (m := { m with memo }) hover] at henter
    obtain ⟨frame, memoize, heffect, hmemoize, hframe, henter'⟩ := exists_of_enterBody henter
    cases heffect
    refine ⟨l, frame, memoize, memo, hl, rfl, hmemoize, hframe, hmemo, fun pins' C hC => ?_⟩
    have hdepth : m.config.overflow? (Scopes.depth ⟨C⟩) = none := by
      rwa [show Scopes.depth ⟨C⟩ = m.scopes.depth from hC]
    rw [hinvoke, enter_eq_of_within (m := { m with memo, scopes := ⟨C⟩ }) hdepth]
    exact henter' pins' { m with memo, scopes := ⟨C⟩ } rfl

end MachineM

/-! ## Machines that call -/

/-- The failure is not one of the graph. -/
def Cause.Ordinary (cause : Cause) : Prop := cause.isGraph = false

theorem IsCode.plain {body : Program} (h : IsCode body) : Plain Cause.Ordinary body := by
  obtain ⟨line, e, -, rfl⟩ := h
  exact plain_iff.2 ⟨by simp, e.sober_compileAt line⟩

/-- The bodies of the lambdas are compiled. The fragment `g` of the heap has exact edges and no dangling
one, and all that the machine mentions is there, of the type that it must have. -/
structure Machine.Sound (g : Fragment) (m : Machine) : Prop where
  entries : ∀ (id : NodeId) e, m.store.pool.entries[id]? = some e →
    id < m.next ∧ ∀ p ∈ Object.pointers e.node, p < m.next
  compiled : ∀ (id : NodeId) e l, m.store.pool.entries[id]? = some e → e.node = .lambda l → IsCode l.body
  closed : g.Closed
  entry : ∀ id o, g id = some o →
    ∃ e, m.store.pool.entries[id]? = some e ∧ e.node = o ∧ e.edges.Counts o.pointers
  handles : ∀ id ∈ m.store.pool.handles, (g id).isSome = true
  program : ∀ id ∈ programNodes m.program, (g id).isSome = true
  operands : ∀ v, .value v ∈ m.operands → g.Good v
  scopes : m.scopes.All g.Good (g.At .lambda)
  builders : ∀ id ∈ m.builders, g.At .cluster id
  memo : ∀ (key : String) (v : Value), m.memo.entries[key]? = some v → g.Good v

namespace Machine.Sound

variable {g : Fragment} {m : Machine} {id : NodeId} {v : Value}

theorem lt_next (h : m.Sound g) (hid : (g id).isSome = true) : id < m.next := by
  obtain ⟨o, ho⟩ := Option.isSome_iff_exists.1 hid
  obtain ⟨e, he, -⟩ := h.entry id o ho
  exact (h.entries id e he).1

theorem valid (h : m.Sound g) (hv : g.Good v) : Valid (fun _ => True) m.next v :=
  fun _ hid => ⟨trivial, h.lt_next (hv.isSome (Option.mem_toList.1 hid))⟩

theorem closed_store (h : m.Sound g) : Mosaic.Closed IsCode (fun _ => True) m.store where
  below id e he := (h.entries id e he).1
  fresh _ _ := trivial
  pointers id e _ he p hp := ⟨trivial, (h.entries id e he).2 p hp⟩
  body id e l _ _ he hl := h.compiled id e l he hl

theorem tethered (h : m.Sound g) : m.store.tethered = [] := by
  rw [Store.tethered, tethers_eq_nil fun id e l he hl => (plain_iff.1 (h.compiled id e l he hl).plain).1,
    List.map_nil]

/-- The machine is its own twin, whatever is held of the fragment outside of it. -/
theorem twin (h : m.Sound g) {B : Backdrop} (hhandles : B.handles = m.store.pool.handles)
    (hleft : ∀ id ∈ B.left, (g id).isSome = true)
    (hright : ∀ id ∈ B.right, (g id).isSome = true) : Twin (.plain Cause.Ordinary B) g m.store m.store := by
  have hhosts : Hosts (.plain Cause.Ordinary B) g m.store :=
    ⟨hhandles.symm, h.entry, fun id e l he hl => (h.compiled id e l he hl).plain⟩
  have hharbors : ∀ X : List NodeId, (∀ id ∈ X, (g id).isSome = true) →
      Harbors (.plain Cause.Ordinary B) (X ++ B.handles.keys) g m.store := by
    refine fun X hX => .of_hosts hhosts h.closed (fun i hi => ?_) fun i o ho => h.lt_next (by simp [ho])
    rw [h.tethered, List.append_nil] at hi
    rcases List.mem_append.1 hi with hi | hi
    · exact hX i hi
    · exact h.handles i (hhandles ▸ Std.ExtTreeMap.mem_keys.1 hi)
  exact ⟨rfl, rfl, h.closed, Nat.zero_le _, hharbors _ hleft, hharbors _ hright⟩

/-! ### Runs -/

variable {held : List NodeId} {e : Expr} {n : Nat} {m' : Machine}

theorem started (h : m.Sound g) (e : Expr) : (m.started e.compile).Sound g where
  entries := h.entries
  compiled := h.compiled
  closed := h.closed
  entry := h.entry
  handles := h.handles
  program id hid := by simp [Machine.started, Expr.compile] at hid
  operands := nofun
  scopes := h.scopes
  builders := nofun
  memo key v hv := by simp [Machine.started] at hv

theorem whole_started (h : m.Sound g) (he : e.Countable) : (m.started e.compile).Whole Cause.Ordinary g where
  program item hitem := .of_plain (IsCode.plain ⟨none, e, he, rfl⟩ item hitem)
  operands := (h.started e).operands
  scopes := h.scopes
  builders := (h.started e).builders
  memo := (h.started e).memo

theorem inside_started (h : m.Sound g) (he : e.Countable) :
    Inside False (fun _ => True) [] [] [] ⟨[.value], m.scopes.depths, 0⟩ e.compile [] 0
      (m.started e.compile) :=
  .of_code (m := m.started e.compile)
    ⟨h.closed_store, h.scopes.imp (fun _ hv => h.valid hv) fun _ hid => ⟨trivial, h.lt_next hid.isSome⟩,
      fun key v hv => (h.started e).valid ((h.started e).memo key v hv), rfl, [], rfl, rfl, by simp⟩
    he False.elim (List.append_nil _).symm rfl

/-- A machine is sound if what it mentions is in a fragment of its store. What is held but not mentioned may be
in a larger one. -/
theorem of_whole {B : Backdrop} {s : Store} (ht : Twin (.plain Cause.Ordinary B) g m.store s)
    (hwhole : m.Whole Cause.Ordinary g)
    (hentries : ∀ (id : NodeId) e, m.store.pool.entries[id]? = some e →
      id < m.next ∧ ∀ p ∈ Object.pointers e.node, p < m.next)
    (hcompiled : ∀ (id : NodeId) e l, m.store.pool.entries[id]? = some e → e.node = .lambda l → IsCode l.body) :
    ∃ g', m.Sound g' ∧ ∀ id ∈ B.left, (g' id).isSome = true := by
  obtain ⟨g', hsub, hclosed, hhosts, hX, -⟩ := ht.harbors
  have hwhole' : m.Whole Cause.Ordinary g' := hwhole.leads (.of_sub hsub) fun _ hid => hid
  have hsound : m.Sound g' :=
    { entries := hentries
      compiled := hcompiled
      closed := hclosed
      entry := hhosts.entry
      handles id hid := by
        rw [hhosts.handles] at hid
        exact hX id (List.mem_append_left _ (List.mem_append_right _ (Std.ExtTreeMap.mem_keys.2 hid)))
      program id hid := by
        obtain ⟨item, hitem, hid⟩ := mem_programNodes.1 hid
        exact (hwhole'.program item hitem).isSome hid
      operands := hwhole'.operands
      scopes := hwhole'.scopes
      builders := hwhole'.builders
      memo := hwhole'.memo }
  exact ⟨g', hsound, fun id hid => hX id (List.mem_append_left _ (List.mem_append_left _ hid))⟩

/-- During a run of the code of an expression, all that the machine mentions is in a fragment of its store. -/
theorem whole_of_steps (h : m.Sound g) (hheld : ∀ id ∈ held, (g id).isSome = true) (he : e.Countable)
    (hs : Steps held n (m.started e.compile) m') :
    ∃ s g', Twin (.plain Cause.Ordinary ⟨m.store.pool.handles, held, held⟩) g' m'.store s ∧
      m'.Whole Cause.Ordinary g' := by
  have htwin := (h.started e).twin (B := ⟨m.store.pool.handles, held, held⟩) rfl hheld hheld
  obtain ⟨s, g', -, ht, hwhole⟩ := Steps.beside (B := ⟨m.store.pool.handles, held, held⟩) (n := 0) hs
    (h.whole_started he) htwin
  exact ⟨s, g', ht, hwhole⟩

theorem of_steps (h : m.Sound g) (hheld : ∀ id ∈ held, (g id).isSome = true) (he : e.Countable)
    (hs : Steps held n (m.started e.compile) m') :
    ∃ g', m'.Sound g' ∧ ∀ id ∈ held, (g' id).isSome = true := by
  obtain ⟨Q, O, b, hinside⟩ := (h.inside_started he).of_steps hs
  obtain ⟨s, g', ht, hwhole⟩ := h.whole_of_steps hheld he hs
  have hstore := hinside.safe.store
  exact of_whole ht hwhole
    (fun id e he => ⟨hstore.below id e he, fun p hp => (hstore.pointers id e trivial he p hp).2⟩)
    fun id e l he hl => hstore.body id e l trivial not_false he hl

end Machine.Sound

theorem Machine.sound_ofConfig (config : Config) : (ofConfig config).Sound fun _ => none where
  entries id e he := by simp [ofConfig] at he
  compiled id e l he := by simp [ofConfig] at he
  closed := nofun
  entry := nofun
  handles id hid := (Std.ExtTreeMap.not_mem_empty hid).elim
  program := nofun
  operands := nofun
  scopes c hc f hf := by
    obtain rfl := List.mem_singleton.1 hc
    obtain rfl := List.mem_singleton.1 hf
    exact .empty
  builders := nofun
  memo key v hv := by simp [ofConfig] at hv

/-! ## A call by itself -/

/-- What a call runs: the body, and at its end the result may be remembered. -/
def Lambda.items (l : Lambda) (memoize : Program) : Program := l.body ++ .op .popContext none :: memoize

/-- The machine that has entered the body of `l`, with the contexts `C` below that of the call. -/
def Machine.entering (m : Machine) (l : Lambda) (frame : Frame) (memoize : Program) (memo : Memo)
    (C : List Context) : Machine :=
  { m with
    memo
    scopes := ⟨{ frames := [frame], label := some l.label } :: C⟩
    program := l.items memoize ++ m.program }

theorem Machine.under_entering {m : Machine} {l : Lambda} {frame : Frame} {memoize : Program} {memo : Memo}
    {C : List Context} :
    ((m.entering l frame memoize memo C).alone (l.items memoize)).under
      ((m.entering l frame memoize memo C).callers m.program) = m.entering l frame memoize memo C :=
  under_callers rfl

namespace Machine.Sound

variable {g : Fragment} {m : Machine} {l : Lambda} {callee : NodeId} {args : List Value} {pins : Pins}
  {frame : Frame} {memoize : Program} {memo : Memo} {C : List Context}

theorem callee_mem (h : m.Sound g) (hcallee : g.At .lambda callee)
    (hl : m.store.pool.get Object.lambdas callee = .ok l) : g callee = some (.lambda l) := by
  obtain ⟨l', hl'⟩ := hcallee.lambda
  obtain ⟨e, he, hn, -⟩ := h.entry callee _ hl'
  have hget : m.store.pool.get Object.lambdas callee = .ok l' := Pool.get_eq_ok_iff.2 ⟨e, he, hn⟩
  rw [hget] at hl
  cases hl
  exact hl'

theorem all_frame (h : m.Sound g) (hcallee : g.At .lambda callee) (hargs : ∀ v ∈ args, g.Good v)
    (hl : m.store.pool.get Object.lambdas callee = .ok l)
    (hframe : MachineM.calleeFrame l args pins m.store = .ok frame m.store) :
    frame.All g.Good (g.At .lambda) := by
  refine MachineM.all_of_calleeFrame hframe (fun name d hd k hk => ?_) hargs
  refine h.closed callee _ (h.callee_mem hcallee hl) k (List.mem_append_left _ ?_)
  exact Fields.mem_links.2 ⟨name, d, hd, hk⟩

theorem isCode (h : m.Sound g) (hl : m.store.pool.get Object.lambdas callee = .ok l) : IsCode l.body := by
  obtain ⟨e, he, hn⟩ := Pool.get_eq_ok_iff.1 hl
  exact h.compiled callee e l he hn

theorem inBody (h : m.Sound g) (hbody : IsCode l.body) (hframe : frame.All g.Good (g.At .lambda))
    (hmemo : memo.entries = m.memo.entries) (memoize : Program) (C : List Context) :
    let M := m.entering l frame memoize memo C
    InBody (M.callers m.program) (fun _ => True) (.op .popContext none :: memoize) m.operands m.builders
      l.body [] 0 (M.alone (l.items memoize)) := by
  intro M
  exact InBody.alone (m := M) h.closed_store
    (hframe.imp (fun v hv => h.valid hv) fun id hid => ⟨trivial, h.lt_next hid.isSome⟩)
    (fun key v hv => h.valid (h.memo key v (hmemo ▸ hv))) rfl hbody

theorem whole (h : m.Sound g) (hbody : IsCode l.body) (hframe : frame.All g.Good (g.At .lambda))
    (hmemo : memo.entries = m.memo.entries)
    (hmemoize : IsMemoize memoize) (C : List Context) :
    ((m.entering l frame memoize memo C).alone (l.items memoize)).Whole Cause.Ordinary g := by
  refine ⟨fun item hitem => .of_plain ?_, h.operands, fun c hc f hf => ?_, h.builders,
    fun key v hv => h.memo key v (hmemo ▸ hv)⟩
  · rcases List.mem_append.1 hitem with hitem | hitem
    · exact hbody.plain item hitem
    · rcases hmemoize with rfl | ⟨key, rfl⟩ <;> simp at hitem <;> rcases hitem with rfl | rfl <;>
        exact ⟨rfl, by simp [Item.failures, Op.failures]⟩
  · obtain rfl := List.mem_singleton.1 hc
    obtain rfl := List.mem_singleton.1 hf
    exact hframe

end Machine.Sound

end Mosaic
