import Mosaic.Proofs.Fields.Lacking
import Mosaic.Proofs.Isolation.Entry
import Mosaic.Proofs.Scope.Restore

/-!
# Assigning a field

To assign a field of what a name is bound to, a machine copies the object, assigns the field of the copy and
binds the name to it. `Machine.Housed g` is what is assumed of the machine: the fragment `g` of its heap has
all that it keeps alive, and no dangling edge, and no body of a lambda has an object written in it, as code made
by hand may have. The machines that a run of compiled code goes through are housed (`Machine.Housed.of_steps`),
and so is the machine after an assignment, so that the next target of the same operation can be assigned.
`Machine.Reassigned` is what comes of it.
-/

namespace Mosaic

open Mosaic.Graph (NodeId Pool)

open Copies

/-! ## Copies with a field -/

/-- The graph has a copy of what can be reached from `id`, on which the field was assigned since. -/
def Fragment.Amended (g' : Fragment) (E : Setting) (P : List NodeId) (id : NodeId) (field : Name) (d : Datum)
    (j : NodeId) : Prop :=
  ∃ cs g₁ o, Copied E P [id] (fun _ => False) cs g₁ ∧ cs.Sends id j ∧ g₁ j = some o ∧
    g' = Function.update g₁ j (some (o.withFields (o.fields.insert field d)))

namespace StoreM

variable {E : Setting} {P : List NodeId} {g : Fragment} {t : ObjectType} {id : NodeId} {field : Name} {d : Datum}

theorem Steady.copyWithField_amended (hid : g.At t id) (hr : g.Reach P id) (hd : g.Rooted P (.datum d)) :
    Steady E P [] g (StoreM.copyWithField t id field d) fun g' j =>
      g'.At t j ∧ g'.Amended E P id field d j := by
  have hempty : Copied E P [id] (fun _ => False) {} g := .empty (by simpa using hr)
  have hcopy : Steady E P [] g (StoreM.copyObject t id) fun g' j =>
      ∃ cs, Copied E P [id] (fun _ => False) cs g' ∧ cs.Sends id j ∧ g'.At t j := by
    rw [StoreM.copyObject, StateT.run'_eq, map_eq_pure_bind]
    refine Agree.bind (CopyM.Agree.copyObject hid (.root (by simp)) hempty) fun g' r hlead hc => Agree.ret ?_
    exact ⟨r.2, hc.1, hc.2.2.2, hc.1.at_copy hc.2.2.2 (hlead.keeps.has hr hid)⟩
  refine Agree.bind hcopy fun g₁ j hlead hj => ?_
  obtain ⟨cs, hc, hsends, o, ho, ht⟩ := hj
  refine Agree.known fun hclosed => Agree.bind (Agree.update (k := Object.ofType t) (a := ⟨o, ht⟩) ho
    (hc.apart id j hsends) (fun l hl => ?_) fun l hl => ?_) fun g₂ _ _ hg₂ => Agree.ret ?_
  · rcases Object.mem_links_withField hl with hl | hl
    · exact hclosed j o ho l hl
    · exact (hd.keep hlead.keeps l hl).2
  · cases o with
    | lambda l₀ =>
      obtain rfl : { l₀ with fields := l₀.fields.insert field d } = l := Object.lambda.inj hl
      exact ⟨j, l₀, ho, rfl⟩
    | _ => cases hl
  · subst hg₂
    exact ⟨⟨_, Function.update_self .., (Object.type_withFields ..).trans ht⟩, cs, g₁, o, hc, hsends, ho, rfl⟩

theorem copyWithField_error {pins : Pins} {s s' : Store} {failure : Failure}
    (h : StoreM.copyWithField t id field d pins s = .error failure s') : failure.cause.isGraph = true := by
  have hgraph : Outcome (StoreM.copyWithField t id field d pins s) (fun failure _ => failure.cause.isGraph = true)
      fun _ _ => True := by
    refine (copyObject_graph t id pins s).bind fun j s₁ _ => ?_
    exact Outcome.bind (Counts.update (n := 0) pins s₁) fun _ _ _ => .ret trivial
  exact hgraph.error h

end StoreM

/-! ## Machines whose heap has what they mention -/

namespace Machine

/-- The bodies of the lambdas have no objects in their text, as compiled ones never have. The fragment `g` of
the heap has exact edges and no dangling one, and all that the machine keeps alive is there, what the scopes
have of the type that it must have. In runs of compiled code all machines are so (`Housed.of_steps`). -/
structure Housed (g : Fragment) (m : Machine) : Prop where
  bodies : ∀ (id : NodeId) e l, m.store.pool.entries[id]? = some e → e.node = .lambda l →
    programNodes l.body = []
  closed : g.Closed
  entry : ∀ id o, g id = some o →
    ∃ e, m.store.pool.entries[id]? = some e ∧ e.node = o ∧ e.edges.Counts o.pointers
  below : ∀ id o, g id = some o → id < m.next
  handles : ∀ id ∈ m.store.pool.handles, (g id).isSome = true
  mentions : ∀ id ∈ m.mentions, (g id).isSome = true
  scopes : m.scopes.All g.Good (g.At .lambda)

theorem Sound.housed {g : Fragment} {m : Machine} (h : m.Sound g) : m.Housed g where
  bodies id e l he hl := (plain_iff.1 (h.compiled id e l he hl).plain).1
  closed := h.closed
  entry := h.entry
  below id o ho := h.lt_next (by simp [ho])
  handles := h.handles
  mentions id hid := by
    rcases mem_mentions.1 hid with ⟨item, hitem, hid⟩ | ⟨v, hv, hid⟩ | hid | hid | ⟨key, v, hv, hid⟩
    · exact h.program id (mem_programNodes.2 ⟨item, hitem, hid⟩)
    · exact (h.operands v hv).isSome hid
    · exact h.scopes.isSome id hid
    · exact (h.builders id hid).isSome
    · exact (h.memo key v hv).isSome hid
  scopes := h.scopes

/-- What a collection keeps when the nodes in `pins` are held. -/
def roots (m : Machine) (pins : Pins) : List NodeId :=
  (m.store.pool.roots (pins.also fun _ => m.mentions).get).toList

namespace Housed

variable {g : Fragment} {m : Machine} {pins : Pins} {id : NodeId}

/-- The machines that a run of compiled code goes through are housed, with what is held. -/
theorem of_steps {g₀ : Fragment} {m₀ : Machine} {held : List NodeId} {e : Expr} {n : Nat} (h : m₀.Sound g₀)
    (hheld : ∀ id ∈ held, (g₀ id).isSome = true) (he : e.Countable)
    (hs : Steps held n (m₀.started e.compile) m) :
    ∃ g, m.Housed g ∧ ∀ id ∈ held, (g id).isSome = true :=
  let ⟨g, hg, hkept⟩ := h.of_steps hheld he hs
  ⟨g, hg.housed, hkept⟩

/-- The setting of its store alone. -/
def setting (m : Machine) : Setting where
  handles := m.store.pool.handles
  body p := programNodes p = []
  body_nil := rfl
  start := m.next

theorem hosts (h : m.Housed g) : Hosts (setting m) g m.store := ⟨rfl, h.entry, h.bodies⟩

theorem twin (h : m.Housed g) : Twin (setting m) g m.store m.store := by
  have hfree : m.store.tethered = [] := by rw [Store.tethered, tethers_eq_nil h.bodies, List.map_nil]
  have hharbors : Harbors (setting m) [] g m.store :=
    .of_hosts h.hosts h.closed (by simp [hfree]) h.below
  exact ⟨rfl, rfl, h.closed, Nat.le_refl _, hharbors, hharbors⟩

theorem mem_roots : id ∈ m.roots pins ↔ id ∈ pins.get ∨ id ∈ m.mentions ∨ id ∈ m.store.pool.handles := by
  rw [roots, Graph.Pool.mem_roots, Pins.mem_also, or_assoc]

theorem mem_roots_of_mentions (hid : id ∈ m.mentions) : id ∈ m.roots pins := mem_roots.2 (.inr (.inl hid))

theorem roots_subset {ids : List NodeId} : m.roots pins ⊆ m.roots (pins.also fun _ => ids) := by
  intro id hid
  rw [mem_roots, Pins.mem_also]
  exact (mem_roots.1 hid).imp_left .inl

theorem isSome_roots (h : m.Housed g) (hpins : ∀ id ∈ pins.get, (g id).isSome = true) :
    ∀ id ∈ m.roots pins, (g id).isSome = true := by
  intro id hid
  rcases mem_roots.1 hid with hid | hid | hid
  · exact hpins id hid
  · exact h.mentions id hid
  · exact h.handles id hid

theorem pinned (m : Machine) (pins : Pins) :
    (setting m).Pinned (pins.also fun _ => m.mentions) (pins.also fun _ => m.mentions) (m.roots pins ++ []) := by
  have hroots : (setting m).Roots (pins.also fun _ => m.mentions) (m.roots pins ++ [] ++ []) := by
    intro id
    rw [List.append_nil, List.append_nil, mem_roots, Pins.mem_also, or_assoc]
    rfl
  exact ⟨hroots, hroots⟩

/-- An action that cannot fail by itself comes to its end, and leaves what the machine keeps alive. -/
theorem run {α : Type} {x : StoreM α} {Q : Fragment → α → Prop} (h : m.Housed g)
    (hpins : ∀ id ∈ pins.get, (g id).isSome = true)
    (hx : StoreM.Steady (setting m) (m.roots pins) [] g x Q)
    (herror : ∀ failure s', x (pins.also fun _ => m.mentions) m.store = .error failure s' →
      failure.cause.isGraph = true) :
    ∃ a s' g', MachineM.onStore x pins m = .ok a { m with store := s' } ∧ Twin (setting m) g' s' s' ∧
      g.Keeps (m.roots pins) g' ∧ Q g' a := by
  have hsome := h.isSome_roots hpins
  have hxx := hx _ _ m.store m.store (pinned m pins) (by simpa using hsome) h.twin
  rw [MachineM.onStore_apply]
  cases hr : x (pins.also fun _ => m.mentions) m.store with
  | error failure s' =>
    rw [hr] at hxx
    exact absurd (hxx.2.1.symm.trans (herror failure s' hr)) Bool.false_ne_true
  | ok a s' =>
    rw [hr] at hxx
    obtain ⟨-, g', ht, hlead, hq⟩ := hxx
    exact ⟨a, s', g', rfl, ht, hlead.keeps, hq⟩

/-- What can be reached in the heap from what is kept alive is in the fragment, so it stays, too. -/
theorem keeps_store (h : m.Housed g) (hpins : ∀ id ∈ pins.get, (g id).isSome = true) {s' : Store}
    {g' : Fragment} (ht : Twin (setting m) g' s' s') (hkeeps : g.Keeps (m.roots pins) g') :
    (Fragment.of m.store.pool).Keeps (m.roots pins) (Fragment.of s'.pool) := by
  intro id hid
  have hr := h.hosts.reach h.closed (h.isSome_roots hpins) hid
  obtain ⟨o, ho⟩ := Option.isSome_iff_exists.1 (hr.isSome h.closed (h.isSome_roots hpins))
  rw [h.hosts.of_eq ho, ht.left.of_eq ((hkeeps id hr).trans ho)]

theorem scopes_keep (h : m.Housed g) {g' : Fragment} (hkeeps : g.Keeps (m.roots pins) g') :
    m.scopes.All g'.Good (g'.At .lambda) := by
  have hroot : ∀ id ∈ m.scopes.nodes, g.Reach (m.roots pins) id := fun id hid =>
    .root (mem_roots_of_mentions (mem_mentions.2 (.inr (.inr (.inl hid)))))
  exact h.scopes.mentioned.imp
    (fun v hv l hl => hkeeps.has (hroot l.2 (hv.2 l.2 (by simp [Value.node?_eq_link?, hl]))) (hv.1 l hl))
    fun id hid => hkeeps.has (hroot id hid.2) hid.1

theorem renew (h : m.Housed g) {s' : Store} {scopes' : Scopes} {g' : Fragment}
    (ht : Twin (setting m) g' s' s') (hkeeps : g.Keeps (m.roots pins) g')
    (hpins : ∀ id ∈ pins.get, (g id).isSome = true)
    (hscopes : scopes'.All g'.Good (g'.At .lambda)) :
    Housed g' { m with store := s', scopes := scopes' } where
  bodies := ht.left.body
  closed := ht.closed
  entry := ht.left.entry
  below := ht.below
  handles id hid := by
    have hid : id ∈ m.store.pool.handles := by
      rw [show m.store.pool.handles = s'.pool.handles from ht.left.handles.symm]
      exact hid
    have hr : g.Reach (m.roots pins) id := .root (mem_roots.2 (.inr (.inr hid)))
    rw [hkeeps id hr]
    exact h.isSome_roots hpins id (mem_roots.2 (.inr (.inr hid)))
  mentions id hid := by
    have hkept : ∀ id ∈ m.mentions, (g' id).isSome = true := by
      intro id hid
      rw [hkeeps id (.root (mem_roots_of_mentions hid))]
      exact h.mentions id hid
    rcases mem_mentions.1 hid with hid | hid | hid | hid
    · exact hkept id (mem_mentions.2 (.inl hid))
    · exact hkept id (mem_mentions.2 (.inr (.inl hid)))
    · exact hscopes.isSome id hid
    · exact hkept id (mem_mentions.2 (.inr (.inr (.inr hid))))
  scopes := hscopes

end Housed

/-! ## Fields that are assigned -/

/-- What comes of assigning a field of the object `o` that a name is bound to, while the nodes in `pins` are
held: the name is bound to `o'` then. -/
structure Reassigned (m : Machine) (pins : Pins) (binding field : Name) (t : ObjectType) (o : NodeId)
    (d : Datum) (m' : Machine) (o' : NodeId) : Prop where
  /-- The address was not given out before. -/
  fresh : m.next ≤ o'
  type : (Fragment.of m'.store.pool).At t o'
  reads : ∀ pins, StoreM.getField (.object t o') field pins m'.store = .ok (.datum d) m'.store
  /-- Without the field, what can be reached from the new object is a copy of what could be reached from the
  old one. -/
  copied : ∃ ρ, Isomorphism ρ ((Fragment.of m.store.pool).lacking o field) o
    ((Fragment.of m'.store.pool).lacking o' field) o'
  /-- They have nothing in common. -/
  apart : ∀ i, (Fragment.of m.store.pool).Reach [o] i →
    ¬ ((Fragment.of m'.store.pool).lacking o' field).Reach [o'] i
  unchanged : (Fragment.of m.store.pool).Keeps (m.roots pins) (Fragment.of m'.store.pool)
  /-- Whoever holds the old object finds what it had in its fields. -/
  aliases : ∀ object (name : Name) e, Fragment.of m.store.pool o = some object →
    object.fields[name]? = some e → ∀ pins,
      StoreM.getField (.object t o) name pins m'.store = .ok (.datum e) m'.store
  resolves : m'.scopes.lookup? binding = some (.object t o')
  /-- The name is bound anew in the innermost frame that has it. -/
  rebound : ∃ c cs inner frame outer, m.scopes.contexts = c :: cs ∧ c.frames = inner ++ frame :: outer ∧
    Context.Unbound inner binding ∧ frame.lookup? binding = some (.object t o) ∧
    m'.scopes.contexts =
      { c with frames := inner ++ frame.define binding (.object t o') :: outer } :: cs
  rest : m' = { m with store := m'.store, scopes := m'.scopes }

end Machine

theorem Hosts.getField {E : Setting} {g : Fragment} {s : Store} {t : ObjectType} {id : NodeId} {object : Object}
    {name : Name} {d : Datum} (h : Hosts E g s) (hg : g.Closed) (ho : g id = some object)
    (ht : object.type = t) (hd : object.fields[name]? = some d) (pins : Pins) :
    StoreM.getField (.object t id) name pins s = .ok (.datum d) s := by
  have hget : s.pool.get (Object.ofType t) id = .ok ⟨object, ht⟩ := h.get (k := Object.ofType t) ho
  have hload : StoreM.load d pins s = .ok (.datum d) s := by
    cases d with
    | object t' id' =>
      obtain ⟨p, hp, ht'⟩ := hg id object ho (t', id') (Object.links_of_field hd rfl)
      have hget' : s.pool.get (Object.ofType t') id' = .ok ⟨p, ht'⟩ := h.get (k := Object.ofType t') hp
      show (StoreM.fetchObject t' id' >>= fun _ => pure _) pins s = _
      rw [StoreM.bind_apply, StoreM.fetchObject_apply, hget']
      rfl
    | _ => rfl
  show (StoreM.fetchObject t id >>= _) pins s = _
  rw [StoreM.bind_apply, StoreM.fetchObject_apply, hget]
  simp only [hd]
  exact hload

namespace Fragment.Amended

variable {E : Setting} {P : List NodeId} {g g' : Fragment} {s s' : Store} {id j : NodeId} {field : Name}
  {d : Datum}

theorem corresponds (h : g'.Amended E P id field d j) (hs : Hosts E g s) (hs' : Hosts E g' s')
    (hkeeps : g.Keeps P g') :
    ∃ ρ, Corresponds ρ ((Fragment.of s.pool).lacking id field) ((Fragment.of s'.pool).lacking j field) ∧
      ρ id j ∧ ∀ i j, ρ i j → E.start ≤ j := by
  obtain ⟨cs, g₁, o, hc, hsends, ho, rfl⟩ := h
  have hsame : ∀ i, g₁.Reach P i → g i = g₁ i := by
    have hother : g₁.Keeps P (Function.update g₁ j (some (o.withFields (o.fields.insert field d)))) :=
      fun i hi => Function.update_of_ne (hc.ne hi hsends) _ _
    intro i hi
    exact (hkeeps i (hkeeps.reach_iff.1 (hother.reach hi))).symm.trans (hother i hi)
  have hcopies : Corresponds cs.Sends g g₁ := by
    refine ⟨fun i i' hij => ?_, fun i i' j j' hij hij' => ⟨fun heq => ?_, fun heq => ?_⟩⟩
    · obtain ⟨p, p', hp, hp', hlike⟩ := hc.like i i' hij not_false
      exact ⟨p, p', (hsame i (hc.reach hij)).trans hp, hp', hlike⟩
    · exact Option.some.inj (hij.symm.trans (heq ▸ hij'))
    · exact hc.injective i i' j hij (heq ▸ hij')
  refine ⟨cs.Sends, ?_, hsends, hc.new⟩
  have hlack := hcopies.lacking hsends field
  rw [← Fragment.lacking_update ho d] at hlack
  exact hlack.of_sub (Fragment.lacking_sub fun _ _ h => hs.of_eq h)
    (Fragment.lacking_sub fun _ _ h => hs'.of_eq h)

/-- The copy has what was assigned. -/
theorem field_eq (h : g'.Amended E P id field d j) :
    ∃ object, g' j = some object ∧ object.fields[field]? = some d := by
  obtain ⟨cs, g₁, o, -, -, -, rfl⟩ := h
  exact ⟨_, Function.update_self .., by simp⟩

end Fragment.Amended

namespace MachineM

variable {g : Fragment} {m : Machine} {pins : Pins} {binding field : Name} {t : ObjectType} {o : NodeId}
  {v : Value} {d : Datum}

theorem writeField_apply (hb : m.scopes.lookup? binding = some (.object t o)) {o' : NodeId} {s' : Store}
    (hcopy : onStore (StoreM.copyWithField t o field d) (pins.also fun _ => [o]) m =
      .ok o' { m with store := s' })
    {scopes' : Scopes} (hassign : m.scopes.assign binding (.object t o') = .ok scopes') :
    writeField binding field (.datum d) pins m = .ok () { m with store := s', scopes := scopes' } := by
  rw [writeField, bind_apply, lookup_apply, hb]
  dsimp only
  rw [bind_apply]
  show (keeping [o] (onStore (StoreM.copyWithField t o field d)) >>= _) pins m = _
  rw [bind_apply, keeping_apply, hcopy]
  show setScopes (m.scopes.assign binding (.object t o')) pins { m with store := s' } = _
  rw [setScopes_apply, hassign]

/-- The field of a copy is assigned, and the machine is housed again. -/
theorem writeField_reassigned (h : m.Housed g) (hpins : ∀ id ∈ pins.get, (g id).isSome = true)
    (hd : g.Rooted (m.roots pins) (.datum d)) (hb : m.scopes.lookup? binding = some (.object t o)) :
    ∃ m' o', writeField binding field (.datum d) pins m = .ok () m' ∧
      m.Reassigned pins binding field t o d m' o' ∧
      ∃ g', m'.Housed g' ∧ g.Keeps (m.roots pins) g' := by
  -- What the name is bound to is there, and kept alive by the scopes.
  have hbound := h.scopes.mentioned.lookup? hb
  have hat : g.At t o := Fragment.good_object.1 hbound.1
  have hroot : g.Reach (m.roots pins) o :=
    .root (Machine.Housed.mem_roots_of_mentions (Machine.mem_mentions.2 (.inr (.inr (.inl (hbound.2 o rfl))))))
  -- While it is copied, the object is held besides.
  have hroots : m.roots pins ⊆ m.roots (pins.also fun _ => [o]) := Machine.Housed.roots_subset
  have hpins' : ∀ id ∈ (pins.also fun _ => [o]).get, (g id).isSome = true := fun id hid =>
    (Pins.mem_also.1 hid).elim (hpins id) fun hid => List.mem_singleton.1 hid ▸ hat.isSome
  have hsteady : StoreM.Steady (Machine.Housed.setting m) (m.roots (pins.also fun _ => [o])) [] g
      (StoreM.copyWithField t o field d) _ := .copyWithField_amended hat (hroot.mono hroots) (hd.mono hroots)
  obtain ⟨o', s', g', hcopy, ht, hkept, hat', hamended⟩ :=
    h.run hpins' hsteady fun _ _ => StoreM.copyWithField_error
  obtain ⟨ρ, hcorresponds, hρ, hnew⟩ := hamended.corresponds h.hosts ht.left hkept
  have hkeeps := hkept.mono hroots
  obtain ⟨object, hobject, hfield⟩ := hamended.field_eq
  -- The name is in the innermost context.
  obtain ⟨c, hc, hlookup⟩ := Option.bind_eq_some_iff.1 hb
  obtain ⟨cs, hcs⟩ := List.head?_eq_some_iff.1 hc
  obtain ⟨inner, frame, outer, hframes, hinner, hframe, hassign⟩ :=
    Context.assign?_of_findSome? (v := .object t o') hlookup
  have hassign' : m.scopes.assign binding (.object t o') =
      .ok ⟨{ c with frames := inner ++ frame.define binding (.object t o') :: outer } :: cs⟩ := by
    simp only [Scopes.assign, hcs, hassign]
  have hscopes := (h.scopes_keep hkeeps).assign (Fragment.good_object.2 hat') hassign'
  refine ⟨_, o', writeField_apply hb hcopy hassign', ?_, g', h.renew ht hkeeps hpins hscopes, hkeeps⟩
  have hunchanged := h.keeps_store hpins ht hkeeps
  refine ⟨hnew o o' hρ, ?_, fun pins => ?_, ⟨_, hcorresponds.isomorphism hρ⟩, fun i hi hi' => ?_, hunchanged,
    fun p name e hp he pins => ?_, ?_, ⟨c, cs, inner, frame, outer, hcs, hframes, hinner, hframe, rfl⟩, rfl⟩
  · exact hat'.of_sub fun _ _ ho => ht.left.of_eq ho
  · exact ht.left.getField ht.closed hobject (hat'.type_eq hobject) hfield pins
  · obtain ⟨i', hρ', -⟩ := ((hcorresponds.isomorphism hρ).range i).2 hi'
    have hr : g.Reach [o] i := h.hosts.reach h.closed (by simpa using hat.isSome) hi
    obtain ⟨p, hp⟩ := Option.isSome_iff_exists.1 (hr.isSome h.closed (by simpa using hat.isSome))
    exact absurd (h.below i p hp) (Nat.not_lt.2 (hnew i' i hρ'))
  · obtain ⟨p', hp', htype⟩ := hat
    obtain rfl := Option.some.inj ((h.hosts.of_eq hp').symm.trans hp)
    exact ht.left.getField ht.closed ((hkeeps o hroot).trans hp') htype he pins
  · have hnone : inner.findSome? (fun f => f.lookup? binding) = none := List.findSome?_eq_none_iff.2 hinner
    show ((inner ++ frame.define binding (.object t o') :: outer).findSome? fun f => f.lookup? binding) = _
    rw [List.findSome?_append, hnone, Option.none_or, List.findSome?_cons, Frame.lookup?_define, if_pos rfl]

theorem writeField_refused (h : (∃ b f, v = .fieldRef b f) ∨
    ∀ t o, m.scopes.lookup? binding ≠ some (.object t o)) :
    ∃ failure, writeField binding field v pins m = .error failure m := by
  rw [writeField, bind_apply, lookup_apply]
  cases hb : m.scopes.lookup? binding with
  | none => exact ⟨_, rfl⟩
  | some target =>
    dsimp only
    rw [bind_apply, ofExcept_apply]
    cases hd : v.toDatum with
    | error failure => exact ⟨failure, rfl⟩
    | ok d =>
      rcases h with ⟨b, f, rfl⟩ | hno
      · cases hd
      · dsimp only
        split
        · rename_i t o
          exact absurd hb (hno t o)
        · exact ⟨_, fail_apply _⟩

/-- A field is assigned by copying the object and binding the name to the copy. If that cannot be done, the
machine stays as it is. -/
theorem writeField_copies_and_rebinds (h : m.Housed g) (hpins : ∀ id ∈ pins.get, (g id).isSome = true)
    (hv : g.Good v) (hroot : ∀ id, v.node? = some id → id ∈ m.roots pins) :
    (∀ t o d, m.scopes.lookup? binding = some (.object t o) → v = .datum d →
      ∃ m' o', writeField binding field v pins m = .ok () m' ∧
        m.Reassigned pins binding field t o d m' o' ∧
        ∃ g', m'.Housed g' ∧ g.Keeps (m.roots pins) g') ∧
    ((∃ b f, v = .fieldRef b f) ∨ (∀ t o, m.scopes.lookup? binding ≠ some (.object t o)) →
      ∃ failure, writeField binding field v pins m = .error failure m) := by
  refine ⟨fun t o d hb hd => ?_, writeField_refused⟩
  subst hd
  exact writeField_reassigned h hpins
    (fun l hl => ⟨.root (hroot l.2 (by simp [Value.node?_eq_link?, hl])), hv l hl⟩) hb

/-- The name `c` is bound to the first of two clusters that point at each other, and shadows a number. -/
def facingMachine : Machine where
  store := Session.facing
  scopes := ⟨[{ frames := [Frame.define {} "c" (.object .cluster 1), Frame.define {} "c" (.count 5)] }]⟩

theorem facingMachine_housed : facingMachine.Housed (Fragment.of Session.facing.pool) where
  bodies id e l he hl := by
    rcases Session.facing_cases he with ⟨_, rfl⟩ | ⟨_, rfl⟩ <;> cases hl
  closed := Session.facing_intact.closed
  entry id o ho := by
    obtain ⟨e, he, rfl⟩ := Fragment.of_eq_some.1 ho
    exact ⟨e, he, rfl, Session.facing_intact.counts id e he⟩
  below id o ho := by
    obtain ⟨e, he, -⟩ := Fragment.of_eq_some.1 ho
    exact Session.facing_intact.below id e he
  handles id hid := by
    have hkeys : Session.facing.pool.handles.keys = [1] := rfl
    obtain rfl := List.mem_singleton.1 (hkeys ▸ Std.ExtTreeMap.mem_keys.2 hid)
    exact Session.facing_at.1.isSome
  mentions id hid := by
    have hmentions : facingMachine.mentions = [1] := rfl
    obtain rfl := List.mem_singleton.1 (hmentions ▸ hid)
    exact Session.facing_at.1.isSome
  scopes c hc f hf := by
    obtain rfl := List.mem_singleton.1 hc
    rcases List.mem_pair.1 hf with rfl | rfl
    · exact Frame.All.empty.define (Fragment.good_object.2 Session.facing_at.1)
    · exact Frame.All.empty.define (Fragment.good_of_scalar rfl)

/-- The other cluster becomes a field of the first. -/
theorem writeField_copies_and_rebinds_facing :
    facingMachine.Housed (Fragment.of Session.facing.pool) ∧
      (∀ id ∈ (Pins.of fun _ => [2]).get, (Fragment.of Session.facing.pool id).isSome = true) ∧
      (Fragment.of Session.facing.pool).Good (.object .cluster 2) ∧
      (∀ id, (Value.object .cluster 2).node? = some id → id ∈ facingMachine.roots (.of fun _ => [2])) ∧
      (∃ m' o', writeField "c" "f" (.object .cluster 2) (.of fun _ => [2]) facingMachine = .ok () m' ∧
        facingMachine.Reassigned (.of fun _ => [2]) "c" "f" .cluster 1 (.object .cluster 2) m' o') ∧
      ∃ failure, writeField "d" "f" (.object .cluster 2) (.of fun _ => [2]) facingMachine =
        .error failure facingMachine := by
  have hpins : ∀ id ∈ (Pins.of fun _ => [2]).get, (Fragment.of Session.facing.pool id).isSome = true := by
    intro id hid
    obtain rfl : id = 2 := by simpa using hid
    exact Session.facing_at.2.isSome
  have hv := Fragment.good_object.2 Session.facing_at.2
  have hroot : ∀ id, (Value.object .cluster 2).node? = some id → id ∈ facingMachine.roots (.of fun _ => [2]) := by
    rintro _ ⟨⟩
    exact Machine.Housed.mem_roots.2 (.inl (by simp))
  obtain ⟨m', o', hwrite, hassigned, -⟩ : ∃ m' o',
      writeField "c" "f" (.object .cluster 2) (.of fun _ => [2]) facingMachine = .ok () m' ∧
        facingMachine.Reassigned (.of fun _ => [2]) "c" "f" .cluster 1 (.object .cluster 2) m' o' ∧ _ :=
    (writeField_copies_and_rebinds facingMachine_housed hpins hv hroot).1 .cluster 1 (.object .cluster 2) rfl rfl
  refine ⟨facingMachine_housed, hpins, hv, hroot, ⟨m', o', hwrite, hassigned⟩,
    (writeField_copies_and_rebinds facingMachine_housed hpins hv hroot).2 (.inr fun t o h => ?_)⟩
  cases h

end MachineM

end Mosaic
