import Mosaic.Proofs.Cadence.Twin

/-!
# Actions that agree

`Agree E P L g x y Q`: run with the pins `P` and `L` on two stores that share the fragment `g`, each of
which may keep more of its own alive, the actions `x` and `y` return the same result, or they fail with the
same failure, which is not one of the graph, and either way they leave stores that share a fragment again. What can be
reached from `P` is not changed; the nodes in `L` are held, but an action may work on them. The rules follow
the ways actions are composed.
-/

namespace Mosaic

open Mosaic.Graph (NodeId Node Kind Pool)

/-! ## Values -/

def Value.link? : Value → Option Link
  | .datum d => d.link?
  | .fieldRef .. => none

theorem Value.node?_eq_link? (v : Value) : v.node? = v.link?.map Prod.snd := by
  cases v with
  | datum d => exact d.node?_eq
  | fieldRef => rfl

namespace Fragment

variable {g g' : Fragment} {P P' L : List NodeId} {v : Value} {t : ObjectType} {id : NodeId}

/-- The object that the value is, if it is one, is there. -/
def Good (g : Fragment) (v : Value) : Prop := ∀ l, v.link? = some l → g.At l.1 l.2

/-- It is there, and can be reached from the roots. -/
def Rooted (g : Fragment) (P : List NodeId) (v : Value) : Prop :=
  ∀ l, v.link? = some l → g.Reach P l.2 ∧ g.At l.1 l.2

@[simp] theorem good_object : g.Good (.object t id) ↔ g.At t id := by
  simp [Good, Value.link?, Datum.link?]

@[simp] theorem rooted_object : g.Rooted P (.object t id) ↔ g.Reach P id ∧ g.At t id := by
  simp [Rooted, Value.link?, Datum.link?]

theorem Rooted.good (h : g.Rooted P v) : g.Good v := fun l hl => (h l hl).2

theorem Good.isSome (h : g.Good v) {id : NodeId} (hid : v.node? = some id) : (g id).isSome = true := by
  rw [Value.node?_eq_link?, Option.map_eq_some_iff] at hid
  obtain ⟨l, hl, rfl⟩ := hid
  exact (h l hl).isSome

theorem Rooted.mono (h : g.Rooted P v) (hP : P ⊆ P') : g.Rooted P' v :=
  fun l hl => ⟨(h l hl).1.mono hP, (h l hl).2⟩

theorem Rooted.keep (h : g.Rooted P v) (hg : g.Keeps P g') : g'.Rooted P v :=
  fun l hl => ⟨hg.reach (h l hl).1, hg.has (h l hl).1 (h l hl).2⟩

theorem good_of_scalar (h : v.node? = none) : g.Good v := by
  intro l hl
  cases v with
  | fieldRef => cases hl
  | datum d =>
    rw [Value.node?, Datum.node?_eq, show d.link? = some l from hl] at h
    cases h

/-- What an action does to the shared fragment. -/
structure Leads (g : Fragment) (P L : List NodeId) (g' : Fragment) : Prop where
  keeps : g.Keeps P g'
  holds : ∀ id ∈ L, ∀ t, g.At t id → g'.At t id

namespace Leads

theorem refl (g : Fragment) (P L : List NodeId) : g.Leads P L g := ⟨.refl g P, fun _ _ _ h => h⟩

theorem of_sub (hg : ∀ id o, g id = some o → g' id = some o) : g.Leads [] L g' :=
  ⟨fun _ hid => (not_reach_nil hid).elim, fun _ _ _ ht => ht.of_sub hg⟩

theorem trans {g'' : Fragment} (h : g.Leads P L g') (h' : g'.Leads P L g'') : g.Leads P L g'' :=
  ⟨h.keeps.trans h'.keeps, fun id hid t ht => h'.holds id hid t (h.holds id hid t ht)⟩

theorem of_keeps (h : g.Keeps (P ++ L) g') : g.Leads P L g' :=
  ⟨h.mono (List.subset_append_left P L),
    fun _ hid _ ht => h.has (.root (List.mem_append_right P hid)) ht⟩

theorem good (h : g.Leads P L g') (hv : g.Good v) (hL : ∀ id, v.node? = some id → id ∈ L) : g'.Good v :=
  fun l hl => h.holds l.2 (hL l.2 (by simp [Value.node?_eq_link?, hl])) l.1 (hv l hl)

theorem isSome (h : g.Leads P L g') (hP : ∀ i ∈ P ++ L, (g i).isSome = true) :
    ∀ i ∈ P ++ L, (g' i).isSome = true := by
  intro i hi
  rcases List.mem_append.1 hi with hi' | hi'
  · rw [h.keeps i (.root hi')]
    exact hP i hi
  · obtain ⟨o, ho⟩ := Option.isSome_iff_exists.1 (hP i hi)
    exact (h.holds i hi' o.type ⟨o, ho, rfl⟩).isSome

end Leads

end Fragment

namespace StoreM

/-- The stores have given out as many addresses, after as many allocations. -/
def Even (s t : Store) : Prop :=
  t.pool.next = s.pool.next ∧ t.totals.allocations = s.totals.allocations

/-- The two outcomes are the same result, with stores as `S` says, or the same failure, with stores as `F`
says. -/
def Same {α : Type} (S : α → Store → Store → Prop) (F : Store → Store → Prop) :
    EStateM.Result Failure Store α → EStateM.Result Failure Store α → Prop
  | .ok a s, .ok b t => a = b ∧ S a s t
  | .error f s, .error f' t => f = f' ∧ f.cause.isGraph = false ∧ F s t
  | _, _ => False

namespace Same

variable {α β : Type} {S S' : α → Store → Store → Prop} {T : β → Store → Store → Prop}
  {F F' : Store → Store → Prop}

theorem imp {r r' : EStateM.Result Failure Store α} (h : Same S F r r')
    (hS : ∀ a s t, S a s t → S' a s t) (hF : ∀ s t, F s t → F' s t) : Same S' F' r r' := by
  cases r <;> cases r'
  · exact ⟨h.1, hS _ _ _ h.2⟩
  · exact h
  · exact h
  · exact ⟨h.1, h.2.1, hF _ _ h.2.2⟩

theorem bind {x y : StoreM α} {f h : α → StoreM β} {pins pins' : Pins} {s t : Store}
    (hxy : Same S F (x pins s) (y pins' t))
    (hf : ∀ a s' t', S a s' t' → Same T F (f a pins s') (h a pins' t')) :
    Same T F ((x >>= f) pins s) ((y >>= h) pins' t) := by
  rw [bind_apply, bind_apply]
  generalize x pins s = r at hxy ⊢
  generalize y pins' t = r' at hxy ⊢
  cases r <;> cases r'
  · obtain ⟨rfl, hs⟩ := hxy
    exact hf _ _ _ hs
  · exact hxy.elim
  · exact hxy.elim
  · exact hxy

end Same

/-- The actions do the same on stores that share a fragment. -/
def Agree {α : Type} (E : Setting) (P L : List NodeId) (g : Fragment) (x y : StoreM α)
    (Q : Fragment → α → Prop) : Prop :=
  ∀ (pins pins' : Pins) (s t : Store), E.Pinned pins pins' (P ++ L) →
    (∀ id ∈ P ++ L, (g id).isSome = true) → Twin E g s t →
    Same (fun a s' t' => ∃ g', Twin E g' s' t' ∧ g.Leads P L g' ∧ Q g' a)
      (fun s' t' => ∃ g', Twin E g' s' t' ∧ g.Leads P L g') (x pins s) (y pins' t)

/-- The action does the same on both. -/
abbrev Steady {α : Type} (E : Setting) (P L : List NodeId) (g : Fragment) (x : StoreM α)
    (Q : Fragment → α → Prop) : Prop :=
  Agree E P L g x x Q

namespace Agree

variable {E : Setting} {P L : List NodeId} {g : Fragment} {α β : Type} {x y : StoreM α}
  {Q Q' : Fragment → α → Prop} {R : Fragment → β → Prop} {f h : α → StoreM β} {id : NodeId}
  {t : ObjectType}

theorem ret {a : α} (ha : Q g a) : Agree E P L g (pure a) (pure a) Q :=
  fun _ _ _ _ _ _ ht => ⟨rfl, g, ht, .refl g P L, ha⟩

theorem bind (hx : Agree E P L g x y Q)
    (hf : ∀ g' a, g.Leads P L g' → Q g' a → Agree E P L g' (f a) (h a) R) :
    Agree E P L g (x >>= f) (y >>= h) R := by
  intro pins pins' s t hpins hP ht
  refine (hx pins pins' s t hpins hP ht).bind fun a s' t' ⟨g', ht', hg, hq⟩ => ?_
  exact (hf g' a hg hq pins pins' s' t' hpins (hg.isSome hP) ht').imp
    (fun _ _ _ ⟨g'', ht'', hg', hq'⟩ => ⟨g'', ht'', hg.trans hg', hq'⟩)
    fun _ _ ⟨g'', ht'', hg'⟩ => ⟨g'', ht'', hg.trans hg'⟩

theorem imp (hx : Agree E P L g x y Q) (hq : ∀ g' a, g.Leads P L g' → Q g' a → Q' g' a) :
    Agree E P L g x y Q' := by
  intro pins pins' s t hpins hP ht
  exact (hx pins pins' s t hpins hP ht).imp
    (fun a _ _ ⟨g', ht', hg, hq'⟩ => ⟨g', ht', hg, hq g' a hg hq'⟩) fun _ _ h => h

theorem fail {cause : Cause} (hc : cause.isGraph = false) :
    Agree E P L g (StoreM.fail cause : StoreM α) (StoreM.fail cause) Q :=
  fun _ _ _ _ _ _ ht => ⟨rfl, hc, g, ht, .refl g P L⟩

theorem failThen {cause : Cause} (hc : cause.isGraph = false) :
    Agree E P L g (StoreM.fail cause >>= f) (StoreM.fail cause >>= h) R :=
  fun _ _ _ _ _ _ ht => ⟨rfl, hc, g, ht, .refl g P L⟩

theorem ofExcept {r : Except Failure α} (ok : ∀ a, r = .ok a → Q g a)
    (error : ∀ failure, r = .error failure → failure.cause.isGraph = false) :
    Agree E P L g (StoreM.ofExcept r) (StoreM.ofExcept r) Q := by
  cases r with
  | ok a => exact ret (ok a rfl)
  | error failure => exact fun _ _ _ _ _ _ ht => ⟨rfl, error failure rfl, g, ht, .refl g P L⟩

/-- What comes after something that only reads. -/
theorem readThen {S : α → Prop} (hx : Agree E P L g x y fun g' a => g' = g ∧ S a)
    (hf : ∀ a, S a → Agree E P L g (f a) (h a) R) : Agree E P L g (x >>= f) (y >>= h) R :=
  bind hx fun _ a _ hq => hq.1 ▸ hf a hq.2

theorem mapM {S : β → α → Prop} {f h : β → StoreM α} {bs : List β}
    (hf : ∀ b ∈ bs, Agree E P L g (f b) (h b) fun g' a => g' = g ∧ S b a) :
    Agree E P L g (bs.mapM f) (bs.mapM h) fun g' as => g' = g ∧ List.Forall₂ S bs as := by
  induction bs with
  | nil =>
    rw [List.mapM_nil, List.mapM_nil]
    exact ret ⟨rfl, .nil⟩
  | cons b bs ih =>
    rw [List.mapM_cons, List.mapM_cons]
    refine readThen (hf b (by simp)) fun a ha => ?_
    refine readThen (ih fun b' hb' => hf b' (by simp [hb'])) fun as has => ret ⟨rfl, .cons ha has⟩

theorem known (h : g.Closed → Agree E P L g x y Q) : Agree E P L g x y Q :=
  fun pins pins' s t hpins hP ht => h ht.closed pins pins' s t hpins hP ht

/-! ## The basic actions -/

variable {k : Kind Object α}

theorem fetch {a : α} (ha : g id = some (k.wrap a)) :
    Agree E P L g (StoreM.fetch k id) (StoreM.fetch k id) fun g' b =>
      g' = g ∧ b = a ∧ (∀ l ∈ (k.wrap a).links, g.At l.1 l.2) ∧
        ∀ l, k.wrap a = .lambda l → E.body l.body := by
  intro pins pins' s t _ _ ht
  rw [fetch_apply, fetch_apply, ht.left.get ha, ht.right.get ha]
  refine ⟨rfl, g, ht, .refl g P L, rfl, rfl, ht.closed id _ ha, fun l hl => ?_⟩
  obtain ⟨e, he, hn, _⟩ := ht.left.entry id _ ha
  exact ht.left.body id e l he (hn.trans hl)

theorem fetchObject (hid : g.At t id) :
    Agree E P L g (StoreM.fetchObject t id) (StoreM.fetchObject t id) fun g' o =>
      g' = g ∧ g id = some o ∧ o.type = t ∧ ∀ l ∈ o.links, g.At l.1 l.2 := by
  obtain ⟨o, ho, htype⟩ := hid
  refine bind (fetch (k := Object.ofType t) (a := ⟨o, htype⟩) ho) fun g' b _ hb => ?_
  obtain ⟨rfl, rfl, hl, -⟩ := hb
  exact ret ⟨rfl, ho, htype, hl⟩

theorem load {d : Datum} (hd : g.Good (.datum d)) :
    Agree E P L g (StoreM.load d) (StoreM.load d) fun g' v => g' = g ∧ v = .datum d := by
  cases d with
  | object t id =>
    exact bind (fetchObject (Fragment.good_object.1 hd)) fun g' _ _ ho => ret ⟨ho.1, rfl⟩
  | _ => exact ret ⟨rfl, rfl⟩

/-- A new object owns no handles. -/
theorem allocate {o : Object} (ho : ∀ l ∈ o.links, g.Reach (P ++ L) l.2 ∧ g.At l.1 l.2)
    (hb : ∀ l, o = .lambda l → E.body l.body ∧ programTethers l.body = []) :
    Agree E P L g (StoreM.allocate o) (StoreM.allocate o) fun g' id =>
      g.Keeps (P ++ L) g' ∧ g' id = some o ∧ g id = none ∧ ¬ g'.Reach (P ++ L) id ∧
        E.start ≤ id := by
  intro pins pins' s t hpins hP ht
  have hfree : o.tethers = [] := by
    cases o with
    | lambda l => exact (hb l rfl).2
    | _ => rfl
  obtain ⟨s', t', hs, ht', htwin⟩ := ht.allocate hpins hP ho (fun l hl => (hb l hl).1) hfree
  have hkeeps : g.Keeps (P ++ L) (Function.update (g.cut (P ++ L)) s.pool.next (some o)) := by
    intro i hi
    have hne : i ≠ s.pool.next := by
      rintro rfl
      have := hi.isSome ht.closed hP
      rw [ht.fresh] at this
      cases this
    rw [Function.update_of_ne hne, Fragment.cut_of_reach hi]
  rw [allocate_apply, allocate_apply, hs, ht']
  refine ⟨rfl, _, htwin, .of_keeps hkeeps, hkeeps, Function.update_self .., ht.fresh, fun hr => ?_,
    ht.start_le⟩
  have := (hkeeps.reach_iff.1 hr).isSome ht.closed hP
  rw [ht.fresh] at this
  cases this

/-- Replacing an object that can only be reached from what is held. -/
theorem update {a : α} {f : α → α} (ha : g id = some (k.wrap a)) (hid : ¬ g.Reach P id)
    (hl : ∀ l ∈ (k.wrap (f a)).links, g.At l.1 l.2) (hb : g.Embodies (k.wrap (f a))) :
    Agree E P L g (StoreM.update k id f) (StoreM.update k id f) fun g' _ =>
      g' = Function.update g id (some (k.wrap (f a))) := by
  intro pins pins' s t _ _ ht
  obtain ⟨p, q, hp, hq, htwin⟩ := ht.update ha hl hb
  rw [update_apply, update_apply, hp, hq]
  refine ⟨rfl, _, htwin, ⟨fun i hi => ?_, fun i _ t' ht' => ht'.update ha (Kind.type_wrap k _ _)⟩, rfl⟩
  exact Function.update_of_ne (fun heq => hid (by rwa [← heq])) _ _

theorem keeping {ids : List NodeId} (hids : ∀ i ∈ ids, (g i).isSome = true)
    (hx : Agree E P (ids ++ L) g x y Q) :
    Agree E P L g (StoreM.keeping ids x) (StoreM.keeping ids y) Q := by
  intro pins pins' s t hpins hP ht
  have hmem : ∀ id, id ∈ P ++ (ids ++ L) ↔ id ∈ P ++ L ∨ id ∈ ids := by
    intro id
    rw [List.mem_append, List.mem_append, List.mem_append, or_left_comm, or_comm]
  have hP' : ∀ i ∈ P ++ (ids ++ L), (g i).isSome = true := by
    intro i hi
    exact ((hmem i).1 hi).elim (hP i) (hids i)
  rw [keeping_apply, keeping_apply]
  have hleads : ∀ g', g.Leads P (ids ++ L) g' → g.Leads P L g' := fun _ hg =>
    ⟨hg.keeps, fun i hi => hg.holds i (List.mem_append_right ids hi)⟩
  exact (hx _ _ s t (hpins.also hmem) hP' ht).imp
    (fun _ _ _ ⟨g', ht', hg, hq⟩ => ⟨g', ht', hleads g' hg, hq⟩)
    fun _ _ ⟨g', ht', hg⟩ => ⟨g', ht', hleads g' hg⟩

/-- An action that does not work on what is held does not change it. -/
theorem protect (hx : Agree E (P ++ L) [] g x y Q) :
    Agree E P L g x y fun g' a => g.Keeps (P ++ L) g' ∧ Q g' a := by
  intro pins pins' s t hpins hP ht
  exact (hx pins pins' s t (by simpa using hpins) (by simpa using hP) ht).imp
    (fun _ _ _ ⟨g', ht', hg, hq⟩ => ⟨g', ht', .of_keeps hg.keeps, hg.keeps, hq⟩)
    fun _ _ ⟨g', ht', hg⟩ => ⟨g', ht', .of_keeps hg.keeps⟩

end Agree

end StoreM

end Mosaic
