import Mosaic.Proofs.Dependencies.Follow

/-!
# Operations of sighted code

What each operation of sighted code does on two footings. The operations that bind or rebind names, or set
lambdas aside, do it in both scopes, which are moored beside each other again (`Lands`); a call puts the
context of the body on top of both (`Above`); the others leave the scopes alone.
-/

namespace Mosaic

open Mosaic.Graph (NodeId Pool)

/-! ## Names that are bound and rebound -/

/-- The scopes are moored beside each other after an action if they were before, in any store. -/
def Lands {α : Type} (D : Name → Prop) (X : List NodeId) (ns ns₁ : List (List Name)) (m : Machine) (s : Scopes)
    (_ : α) (m₁ : Machine) (s₁ : Scopes) : Prop :=
  ∀ p, Moored D X p ns m.scopes s → Moored D X p ns₁ m₁.scopes s₁

section

variable {D : Name → Prop} {X : List NodeId} {ns : List (List Name)} {s s' : Scopes} {p : Pool Object}

theorem Moored.level (h : Moored D X p ns s s') : s.Level X s' := h.mem_nodes

theorem sees_empty (ns : List (List Name)) (id : NodeId) : Sees D {} ns id := by
  intro t ht
  simp [Pool.get] at ht

theorem Moored.in_empty (h : Moored D X p ns s s') : Moored D X {} ns s s' := by
  refine h.of_pool fun c _ f _ id _ t ht => ?_
  simp [Pool.get] at ht

theorem Paired.ok {α β : Type} {R : α → β → Prop} {e : Except Failure α} {e' : Except Failure β} {a : α} {b : β}
    (h : Paired R e e') (he : e = .ok a) (he' : e' = .ok b) : R a b := by
  subst he he'
  exact h

end

namespace MachineM

theorem length_of_destructure {v : Value} {n : Nat} {m : Machine} :
    Ends (destructure v n) m (fun _ => True) fun vs _ => vs.length = n := by
  have hmapM : ∀ (items : List Datum) {pins : Pins} {s s' : Store} {vs : List Value},
      items.mapM StoreM.load pins s = .ok vs s' → vs.length = items.length := by
    intro items
    induction items with
    | nil =>
      intro pins s s' vs h
      cases h
      rfl
    | cons d items ih =>
      intro pins s s' vs h
      rw [List.mapM_cons, StoreM.bind_apply] at h
      split at h
      · rw [StoreM.bind_apply] at h
        split at h
        · rename_i hitems
          cases h
          exact congrArg Nat.succ (ih hitems)
        · cases h
      · cases h
  unfold destructure
  split
  · rename_i hn
    exact Ends.ret (hn ▸ rfl)
  · split
    · rename_i id
      intro pins
      rw [onStore_apply, StoreM.bind_apply, StoreM.fetch_apply]
      cases hc : m.store.pool.get Object.clusters id with
      | error fault => trivial
      | ok c =>
        dsimp only
        by_cases hlen : c.items.length = n
        · rw [if_neg (not_not.2 hlen)]
          cases hr : c.items.mapM StoreM.load (pins.also fun _ => m.mentions) m.store with
          | ok vs s' => exact (hmapM c.items hr).trans hlen
          | error failure s' => trivial
        · rw [if_pos hlen]
          trivial
    · exact fun _ => trivial

namespace Follows

variable {D : Name → Prop} {X : List NodeId} {ns : List (List Name)} {l : List Name} {m : Machine} {s : Scopes}
  {q : Pool Object}

theorem bindAll {names : List Name} {vs : List Value} (hq : Moored D X q (l :: ns) m.scopes s)
    (hlen : vs.length = names.length) :
    Follows X m s (MachineM.bindAll ((names.map Operand.var).zip vs))
      (MachineM.bindAll ((names.map Operand.var).zip vs))
      (Lands D X (l :: ns) ((names.reverse ++ l) :: ns) m s) := by
  induction names generalizing vs m s l q with
  | nil => exact ret fun _ hp => hp
  | cons name names ih =>
    obtain ⟨v, vs, rfl⟩ := List.exists_cons_of_length_eq_add_one hlen
    refine okThen fun n hn => getThen (bind (K := Lands D X (l :: ns) ((name :: l) :: ns) m s)
      (setScopes (hq.define n v) fun s₁ s₁' he he' _ p hp => ?_) fun _ m₁ s₁ h₁ => ?_)
    · obtain rfl : name = n := Except.ok.inj hn
      exact (hp.define name v).ok he he'
    · refine (ih (h₁ q hq) (Nat.succ.inj hlen)).imp fun _ _ _ h₂ p hp => ?_
      rw [List.reverse_cons, List.append_assoc]
      exact h₂ p (h₁ p hp)

theorem assign {names : List Name} {value : Operand} (hq : Moored D X q (l :: ns) m.scopes s) :
    Follows X m s (MachineM.assign names.length value (names.map .var))
      (MachineM.assign names.length value (names.map .var))
      (Lands D X (l :: ns) ((names.reverse ++ l) :: ns) m s) := by
  refine okThen fun v _ => bind ((Idles.destructure hq.level v _).and length_of_destructure)
    fun vs m₁ s₁ ⟨⟨hm₁, hs₁⟩, hlen⟩ => ?_
  subst hs₁
  rw [← hm₁] at hq
  refine bind (bindAll hq hlen) fun _ m₂ s₂ h₂ => ret fun p hp => h₂ p ?_
  rwa [hm₁]

theorem getFieldRef {binding field : Name} (hq : Moored D X q ns m.scopes s) (hbinding : Known D ns binding) :
    Idles X m s (MachineM.getFieldRef binding field) := by
  refine bind (lookup (hq.lookup? hbinding)) fun target m₁ s₁ ⟨_, hm₁, hs₁⟩ => ?_
  subst hm₁ hs₁
  split
  · exact failThen
  · exact Idles.ret

theorem writeField {binding field : Name} {v : Value} (hq : Moored D X q ns m.scopes s)
    (hbinding : Known D ns binding) :
    Follows X m s (MachineM.writeField binding field v) (MachineM.writeField binding field v)
      (Lands D X ns ns m s) := by
  refine bind (lookup (hq.lookup? hbinding)) fun target m₁ s₁ ⟨_, hm₁, hs₁⟩ => okThen fun d _ => ?_
  subst hm₁ hs₁
  split
  · rename_i t id
    refine bind (Idles.keeping (Idles.onStore hq.level _)) fun copy m₂ s₂ ⟨hm₂, hs₂⟩ => getThen ?_
    subst hs₂
    rw [← hm₂] at hq
    refine setScopes (hq.assign hbinding _) fun s₃ s₃' he he' _ p hp => ?_
    rw [← hm₂] at hp
    exact (hp.assign hbinding _).ok he he'
  · exact fail

theorem writeAll {ps : List (Operand × Value)} (hq : Moored D X q ns m.scopes s)
    (hps : ∀ p ∈ ps, ∀ binding field, p.1 = .value (.fieldRef binding field) → Known D ns binding) :
    Follows X m s (MachineM.writeAll ps) (MachineM.writeAll ps) (Lands D X ns ns m s) := by
  induction ps generalizing m s with
  | nil => exact ret fun _ hp => hp
  | cons p ps ih =>
    obtain ⟨target, v⟩ := p
    obtain ⟨htarget, hps⟩ := List.forall_mem_cons.1 hps
    refine okThen fun w hw => ?_
    split
    · rename_i binding field
      have hvalue : target = .value (.fieldRef binding field) := by
        cases target <;> cases hw
        rfl
      refine bind (keeping (writeField hq (htarget binding field hvalue))) fun _ m₁ s₁ h₁ => ?_
      exact (ih (h₁ q hq) hps).imp fun _ _ _ h₂ p hp => h₂ p (h₁ p hp)
    · exact failThen

theorem setField {n : Nat} {value : Operand} {targets : List Operand} (hq : Moored D X q ns m.scopes s)
    (htargets : ∀ binding field, .value (.fieldRef binding field) ∈ targets → Known D ns binding) :
    Follows X m s (MachineM.setField n value targets) (MachineM.setField n value targets)
      (Lands D X ns ns m s) := by
  refine okThen fun v _ => bind (Idles.destructure hq.level v n) fun vs m₁ s₁ ⟨hm₁, hs₁⟩ => ?_
  subst hs₁
  rw [← hm₁] at hq
  refine bind (writeAll hq fun p hp binding field heq => ?_) fun _ m₂ s₂ h₂ => ret fun p hp => h₂ p ?_
  · exact htargets binding field (heq ▸ (List.of_mem_zip hp).1)
  · rwa [hm₁]

/-! ## Closures -/

theorem capture {names : List Name} (hq : Moored D X q ns m.scopes s) (hnames : ∀ n ∈ names, Known D ns n) :
    Follows X m s (MachineM.capture names) (MachineM.capture names) fun _ m₁ s₁ => m₁ = m ∧ s₁ = s := by
  have hcaptured : captured s names = captured m.scopes names := by
    unfold captured
    rw [List.filterMap_congr fun n hn => by rw [hq.lookup? (hnames n hn)]]
  rw [capture_eq]
  refine getThen ?_
  rw [show (m.withScopes s).scopes = s from rfl, hcaptured]
  cases captured m.scopes names with
  | ok ps => exact ret ⟨rfl, rfl⟩
  | error failure => exact fun _ _ => ⟨s, rfl⟩

end Follows

theorem free_of_makeLambda {label : Name} {t : Template} {m : Machine} :
    Ends (makeLambda label t) m (fun _ => True) fun e m' => ∃ id l, e = .value (.object .lambda id) ∧
      m'.store.pool.get Object.lambdas id = .ok l ∧ l.free = t.free := by
  rw [makeLambda, capture_eq, bind_assoc]
  refine Ends.getThen (Ends.okThen trivial fun ps _ => Ends.allocateThen trivial fun pins id store ha => ?_)
  obtain ⟨g, -, rfl, rfl⟩ := Graph.Heap.allocate_eq_ok ha
  have hget : ∀ {o : Lambda} {pool : Pool Object}, (pool.allocate (.lambda o)).2.get Object.lambdas pool.next = .ok o :=
    fun {o pool} => Pool.get_eq_ok_iff.2 ⟨_, Std.ExtTreeMap.getElem?_insert_self, rfl⟩
  split
  · refine Ends.getThen (Ends.bind (Ends.setScopes (R := fun _ m' => m'.store.pool.get Object.lambdas g.pool.next =
      .ok { Lambda.ofTemplate label t with closure := .ofList ps compare }) trivial fun s hs => hget)
      fun _ m' hm' => Ends.ret ⟨_, _, rfl, hm', rfl⟩)
  · exact Ends.ret ⟨_, _, rfl, hget, rfl⟩

/-- A lambda that is completed has the free names that it had, and so have all others. -/
theorem free_of_complete {id : NodeId} {m : Machine} :
    Ends (complete id) m (fun _ => True) fun _ m' => ∀ i t, m'.store.pool.get Object.lambdas i = .ok t →
      ∃ t₀, m.store.pool.get Object.lambdas i = .ok t₀ ∧ t.free = t₀.free := by
  refine Ends.fetchThen trivial fun l hl => ?_
  rw [capture_eq, bind_assoc]
  refine Ends.getThen (Ends.okThen trivial fun ps _ => ?_)
  split
  · refine Ends.update trivial fun e l' he hl' i t ht => ?_
    obtain ⟨e', he', hnode⟩ := Pool.get_eq_ok_iff.1 ht
    rcases getElem?_insert_cases he' with ⟨rfl, rfl⟩ | ⟨-, he'⟩
    · cases hnode
      exact ⟨l', Pool.get_eq_ok_iff.2 ⟨e, he, hl'⟩, rfl⟩
    · exact ⟨t, Pool.get_eq_ok_iff.2 ⟨e', he', hnode⟩, rfl⟩
  · exact Ends.ret fun i t ht => ⟨t, ht, rfl⟩

namespace Follows

variable {D : Name → Prop} {X : List NodeId} {ns : List (List Name)} {l : List Name} {m : Machine} {s : Scopes}
  {q : Pool Object} {id : NodeId} {ids : List NodeId}

/-- A lambda that looks up names that are known is made with the same closure. If it is set aside, it must see
its free names. -/
theorem makeLambda {label : Name} {t : Template} (hq : Moored D X q ns m.scopes s)
    (hfree : ∀ n ∈ t.free, Known D ns n) :
    Follows X m s (MachineM.makeLambda label t) (MachineM.makeLambda label t) fun e m₁ s₁ =>
      ∀ p, (∀ id, e = .value (.object .lambda id) → Sees D p ns id) → Moored D X p ns m.scopes s →
        Moored D X p ns m₁.scopes s₁ := by
  refine bind (capture hq hfree) fun found m₁ s₁ ⟨hm₁, hs₁⟩ => ?_
  subst hm₁ hs₁
  refine bind (Idles.keeping (Idles.onStore hq.level _)) fun id m₂ s₂ ⟨hm₂, hs₂⟩ => ?_
  subst hs₂
  refine cond (fun _ => getThen ?_) fun _ => ret fun p _ hp => hm₂ ▸ hp
  rw [← hm₂] at hq
  refine bind (K := fun _ m₃ s₃ => ∀ p, Sees D p ns id → Moored D X p ns m₁.scopes s₂ →
    Moored D X p ns m₃.scopes s₃) (setScopes (hq.in_empty.park (sees_empty ns id)) fun s₃ s₃' he he' _ p hid hp => ?_)
    fun _ m₃ s₃ h₃ => ret fun p hid hp => h₃ p (hid id rfl) hp
  rw [← hm₂] at hp
  exact (hp.park hid).ok he he'

theorem complete (hq : Moored D X q ns m.scopes s) (hid : Sees D m.store.pool ns id) :
    Idles X m s (MachineM.complete id) := by
  refine bind (onStore hq.level (StoreM.fetch Object.lambdas id)) fun t m₁ s₁ ⟨hs₁, pins, s', ht, hm₁⟩ => ?_
  obtain ⟨hget, rfl⟩ := StoreM.get_of_fetch_ok ht
  subst hs₁ hm₁
  have hknown : ∀ n ∈ t.unresolved, Known D ns n := fun n hn => hid t hget n (List.mem_of_mem_filter hn)
  refine bind (capture (m := { m with store := m.store }) hq hknown) fun found m₂ s₂ ⟨hm₂, hs₂⟩ => ?_
  subst hm₂ hs₂
  exact cond (fun _ => Idles.onStore hq.level _) fun _ => Idles.ret

theorem completeAll (hq : Moored D X q ns m.scopes s) (hids : ∀ id ∈ ids, Sees D m.store.pool ns id) :
    Idles X m s (MachineM.completeAll ids) := by
  induction ids generalizing m with
  | nil => exact Idles.ret
  | cons id ids ih =>
    obtain ⟨hid, hids⟩ := List.forall_mem_cons.1 hids
    refine bind (((complete hq hid).and free_of_complete).keeping) fun _ m₁ s₁ ⟨⟨hm₁, hs₁⟩, hfree⟩ => ?_
    subst hs₁
    refine (ih (m := m₁) (hm₁ ▸ hq) fun i hi t ht n hn => ?_).imp fun _ _ _ h => ⟨h.1.trans hm₁, h.2⟩
    obtain ⟨t₀, ht₀, heq⟩ := hfree i t ht
    exact hids i hi t₀ ht₀ n (heq ▸ hn)

/-- What the innermost frame has set aside is completed with the same closures. -/
theorem setDependencies (hq : Moored D X m.store.pool (l :: ns) m.scopes s) :
    Follows X m s MachineM.setDependencies MachineM.setDependencies (Lands D X (l :: ns) (l :: ns) m s) := by
  refine getThen (pairedThen hq.takeParked fun r r' he he' hr => ?_)
  obtain ⟨hids, hsees, hr⟩ := hr
  obtain ⟨ids, s₁⟩ := r
  obtain ⟨ids', s₁'⟩ := r'
  obtain rfl : ids' = ids := hids
  refine modifyThen (h := fun m => { m with scopes := s₁ }) (t := s₁') rfl ?_
  refine bind (completeAll (m := { m with scopes := s₁ }) hr hsees) fun _ m₂ s₂ ⟨hm₂, hs₂⟩ => ret fun p hp => ?_
  subst hs₂
  rw [hm₂]
  exact (hp.takeParked.ok he he').2.2

/-! ## Frames -/

theorem pushFrame {args : List Operand} (hq : Moored D X q ns m.scopes s) :
    Follows X m s (perform .pushFrame args) (perform .pushFrame args) (Lands D X ns ([] :: ns) m s) :=
  getThen (bind (setScopes (K := Lands D X ns ([] :: ns) m s) hq.pushFrame fun _ _ he he' _ _ hp =>
    hp.pushFrame.ok he he') fun _ _ _ h => ret h)

theorem popFrame {args : List Operand} (hq : Moored D X q (l :: ns) m.scopes s) :
    Follows X m s (perform .popFrame args) (perform .popFrame args) (Lands D X (l :: ns) ns m s) :=
  getThen (pairedThen hq.popFrame fun r r' he he' _ => modifyThen (h := fun m => { m with scopes := r.2 })
    (t := r'.2) rfl (ret fun _ hp => hp.popFrame.ok he he'))

end Follows

/-! ## Calls -/

/-- The scopes are as before, or have the same contexts on top. -/
def Above {α : Type} (m : Machine) (s : Scopes) (_ : α) (m₁ : Machine) (s₁ : Scopes) : Prop :=
  ∃ C, m₁.scopes = ⟨C ++ m.scopes.contexts⟩ ∧ s₁ = ⟨C ++ s.contexts⟩

namespace Follows

variable {X : List NodeId} {m : Machine} {s : Scopes} {callee : NodeId} {args : List Value}

theorem above_of_idles {α : Type} {x : MachineM α} (h : Idles X m s x) : Follows X m s x x (Above m s) :=
  h.imp fun _ _ _ h => ⟨[], h.1, h.2⟩

theorem enterBody (hs : m.scopes.Level X s) (l : Lambda) (args : List Value) (key : Option String) :
    Follows X m s (MachineM.enterBody l args key) (MachineM.enterBody l args key) (Above m s) := by
  refine bind (Idles.onStore hs _) fun frame m₁ s₁ ⟨hm₁, hs₁⟩ => ?_
  subst hs₁
  let c : Context := { frames := [frame], label := some l.label }
  refine modifyThen (h := fun m => { m with scopes := m.scopes.pushContext c })
    (t := s₁.pushContext c) rfl (ret ⟨[c], ?_, rfl⟩)
  rw [← hm₁]
  rfl

theorem enter (hs : m.scopes.Level X s) (hdepth : s.depth = m.scopes.depth) (l : Lambda) (args : List Value)
    (key : Option String) :
    Follows X m s (MachineM.enter l args key) (MachineM.enter l args key) (Above m s) := by
  intro pins hpins
  have hlimit : (m.withScopes s).config.overflow? (m.withScopes s).scopes.depth =
      m.config.overflow? m.scopes.depth := congrArg m.config.overflow? hdepth
  cases ho : m.config.overflow? m.scopes.depth with
  | none =>
    rw [enter_eq_of_within ho, enter_eq_of_within (hlimit.trans ho)]
    exact enterBody hs l args key pins hpins
  | some limit =>
    rw [enter_eq_of_overflow ho, enter_eq_of_overflow (hlimit.trans ho)]
    exact ⟨s, rfl⟩

theorem answer (hs : m.scopes.Level X s) (hdepth : s.depth = m.scopes.depth) (l : Lambda) :
    Follows X m s (MachineM.answer callee l args) (MachineM.answer callee l args) (Above m s) := by
  rw [answer_eq]
  refine getThen ?_
  rw [show (m.withScopes s).config = m.config from rfl, show (m.withScopes s).memo = m.memo from rfl]
  split
  · refine modifyThen (by rfl) ?_
    split
    · exact (above_of_idles (Idles.valueOf (m := { m with memo := (m.memo.ask _).2 }) hs _ _))
    · exact enter (m := { m with memo := (m.memo.ask _).2 }) hs hdepth l args _
  · exact enter hs hdepth l args none

theorem invoke (hs : m.scopes.Level X s) (hdepth : s.depth = m.scopes.depth) :
    Follows X m s (MachineM.invoke callee args) (MachineM.invoke callee args) (Above m s) := by
  rw [invoke_eq]
  refine bind (onStore hs _) fun l m₁ s₁ ⟨hs₁, pins, s', hl, hm₁⟩ => ?_
  obtain ⟨-, rfl⟩ := StoreM.get_of_fetch_ok hl
  subst hs₁ hm₁
  exact cond (fun _ => fail) fun _ => answer (m := { m with store := m.store }) hs hdepth l

theorem getVariable {name : Name} (hs : m.scopes.Level X s) (hdepth : s.depth = m.scopes.depth)
    (hname : s.lookup? name = m.scopes.lookup? name) :
    Follows X m s (MachineM.getVariable name) (MachineM.getVariable name) (Above m s) := by
  refine bind (lookup hname) fun v m₁ s₁ ⟨_, hm₁, hs₁⟩ => ?_
  subst hm₁ hs₁
  split
  · refine bind (onStore hs _) fun l m₂ s₂ ⟨hs₂, pins, s', hl, hm₂⟩ => ?_
    obtain ⟨-, rfl⟩ := StoreM.get_of_fetch_ok hl
    subst hs₂ hm₂
    exact cond (fun _ => invoke (m := { m₁ with store := m₁.store }) hs hdepth) fun _ => above_of_idles Idles.ret
  · exact above_of_idles Idles.ret

theorem call {operands : List Operand} (hs : m.scopes.Level X s) (hdepth : s.depth = m.scopes.depth) :
    Follows X m s (MachineM.call operands) (MachineM.call operands) (Above m s) := by
  refine okThen fun vs _ => ?_
  split
  · exact fail
  · exact invoke hs hdepth
  · exact fail

end Follows

end MachineM

end Mosaic
