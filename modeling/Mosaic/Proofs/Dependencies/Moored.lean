import Mosaic.Proofs.Dependencies.Footing

/-!
# Scopes on two footings

`Moored D X p ns s s'` says that the scopes `s` and `s'` stand on footings that are alike for the names in `D`,
with the same frames on top. These bind the names in `ns`, and of the lambdas that are set aside in them, each
that is in the store `p` can see its free names. Names that are known then resolve to the same values. There
is a lemma for each operation on scopes: it fails on both in the same way, or leads to such scopes again.
-/

namespace Mosaic

open Mosaic.Graph (NodeId Pool)

/-- Every free name of the lambda is in `D`, or one of the frames binds it. -/
def Sees (D : Name → Prop) (p : Pool Object) (ns : List (List Name)) (id : NodeId) : Prop :=
  ∀ t, p.get Object.lambdas id = .ok t → ∀ n ∈ t.free, Known D ns n

/-- The frames bind the names that are listed, and what is set aside in them sees its free names. -/
inductive Tended (D : Name → Prop) (p : Pool Object) : List (List Name) → List Frame → Prop
  | nil : Tended D p [] []
  | cons {ns : List (List Name)} {own : List Frame} {l : List Name} {f : Frame}
    (binds : ∀ n ∈ l, f.lookup? n ≠ none) (parked : ∀ id ∈ f.parked, Sees D p (l :: ns) id)
    (rest : Tended D p ns own) : Tended D p (l :: ns) (f :: own)

namespace Tended

variable {D : Name → Prop} {p q : Pool Object} {ns : List (List Name)} {l : List Name} {own own' : List Frame}
  {f : Frame} {name n : Name} {v : Value} {id : NodeId}

theorem of_pool (h : Tended D p ns own) (hq : ∀ id ∈ own.flatMap Frame.parked, ∀ t,
    q.get Object.lambdas id = .ok t → ∃ t₀, p.get Object.lambdas id = .ok t₀ ∧ t.free = t₀.free) :
    Tended D q ns own := by
  induction h with
  | nil => exact .nil
  | cons binds parked _ ih =>
    refine .cons binds (fun id hid t ht n hn => ?_) (ih fun id hid => hq id ?_)
    · obtain ⟨t₀, ht₀, hfree⟩ := hq id (List.mem_append_left _ hid) t ht
      exact parked id hid t₀ ht₀ n (hfree ▸ hn)
    · exact List.mem_append_right _ hid

theorem cases_of_known (h : Tended D p ns own) (hn : Known D ns n) :
    (∃ v, (own.findSome? fun f => f.lookup? n) = some v) ∨
      (own.findSome? fun f => f.lookup? n) = none ∧ D n := by
  induction h with
  | nil => exact .inr ⟨rfl, hn.of_nil⟩
  | @cons ns own l f binds _ _ ih =>
    rw [List.findSome?_cons]
    cases hf : f.lookup? n with
    | some v => exact .inl ⟨v, rfl⟩
    | none =>
      refine ih (hn.imp_right fun ⟨k, hk, hmem⟩ => ⟨k, ?_, hmem⟩)
      refine (List.mem_cons.1 hk).resolve_left fun heq => binds n (heq ▸ hmem) hf

theorem assign (h : Tended D p ns own) (hown : Context.assign? name v own = some own') :
    Tended D p ns own' := by
  induction h generalizing own' with
  | nil => cases hown
  | @cons ns own l f binds parked rest ih =>
    by_cases hf : f.lookup? name = none
    · rw [Context.assign?_cons_of_none hf] at hown
      obtain ⟨fs, hfs, rfl⟩ := Option.map_eq_some_iff.1 hown
      exact .cons binds parked (ih hfs)
    · rw [Context.assign?_cons_of_ne_none hf] at hown
      cases hown
      refine .cons (fun n hn => ?_) parked rest
      rw [Frame.lookup?_define]
      split
      · exact Option.some_ne_none v
      · exact binds n hn

theorem define (h : Tended D p (l :: ns) (f :: own)) (name : Name) (v : Value) :
    Tended D p ((name :: l) :: ns) (f.define name v :: own) := by
  cases h with
  | cons binds parked rest =>
    refine .cons (fun n hn => ?_) (fun id hid t ht n hn => (parked id hid t ht n hn).mono
      (List.subset_cons_self name l)) rest
    rw [Frame.lookup?_define]
    split
    · exact Option.some_ne_none v
    · rename_i hne
      exact binds n ((List.mem_cons.1 hn).resolve_left fun heq => hne heq.symm)

theorem park (h : Tended D p (l :: ns) (f :: own)) (hid : Sees D p (l :: ns) id) :
    Tended D p (l :: ns) ({ f with parked := f.parked ++ [id] } :: own) := by
  cases h with
  | cons binds parked rest =>
    refine .cons binds (fun i hi => ?_) rest
    rcases List.mem_append.1 hi with hi | hi
    · exact parked i hi
    · exact List.mem_singleton.1 hi ▸ hid

end Tended

/-- The second outcome is of the same kind as the first one; `R` holds of the results, and failures are the
same. -/
def Paired {α β : Type} (R : α → β → Prop) : Except Failure α → Except Failure β → Prop
  | .ok a, .ok b => R a b
  | .error f, .error g => g = f
  | _, _ => False

/-- The scopes stand on alike footings, with the same frames on top. -/
def Moored (D : Name → Prop) (X : List NodeId) (p : Pool Object) (ns : List (List Name)) (s s' : Scopes) :
    Prop :=
  ∃ own B B', Footing.Alike D X B B' ∧ Tended D p ns own ∧ s = B.bear own ∧ s' = B'.bear own

namespace Moored

variable {D : Name → Prop} {X : List NodeId} {p q : Pool Object} {ns : List (List Name)} {l : List Name}
  {s s' : Scopes} {name : Name} {v : Value} {id : NodeId}

/-- The names that are known resolve to the same values. -/
theorem lookup? (h : Moored D X p ns s s') (hname : Known D ns name) : s'.lookup? name = s.lookup? name := by
  obtain ⟨own, B, B', hB, hown, rfl, rfl⟩ := h
  rw [Footing.lookup?_bear, Footing.lookup?_bear]
  rcases hown.cases_of_known hname with ⟨v, hv⟩ | ⟨hnone, hD⟩
  · rw [hv]
    rfl
  · rw [hnone, hB.lookup? name hD]

theorem mem_nodes (h : Moored D X p ns s s') (id : NodeId) : id ∈ X ∨ id ∈ s'.nodes ↔ id ∈ X ∨ id ∈ s.nodes := by
  obtain ⟨own, B, B', hB, -, rfl, rfl⟩ := h
  exact hB.mem_nodes own id

theorem depth (h : Moored D X p ns s s') : s'.depth = s.depth := by
  obtain ⟨own, B, B', hB, -, rfl, rfl⟩ := h
  exact congrArg Nat.succ hB.depth

theorem define (h : Moored D X p (l :: ns) s s') (name : Name) (v : Value) :
    Paired (Moored D X p ((name :: l) :: ns)) (s.define name v) (s'.define name v) := by
  obtain ⟨own, B, B', hB, hown, rfl, rfl⟩ := h
  obtain ⟨f, own, rfl⟩ : ∃ f own', own = f :: own' := by
    cases hown
    exact ⟨_, _, rfl⟩
  exact ⟨f.define name v :: own, B, B', hB, hown.define name v, rfl, rfl⟩

theorem assign (h : Moored D X p ns s s') (hname : Known D ns name) (v : Value) :
    Paired (Moored D X p ns) (s.assign name v) (s'.assign name v) := by
  obtain ⟨own, B, B', hB, hown, rfl, rfl⟩ := h
  by_cases hunbound : Context.Unbound own name
  · have hD : D name := by
      rcases hown.cases_of_known hname with ⟨v, hv⟩ | ⟨-, hD⟩
      · rw [List.findSome?_eq_none_iff.2 hunbound] at hv
        cases hv
      · exact hD
    have hbelow : ∀ B : Footing, Context.assign? name v (own ++ B.frames) =
        (Context.assign? name v B.frames).map (own ++ ·) := fun B => Context.assign?_append_of_unbound hunbound
    rcases hB.assign hD v with ⟨hnone, hnone'⟩ | ⟨fs, fs', hfs, hfs', hB'⟩
    · rw [Footing.assign_bear_of_none (by rw [hbelow, hnone]; rfl),
        Footing.assign_bear_of_none (by rw [hbelow, hnone']; rfl)]
      exact rfl
    · rw [Footing.assign_bear_of_some (by rw [hbelow, hfs]; rfl),
        Footing.assign_bear_of_some (by rw [hbelow, hfs']; rfl)]
      exact ⟨own, _, _, hB', hown, rfl, rfl⟩
  · obtain ⟨own', -, hown', happend⟩ := Context.assign?_append_of_not_unbound v B.frames hunbound
    obtain ⟨own'', -, hown'', happend'⟩ := Context.assign?_append_of_not_unbound v B'.frames hunbound
    obtain rfl := Option.some.inj (hown'.symm.trans hown'')
    rw [Footing.assign_bear_of_some happend, Footing.assign_bear_of_some happend']
    exact ⟨own', B, B', hB, hown.assign hown', rfl, rfl⟩

/-- Setting a lambda aside, which sees its free names if the frame is one of those on top. -/
theorem park (h : Moored D X p ns s s') (hid : Sees D p ns id) :
    Paired (Moored D X p ns) (s.park id) (s'.park id) := by
  obtain ⟨own, B, B', hB, hown, rfl, rfl⟩ := h
  cases hown with
  | nil =>
    obtain ⟨f, fs, f', fs', hfs, hfs', hB'⟩ := hB.park id
    simp only [Scopes.park, Scopes.modifyFrame, Footing.bear, List.nil_append, hfs, hfs']
    exact ⟨[], _, _, hB', .nil, rfl, rfl⟩
  | cons binds parked rest => exact ⟨_, B, B', hB, (Tended.cons binds parked rest).park hid, rfl, rfl⟩

theorem pushFrame (h : Moored D X p ns s s') : Paired (Moored D X p ([] :: ns)) s.pushFrame s'.pushFrame := by
  obtain ⟨own, B, B', hB, hown, rfl, rfl⟩ := h
  exact ⟨{} :: own, B, B', hB, .cons (by simp) (by simp) hown, rfl, rfl⟩

theorem popFrame (h : Moored D X p (l :: ns) s s') :
    Paired (fun r r' => Moored D X p ns r.2 r'.2) s.popFrame s'.popFrame := by
  obtain ⟨own, B, B', hB, hown, rfl, rfl⟩ := h
  cases hown with
  | @cons _ own _ f binds parked rest => exact ⟨own, B, B', hB, rest, rfl, rfl⟩

/-- Of the lambdas that are taken, each sees its free names. -/
theorem takeParked (h : Moored D X p (l :: ns) s s') :
    Paired (fun r r' => r'.1 = r.1 ∧ (∀ id ∈ r.1, Sees D p (l :: ns) id) ∧ Moored D X p (l :: ns) r.2 r'.2)
      s.takeParked s'.takeParked := by
  obtain ⟨own, B, B', hB, hown, rfl, rfl⟩ := h
  cases hown with
  | @cons _ own _ f binds parked rest =>
    exact ⟨rfl, parked, { f with parked := [] } :: own, B, B', hB,
      .cons binds (fun _ hid => (List.not_mem_nil hid).elim) rest, rfl, rfl⟩

theorem of_pool (h : Moored D X p ns s s') (hq : ∀ c ∈ s.contexts, ∀ f ∈ c.frames, ∀ id ∈ f.parked, ∀ t,
    q.get Object.lambdas id = .ok t → ∃ t₀, p.get Object.lambdas id = .ok t₀ ∧ t.free = t₀.free) :
    Moored D X q ns s s' := by
  obtain ⟨own, B, B', hB, hown, rfl, rfl⟩ := h
  refine ⟨own, B, B', hB, hown.of_pool fun id hid => ?_, rfl, rfl⟩
  obtain ⟨f, hf, hid⟩ := List.mem_flatMap.1 hid
  exact hq _ (List.mem_cons_self ..) f (List.mem_append_left _ hf) id hid

end Moored

end Mosaic
