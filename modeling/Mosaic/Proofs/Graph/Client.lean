import Mosaic.Graph.Client
import Mosaic.Proofs.Graph.Collect
import Mosaic.Proofs.Maps
import Mosaic.Proofs.Store.Actions

/-!
# What holds of every client

`Client.Sound` is what each step of a client keeps: the tables and the pool hold the same, the handles that
are held are those that are counted, what is held is live, and every address was given out once and
for one kind of node. From it: in every state that a client can reach, a lookup at a kind finds a live node
of that kind, and the fault otherwise tells whether the node is gone.
-/

namespace Mosaic.Graph

open Std (LawfulEqCmp)

namespace Pool

variable {ν : Type} (p : Pool ν) (id i : NodeId)

theorem handleCount_acquire :
    (p.acquire id).handleCount i = p.handleCount i + if id = i then 1 else 0 := by
  simp only [acquire, handleCount, Std.ExtTreeMap.getD_insert, LawfulEqCmp.compare_eq_iff_eq]
  by_cases h : id = i <;> simp [h]

theorem handleCount_release :
    (p.release id).handleCount i = p.handleCount i - if id = i then 1 else 0 := by
  unfold release
  by_cases h : id = i
  · subst h
    split <;> simp_all [handleCount]
  · split <;> simp [handleCount, Std.ExtTreeMap.getD_insert, Std.ExtTreeMap.getD_erase, h]

theorem entries_release : (p.release id).entries = p.entries := by
  unfold release
  split <;> rfl

theorem next_release : (p.release id).next = p.next := by
  unfold release
  split <;> rfl

theorem foldl_release (ids : List NodeId) : (ids.foldl release p).entries = p.entries ∧
    (ids.foldl release p).next = p.next ∧
    ∀ i, (ids.foldl release p).handleCount i = p.handleCount i - ids.count i := by
  induction ids generalizing p with
  | nil => exact ⟨rfl, rfl, fun _ => rfl⟩
  | cons id ids ih =>
    obtain ⟨hentries, hnext, hcount⟩ := ih (p.release id)
    refine ⟨hentries.trans (p.entries_release id), hnext.trans (p.next_release id), fun i => ?_⟩
    refine (hcount i).trans ?_
    rw [handleCount_release, List.count_cons]
    by_cases hi : id = i
    · simp only [hi, if_true, beq_self_eq_true]
      omega
    · simp [hi]

variable {p} in
theorem link_eq_ok {p' : Pool ν} {owner target : NodeId} (h : p.link owner target = .ok p') :
    ∃ e, p.entries[owner]? = some e ∧
      p' = { p with entries := p.entries.insert owner { e with edges := e.edges.add target } } := by
  unfold link at h
  split at h
  · cases h
  · split at h
    · exact ⟨_, by assumption, (Except.ok.inj h).symm⟩
    · cases h

end Pool

namespace Client

variable {ν α : Type} [Node ν] {c c' : Client ν} {h : Hold} {id : NodeId}

/-- What every step keeps. -/
structure Sound (c : Client ν) : Prop where
  stores : c.tables.Stores c.pool
  count : ∀ id, c.pool.handleCount id = (c.holds.map Hold.id).count id
  /-- What is held is live, at the kind that the handle is good for. -/
  held : ∀ h ∈ c.holds, ∃ e, c.pool.entries[h.id]? = some e ∧
    ∀ kind, h.kind? = some kind → Node.kindName e.node = kind
  issued : ∀ (id : NodeId) e, c.pool.entries[id]? = some e → (id, Node.kindName e.node) ∈ c.issued
  lt_next : ∀ i ∈ c.issued, i.1 < c.pool.next
  once : (c.issued.map Prod.fst).Nodup

namespace Sound

theorem init : Sound ({} : Client ν) where
  stores := .empty
  count id := by simp [Pool.handleCount]
  held := by simp
  issued id e he := by simp at he
  lt_next := by simp
  once := .nil

theorem next_free (hc : c.Sound) : c.pool.entries[c.pool.next]? = none := by
  cases he : c.pool.entries[c.pool.next]? with
  | none => rfl
  | some e => exact absurd (hc.lt_next _ (hc.issued _ e he)) (Nat.lt_irrefl _)

theorem of_pool (hc : c.Sound) {t : Tables ν} {p : Pool ν} (hs : t.Stores p)
    (hcount : ∀ id, p.handleCount id = c.pool.handleCount id) (hnext : p.next = c.pool.next)
    (hsub : ∀ (id : NodeId) e, p.entries[id]? = some e →
      ∃ e₀, c.pool.entries[id]? = some e₀ ∧ Node.kindName e₀.node = Node.kindName e.node)
    (hheld : ∀ h ∈ c.holds, p.contains h.id = true) : Sound { c with tables := t, pool := p } where
  stores := hs
  count id := (hcount id).trans (hc.count id)
  held h hh := by
    obtain ⟨e, he⟩ := Pool.exists_of_contains (hheld h hh)
    obtain ⟨e₀, he₀, hk⟩ := hsub _ e he
    obtain ⟨e₁, he₁, hkind⟩ := hc.held h hh
    rw [he₀] at he₁
    cases he₁
    exact ⟨e, he, fun kind hkd => hk ▸ hkind kind hkd⟩
  issued id e he := by
    obtain ⟨e₀, he₀, hk⟩ := hsub id e he
    exact hk ▸ hc.issued id e₀ he₀
  lt_next i hi := hnext ▸ hc.lt_next i hi
  once := hc.once

theorem of_holds (hc : c.Sound) {t : Tables ν} {p : Pool ν} {holds : List Hold} (hs : t.Stores p)
    (hentries : p.entries = c.pool.entries) (hnext : p.next = c.pool.next)
    (hcount : ∀ id, p.handleCount id = (holds.map Hold.id).count id)
    (hheld : ∀ h ∈ holds, ∃ e, c.pool.entries[h.id]? = some e ∧
      ∀ kind, h.kind? = some kind → Node.kindName e.node = kind) :
    Sound { c with tables := t, pool := p, holds } where
  stores := hs
  count := hcount
  held h hh := hentries ▸ hheld h hh
  issued id e he := hc.issued id e (hentries ▸ he)
  lt_next i hi := hnext ▸ hc.lt_next i hi
  once := hc.once

theorem exchange (hc : c.Sound) {h h' : Hold} (hh : h ∈ c.holds) (hid : h'.id = h.id)
    (hkind : ∀ kind, h'.kind? = some kind → h.kind? = some kind) :
    Sound { c with holds := h' :: c.holds.erase h } := by
  refine hc.of_holds hc.stores rfl rfl (fun i => ?_) fun g hg => ?_
  · rw [hc.count, ((List.perm_cons_erase hh).map Hold.id).count_eq, List.map_cons, List.map_cons, hid]
  · rcases List.mem_cons.1 hg with rfl | hg
    · obtain ⟨e, he, hk⟩ := hc.held h hh
      exact ⟨e, hid ▸ he, fun kind hkd => hk kind (hkind kind hkd)⟩
    · exact hc.held g (List.mem_of_mem_erase hg)

theorem acquire (hc : c.Sound) {h : Hold} {e : Entry ν} (he : c.pool.entries[h.id]? = some e)
    (hk : ∀ kind, h.kind? = some kind → Node.kindName e.node = kind) :
    Sound { c with
      tables := c.tables.acquire h.id
      pool := c.pool.acquire h.id
      holds := h :: c.holds } := by
  refine hc.of_holds (hc.stores.acquire h.id) rfl rfl (fun i => ?_) fun g hg => ?_
  · rw [Pool.handleCount_acquire, hc.count, List.map_cons, List.count_cons]
    simp
  · rcases List.mem_cons.1 hg with rfl | hg
    · exact ⟨e, he, hk⟩
    · exact hc.held g hg

theorem foldl_release (hc : c.Sound) {gone left : List Hold} (hperm : c.holds.Perm (gone ++ left)) :
    Sound { c with
      tables := (gone.map Hold.id).foldl Tables.release c.tables
      pool := (gone.map Hold.id).foldl Pool.release c.pool
      holds := left } := by
  obtain ⟨hentries, hnext, hcount⟩ := c.pool.foldl_release (gone.map Hold.id)
  refine hc.of_holds (hc.stores.foldl_release _) hentries hnext (fun i => ?_) fun g hg =>
    hc.held g (hperm.symm.subset (List.mem_append_right _ hg))
  rw [hcount, hc.count, (hperm.map Hold.id).count_eq, List.map_append, List.count_append,
    Nat.add_sub_cancel_left]

theorem release (hc : c.Sound) {h : Hold} (hh : h ∈ c.holds) :
    Sound { c with
      tables := c.tables.release h.id
      pool := c.pool.release h.id
      holds := c.holds.erase h } := by
  have hperm : c.holds.Perm ([h] ++ c.holds.erase h) := List.perm_cons_erase hh
  exact hc.foldl_release hperm

/-- The new address is free, so the new node takes nothing from another. -/
theorem allocate (hc : c.Sound) (n : ν) :
    Sound
      { tables := (c.tables.allocate n).2
        pool := (c.pool.allocate n).2.acquire (c.pool.allocate n).1
        holds := .mutable (Node.kindName n) (c.tables.allocate n).1 :: c.holds
        issued := ((c.tables.allocate n).1, Node.kindName n) :: c.issued } := by
  have hfree := hc.next_free
  obtain ⟨hid, hs⟩ := hc.stores.allocate hfree n
  have hnext : (c.pool.allocate n).1 = c.pool.next := rfl
  rw [hid, hnext]
  refine ⟨hs, fun i => ?_, fun h hh => ?_, fun i e he => ?_, fun i hi => ?_, ?_⟩
  · refine (Pool.handleCount_acquire _ _ i).trans ?_
    rw [List.map_cons, List.count_cons, ← hc.count]
    simp [Pool.allocate, Pool.handleCount, Hold.id]
  · rcases List.mem_cons.1 hh with rfl | hh
    · exact ⟨_, Std.ExtTreeMap.getElem?_insert_self, fun kind hk => Option.some.inj hk⟩
    · obtain ⟨e, he, hk⟩ := hc.held h hh
      refine ⟨e, ?_, hk⟩
      have hne : c.pool.next ≠ h.id := by
        intro heq
        rw [← heq, hfree] at he
        cases he
      simp [Pool.acquire, Pool.allocate, Std.ExtTreeMap.getElem?_insert, hne, he]
  · rcases getElem?_insert_cases he with ⟨rfl, rfl⟩ | ⟨_, he⟩
    · exact List.mem_cons_self ..
    · exact List.mem_cons_of_mem _ (hc.issued i e he)
  · rcases List.mem_cons.1 hi with rfl | hi
    · exact Nat.lt_succ_self _
    · exact Nat.lt_succ_of_lt (hc.lt_next i hi)
  · refine List.nodup_cons.2 ⟨fun hmem => ?_, hc.once⟩
    obtain ⟨i, hi, heq⟩ := List.mem_map.1 hmem
    exact absurd (hc.lt_next i hi) (by simp [heq])

theorem update (hc : c.Sound) (k : Kind ν α) (id : NodeId) (f : α → α) :
    Sound { c with
      tables := (c.tables.update k id f).2
      pool := (c.pool.update k id f).toOption.getD c.pool } := by
  have hf := hc.stores.update k id f
  cases hp : c.pool.update k id f with
  | error fault =>
    rw [hp] at hf
    rw [show c.tables.update k id f = _ from hf]
    exact hc
  | ok p =>
    rw [hp] at hf
    obtain ⟨e, a, he, ha, rfl⟩ := Pool.update_eq_ok hp
    refine hc.of_pool hf.2 (fun _ => rfl) rfl (fun i e' he' => ?_) fun h hh => ?_
    · rcases getElem?_insert_cases he' with ⟨rfl, rfl⟩ | ⟨_, he'⟩
      · exact ⟨e, he, by rw [ha, Entry.node_renew, k.kindName_wrap, k.kindName_wrap]⟩
      · exact ⟨e', he', rfl⟩
    · obtain ⟨e', he', _⟩ := hc.held h hh
      exact Std.ExtTreeMap.contains_insert.trans (by simp [Pool.contains_of_getElem? he'])

theorem link (hc : c.Sound) (owner target : NodeId) :
    Sound { c with
      tables := (c.tables.link owner target).2
      pool := (c.pool.link owner target).toOption.getD c.pool } := by
  have hf := hc.stores.link owner target
  cases hp : c.pool.link owner target with
  | error fault =>
    rw [hp] at hf
    rw [show c.tables.link owner target = _ from hf]
    exact hc
  | ok p =>
    rw [hp] at hf
    obtain ⟨e, he, rfl⟩ := Pool.link_eq_ok hp
    refine hc.of_pool hf.2 (fun _ => rfl) rfl (fun i e' he' => ?_) fun h hh => ?_
    · rcases getElem?_insert_cases he' with ⟨rfl, rfl⟩ | ⟨_, he'⟩
      · exact ⟨e, he, rfl⟩
      · exact ⟨e', he', rfl⟩
    · obtain ⟨e', he', _⟩ := hc.held h hh
      exact Std.ExtTreeMap.contains_insert.trans (by simp [Pool.contains_of_getElem? he'])

theorem root (hc : c.Sound) (k : Kind ν α) (id : NodeId) :
    Sound { c with
      tables := (c.tables.hold k id).2
      pool := (c.pool.hold k id).toOption.getD c.pool
      holds := match (c.tables.hold k id).1 with
        | .ok () => .published k.name id :: c.holds
        | .error _ => c.holds } := by
  have hf := hc.stores.hold k id
  unfold Pool.hold at hf ⊢
  cases hg : c.pool.get k id with
  | error fault =>
    rw [hg] at hf
    rw [show c.tables.hold k id = _ from hf]
    exact hc
  | ok a =>
    obtain ⟨e, he, ha⟩ := Pool.get_eq_ok_iff.1 hg
    have ht : c.tables.hold k id = (.ok (), c.tables.acquire id) := by
      rw [Tables.hold, hc.stores.find?, he]
      simp [ha, k.unwrap_wrap]
    rw [ht]
    refine hc.acquire (h := .published k.name id) he fun kind hk => ?_
    rw [ha, k.kindName_wrap]
    exact Option.some.inj hk

/-- What is held is counted, so it can be reached and is kept. -/
theorem prune (hc : c.Sound) {r : NodeSet} {p : Pool ν} {s : Collection}
    (hm : c.tables.adjacency.mark {} c.tables.rooted = .ok r) (hp : c.pool.collect {} = .ok (s, p))
    (hs : (c.tables.prune r).Stores p) : Sound { c with tables := c.tables.prune r, pool := p } := by
  obtain ⟨hnext, hhandles⟩ : p.next = c.pool.next ∧ p.handles = c.pool.handles := by
    obtain ⟨_, _, _, rfl⟩ := Pool.collect_eq_ok hp
    exact ⟨rfl, rfl⟩
  refine hc.of_pool (p := p) hs (fun i => by simp only [Pool.handleCount, hhandles]) hnext
    (fun i e he => ⟨e, Pool.collect_sub hp he, rfl⟩) fun h hh => ?_
  have hcount : 0 < c.tables.handleCount h.id := by
    rw [hc.stores.handleCount, hc.count]
    exact List.count_pos_iff.2 (List.mem_map_of_mem hh)
  have hkept := (Tables.mem_mark hm h.id).2 (.start hcount)
  rw [← hs.contains, Tables.contains_prune, Tables.contains_of_mem_mark hm hkept,
    Std.ExtTreeSet.contains_iff_mem.2 hkept]
  rfl

/-- What is held stays, and the handles of what goes go with it. -/
theorem collect (hc : c.Sound) {outside : List Tether} {gone left : List Hold}
    (hperm : c.holds.Perm (gone ++ left)) (hgone : gone.map Hold.id = c.tables.lost outside) :
    Sound { c with
      tables := (c.tables.collect outside).2
      pool := (c.tables.lost outside).foldl Pool.release
        (((c.pool.collect {}).toOption.map Prod.snd).getD c.pool)
      holds := left } := by
  have hf := hc.stores.collect_mark
  rw [← hgone]
  cases hp : c.pool.collect {} with
  | error fault =>
    rw [hp] at hf
    have hm : c.tables.adjacency.mark {} c.tables.rooted = .error fault := hf
    obtain rfl : gone = [] := by simpa [Tables.lost, hm] using hgone
    rw [Tables.collect, hm]
    exact hc.foldl_release hperm
  | ok q =>
    rw [hp] at hf
    obtain ⟨r, hm, hs, -⟩ := hf
    have hletGo : c.tables.letGo r outside = gone.map Hold.id := by rw [hgone, Tables.lost, hm]
    rw [Tables.collect, hm]
    dsimp only [Tables.keep]
    rw [hletGo]
    exact (hc.prune hm hp hs).foldl_release hperm

theorem step (hc : c.Sound) (hs : Step c c') : c'.Sound := by
  cases hs with
  | allocate n => exact hc.allocate n
  | update k id f _ => exact hc.update k id f
  | link owner target => exact hc.link owner target
  | root k id => exact hc.root k id
  | read => exact hc
  | freeze kind id hh => exact hc.exchange hh rfl fun _ hk => hk
  | guard h hh => exact hc.exchange hh rfl fun _ hk => nomatch hk
  | copy h hh _ =>
    obtain ⟨e, he, hk⟩ := hc.held h hh
    exact hc.acquire he hk
  | drop h hh => exact hc.release hh
  | collect outside hperm hgone => exact hc.collect hperm hgone

theorem steps (hc : c.Sound) (hs : Relation.ReflTransGen Step c c') : c'.Sound := by
  induction hs with
  | refl => exact hc
  | tail _ hs ih => exact ih.step hs

end Sound

/-! ## What later states have of earlier ones -/

theorem Step.issued (hs : Step c c') : c.issued <:+ c'.issued := by
  cases hs with
  | allocate n => exact List.suffix_cons ..
  | _ => exact List.suffix_rfl

theorem issued_of_steps (hs : Relation.ReflTransGen Step c c') : c.issued <:+ c'.issued := by
  induction hs with
  | refl => exact List.suffix_rfl
  | tail _ hs ih => exact ih.trans hs.issued

omit [Node ν] in
theorem contains_of_getD {p : Pool ν} {r : Except Fault (Pool ν)}
    (hr : ∀ q, r = .ok q → q.contains id = true → p.contains id = true)
    (hid : (r.toOption.getD p).contains id = true) : p.contains id = true := by
  cases r with
  | error fault => exact hid
  | ok q => exact hr q rfl hid

omit [Node ν] in
theorem contains_of_insert {p : Pool ν} {i : NodeId} {e e' : Entry ν} (he : p.entries[i]? = some e)
    (hid : (p.entries.insert i e').contains id = true) : p.contains id = true := by
  rw [Std.ExtTreeMap.contains_insert, Bool.or_eq_true, beq_iff_eq,
    LawfulEqCmp.compare_eq_iff_eq] at hid
  rcases hid with rfl | hid
  · exact Pool.contains_of_getElem? he
  · exact hid

theorem Step.live (hs : Step c c') (hid : c'.pool.contains id = true) :
    c.pool.contains id = true ∨ id = c.pool.next := by
  cases hs with
  | allocate n =>
    rw [Pool.contains, Pool.acquire, Pool.allocate, Std.ExtTreeMap.contains_insert, Bool.or_eq_true,
      beq_iff_eq, LawfulEqCmp.compare_eq_iff_eq] at hid
    exact hid.symm.imp_right Eq.symm
  | update k i f _ =>
    refine .inl (contains_of_getD (fun p hp hid => ?_) hid)
    obtain ⟨e, a, he, -, rfl⟩ := Pool.update_eq_ok hp
    exact contains_of_insert he hid
  | link owner target =>
    refine .inl (contains_of_getD (fun p hp hid => ?_) hid)
    obtain ⟨e, he, rfl⟩ := Pool.link_eq_ok hp
    exact contains_of_insert he hid
  | root k i =>
    refine .inl (contains_of_getD (fun p hp hid => ?_) hid)
    unfold Pool.hold at hp
    cases hg : c.pool.get k i with
    | error fault => simp [hg, Except.map] at hp
    | ok a =>
      simp only [hg, Except.map, Except.ok.injEq] at hp
      subst hp
      exact hid
  | read => exact .inl hid
  | freeze kind i _ => exact .inl hid
  | guard h _ => exact .inl hid
  | copy h _ _ => exact .inl hid
  | drop h _ =>
    rw [Pool.contains, Pool.entries_release] at hid
    exact .inl hid
  | collect outside _ _ =>
    refine .inl ?_
    rw [Pool.contains, (Pool.foldl_release _ _).1] at hid
    cases hp : c.pool.collect {} with
    | error fault =>
      rw [hp] at hid
      exact hid
    | ok r =>
      rw [hp] at hid
      obtain ⟨e, he⟩ := Pool.exists_of_contains hid
      exact Pool.contains_of_getElem? (Pool.collect_sub hp he)

/-! ## What a client can rely on -/

end Client

namespace Tables

variable {ν α β : Type} [Node ν]

/-- There is a node of the kind at the address. -/
def LiveAt (t : Tables ν) (k : Kind ν α) (id : NodeId) : Prop :=
  ∃ a, (t.nodesOf k.name)[id]? = some (k.wrap a)

/-- The answer to a lookup at a kind tells whether there is a node of the kind, one of another kind, or
none. -/
structure Tells (t : Tables ν) (k : Kind ν α) (id : NodeId) (r : Except Fault β) : Prop where
  ok_iff : (∃ b, r = .ok b) ↔ t.LiveAt k id
  wrongKind_iff : r = .error (.wrongKind id k.name) ↔ t.contains id = true ∧ ¬ t.LiveAt k id
  dangling_iff : r = .error (.dangling id) ↔ t.contains id = false

theorem find?_isSome (t : Tables ν) (k : Kind ν α) (id : NodeId) : (t.find? k id).isSome = true ↔ t.LiveAt k id := by
  rw [Tables.find?, LiveAt]
  cases hn : (t.nodesOf k.name)[id]? with
  | none => simp
  | some n =>
    rw [Option.bind_some, Option.isSome_iff_exists]
    refine exists_congr fun a => ⟨fun ha => by rw [k.wrap_unwrap n a ha], fun ha => ?_⟩
    rw [Option.some.inj ha, k.unwrap_wrap]

/-- An answer that is read off the node of the kind, or else off the edges. -/
theorem Stores.tells {t : Tables ν} {p : Pool ν} (h : t.Stores p) {k : Kind ν α} {id : NodeId}
    {r : Except Fault β} (hok : (t.find? k id).isSome = true → ∃ b, r = .ok b)
    (herr : (t.find? k id).isSome = false → r = .error (t.missing k id)) : t.Tells k id r := by
  have hlive : t.LiveAt k id → t.contains id = true := by
    rintro ⟨a, ha⟩
    refine (h.agree.contains_iff id).2 ⟨k.name, ?_⟩
    rw [Std.ExtTreeMap.contains_eq_isSome_getElem?, ha]
    rfl
  cases hf : (t.find? k id).isSome with
  | true =>
    obtain ⟨b, rfl⟩ := hok hf
    have hl := (t.find?_isSome k id).1 hf
    exact ⟨⟨fun _ => hl, fun _ => ⟨b, rfl⟩⟩, ⟨nofun, fun hn => absurd hl hn.2⟩,
      ⟨nofun, fun hn => by rw [hlive hl] at hn; cases hn⟩⟩
  | false =>
    obtain rfl := herr hf
    have hl : ¬ t.LiveAt k id := fun hl => by
      rw [(t.find?_isSome k id).2 hl] at hf
      cases hf
    unfold Tables.missing
    cases hc : t.contains id <;> exact ⟨by simp [hl], by simp [hl, hc], by simp [hc]⟩

end Tables

namespace Client

variable {ν : Type} [Node ν] {c c' : Client ν} {id : NodeId}

/-- What a client can rely on in a state. -/
structure Reliable (c : Client ν) : Prop where
  /-- The edges and the typed tables speak of the same addresses, each in one table. -/
  agree : c.tables.Agree
  /-- The pool holds the same. -/
  stores : c.tables.Stores c.pool
  issued_lt : ∀ i ∈ c.issued, i.1 < c.tables.next
  issued_once : (c.issued.map Prod.fst).Nodup
  live_issued : ∀ (id : NodeId) kind, (c.tables.nodesOf kind).contains id = true → (id, kind) ∈ c.issued
  handleCount : ∀ id, c.tables.handleCount id = (c.holds.map Hold.id).count id
  held_live : ∀ id, 0 < c.tables.handleCount id → c.tables.contains id = true
  get : ∀ {α : Type} (k : Kind ν α) id,
    c.tables.Tells k id (c.tables.get k id) ∧ c.pool.get k id = c.tables.get k id
  hold : ∀ {α : Type} (k : Kind ν α) id,
    c.tables.Tells k id (c.tables.hold k id).1 ∧ c.tables.Follows (c.tables.hold k id) (c.pool.hold k id)
  address : ∀ {α : Type} (k : Kind ν α) id,
    c.tables.Tells k id (c.tables.address k id) ∧
      c.tables.address k id = (c.pool.get k id).map fun _ => id

theorem Sound.reliable (hc : c.Sound) : c.Reliable where
  agree := hc.stores.agree
  stores := hc.stores
  issued_lt i hi := hc.stores.next ▸ hc.lt_next i hi
  issued_once := hc.once
  live_issued id kind hk := by
    rw [Std.ExtTreeMap.contains_eq_isSome_getElem?, Option.isSome_iff_exists] at hk
    obtain ⟨n, hn⟩ := hk
    have hname := hc.stores.agree.kindName id kind n hn
    rw [hc.stores.nodesOf, Option.filter_eq_some_iff, Option.map_eq_some_iff] at hn
    obtain ⟨⟨e, he, rfl⟩, -⟩ := hn
    exact hname ▸ hc.issued id e he
  handleCount id := (hc.stores.handleCount id).trans (hc.count id)
  held_live id hid := by
    rw [hc.stores.handleCount, hc.count, List.count_pos_iff, List.mem_map] at hid
    obtain ⟨h, hh, rfl⟩ := hid
    obtain ⟨e, he, _⟩ := hc.held h hh
    rw [hc.stores.contains]
    exact Pool.contains_of_getElem? he
  get k id := by
    refine ⟨hc.stores.tells (fun hf => ?_) fun hf => ?_, (hc.stores.get k id).symm⟩ <;>
      unfold Tables.get
    · obtain ⟨a, ha⟩ := Option.isSome_iff_exists.1 hf
      exact ⟨a, by rw [ha]⟩
    · rw [Option.isSome_eq_false_iff, Option.isNone_iff_eq_none] at hf
      rw [hf]
  hold k id := by
    refine ⟨hc.stores.tells (fun hf => ?_) fun hf => ?_, hc.stores.hold k id⟩ <;>
      simp only [Tables.hold, hf]
    · exact ⟨(), rfl⟩
    · rfl
  address k id := by
    refine ⟨hc.stores.tells (fun hf => ?_) fun hf => ?_, hc.stores.address k id⟩ <;>
      simp only [Tables.address, hf]
    · exact ⟨id, rfl⟩
    · rfl

/-- Whatever a client does, its handles are counted and its lookups tell what is live; later, a node is of
the kind it was of, and an address that is dead stays dead. -/
theorem reliable_of_steps (h : Relation.ReflTransGen Step ({} : Client ν) c) :
    c.Reliable ∧ ∀ c', Relation.ReflTransGen Step c c' →
      (∀ (id : NodeId) kind kind', (c.tables.nodesOf kind).contains id = true →
        (c'.tables.nodesOf kind').contains id = true → kind = kind') ∧
      ∀ i ∈ c.issued, c.tables.contains i.1 = false → c'.tables.contains i.1 = false := by
  have hc : c.Sound := Sound.init.steps h
  refine ⟨hc.reliable, fun c' hs => ⟨fun id kind kind' hk hk' => ?_, fun i hi hdead => ?_⟩⟩
  · have hi := (issued_of_steps hs).subset (hc.reliable.live_issued id kind hk)
    have hi' := (hc.steps hs).reliable.live_issued id kind' hk'
    exact congrArg Prod.snd (List.inj_on_of_nodup_map (hc.steps hs).once hi hi' rfl)
  · induction hs with
    | refl => exact hdead
    | tail hs hstep ih =>
      have hb := hc.steps hs
      rw [hb.stores.contains] at ih
      rw [(hb.step hstep).stores.contains, Bool.eq_false_iff]
      intro hlive
      rcases hstep.live hlive with hlive | hnew
      · rw [ih] at hlive
        cases hlive
      · exact absurd (hb.lt_next i ((issued_of_steps hs).subset hi)) (by simp [hnew])

/-- A cell that points at itself, published and guarded twice. -/
theorem reliable_of_steps_guarded : ∃ c : Client Cell, Relation.ReflTransGen Step {} c ∧
    c.issued = [(1, "Alpha")] ∧ c.tables.handleCount 1 = 2 ∧ c.tables.contains 1 = true := by
  have h : Relation.ReflTransGen Step ({} : Client Cell) _ :=
    .tail (.tail (.tail (.tail .refl (.allocate _ (.alpha [1]))) (.freeze _ "Alpha" 1 (by decide)))
      (.guard _ (.published "Alpha" 1) (by decide))) (.copy _ (.guard 1) (by decide) rfl)
  have hr := (reliable_of_steps h).1
  exact ⟨_, h, rfl, hr.handleCount 1, hr.held_live 1 (by rw [hr.handleCount]; decide)⟩

end Client

end Mosaic.Graph
