import Mosaic.Proofs.Outcome
import Mosaic.Store.Tiling

/-!
# Store actions as functions

What the basic actions return, as equations between results. Everything else about actions is
derived from these.
-/

namespace Mosaic

section

variable {α β ε : Type} {f : α → Except ε β} {l : List α}

theorem exists_of_mapM_error {e : ε} (h : l.mapM f = .error e) : ∃ a ∈ l, f a = .error e := by
  induction l with
  | nil => cases h
  | cons a l ih =>
    rw [List.mapM_cons] at h
    cases ha : f a with
    | error e' =>
      rw [ha] at h
      cases h
      exact ⟨a, by simp, ha⟩
    | ok b =>
      rw [ha] at h
      cases hl : l.mapM f with
      | error e' =>
        rw [hl] at h
        cases h
        obtain ⟨a', ha', h'⟩ := ih hl
        exact ⟨a', List.mem_cons_of_mem _ ha', h'⟩
      | ok bs => rw [hl] at h; cases h

theorem eq_map_of_mapM_ok {g : β → α} (hg : ∀ a b, f a = .ok b → a = g b) {bs : List β}
    (h : l.mapM f = .ok bs) : l = bs.map g := by
  induction l generalizing bs with
  | nil => cases h; rfl
  | cons a l ih =>
    rw [List.mapM_cons] at h
    cases ha : f a with
    | error e' => rw [ha] at h; cases h
    | ok b =>
      rw [ha] at h
      cases hl : l.mapM f with
      | error e' => rw [hl] at h; cases h
      | ok bs' => rw [hl] at h; cases h; rw [ih hl, hg a b ha, List.map_cons]

end

/-- Whether a handle or an address has failed. -/
def Cause.isGraph : Cause → Bool
  | graph _ => true
  | _ => false

theorem Value.toNumber_cases (v : Value) :
    (∃ n, v.toNumber = .ok n) ∨ ∃ got, v.toNumber = .error (Cause.typeMismatch "number" got) := by
  unfold toNumber
  split
  · exact .inl ⟨_, rfl⟩
  · exact .inr ⟨_, rfl⟩

theorem Value.toBool_cases (v : Value) :
    (∃ b, v.toBool = .ok b) ∨ ∃ got, v.toBool = .error (Cause.typeMismatch "bool" got) := by
  unfold toBool
  split
  · exact .inl ⟨_, rfl⟩
  · exact .inr ⟨_, rfl⟩

theorem Value.eq_of_toDatum {v : Value} {d : Datum} (h : v.toDatum = .ok d) : v = .datum d := by
  cases v <;> cases h; rfl

theorem Value.toDatum_error {v : Value} {failure : Failure} (h : v.toDatum = .error failure) :
    failure.cause = .cannotCopyFieldRef := by
  cases v <;> cases h; rfl

theorem Value.eq_of_toObject {v : Value} {t : ObjectType} {id : Graph.NodeId}
    (h : v.toObject t = .ok id) : v = .object t id := by
  unfold toObject at h
  split at h
  · split at h
    · rename_i ht; cases h; rw [ht]
    · cases h
  · cases h

theorem Value.toObject_error {v : Value} {t : ObjectType} {failure : Failure}
    (h : v.toObject t = .error failure) : ∃ got, failure.cause = .typeMismatch t.name got := by
  unfold toObject at h
  split at h
  · split at h <;> cases h
    exact ⟨_, rfl⟩
  · cases h
    exact ⟨_, rfl⟩

end Mosaic

namespace Mosaic.Pins

open Mosaic.Graph (NodeId)

variable {pins pins' : Pins} {ids : Unit → List NodeId} {id : NodeId}

@[simp] theorem mem_of : id ∈ (Pins.of ids).get ↔ id ∈ ids () := by
  show id ∈ Std.ExtTreeSet.ofList (ids ()) compare ↔ _
  rw [Std.ExtTreeSet.mem_ofList]
  simp

@[simp] theorem mem_also : id ∈ (pins.also ids).get ↔ id ∈ pins.get ∨ id ∈ ids () := by
  show id ∈ pins.get.insertMany (ids ()) ↔ _
  rw [Std.ExtTreeSet.mem_insertMany_list]
  simp

theorem ext_mem (h : ∀ id, id ∈ pins.get ↔ id ∈ pins'.get) : pins = pins' :=
  Thunk.ext (Std.ExtTreeSet.ext_mem h)

end Mosaic.Pins

namespace Mosaic.StoreM

open Mosaic.Graph (NodeId Kind)

variable {α β : Type} {pins : Pins} {s : Store}

theorem pure_apply (a : α) : (pure a : StoreM α) pins s = .ok a s := rfl

theorem bind_apply (x : StoreM α) (f : α → StoreM β) :
    (x >>= f) pins s =
      match x pins s with
      | .ok a s' => f a pins s'
      | .error failure s' => .error failure s' := by
  rw [Action.bind_apply]
  cases x pins s <;> rfl

theorem get_apply : (get : StoreM Store) pins s = .ok s s := rfl

theorem fail_apply (cause : Cause) : (fail cause : StoreM α) pins s = .error { cause } s := rfl

theorem keeping_apply (ids : List NodeId) (x : StoreM α) :
    keeping ids x pins s = x (pins.also fun _ => ids) s := rfl

theorem ofExcept_apply (x : Except Failure α) :
    ofExcept x pins s =
      match x with
      | .ok a => .ok a s
      | .error failure => .error failure s := by
  cases x <;> rfl

theorem fetch_apply (k : Kind Object α) (id : NodeId) :
    fetch k id pins s =
      match s.pool.get k id with
      | .ok a => .ok a s
      | .error fault => .error { cause := .graph fault } s := by
  show ofFault (s.pool.get k id) pins s = _
  cases s.pool.get k id <;> rfl

theorem get_of_fetch_ok {k : Kind Object α} {id : NodeId} {a : α} {s' : Store}
    (h : fetch k id pins s = .ok a s') : s.pool.get k id = .ok a ∧ s' = s := by
  rw [fetch_apply] at h
  cases hg : s.pool.get k id with
  | ok b => rw [hg] at h; cases h; exact ⟨rfl, rfl⟩
  | error fault => rw [hg] at h; cases h

theorem allocate_apply (o : Object) :
    allocate o pins s =
      match s.allocate (pinsFor o s pins) o with
      | .ok (id, s') => .ok id s'
      | .error fault => .error { cause := .graph fault } s := by
  show (ofFault (s.allocate (pinsFor o s pins) o) >>= _) pins s = _
  rcases s.allocate (pinsFor o s pins) o with _ | ⟨id, s'⟩ <;> rfl

theorem update_apply (k : Kind Object α) (id : NodeId) (f : α → α) :
    update k id f pins s =
      match s.pool.update k id f with
      | .ok pool => .ok () { s with pool }
      | .error fault => .error { cause := .graph fault } s := by
  show (ofFault (s.pool.update k id f) >>= _) pins s = _
  cases s.pool.update k id f <;> rfl

theorem fetchObject_apply (t : ObjectType) (id : NodeId) :
    fetchObject t id pins s =
      match s.pool.get (Object.ofType t) id with
      | .ok o => .ok o.val s
      | .error fault => .error { cause := .graph fault } s := by
  show (fetch (Object.ofType t) id >>= fun o => pure o.val) pins s = _
  rw [bind_apply, fetch_apply]
  cases s.pool.get (Object.ofType t) id <;> rfl

theorem load_eq_ok {d : Datum} {v : Value} {s' : Store} (h : load d pins s = .ok v s') :
    v = .datum d ∧ s' = s := by
  cases d with
  | object t id =>
    have hload : load (.object t id) = (do
      let _ ← fetchObject t id
      return .object t id) := rfl
    rw [hload, bind_apply, fetchObject_apply] at h
    cases hg : s.pool.get (Object.ofType t) id with
    | error fault => rw [hg] at h; cases h
    | ok o => rw [hg] at h; cases h; exact ⟨rfl, rfl⟩
  | _ => cases h; exact ⟨rfl, rfl⟩

end Mosaic.StoreM

namespace Mosaic.CopyM

open Mosaic.Graph (NodeId)

variable {depth : Nat} {t : ObjectType} {id copy : NodeId} {cs : Copies}

theorem copyNode_run_of_some (h : cs[id]? = some copy) :
    (copyNode (depth + 1) t id).run cs = (do
      let _ ← StoreM.fetchObject t copy
      return (copy, cs)) := by
  simp [copyNode, h]

/-- A copy of what a node points at, in an object like that of the node. -/
def copyParts (depth : Nat) (t : ObjectType) (id : NodeId) (cs : Copies) : StoreM (Object × Copies) := do
  let source ← StoreM.fetchObject t id
  (source.renameNodes (copyNode depth)).run cs

/-- The object takes the place of the blank one. -/
def fill {t : ObjectType} (o : Object) (blank : { o : Object // o.type = t }) :
    { o : Object // o.type = t } :=
  if h : o.type = t then ⟨o, h⟩ else blank

theorem copyNode_run_of_none (h : cs[id]? = none) :
    (copyNode (depth + 1) t id).run cs = (do
      let copy ← StoreM.keeping cs.values (StoreM.allocate (.blank t))
      let (renamed, cs') ← copyParts depth t id (cs.insert id copy)
      StoreM.update (Object.ofType t) copy (fill renamed)
      return (copy, cs')) := by
  simp [copyNode, copyParts, allocate, h]
  rfl

theorem copyObject_run :
    (copyObject t id).run cs = (do
      let s ← (get : StoreM Store)
      (copyNode (s.pool.size + 1) t id).run cs) := by
  rw [copyObject, StateT.run_bind]
  simp only [liftM, monadLift, MonadLift.monadLift, StateT.run_lift, bind_assoc, pure_bind]

theorem copyValue_run :
    (copyValue (.object t id)).run cs = (do
      let (copy, cs') ← (copyObject t id).run cs
      let v ← StoreM.load (.object t copy)
      return (v, cs')) := by
  rw [copyValue, StateT.run_bind]
  rfl

end Mosaic.CopyM

namespace Mosaic.StoreM

open Mosaic.Graph (NodeId)

variable {pins : Pins} {s : Store} {t : ObjectType} {id : NodeId}

theorem copyObject_apply :
    copyObject t id pins s = (do
      let r ← (CopyM.copyNode (s.pool.size + 1) t id).run {}
      return r.1 : StoreM NodeId) pins s := rfl

theorem copy_object : copy (.object t id) = (do load (.object t (← copyObject t id))) := by
  simp [copy, copyObject, CopyM.copyValue, StateT.run'_eq]

end Mosaic.StoreM

namespace Mosaic.Graph

variable {ν α : Type} [Node ν]

/-- The entry after its node was replaced. -/
def Entry.renew (e : Entry ν) (node : ν) : Entry ν where
  node
  edges :=
    if Node.pointers e.node = Node.pointers node then e.edges
    else (e.edges.removeAll (Node.pointers e.node)).addAll (Node.pointers node)

@[simp] theorem Entry.node_renew (e : Entry ν) (node : ν) : (e.renew node).node = node := rfl

namespace Pool

theorem get_eq_ok_iff {k : Kind ν α} {p : Pool ν} {id : NodeId} {a : α} :
    p.get k id = .ok a ↔ ∃ e, p.entries[id]? = some e ∧ e.node = k.wrap a := by
  unfold get
  cases h : p.entries[id]? with
  | none => simp
  | some e =>
    cases hu : k.unwrap? e.node with
    | none =>
      simp only [Option.bind_some, hu, reduceCtorEq, Option.some.injEq, false_iff]
      rintro ⟨_, rfl, he⟩
      rw [he, k.unwrap_wrap] at hu
      cases hu
    | some b =>
      simp only [Option.bind_some, hu, Except.ok.injEq, Option.some.injEq]
      constructor
      · rintro rfl
        exact ⟨e, rfl, (k.wrap_unwrap _ _ hu).symm⟩
      · rintro ⟨_, rfl, he⟩
        rw [he, k.unwrap_wrap] at hu
        exact (Option.some.inj hu).symm

theorem update_of_entry {k : Kind ν α} {p : Pool ν} {id : NodeId} {f : α → α} {e : Entry ν} {a : α}
    (he : p.entries[id]? = some e) (ha : e.node = k.wrap a) :
    p.update k id f =
      .ok { p with entries := p.entries.insert id (e.renew (k.wrap (f a))) } := by
  have hu : k.unwrap? e.node = some a := by rw [ha, k.unwrap_wrap]
  simp only [update, he, hu, Entry.renew]

/-- What an update does: the node is there, and of the kind. -/
theorem update_eq_ok {k : Kind ν α} {p p' : Pool ν} {id : NodeId} {f : α → α}
    (h : p.update k id f = .ok p') :
    ∃ e a, p.entries[id]? = some e ∧ e.node = k.wrap a ∧
      p' = { p with entries := p.entries.insert id (e.renew (k.wrap (f a))) } := by
  cases he : p.entries[id]? with
  | none => simp [update, he] at h
  | some e =>
    cases hu : k.unwrap? e.node with
    | none => simp [update, he, hu] at h
    | some a =>
      have ha : e.node = k.wrap a := (k.wrap_unwrap _ _ hu).symm
      rw [update_of_entry he ha] at h
      exact ⟨e, a, rfl, ha, (Except.ok.inj h).symm⟩

end Pool

namespace Heap

/-- What an allocation does: at most a collection, and then a new node at the next address. -/
theorem allocate_eq_ok {h h' : Heap ν} {pins : Thunk NodeSet} {node : ν} {id : NodeId}
    (ha : h.allocate pins node = .ok (id, h')) :
    ∃ g, h.collectIfDue pins = .ok g ∧ id = g.pool.next ∧
      h' = { g with
        pool := (g.pool.allocate node).2
        sinceCollect := g.sinceCollect + 1
        totals := { g.totals with allocations := g.totals.allocations + 1 } } := by
  unfold allocate at ha
  cases hc : h.collectIfDue pins with
  | error fault => simp [hc, Except.map] at ha
  | ok g =>
    simp only [hc, Except.map, Except.ok.injEq, Prod.mk.injEq] at ha
    exact ⟨g, rfl, ha.1.symm, ha.2.symm⟩

end Heap

end Mosaic.Graph
