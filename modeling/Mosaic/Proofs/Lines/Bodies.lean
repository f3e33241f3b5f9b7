import Mosaic.Proofs.Lines.Answerable
import Mosaic.Proofs.Machine.Logic

/-!
# Bodies that stand in lines

A lambda is made from code that stands in a line, and later it changes only its closure and its fields, so the
bodies of all stored lambdas stand in lines, except that a copy is blank until it is filled (`Store.Lined`). A
copy is filled with an object that was fetched from the store, so it gets a body from there
(`StoreM.KeepsLines.copyNode`). No operation changes this (`MachineM.lined_perform`).
-/

namespace Mosaic

open Mosaic.Graph (NodeId Kind)

/-- If the object is a lambda, it is blank or its body stands in a line. -/
def Object.Lined : Object → Prop
  | lambda l => l.body = [] ∨ Mosaic.Lined l.body
  | _ => True

theorem Object.lined_blank (t : ObjectType) : (Object.blank t).Lined := by
  cases t <;> first | trivial | exact .inl rfl

theorem Object.Lined.withFields {o : Object} (h : o.Lined) (fields : Fields) : (o.withFields fields).Lined := by
  cases o <;> exact h

/-- The bodies of the stored lambdas stand in lines, unless they are blank. -/
def Store.Lined (s : Store) : Prop := ∀ (id : NodeId) e, s.pool.entries[id]? = some e → e.node.Lined

namespace Store.Lined

variable {s s' : Store} {pins : Pins} {o : Object} {id : NodeId} {α : Type} {k : Kind Object α} {a : α}

theorem get (h : s.Lined) (ha : s.pool.get k id = .ok a) : (k.wrap a).Lined := by
  obtain ⟨e, he, hnode⟩ := Graph.Pool.get_eq_ok_iff.1 ha
  exact hnode ▸ h id e he

theorem allocate (h : s.Lined) (ho : o.Lined) (ha : s.allocate pins o = .ok (id, s')) : s'.Lined := by
  obtain ⟨g, hc, rfl, rfl⟩ := Graph.Heap.allocate_eq_ok ha
  obtain ⟨-, -, -, hsub⟩ := Graph.Heap.collectIfDue_sub hc
  intro i e he
  rcases getElem?_insert_cases he with ⟨-, rfl⟩ | ⟨-, he⟩
  · exact ho
  · exact h i e (hsub i e he)

theorem update (h : s.Lined) {f : α → α} {pool : Graph.Pool Object} (hf : ∀ a, (k.wrap a).Lined → (k.wrap (f a)).Lined)
    (hu : s.pool.update k id f = .ok pool) : Store.Lined { s with pool } := by
  obtain ⟨e₀, a, he₀, hnode, rfl⟩ := Graph.Pool.update_eq_ok hu
  intro i e he
  rcases getElem?_insert_cases he with ⟨-, rfl⟩ | ⟨-, he⟩
  · exact hf a (hnode ▸ h id e₀ he₀)
  · exact h i e he

end Store.Lined

/-! ## Actions on the store -/

/-- If the action succeeds, bodies still stand in lines, and its result is as `Q` says. -/
abbrev StoreM.KeepsLines {α : Type} (x : StoreM α) (Q : α → Prop) : Prop :=
  Action.Ensures Store.Lined (fun _ _ => True) x Q

namespace StoreM

namespace KeepsLines

export Action.Ensures (bind)

variable {α : Type} {x : StoreM α} {Q : α → Prop} {id : NodeId} {k : Kind Object α}

theorem fetch : KeepsLines (StoreM.fetch k id) fun a => (k.wrap a).Lined :=
  Action.Ensures.fetch (fun _ _ hs ha => hs.get ha) fun _ _ _ => trivial

theorem allocate {o : Object} (ho : o.Lined) : KeepsLines (StoreM.allocate o) fun _ => True :=
  Action.Ensures.allocate (fun _ _ _ _ hs ha => hs.allocate ho ha) fun _ _ _ => trivial

theorem update {g : α → α} (hg : ∀ a, (k.wrap a).Lined → (k.wrap (g a)).Lined) :
    KeepsLines (StoreM.update k id g) fun _ => True :=
  Action.Ensures.update (fun _ _ hs hu => hs.update hg hu) fun _ _ _ => trivial

/-- What only looks at the store, and all that is composed of what keeps bodies in lines. -/
def rules : StoreM.Rules := .ensuring Store.Lined (fun _ _ => True) fun _ _ _ _ => trivial

theorem giving (hx : rules.Holds x) (hq : Gives x Q) : KeepsLines x Q :=
  fun s hs => ((hx s hs).and (hq s trivial)).imp (fun _ _ _ => trivial) fun _ _ h => ⟨h.1.1, h.2.2⟩

/-! ## Copies -/

/-- A copy has the body of the original. -/
theorem renameNodes {f : ObjectType → NodeId → CopyM NodeId} (hf : ∀ t id, rules.Copies (f t id)) {o : Object}
    (ho : o.Lined) (cs : Copies) : KeepsLines ((o.renameNodes f).run cs) fun r => r.1.Lined := by
  refine giving (Rules.Copies.renameNodes hf o cs) ?_
  cases o with
  | tile t => exact .last fun _ => .last fun _ => .last fun _ => .last fun _ => .ret trivial
  | vertex v => exact .last fun _ => .last fun _ => .ret trivial
  | edge e => exact .last fun _ => .last fun _ => .ret trivial
  | patch p => exact .last fun _ => .last fun _ => .ret trivial
  | cluster c => exact .last fun _ => .last fun _ => .ret trivial
  | lambda l => exact .last fun _ => .last fun _ => .ret ho

theorem fill {t : ObjectType} {o : Object} (ho : o.Lined) :
    KeepsLines (StoreM.update (Object.ofType t) id (CopyM.fill o)) fun _ => True := by
  refine update fun blank hblank => ?_
  unfold CopyM.fill
  split
  · exact ho
  · exact hblank

theorem copyNode (depth : Nat) (t : ObjectType) (id : NodeId) : rules.Copies (CopyM.copyNode depth t id) := by
  induction depth generalizing t id with
  | zero => exact fun _ => rules.fail
  | succ depth ih =>
    intro cs
    cases hcopy : cs[id]? with
    | some copy =>
      rw [CopyM.copyNode_run_of_some hcopy]
      exact rules.bind (rules.fetchObject t copy) fun _ => rules.ret
    | none =>
      rw [CopyM.copyNode_run_of_none hcopy]
      refine rules.bind (rules.keeping (allocate (Object.lined_blank t))) fun copy => ?_
      have hparts : KeepsLines (CopyM.copyParts depth t id (cs.insert id copy)) fun r => r.1.Lined :=
        bind (bind (fetch (k := Object.ofType t)) fun o ho => giving rules.ret (.ret ho)) fun source hsource =>
          renameNodes ih hsource _
      exact bind hparts fun r hr => bind (fill hr) fun _ _ => rules.ret

theorem copyObject (t : ObjectType) (id : NodeId) : rules.Copies (CopyM.copyObject t id) := by
  intro cs s hs pins
  rw [CopyM.copyObject_run]
  exact copyNode (s.pool.size + 1) t id cs s hs pins

theorem copyWithField (t : ObjectType) (id : NodeId) (field : Name) (d : Datum) :
    rules.Holds (StoreM.copyWithField t id field d) :=
  rules.bind (Rules.Copies.copyObject copyObject t id) fun _ =>
    rules.bind (update fun _ ho => ho.withFields _) fun _ => rules.ret

/-! ## Tiles and patches -/

theorem allocateAll {os : List Object} (hos : ∀ o ∈ os, o.Lined) : rules.Holds (StoreM.allocateAll os) := by
  induction os with
  | nil => exact rules.ret
  | cons o os ih =>
    obtain ⟨ho, hos⟩ := List.forall_mem_cons.1 hos
    exact rules.bind (allocate ho) fun _ => rules.keeping (rules.bind (ih hos) fun _ => rules.ret)

theorem makeTile (ps : List Point) : rules.Holds (StoreM.makeTile ps) := by
  unfold StoreM.makeTile
  by_cases hlen : ps.length < 3
  · simp only [hlen, if_true]
    exact rules.failThen
  simp only [hlen, if_false]
  split
  · exact rules.fail
  · refine rules.bind (allocate trivial) fun i => rules.keeping ?_
    have hvertices : ∀ o ∈ ps.mapIdx fun index position => Object.vertex { tile := some i, position, index },
        o.Lined := by
      simp only [List.mem_mapIdx]
      rintro _ ⟨_, _, rfl⟩
      trivial
    have hedges : ∀ o ∈ (List.range ps.length).map fun index => Object.edge { tile := some i, index }, o.Lined := by
      simp [Object.Lined]
    refine rules.bind (allocateAll hvertices) fun _ => rules.keeping (rules.bind (allocateAll hedges) fun _ => ?_)
    exact rules.bind (update fun _ _ => trivial) fun _ => rules.ret

theorem placeTiles (patch : NodeId) (table : Locations) (tiles : List NodeId) :
    rules.Holds (StoreM.placeTiles patch table tiles) := by
  induction tiles generalizing table with
  | nil => exact rules.ret
  | cons tile tiles ih =>
    refine rules.bind (Rules.Copies.copyObject copyObject .tile tile) fun _ => rules.keeping ?_
    refine rules.bind (update fun _ _ => trivial) fun _ => rules.bind (rules.fetch Object.tiles _) fun _ => ?_
    exact rules.bind (rules.tilePoints _) fun _ => rules.bind (ih _) fun _ => rules.ret

theorem makePatch (tiles : List NodeId) : rules.Holds (StoreM.makePatch tiles) :=
  rules.bind (allocate trivial) fun _ => rules.keeping (rules.bind (placeTiles _ _ _) fun _ =>
    rules.bind (update fun _ _ => trivial) fun _ => rules.ret)

end KeepsLines

/-- The bodies of the lambdas that are made stand in lines. -/
def lined : StoreM.Interface where
  toRules := KeepsLines.rules
  Fit t := Mosaic.Lined t.body
  lambda _ _ _ ht := KeepsLines.allocate (.inr ht)
  close _ _ := KeepsLines.update fun _ hl => hl
  cluster _ := KeepsLines.allocate trivial
  append _ _ := KeepsLines.update fun _ _ => trivial
  makeTile := KeepsLines.makeTile

theorem copying_lined : lined.Copying :=
  ⟨Rules.Copies.copy KeepsLines.copyObject, KeepsLines.copyWithField, KeepsLines.makePatch⟩

end StoreM

/-! ## Actions of a machine -/

namespace MachineM

/-- Bodies still stand in lines, if an action succeeds. Nothing has to be known of the scopes. -/
def lined : MachineM.Logic True where
  toRules := .ensuring (fun m => m.store.Lined) (fun _ _ => True) fun _ _ _ _ => trivial
  store := StoreM.lined
  Proper _ := True
  onStore hx := hx.onStore (fun _ hm => hm) (fun _ _ _ hs => hs) fun _ _ _ _ _ => trivial
  scopes _ := trivial
  withScopes hm _ := hm
  withBuilders _ hm := hm
  ask _ hm := hm
  define _ _ := trivial
  assign _ _ := trivial
  park _ _ _ _ _ _ := trivial
  takeParked _ _ := trivial
  pushContext _ _ := trivial

/-- Whatever the operation is, if the code that it holds stands in lines. -/
theorem lined_perform {op : Op} (hop : op.Inked) (args : List Operand) : lined.Holds (MachineM.perform op args) := by
  refine lined.performAny (fun _ => trivial) (fun _ _ hm => hm) (fun _ => trivial)
    (fun _ => StoreM.copying_lined) ?_ args
  rintro params body free rfl
  exact hop

end MachineM

end Mosaic
