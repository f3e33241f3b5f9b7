import Mosaic.Proofs.Literals
import Mosaic.Proofs.Maps
import Mosaic.Proofs.Store.Actions

/-!
# The source lines in code

Code carries source lines, for the messages of failures. `Lines` says what becomes of them, and `relined`
changes them in a program, in the bodies that its operations hold, and in the bodies of the lambdas of a
store. A heap does not look at them: reading, allocating, replacing and collecting are the same before and
after.
-/

namespace Mosaic

open Mosaic.Graph (NodeId Node Kind Pool Heap Entries Fault)

/-- What becomes of source lines. -/
structure Lines where
  line : Option Nat → Option Nat
  line_none : line none = none
  line_or : ∀ a b, line (a.or b) = (line a).or (line b)

namespace Lines

instance : CoeFun Lines fun _ => Option Nat → Option Nat := ⟨Lines.line⟩

/-- The lines stay. -/
def keep : Lines := ⟨id, rfl, fun _ _ => rfl⟩

/-- The lines are left out. -/
def drop : Lines := ⟨fun _ => none, rfl, fun _ _ => rfl⟩

end Lines

/-! ## Programs -/

mutual

def Item.relined (ℓ : Lines) : Item → Item
  | .error failure => .error { failure with line := ℓ failure.line }
  | .op op line => .op (op.relined ℓ) (ℓ line)
  | item => item

def Op.relined (ℓ : Lines) : Op → Op
  | .branch yes no => .branch (relined ℓ yes) (relined ℓ no)
  | .iterate var index body => .iterate var index (relined ℓ body)
  | .makeLambda params body free => .makeLambda params (relined ℓ body) free
  | op => op

/-- The program with other lines. -/
def relined (ℓ : Lines) : List Item → List Item
  | [] => []
  | item :: items => item.relined ℓ :: relined ℓ items

end

variable {ℓ : Lines}

@[simp] theorem relined_nil : relined ℓ [] = [] := rfl

@[simp] theorem relined_cons (item : Item) (p : Program) :
    relined ℓ (item :: p) = item.relined ℓ :: relined ℓ p := rfl

@[simp] theorem relined_append (p q : Program) : relined ℓ (p ++ q) = relined ℓ p ++ relined ℓ q := by
  induction p with
  | nil => rfl
  | cons item p ih => simp [ih]

@[simp] theorem Item.relined_op (op : Op) (line : Option Nat) :
    (Item.op op line).relined ℓ = .op (op.relined ℓ) (ℓ line) := rfl

@[simp] theorem Op.arity_relined (op : Op) : (op.relined ℓ).arity = op.arity := by
  cases op <;> rfl

@[simp] theorem Op.name_relined (op : Op) : (op.relined ℓ).name = op.name := by
  cases op <;> rfl

mutual

theorem Item.relined_keep : ∀ item : Item, item.relined .keep = item
  | .error _ => rfl
  | .op op line => by rw [Item.relined, Op.relined_keep op]; rfl
  | .value _ | .literal .. | .var _ => rfl

theorem Op.relined_keep : ∀ op : Op, op.relined .keep = op
  | .branch yes no => by rw [Op.relined, relined_keep yes, relined_keep no]
  | .iterate _ _ body => by rw [Op.relined, relined_keep body]
  | .makeLambda _ body _ => by rw [Op.relined, relined_keep body]
  | .getVariable | .pushContext | .popContext | .pushFrame | .popFrame | .assign _ | .apply _
  | .getField _ | .getFieldRef _ | .setField _ | .setDependencies | .call _ | .memoize _ => rfl

theorem relined_keep : ∀ p : List Item, relined .keep p = p
  | [] => rfl
  | item :: p => by rw [relined, Item.relined_keep item, relined_keep p]

end

mutual

@[simp] theorem Item.tethers_relined : ∀ item : Item, (item.relined ℓ).tethers = item.tethers
  | .op op _ => Op.tethers_relined op
  | .error _ | .value _ | .literal .. | .var _ => rfl

@[simp] theorem Op.tethers_relined : ∀ op : Op, (op.relined ℓ).tethers = op.tethers
  | .branch yes no => by
    simp only [Op.relined, Op.tethers, programTethers_relined yes, programTethers_relined no]
  | .iterate _ _ body => by simp only [Op.relined, Op.tethers, programTethers_relined body]
  | .makeLambda _ body _ => by simp only [Op.relined, Op.tethers, programTethers_relined body]
  | .getVariable | .pushContext | .popContext | .pushFrame | .popFrame | .assign _ | .apply _
  | .getField _ | .getFieldRef _ | .setField _ | .setDependencies | .call _ | .memoize _ => rfl

@[simp] theorem programTethers_relined : ∀ p : List Item, programTethers (relined ℓ p) = programTethers p
  | [] => rfl
  | item :: p => by
    rw [relined, programTethers, programTethers, Item.tethers_relined item, programTethers_relined p]

end

@[simp] theorem programNodes_relined (p : Program) : programNodes (relined ℓ p) = programNodes p := by
  rw [← map_programTethers, programTethers_relined, map_programTethers]

/-! ## Objects -/

/-- The lambda with other lines in its body. -/
def Lambda.relined (ℓ : Lines) (l : Lambda) : Lambda := { l with body := Mosaic.relined ℓ l.body }

namespace Object

/-- The object with other lines, if it is a lambda. -/
def relined (ℓ : Lines) : Object → Object
  | lambda l => lambda (l.relined ℓ)
  | o => o

@[simp] theorem type_relined (o : Object) : (o.relined ℓ).type = o.type := by cases o <;> rfl

@[simp] theorem fields_relined (o : Object) : (o.relined ℓ).fields = o.fields := by cases o <;> rfl

@[simp] theorem pointers_relined (o : Object) : (o.relined ℓ).pointers = o.pointers := by
  cases o <;> rfl

@[simp] theorem tethers_relined (o : Object) : (o.relined ℓ).tethers = o.tethers := by
  cases o with
  | lambda l => exact programTethers_relined l.body
  | _ => rfl

@[simp] theorem relined_withFields (fields : Fields) (o : Object) :
    (o.withFields fields).relined ℓ = (o.relined ℓ).withFields fields := by
  cases o <;> rfl

@[simp] theorem relined_blank (t : ObjectType) : (blank t).relined ℓ = blank t := by cases t <;> rfl

theorem relined_keep (o : Object) : o.relined .keep = o := by
  cases o with
  | lambda l => rw [relined, Lambda.relined, Mosaic.relined_keep]
  | _ => rfl

theorem renameNodes_relined {m : Type → Type} [Monad m] [LawfulMonad m]
    (f : ObjectType → NodeId → m NodeId) (o : Object) :
    (o.relined ℓ).renameNodes f = relined ℓ <$> o.renameNodes f := by
  cases o <;> simp [relined, renameNodes, Lambda.relined]

end Object

/-! ## Kinds -/

/-- The payloads of nodes of the kind with other lines. -/
def Graph.Kind.Relines {α : Type} (k : Kind Object α) (ℓ : Lines) (r : α → α) : Prop :=
  ∀ o : Object, k.unwrap? (o.relined ℓ) = (k.unwrap? o).map r

namespace Graph.Kind.Relines

variable {α : Type} {k : Kind Object α} {r : α → α}

theorem wrap (h : k.Relines ℓ r) (a : α) : (k.wrap a).relined ℓ = k.wrap (r a) := by
  refine (k.wrap_unwrap _ _ ?_).symm
  rw [h, k.unwrap_wrap]
  rfl

theorem tiles : Kind.Relines Object.tiles ℓ id := fun o => by cases o <;> rfl

theorem vertices : Kind.Relines Object.vertices ℓ id := fun o => by cases o <;> rfl

theorem patches : Kind.Relines Object.patches ℓ id := fun o => by cases o <;> rfl

theorem clusters : Kind.Relines Object.clusters ℓ id := fun o => by cases o <;> rfl

theorem lambdas : Kind.Relines Object.lambdas ℓ (Lambda.relined ℓ) := fun o => by cases o <;> rfl

/-- The object of a type with other lines. -/
def typed (ℓ : Lines) {t : ObjectType} (o : { o : Object // o.type = t }) :
    { o : Object // o.type = t } :=
  ⟨o.val.relined ℓ, by rw [Object.type_relined, o.property]⟩

theorem ofType (t : ObjectType) : Kind.Relines (Object.ofType t) ℓ (typed ℓ) := by
  intro o
  by_cases ho : o.type = t <;> simp [Object.ofType, ho, typed]

end Graph.Kind.Relines

/-! ## Heaps -/

/-- The entry with other lines in its node. -/
def Graph.Entry.relined (ℓ : Lines) (e : Graph.Entry Object) : Graph.Entry Object :=
  { e with node := e.node.relined ℓ }

/-- The entries with other lines in their nodes. -/
def Graph.Entries.relined (ℓ : Lines) (entries : Entries Object) : Entries Object :=
  Std.ExtTreeMap.map (fun _ e => e.relined ℓ) entries

namespace Graph.Entries

variable {entries : Entries Object}

@[simp] theorem getElem?_relined (id : NodeId) :
    (relined ℓ entries)[id]? = entries[id]?.map (Entry.relined ℓ) :=
  Std.ExtTreeMap.getElem?_map

@[simp] theorem contains_relined (id : NodeId) :
    (relined ℓ entries).contains id = entries.contains id :=
  Std.ExtTreeMap.contains_map

@[simp] theorem size_relined : (relined ℓ entries).size = entries.size := Std.ExtTreeMap.size_map

theorem relined_insert (id : NodeId) (e : Entry Object) :
    relined ℓ (entries.insert id e) = (relined ℓ entries).insert id (e.relined ℓ) := by
  refine Std.ExtTreeMap.ext_getElem? fun i => ?_
  rw [getElem?_relined, Std.ExtTreeMap.getElem?_insert, Std.ExtTreeMap.getElem?_insert, getElem?_relined]
  split <;> rfl

theorem relined_erase (id : NodeId) :
    relined ℓ (entries.erase id) = (relined ℓ entries).erase id := by
  refine Std.ExtTreeMap.ext_getElem? fun i => ?_
  rw [getElem?_relined, Std.ExtTreeMap.getElem?_erase, Std.ExtTreeMap.getElem?_erase, getElem?_relined]
  split <;> rfl

theorem relined_empty : relined ℓ {} = {} :=
  Std.ExtTreeMap.ext_getElem? fun i => by rw [getElem?_relined]; simp

theorem relined_keep : relined .keep entries = entries := by
  refine Std.ExtTreeMap.ext_getElem? fun i => ?_
  rw [getElem?_relined]
  cases entries[i]? with
  | none => rfl
  | some e => rw [Option.map_some, Entry.relined, Object.relined_keep]

end Graph.Entries

namespace Graph.Pool

variable {α : Type} {k : Kind Object α} {r : α → α} {p : Pool Object} {id : NodeId}

/-- The pool with other lines in its lambdas. -/
def relined (ℓ : Lines) (p : Pool Object) : Pool Object :=
  { p with entries := Entries.relined ℓ p.entries }

@[simp] theorem size_relined : (p.relined ℓ).size = p.size := Std.ExtTreeMap.size_map

@[simp] theorem tethers_relined : (p.relined ℓ).tethers = p.tethers := by
  have hnode : ∀ o : Object, Node.tethers (o.relined ℓ) = Node.tethers o := Object.tethers_relined
  simp only [tethers, relined, Entries.relined, values_eq_map_toList, Std.ExtTreeMap.toList_map,
    List.map_map, List.flatMap_map, Function.comp_apply, Entry.relined, hnode]

theorem get_relined (hk : k.Relines ℓ r) : (p.relined ℓ).get k id = (p.get k id).map r := by
  have hmissing : (p.relined ℓ).missing k id = p.missing k id := by
    simp only [missing, contains, relined, Entries.contains_relined]
    rfl
  unfold get
  rw [hmissing]
  simp only [relined, Entries.getElem?_relined]
  cases p.entries[id]? with
  | none => rfl
  | some e =>
    simp only [Option.map_some, Option.bind_some, Entry.relined, hk e.node]
    cases k.unwrap? e.node <;> rfl

theorem update_relined {f f' : α → α} (hk : k.Relines ℓ r) (hf : ∀ a, f' (r a) = r (f a)) :
    (p.relined ℓ).update k id f' = (p.update k id f).map (relined ℓ) := by
  cases he : p.entries[id]? with
  | none => simp [update, relined, he, Except.map]
  | some e =>
    cases hu : k.unwrap? e.node with
    | none => simp [update, relined, he, hu, hk e.node, Entry.relined, Except.map]
    | some a =>
      have he' : (p.relined ℓ).entries[id]? = some (e.relined ℓ) := by simp [relined, he]
      have ha : e.node = k.wrap a := (k.wrap_unwrap _ _ hu).symm
      have ha' : (e.relined ℓ).node = k.wrap (r a) := by rw [Entry.relined, ha, hk.wrap]
      rw [update_of_entry he ha, update_of_entry he' ha', Except.map, hf, ← hk.wrap]
      have hpointers : ∀ o : Object, Node.pointers (o.relined ℓ) = Node.pointers o :=
        Object.pointers_relined
      simp only [relined, Entries.relined_insert, Entry.relined, Entry.renew, hpointers]

theorem allocate_relined (o : Object) :
    (p.relined ℓ).allocate (o.relined ℓ) = (p.next, (p.allocate o).2.relined ℓ) := by
  have hpointers : Node.pointers (o.relined ℓ) = Node.pointers o := Object.pointers_relined o
  have hkind : Node.kindName (o.relined ℓ) = Node.kindName o :=
    congrArg ObjectType.nodeName o.type_relined
  simp only [allocate, relined, Entries.relined_insert, Entry.relined, hpointers, hkind]

theorem walk_relined (left kept : Entries Object) (work : List NodeId) :
    walk (Entries.relined ℓ left) (Entries.relined ℓ kept) work =
      (walk left kept work).map fun r => (Entries.relined ℓ r.1, Entries.relined ℓ r.2) := by
  induction left, kept, work using walk.induct with
  | case1 left kept => simp [walk, Except.map]
  | case2 left kept id work hid ih => rw [walk, walk, Entries.contains_relined, if_pos hid, if_pos hid, ih]
  | case3 left kept id work hid he =>
    rw [walk, walk, Entries.contains_relined, if_neg hid, if_neg hid]
    split
    · split
      · rfl
      · rename_i he'; rw [he] at he'; cases he'
    · rename_i he'; rw [Entries.getElem?_relined, he] at he'; cases he'
  | case4 left kept id work hid e he ih =>
    rw [walk, walk, Entries.contains_relined, if_neg hid, if_neg hid]
    split
    · rename_i he'; rw [Entries.getElem?_relined, he] at he'; cases he'
    · rename_i e₁ he₁
      split
      · rename_i he'; rw [he] at he'; cases he'
      · rename_i e₂ he₂
        rw [Entries.getElem?_relined, he] at he₁
        rw [he] at he₂
        cases he₁
        cases he₂
        rw [← Entries.relined_erase, ← Entries.relined_insert]
        exact ih

theorem collect_relined (pins : NodeSet) :
    (p.relined ℓ).collect pins = (p.collect pins).map fun r => (r.1, r.2.relined ℓ) := by
  have hwalk := walk_relined (ℓ := ℓ) p.entries {} (p.roots pins).toList
  rw [Entries.relined_empty] at hwalk
  have hroots : (p.relined ℓ).roots pins = p.roots pins := rfl
  have hentries : (p.relined ℓ).entries = Entries.relined ℓ p.entries := rfl
  simp only [collect, hroots, hentries, hwalk]
  cases walk p.entries {} (p.roots pins).toList with
  | error fault => rfl
  | ok r =>
    obtain ⟨left, kept⟩ := r
    have hfold : ∀ n, (Entries.relined ℓ left).foldl (fun n _ e => n + e.edges.size) n =
        left.foldl (fun n _ e => n + e.edges.size) n := fun n => by
      rw [Std.ExtTreeMap.foldl_eq_foldl_toList, Std.ExtTreeMap.foldl_eq_foldl_toList, Entries.relined,
        Std.ExtTreeMap.toList_map, List.foldl_map]
      rfl
    simp only [Except.map, hfold, Entries.size_relined, relined]

end Graph.Pool

namespace Graph.Heap

/-- The store with other lines in its lambdas. -/
def relined (ℓ : Lines) (s : Store) : Store := { s with pool := s.pool.relined ℓ }

variable {s : Store} {pins : Pins}

theorem collectIfDue_relined :
    (relined ℓ s).collectIfDue pins = (s.collectIfDue pins).map (relined ℓ) := by
  unfold collectIfDue
  by_cases hdue : s.collectEvery < s.sinceCollect
  · rw [if_pos hdue, if_pos (show (relined ℓ s).collectEvery < (relined ℓ s).sinceCollect from hdue)]
    simp only [collect, relined, Pool.collect_relined]
    cases s.pool.collect pins.get <;> rfl
  · rw [if_neg hdue, if_neg (show ¬ (relined ℓ s).collectEvery < (relined ℓ s).sinceCollect from hdue)]
    rfl

theorem allocate_relined (o : Object) :
    (relined ℓ s).allocate pins (o.relined ℓ) =
      (s.allocate pins o).map fun r => (r.1, relined ℓ r.2) := by
  simp only [allocate, collectIfDue_relined]
  cases s.collectIfDue pins with
  | error fault => rfl
  | ok h =>
    have hpool : (relined ℓ h).pool.allocate (o.relined ℓ) = _ := Pool.allocate_relined o
    simp only [Except.map, hpool]
    rfl

theorem relined_keep : relined .keep s = s := by
  simp only [relined, Pool.relined, Entries.relined_keep]

end Graph.Heap

end Mosaic
