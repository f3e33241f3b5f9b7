import Mosaic.Store
import Mosaic.Text.Quoted

/-!
# Showing values

Scalars are shown as they are written, clusters as the list of their items, and other objects by
their type and size. A cluster inside itself is shown as `...`, and an object that is gone as
`<collected>`.

The clusters that are being shown are in a set. Each leaves it when it is done, so that what comes
next finds the set as it was. Only a live cluster that is not in the set is entered, so there is an
end.
-/

namespace Mosaic

open Mosaic.Graph (NodeId NodeSet Entries Pool)

/-- An object that is not a cluster. -/
def Object.label : Object → String
  | .tile t => "tile(" ++ toString t.vertices.length ++ ")"
  | .vertex v => "vertex" ++ v.position.text
  | .edge e => "edge(" ++ toString e.index ++ ")"
  | .patch p => "patch(" ++ toString p.tiles.length ++ ")"
  | .lambda l => "<lambda " ++ l.label.text ++ "/" ++ toString l.arity ++ ">"
  | .cluster c => "cluster(" ++ toString c.items.length ++ ")"

/-- The text so far, and the clusters that are open at the moment. -/
structure Rendering where
  opened : NodeSet := {}
  text : String := ""

namespace Rendering

def put (s : String) (r : Rendering) : Rendering := { r with text := r.text ++ s }

def enter (id : NodeId) (r : Rendering) : Rendering := { r with opened := r.opened.insert id }

def leave (id : NodeId) (r : Rendering) : Rendering := { r with opened := r.opened.erase id }

/-- What comes before the item at the index. -/
def separate (index : Nat) (r : Rendering) : Rendering := if 0 < index then r.put ", " else r

/-- A rendering with the same clusters open. -/
abbrev Level (r : Rendering) := { r' : Rendering // r'.opened = r.opened }

variable {r r' : Rendering} {id : NodeId} {pool : Pool Object}

theorem opened_separate {index : Nat} : (r.separate index).opened = r.opened := by
  unfold separate
  split <;> rfl

theorem opened_leave (hid : id ∉ r.opened) (h : r'.opened = (r.enter id).opened) :
    (r'.leave id).opened = r.opened := by
  refine Std.ExtTreeSet.ext_mem fun i => ?_
  rw [leave, h, enter, Std.ExtTreeSet.mem_erase, Std.ExtTreeSet.mem_insert]
  by_cases hi : id = i
  · subst hi
    simp [hid]
  · simp [hi]

/-- The nodes that are not open. -/
def unopened (pool : Pool Object) (r : Rendering) : Entries Object :=
  pool.entries.filter fun id _ => !r.opened.contains id

theorem unopened_congr (h : r'.opened = r.opened) : r'.unopened pool = r.unopened pool := by
  rw [unopened, h, unopened]

theorem size_unopened_enter {c : Cluster} (hid : id ∉ r.opened) (hc : pool.get Object.clusters id = .ok c) :
    (((r.enter id).put "[").unopened pool).size < (r.unopened pool).size := by
  obtain ⟨e, he⟩ : ∃ e, pool.entries[id]? = some e := by
    unfold Pool.get at hc
    cases he : pool.entries[id]? with
    | none => rw [he] at hc; cases hc
    | some e => exact ⟨e, rfl⟩
  exact Graph.size_filter_insert (Bool.eq_false_iff.2 hid) he

end Rendering

open Rendering

mutual

/-- Writes a datum. -/
def Datum.write (pool : Pool Object) (d : Datum) (r : Rendering) : r.Level :=
  match d with
  | .nil => ⟨r.put "nil", rfl⟩
  | .number n => ⟨r.put n.text, rfl⟩
  | .text s => ⟨r.put s, rfl⟩
  | .bool b => ⟨r.put (toString b), rfl⟩
  | .object .cluster id =>
    if hid : id ∈ r.opened then ⟨r.put "...", rfl⟩
    else
      match _hget : pool.get Object.clusters id with
      | .error _ => ⟨((r.enter id).put "<collected>").leave id, opened_leave hid rfl⟩
      | .ok c =>
        let items := Datum.writeItems pool c.items 0 ((r.enter id).put "[")
        ⟨(items.val.put "]").leave id, opened_leave hid items.property⟩
  | .object t id =>
    match pool.get (Object.ofType t) id with
    | .error _ => ⟨r.put "<collected>", rfl⟩
    | .ok o => ⟨r.put o.val.label, rfl⟩
termination_by ((r.unopened pool).size, 0)
decreasing_by exact .left _ _ (size_unopened_enter hid _hget)

/-- Writes the items of a cluster, from the one at the index on. -/
def Datum.writeItems (pool : Pool Object) (items : List Datum) (index : Nat) (r : Rendering) : r.Level :=
  match items with
  | [] => ⟨r, rfl⟩
  | d :: items =>
    let item := Datum.write pool d (r.separate index)
    let rest := Datum.writeItems pool items (index + 1) item.val
    ⟨rest.val, rest.property.trans (item.property.trans opened_separate)⟩
termination_by ((r.unopened pool).size, items.length + 1)
decreasing_by
  · rw [unopened_congr opened_separate]
    exact .right _ (Nat.succ_pos _)
  · rw [unopened_congr (item.property.trans opened_separate)]
    exact .right _ (Nat.lt_succ_self _)

end

/-- The text that users see. -/
def Value.display (pool : Pool Object) : Value → String
  | .datum d => (d.write pool {}).val.text
  | .fieldRef binding field => "&" ++ binding.text ++ "." ++ field.text

/-- The text that tells values apart: type and content, or type and node. -/
def Value.exactText : Value → String
  | .datum .nil => "Nil"
  | .datum (.number n) => "Number(" ++ n.exactText ++ ")"
  | .datum (.text s) => "Str(" ++ Text.quoted s ++ ")"
  | .datum (.bool b) => "Bool(" ++ toString b ++ ")"
  | .datum (.object t id) => t.nodeName ++ "(Root(" ++ id.text ++ "))"
  | .fieldRef binding field =>
    "FieldRef(FieldRef \x7b binding: Name(" ++ binding.text ++ "), field: Name(" ++ field.text ++
      ") \x7d)"

end Mosaic
