import Std.Data.ExtTreeMap
import Mosaic.Value

/-!
# Remembered calls

The results of the calls of one run, by their keys, and how often a result was found.
-/

namespace Mosaic

open Mosaic.Graph (NodeId)

structure Memo where
  entries : Std.ExtTreeMap String Value compare := {}
  hits : Nat := 0
  misses : Nat := 0

namespace Memo

def size (m : Memo) : Nat := m.entries.size

/-- The result of a call, if it is known, and the memo that has counted the question. -/
def ask (m : Memo) (key : String) : Option Value × Memo :=
  match m.entries[key]? with
  | some v => (some v, { m with hits := m.hits + 1 })
  | none => (none, { m with misses := m.misses + 1 })

def insert (m : Memo) (key : String) (v : Value) : Memo :=
  { m with entries := m.entries.insert key v }

/-- The nodes that the memo keeps alive. -/
def nodes (m : Memo) : List NodeId := m.entries.values.filterMap Value.node?

end Memo

end Mosaic
