import Std.Data.ExtTreeSet
import Mosaic.Graph.Pool

/-!
# Collection

A collection keeps the nodes that can be reached from the roots: the addresses with handles on them,
and those that the caller pins. The walk moves each entry it reaches from those that are left to
those that are kept, so what is left at its end is what the collection removes.
-/

namespace Mosaic.Graph

/-- A set of addresses. -/
abbrev NodeSet := Std.ExtTreeSet NodeId compare

/-- Fewer entries are outside of a set if one of them is added to it. -/
theorem size_filter_insert {β : Type} {m : Std.ExtTreeMap NodeId β compare} {seen : NodeSet} {id : NodeId} {b : β}
    (hid : seen.contains id = false) (hb : m[id]? = some b) :
    (m.filter fun i _ => !(seen.insert id).contains i).size < (m.filter fun i _ => !seen.contains i).size := by
  have herase : (m.filter fun i _ => !(seen.insert id).contains i) =
      (m.filter fun i _ => !seen.contains i).erase id := by
    refine Std.ExtTreeMap.ext_getElem? fun i => ?_
    rw [Std.ExtTreeMap.getElem?_erase, Std.ExtTreeMap.getElem?_filter', Std.ExtTreeMap.getElem?_filter',
      Std.ExtTreeSet.contains_insert]
    by_cases hi : id = i
    · subst hi
      cases m[id]? <;> simp
    · have hne : (compare id i == .eq) = false := by simpa using hi
      cases m[i]? <;> simp [hne, hi]
  have hmem : (m.filter fun i _ => !seen.contains i).contains id = true := by
    rw [Std.ExtTreeMap.contains_eq_isSome_getElem?, Std.ExtTreeMap.getElem?_filter', hb, Option.filter_some, hid]
    rfl
  have hpos : 0 < (m.filter fun i _ => !seen.contains i).size := by
    refine Nat.pos_of_ne_zero fun h0 => ?_
    rw [Std.ExtTreeMap.eq_empty_iff_size_eq_zero.2 h0] at hmem
    simp at hmem
  rw [herase, Std.ExtTreeMap.size_erase, if_pos hmem]
  omega

/-- What one collection did. -/
structure Collection where
  /-- The distinct addresses that the walk started from. -/
  roots : Nat
  retained : Nat
  swept : Nat
  /-- The distinct edges that went with their owners. -/
  prunedEdges : Nat
deriving DecidableEq, Repr

namespace Pool

variable {ν : Type} [Node ν]

/-- Walks the graph from the addresses in `work`, and returns the entries that were left and those
that were kept. An address that is in neither has no entry. -/
def walk (left kept : Entries ν) : List NodeId → Except Fault (Entries ν × Entries ν)
  | [] => .ok (left, kept)
  | id :: work =>
    if kept.contains id then walk left kept work
    else
      match _h : left[id]? with
      | none => .error (.corrupt id)
      | some e => walk (left.erase id) (kept.insert id e) (e.edges.targets ++ work)
termination_by work => (left.size, work.length)
decreasing_by
  · exact Prod.Lex.right _ (by simp)
  · refine Prod.Lex.left _ _ ?_
    have hmem : id ∈ left := Std.ExtTreeMap.mem_iff_isSome_getElem?.2 (by simp [_h])
    have hc : left.contains id = true := hmem
    have hpos : 0 < left.size := by
      refine Nat.pos_of_ne_zero fun h0 => ?_
      rw [Std.ExtTreeMap.eq_empty_iff_size_eq_zero.2 h0] at hc
      simp at hc
    rw [Std.ExtTreeMap.size_erase, if_pos hc]
    omega

/-- The distinct addresses that keep nodes alive. -/
def roots (p : Pool ν) (pins : NodeSet) : NodeSet := pins.insertMany p.handles.keys

/-- Keeps exactly the nodes that can be reached from the roots. If one of them has no entry, nothing
is removed. Handles stay counted: whoever counts those that nodes own lets go of the lost ones. -/
def collect (p : Pool ν) (pins : NodeSet) : Except Fault (Collection × Pool ν) :=
  let roots := p.roots pins
  (walk p.entries {} roots.toList).map fun (left, kept) =>
    ({ roots := roots.size
       retained := kept.size
       swept := left.size
       prunedEdges := left.foldl (fun n _ e => n + e.edges.size) 0 },
      { p with entries := kept })

end Pool

end Mosaic.Graph
