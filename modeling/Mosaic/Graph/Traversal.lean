import Mosaic.Graph.Pool

/-!
# Traversal

The nodes that can be reached from some others, breadth first: the order in which a reader who
starts at the given nodes and reads every node he comes across first hears of them.
-/

namespace Mosaic.Graph.Pool

variable {ν : Type} [Node ν]

/-- The nodes of `left` that a walk through `queue` comes across. A node that is not left was met
before, or is gone. -/
def firstMentions (left : Entries ν) : List NodeId → List NodeId
  | [] => []
  | id :: queue =>
    match _h : left[id]? with
    | none => firstMentions left queue
    | some e => id :: firstMentions (left.erase id) (queue ++ Node.pointers e.node)
termination_by queue => (left.size, queue.length)
decreasing_by
  · exact Prod.Lex.right _ (by simp)
  · refine Prod.Lex.left _ _ ?_
    have hmem : id ∈ left := Std.ExtTreeMap.mem_iff_isSome_getElem?.2 (by simp [_h])
    have hc : left.contains id = true := hmem
    have hpos : 0 < left.size := by
      refine Nat.pos_of_ne_zero fun h0 => ?_
      rw [Std.ExtTreeMap.eq_empty_iff_size_eq_zero.2 h0] at hc
      simp at hc
    rw [Std.ExtTreeMap.size_erase, if_pos hc]
    omega

/-- The nodes that can be reached from `start`, in the order of their first mention. -/
def breadthFirst (p : Pool ν) (start : List NodeId) : List NodeId := firstMentions p.entries start

end Mosaic.Graph.Pool
