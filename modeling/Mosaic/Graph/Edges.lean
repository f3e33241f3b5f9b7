import Std.Data.ExtTreeMap
import Mosaic.Graph.Node

/-!
# Edges

The pointers of one node, as a multiset of targets: each target with the number of times it is
pointed at. A target that is no longer pointed at has no entry.
-/

namespace Mosaic.Graph

/-- How often a node points at each of its targets. -/
abbrev Edges := Std.ExtTreeMap NodeId Nat compare

namespace Edges

/-- How often `target` is pointed at. -/
def count (e : Edges) (target : NodeId) : Nat := e.getD target 0

def add (e : Edges) (target : NodeId) : Edges := e.insert target (e.count target + 1)

/-- Takes one pointer away, if there is one. -/
def remove (e : Edges) (target : NodeId) : Edges :=
  if 1 < e.count target then e.insert target (e.count target - 1) else e.erase target

def addAll (e : Edges) (targets : List NodeId) : Edges := targets.foldl add e

def removeAll (e : Edges) (targets : List NodeId) : Edges := targets.foldl remove e

/-- The distinct targets, in order. -/
def targets (e : Edges) : List NodeId := e.keys

theorem count_add (e : Edges) (target t : NodeId) :
    (e.add target).count t = e.count t + if target = t then 1 else 0 := by
  unfold add count
  rw [Std.ExtTreeMap.getD_insert]
  by_cases h : target = t <;> simp [h]

theorem count_remove (e : Edges) (target t : NodeId) :
    (e.remove target).count t = e.count t - if target = t then 1 else 0 := by
  unfold remove
  by_cases h : target = t
  · subst h
    split
    · simp [count]
    · simp only [count, Std.ExtTreeMap.getD_erase] at *
      simp
      omega
  · split <;> simp [count, Std.ExtTreeMap.getD_insert, Std.ExtTreeMap.getD_erase, h]

end Edges

end Mosaic.Graph
