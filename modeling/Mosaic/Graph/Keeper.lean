import Mathlib.Logic.Relation
import Mosaic.Graph.Client
import Mosaic.Graph.Heap

/-!
# Keepers

A keeper drives a heap, which collects by itself, and may also go to the pool below it. It keeps to one
rule: what it stores points only at nodes that can be reached from a handle it holds at that moment. No
operation checks the rule.
-/

namespace Mosaic.Graph

/-- There is an edge from the one node to the other. -/
def Pool.Points {ν : Type} (p : Pool ν) (owner target : NodeId) : Prop :=
  ∃ e, p.entries[owner]? = some e ∧ target ∈ e.edges.targets

structure Keeper (ν : Type) where
  heap : Heap ν := {}
  holds : List Hold := []
  /-- The addresses that were given out, the last one first, with the kinds of their nodes. -/
  issued : List (NodeId × String) := []

namespace Keeper

variable {ν : Type}

/-- The address can be reached along edges from a handle that is held. -/
def Reaches (c : Keeper ν) (id : NodeId) : Prop :=
  ∃ h ∈ c.holds, Relation.ReflTransGen c.heap.pool.Points h.id id

variable [Node ν]

/-- Takes a mutable handle on a node that was just stored. -/
def receive (c : Keeper ν) (node : ν) (r : NodeId × Heap ν) : Keeper ν where
  heap := { r.2 with pool := r.2.pool.acquire r.1 }
  holds := .mutable (Node.kindName node) r.1 :: c.holds
  issued := (r.1, Node.kindName node) :: c.issued

/-- One step of a keeper. What fails changes nothing. -/
inductive Step : Keeper ν → Keeper ν → Prop
  /-- Collects first if a collection is due. A node that is published at once is frozen next, and a
  blank one is some fixed node. -/
  | allocate (c : Keeper ν) (node : ν) (hr : ∀ t ∈ Node.pointers node, c.Reaches t) :
    Step c (match c.heap.allocate (Thunk.pure {}) node with
      | .ok r => c.receive node r
      | .error _ => c)
  /-- Goes to the pool: never collects, and is not counted. -/
  | place (c : Keeper ν) (node : ν) (hr : ∀ t ∈ Node.pointers node, c.Reaches t) :
    Step c (c.receive node
      ((c.heap.pool.allocate node).1, { c.heap with pool := (c.heap.pool.allocate node).2 }))
  | update (c : Keeper ν) {α : Type} (k : Kind ν α) (id : NodeId) (f : α → α)
      (h : .mutable k.name id ∈ c.holds)
      (hr : ∀ a, c.heap.pool.get k id = .ok a → ∀ t ∈ Node.pointers (k.wrap (f a)), c.Reaches t) :
    Step c { c with
      heap := { c.heap with pool := (c.heap.pool.update k id f).toOption.getD c.heap.pool } }
  | link (c : Keeper ν) (owner target : NodeId) :
    Step c { c with
      heap := { c.heap with pool := (c.heap.pool.link owner target).toOption.getD c.heap.pool } }
  | root (c : Keeper ν) {α : Type} (k : Kind ν α) (id : NodeId) :
    Step c (match c.heap.pool.hold k id with
      | .ok pool => { c with
          heap := { c.heap with pool }
          holds := .published k.name id :: c.holds }
      | .error _ => c)
  /-- Reading a node, or asking for its address, changes nothing. -/
  | read (c : Keeper ν) : Step c c
  | freeze (c : Keeper ν) (kind : String) (id : NodeId) (h : .mutable kind id ∈ c.holds) :
    Step c { c with holds := .published kind id :: c.holds.erase (.mutable kind id) }
  | guard (c : Keeper ν) (h : Hold) (hh : h ∈ c.holds) :
    Step c { c with holds := .guard h.id :: c.holds.erase h }
  | copy (c : Keeper ν) (h : Hold) (hh : h ∈ c.holds) (hc : h.copyable = true) :
    Step c { c with
      heap := { c.heap with pool := c.heap.pool.acquire h.id }
      holds := h :: c.holds }
  | drop (c : Keeper ν) (h : Hold) (hh : h ∈ c.holds) :
    Step c { c with
      heap := { c.heap with pool := c.heap.pool.release h.id }
      holds := c.holds.erase h }
  /-- A handle that a removed node owned is dropped next. -/
  | collect (c : Keeper ν) :
    Step c { c with heap := ((c.heap.collect {}).toOption.map Prod.snd).getD c.heap }
  /-- Collects the pool: what the heap has counted stays as it was. -/
  | collectPool (c : Keeper ν) :
    Step c { c with
      heap := { c.heap with
        pool := ((c.heap.pool.collect {}).toOption.map Prod.snd).getD c.heap.pool } }

end Keeper

end Mosaic.Graph
