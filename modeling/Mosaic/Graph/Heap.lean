import Mosaic.Graph.Collect

/-!
# Heaps

A heap is a pool that collects by itself: an allocation collects first when more than `collectEvery`
allocations have been made since the last collection. If that collection fails, the allocation does
nothing.
-/

namespace Mosaic.Graph

/-- What a heap has done so far. -/
structure Totals where
  allocations : Nat := 0
  collections : Nat := 0
  swept : Nat := 0
  /-- The nodes that the last collection kept. -/
  lastRetained : Nat := 0
deriving DecidableEq, Repr, Inhabited

/-- The number of allocations between collections, unless another is asked for. -/
def defaultCadence : Nat := 10000

structure Heap (ν : Type) where
  pool : Pool ν := {}
  sinceCollect : Nat := 0
  collectEvery : Nat := defaultCadence
  totals : Totals := {}

namespace Heap

variable {ν : Type} [Node ν]

instance : Inhabited (Heap ν) := ⟨{}⟩

/-- Collects now. -/
def collect (h : Heap ν) (pins : NodeSet) : Except Fault (Collection × Heap ν) :=
  (h.pool.collect pins).map fun (c, pool) =>
    (c,
      { h with
        pool
        sinceCollect := 0
        totals :=
          { h.totals with
            collections := h.totals.collections + 1
            swept := h.totals.swept + c.swept
            lastRetained := c.retained } })

/-- Collects if a collection is due. The pins are needed only then. -/
def collectIfDue (h : Heap ν) (pins : Thunk NodeSet) : Except Fault (Heap ν) :=
  if h.collectEvery < h.sinceCollect then (h.collect pins.get).map Prod.snd else .ok h

/-- Stores a node at a new address, after a collection if one is due. -/
def allocate (h : Heap ν) (pins : Thunk NodeSet) (node : ν) :
    Except Fault (NodeId × Heap ν) :=
  (h.collectIfDue pins).map fun h =>
    let (id, pool) := h.pool.allocate node
    (id,
      { h with
        pool
        sinceCollect := h.sinceCollect + 1
        totals := { h.totals with allocations := h.totals.allocations + 1 } })

/-- The heap in one line. -/
def summary (h : Heap ν) : String :=
  "GcHeap \x7b pool: " ++ h.pool.summary ++
    ", since_collect: " ++ toString h.sinceCollect ++
    ", config: GcConfig \x7b collect_every: " ++ toString h.collectEvery ++ " \x7d" ++
    ", stats: GcStats \x7b allocations: " ++ toString h.totals.allocations ++
    ", collections: " ++ toString h.totals.collections ++
    ", swept: " ++ toString h.totals.swept ++
    ", last_retained: " ++ toString h.totals.lastRetained ++ " \x7d \x7d"

end Heap

end Mosaic.Graph
