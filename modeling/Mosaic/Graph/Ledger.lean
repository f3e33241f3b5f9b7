import Mosaic.Graph.Heap
import Mosaic.Graph.Tables

/-!
# Ledgers

A heap as it is laid out: the tables of its pool, the edges once more with their counts in words of 32
bits, and the numbers that tell when to collect. Each operation goes through its statements in order and
returns the state it has got to, also if it fails; what has happened is written down beside it. A ledger
has a heap that is laid out like this and one that runs, and passes every request to both.
-/

namespace Mosaic.Graph

/-- How often a node points at each of its targets, in words that may wrap around. -/
abbrev WordRow := Std.ExtTreeMap NodeId UInt32 compare

namespace WordRow

def add (row : WordRow) (target : NodeId) : WordRow := row.insert target (row.getD target 0 + 1)

/-- Takes one pointer away, if there is one. The last one takes its count along. -/
def remove (row : WordRow) (target : NodeId) : WordRow :=
  match row[target]? with
  | some n => if 1 < n then row.insert target (n - 1) else row.erase target
  | none => row

end WordRow

/-- The edges of the live nodes, by owner, as they are counted in words. -/
abbrev Words := Std.ExtTreeMap NodeId WordRow compare

namespace Words

/-- Adds an edge, if the owner has a row. -/
def addEdge (w : Words) (owner target : NodeId) : Words := w.modify owner fun row => row.add target

def removeEdge (w : Words) (owner target : NodeId) : Words := w.modify owner fun row => row.remove target

def addEdges (w : Words) (owner : NodeId) (targets : List NodeId) : Words :=
  targets.foldl (fun w t => w.addEdge owner t) w

def removeEdges (w : Words) (owner : NodeId) (targets : List NodeId) : Words :=
  targets.foldl (fun w t => w.removeEdge owner t) w

end Words

/-- The distinct targets of a node, in order. -/
def Tables.edgesOf {ν : Type} (t : Tables ν) (owner : NodeId) : Except Fault (List NodeId) :=
  match t.adjacency[owner]? with
  | none => .error (.dangling owner)
  | some row => .ok row.targets

/-- What has happened to a heap. -/
inductive Event where
  /-- The heap has made a node. -/
  | allocated (id : NodeId)
  /-- A raw edge was added. -/
  | linked (owner target : NodeId)
  /-- A collection has left so many nodes. -/
  | collected (live : Nat)
  /-- A collection has failed. -/
  | refused (fault : Fault)
deriving DecidableEq, Repr

namespace Event

def isAllocated : Event → Bool
  | allocated _ => true
  | _ => false

def isCollected : Event → Bool
  | collected _ => true
  | _ => false

end Event

/-- The allocations since the last collection that was made. The events come with the last one first. -/
def allocatedSince (events : List Event) : Nat :=
  (events.takeWhile fun e => !e.isCollected).countP Event.isAllocated

@[simp] theorem allocatedSince_allocated (id : NodeId) (events : List Event) :
    allocatedSince (.allocated id :: events) = allocatedSince events + 1 :=
  List.countP_cons_of_pos rfl

/-- The nodes that the last collection has left, if one was made. -/
def lastCollected? : List Event → Option Nat
  | [] => none
  | .collected live :: _ => some live
  | _ :: events => lastCollected? events

structure HeapTables (ν : Type) where
  tables : Tables ν := {}
  /-- The edges once more, as they are counted. -/
  words : Words := {}
  sinceCollect : Nat := 0
  collectEvery : Nat := defaultCadence
  totals : Totals := {}
  /-- What has happened, the last event first. Nothing reads it. -/
  events : List Event := []

namespace HeapTables

variable {ν α : Type} [Node ν]

def log (h : HeapTables ν) (e : Event) : HeapTables ν := { h with events := e :: h.events }

/-! ## The pool -/

/-- Stores a node in the pool, with a handle on it. -/
def place (h : HeapTables ν) (node : ν) : NodeId × HeapTables ν :=
  ((h.tables.allocate node).1,
    { h with
      tables := (h.tables.allocate node).2
      words := Words.addEdges (h.words.insert h.tables.next {}) h.tables.next (Node.pointers node) })

def update (k : Kind ν α) (h : HeapTables ν) (id : NodeId) (f : α → α) :
    Except Fault Unit × HeapTables ν :=
  match h.tables.find? k id with
  | none => (.error (h.tables.missing k id), h)
  | some a =>
    let before := Node.pointers (k.wrap a)
    let after := Node.pointers (k.wrap (f a))
    (.ok (),
      { h with
        tables := (h.tables.update k id f).2
        words :=
          if before = after then h.words
          else Words.addEdges (Words.removeEdges h.words id before) id after })

def link (h : HeapTables ν) (owner target : NodeId) : Except Fault Unit × HeapTables ν :=
  match [owner, target].find? fun id => !h.tables.contains id with
  | some id => (.error (.dangling id), h)
  | none =>
    (.ok (),
      { h with
        tables := (h.tables.link owner target).2
        words := h.words.addEdge owner target
        events := .linked owner target :: h.events })

/-- Collects the pool. Nothing is removed if a node that can be reached has no row. -/
def collectPool (h : HeapTables ν) (outside : List Tether) : Except Fault Collection × HeapTables ν :=
  match h.tables.adjacency.mark {} h.tables.rooted with
  | .error fault => (.error fault, h.log (.refused fault))
  | .ok retained =>
    let tables := (h.tables.keep retained outside).2
    (.ok (h.tables.keep retained outside).1,
      { h with
        tables
        words := h.words.filter fun id _ => retained.contains id
        events := .collected tables.adjacency.size :: h.events })

/-! ## The heap -/

/-- Collects now. The numbers are set only after the pool was collected. -/
def collect (h : HeapTables ν) (outside : List Tether) : Except Fault Collection × HeapTables ν :=
  match h.collectPool outside with
  | (.error fault, h) => (.error fault, h)
  | (.ok c, h) =>
    (.ok c,
      { h with
        sinceCollect := 0
        totals :=
          { h.totals with
            collections := h.totals.collections + 1
            swept := h.totals.swept + c.swept
            lastRetained := c.retained } })

/-- Collects if a collection is due. -/
def collectIfDue (h : HeapTables ν) (outside : List Tether) : Except Fault Unit × HeapTables ν :=
  if h.collectEvery < h.sinceCollect then
    ((h.collect outside).1.map fun _ => (), (h.collect outside).2)
  else (.ok (), h)

/-- The addresses of the handles that are let go of if a collection is due. -/
def lostIfDue (h : HeapTables ν) (outside : List Tether) : List NodeId :=
  if h.collectEvery < h.sinceCollect then h.tables.lost outside else []

/-- Counts an allocation, after a collection if one is due. -/
def beforeAllocation (h : HeapTables ν) (outside : List Tether) : Except Fault Unit × HeapTables ν :=
  match h.collectIfDue outside with
  | (.error fault, h) => (.error fault, h)
  | (.ok (), h) =>
    (.ok (),
      { h with
        sinceCollect := h.sinceCollect + 1
        totals := { h.totals with allocations := h.totals.allocations + 1 } })

/-- Stores a node at a new address. -/
def allocate (h : HeapTables ν) (node : ν) (outside : List Tether) : Except Fault NodeId × HeapTables ν :=
  match h.beforeAllocation outside with
  | (.error fault, h) => (.error fault, h)
  | (.ok (), h) => (.ok (h.place node).1, (h.place node).2.log (.allocated (h.place node).1))

end HeapTables

/-- What can be asked of a heap and of the pool in it. An address may be any. A request that may collect
says which handles are owned outside of the pool at that moment. -/
inductive Request (ν : Type) [Node ν] : Type 1 where
  /-- Asks the heap for a node: one to be built, one that is published at once, or a blank one. -/
  | allocate (node : ν) (outside : List Tether)
  /-- Asks the pool for a node, past the heap. -/
  | place (node : ν)
  | update {α : Type} (k : Kind ν α) (id : NodeId) (f : α → α)
  | link (owner target : NodeId)
  | root {α : Type} (k : Kind ν α) (id : NodeId)
  /-- Copies a handle. -/
  | copy (id : NodeId)
  /-- Drops a handle. -/
  | drop (id : NodeId)
  | collect (outside : List Tether)
  /-- Collects the pool, past the heap. -/
  | collectPool (outside : List Tether)

/-- The request is not made past the heap where the heap would count. -/
def Request.Counted {ν : Type} [Node ν] : Request ν → Prop
  | place _ | collectPool _ => False
  | _ => True

/-- A heap, as it is laid out and as it runs. -/
structure Ledger (ν : Type) where
  layout : HeapTables ν := {}
  heap : Heap ν := {}

namespace Ledger

variable {ν : Type} [Node ν]

/-- A new heap that collects once more than `every` allocations were made. -/
def start (every : Nat) : Ledger ν where
  layout := { collectEvery := every }
  heap := { collectEvery := every }

/-- Replaces the pool of the running heap, if the operation has made one. -/
def renew (l : Ledger ν) (layout : HeapTables ν) (r : Except Fault (Pool ν)) : Ledger ν where
  layout
  heap := { l.heap with pool := r.toOption.getD l.heap.pool }

/-- Does what is asked for, to the layout and to the running heap. -/
def serve (l : Ledger ν) : Request ν → Ledger ν
  | .allocate node outside =>
    { layout := (l.layout.allocate node outside).2
      heap := match l.heap.allocate (Thunk.pure {}) node with
        | .ok (id, heap) =>
          { heap with pool := ((l.layout.lostIfDue outside).foldl Pool.release heap.pool).acquire id }
        | .error _ => l.heap }
  | .place node =>
    l.renew (l.layout.place node).2
      (.ok ((l.heap.pool.allocate node).2.acquire (l.heap.pool.allocate node).1))
  | .update k id f => l.renew (l.layout.update k id f).2 (l.heap.pool.update k id f)
  | .link owner target => l.renew (l.layout.link owner target).2 (l.heap.pool.link owner target)
  | .root k id =>
    l.renew { l.layout with tables := (l.layout.tables.hold k id).2 } (l.heap.pool.hold k id)
  | .copy id =>
    l.renew { l.layout with tables := l.layout.tables.acquire id } (.ok (l.heap.pool.acquire id))
  | .drop id =>
    l.renew { l.layout with tables := l.layout.tables.release id } (.ok (l.heap.pool.release id))
  | .collect outside =>
    let heap := ((l.heap.collect {}).toOption.map Prod.snd).getD l.heap
    { layout := (l.layout.collect outside).2
      heap := { heap with pool := (l.layout.tables.lost outside).foldl Pool.release heap.pool } }
  | .collectPool outside =>
    l.renew (l.layout.collectPool outside).2 <| (l.heap.pool.collect {}).map fun r =>
      (l.layout.tables.lost outside).foldl Pool.release r.2

def run (l : Ledger ν) (requests : List (Request ν)) : Ledger ν := requests.foldl serve l

end Ledger

end Mosaic.Graph
