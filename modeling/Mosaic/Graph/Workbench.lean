import Mosaic.Graph.Heap

/-!
# A workbench for heaps

A client that drives a heap by commands. Its nodes are cells of two kinds, each with a list of the
cells it points at, and it keeps its handles by name. A handle is mutable while a cell is built,
published afterwards, or a bare guard that only keeps the cell alive.
-/

namespace Mosaic.Graph

/-- A node that only points at others. -/
inductive Cell where
  | alpha (next : List NodeId)
  | beta (next : List NodeId)
deriving DecidableEq, Repr

inductive Cell.Tag where
  | alpha
  | beta
deriving DecidableEq, Repr

namespace Cell

instance : Node Cell where
  kindName
    | alpha _ => "Alpha"
    | beta _ => "Beta"
  pointers
    | alpha next => next
    | beta next => next
  tethers _ := []

def alphas : Kind Cell (List NodeId) where
  name := "Alpha"
  wrap := alpha
  unwrap?
    | alpha next => some next
    | beta _ => none
  wrap_unwrap n a h := by cases n <;> simp_all

def betas : Kind Cell (List NodeId) where
  name := "Beta"
  wrap := beta
  unwrap?
    | beta next => some next
    | alpha _ => none
  wrap_unwrap n a h := by cases n <;> simp_all

def Tag.kind : Tag → Kind Cell (List NodeId)
  | alpha => alphas
  | beta => betas

def Tag.letter : Tag → String
  | alpha => "A"
  | beta => "B"

end Cell

/-- What a handle allows. -/
inductive Handle where
  /-- The cell can be changed. -/
  | mutable (tag : Cell.Tag) (id : NodeId)
  /-- The cell can be read, and the handle can be copied. -/
  | published (tag : Cell.Tag) (id : NodeId)
  /-- The cell is kept, and the handle can be copied. -/
  | guard (id : NodeId)
deriving DecidableEq, Repr

namespace Handle

def id : Handle → NodeId
  | mutable _ id => id
  | published _ id => id
  | guard id => id

def text : Handle → String
  | mutable tag id => "Gc" ++ tag.letter ++ "(Gc(" ++ id.text ++ "))"
  | published tag id => "Root" ++ tag.letter ++ "(Root(" ++ id.text ++ "))"
  | guard id => "Guard(RootGuard(" ++ id.text ++ "))"

end Handle

/-- A heap of cells and the handles that are held on them. -/
structure Workbench where
  heap : Heap Cell := {}
  handles : Std.ExtTreeMap String Handle compare := {}

namespace Workbench

/-- Where a new cell comes from. -/
inductive Source where
  /-- The heap, as a cell under construction. -/
  | building
  /-- The heap, as a published cell. -/
  | published
  /-- The heap, as a cell without pointers. -/
  | blank
  /-- The pool itself: no collection, and not counted. -/
  | uncounted
deriving DecidableEq, Repr

inductive Command where
  | allocate (source : Source) (tag : Cell.Tag) (next : List NodeId) (as : Option String)
  | publish (handle : String)
  | guard (handle : String)
  | drop (handle : String)
  | duplicate (handle : String) (as : String)
  | equal (a b : String)
  | inspect (handle : String)
  | hold (id : NodeId) (tag : Cell.Tag) (as : String)
  | address (id : NodeId) (tag : Cell.Tag)
  | get (id : NodeId) (tag : Cell.Tag)
  | update (handle : String) (next : List NodeId)
  | link (owner target : NodeId)
  | edges (id : NodeId)
  | node (id : NodeId)
  | live
  | collect
  | collectPool
  | totals
  | summarizePool
  | summarizeHeap
  | elsewhere (handle : String) (nodes : Nat)

inductive Reply where
  | allocated (id : NodeId) (size collections : Nat)
  | handle (handle : Handle) (count : Nat)
  | count (count : Nat)
  | equal (same : Bool)
  | shown (handle : Handle)
  | address (id : NodeId)
  | next (ids : List NodeId)
  | replaced (old edges : List NodeId)
  | edges (ids : List NodeId)
  | node (count : Nat) (live : Bool)
  | live (ids : List NodeId) (size : Nat) (empty : Bool)
  | collected (c : Collection)
  | totals (totals : Totals) (collectEvery : Nat)
  | summary (text : String)
  | elsewhere (updated read held : Except Fault Nat)

inductive Refusal where
  | fault (fault : Fault)
  | unknownHandle (handle : String)
  | unsuitableHandle (handle : String)

/-- Keeps a handle under a name; an older one of that name is let go. -/
def keep (w : Workbench) (name : String) (h : Handle) : Workbench :=
  let pool := match w.handles[name]? with
    | some old => w.heap.pool.release old.id
    | none => w.heap.pool
  { heap := { w.heap with pool }, handles := w.handles.insert name h }

def handle (w : Workbench) (name : String) : Except Refusal Handle :=
  match w.handles[name]? with
  | some h => .ok h
  | none => .error (.unknownHandle name)

def ofFault (x : Except Fault α) : Except Refusal α := x.mapError .fault

/-- Allocates a cell, and keeps its handle under a name or lets it go. -/
def allocate (w : Workbench) (source : Source) (tag : Cell.Tag) (next : List NodeId)
    (as : Option String) : Except Refusal (Reply × Workbench) := do
  let cell := tag.kind.wrap (if source = .blank then [] else next)
  let (id, heap) ←
    if source = .uncounted then
      let (id, pool) := w.heap.pool.allocate cell
      pure (id, { w.heap with pool })
    else ofFault (w.heap.allocate (Thunk.pure ∅) cell)
  let handle := if source = .published then .published tag id else .mutable tag id
  let w ← match as with
    | some name =>
      let heap := { heap with pool := heap.pool.acquire id }
      pure ({ w with heap }.keep name handle)
    | none => pure { w with heap }
  return (.allocated id w.heap.pool.size w.heap.totals.collections, w)

/-- Turns one handle into another on the same cell. -/
def exchange (w : Workbench) (name : String) (h : Handle) : Reply × Workbench :=
  (.handle h (w.heap.pool.handleCount h.id), { w with handles := w.handles.insert name h })

/-- Uses a handle on a pool it does not come from, one with `nodes` beta cells. -/
def elsewhere (tag : Cell.Tag) (id : NodeId) (nodes : Nat) : Reply :=
  let pool : Pool Cell := (List.range nodes).foldl (fun p _ => (p.allocate (.beta [])).2) {}
  let length := (pool.get tag.kind id).map List.length
  .elsewhere ((pool.update tag.kind id fun next => next).bind fun _ => length) length
    ((pool.hold tag.kind id).map fun p => p.handleCount id)

def collectPool (w : Workbench) : Except Refusal (Reply × Workbench) := do
  let (c, pool) ← ofFault (w.heap.pool.collect ∅)
  return (.collected c, { w with heap := { w.heap with pool } })

def run (w : Workbench) : Command → Except Refusal (Reply × Workbench)
  | .allocate source tag next as => w.allocate source tag next as
  | .publish name => do
    match ← w.handle name with
    | .mutable tag id => return w.exchange name (.published tag id)
    | _ => throw (.unsuitableHandle name)
  | .guard name => do
    let h ← w.handle name
    return w.exchange name (.guard h.id)
  | .drop name => do
    let h ← w.handle name
    let pool := w.heap.pool.release h.id
    return (.count (pool.handleCount h.id),
      { heap := { w.heap with pool }, handles := w.handles.erase name })
  | .duplicate name as => do
    match ← w.handle name with
    | .mutable .. => throw (.unsuitableHandle name)
    | h =>
      let pool := w.heap.pool.acquire h.id
      return (.count (pool.handleCount h.id), { w with heap := { w.heap with pool } }.keep as h)
  | .equal a b => do
    match ← w.handle a, ← w.handle b with
    | .published s i, .published t j =>
      if s = t then return (.equal (i == j), w) else throw (.unsuitableHandle b)
    | _, _ => throw (.unsuitableHandle a)
  | .inspect name => do return (.shown (← w.handle name), w)
  | .hold id tag as => do
    let pool ← ofFault (w.heap.pool.hold tag.kind id)
    let w := { w with heap := { w.heap with pool } }.keep as (.published tag id)
    return (.count (w.heap.pool.handleCount id), w)
  | .address id tag => do
    let _ ← ofFault (w.heap.pool.get tag.kind id)
    return (.address id, w)
  | .get id tag => do return (.next (← ofFault (w.heap.pool.get tag.kind id)), w)
  | .update name next => do
    match ← w.handle name with
    | .mutable tag id =>
      let old ← ofFault (w.heap.pool.get tag.kind id)
      let pool ← ofFault (w.heap.pool.update tag.kind id fun _ => next)
      let edges ← ofFault (pool.edgesOf id)
      return (.replaced old edges, { w with heap := { w.heap with pool } })
    | _ => throw (.unsuitableHandle name)
  | .link owner target => do
    let pool ← ofFault (w.heap.pool.link owner target)
    let edges ← ofFault (pool.edgesOf owner)
    return (.edges edges, { w with heap := { w.heap with pool } })
  | .edges id => do return (.edges (← ofFault (w.heap.pool.edgesOf id)), w)
  | .node id => return (.node (w.heap.pool.handleCount id) (w.heap.pool.contains id), w)
  | .live =>
    let pool := w.heap.pool
    return (.live pool.live pool.size pool.isEmpty, w)
  | .collect => do
    let (c, heap) ← ofFault (w.heap.collect ∅)
    return (.collected c, { w with heap })
  | .collectPool => w.collectPool
  | .totals => return (.totals w.heap.totals w.heap.collectEvery, w)
  | .summarizePool => return (.summary w.heap.pool.summary, w)
  | .summarizeHeap => return (.summary w.heap.summary, w)
  | .elsewhere name nodes => do
    match ← w.handle name with
    | .mutable tag id => return (elsewhere tag id nodes, w)
    | _ => throw (.unsuitableHandle name)

end Workbench

end Mosaic.Graph
