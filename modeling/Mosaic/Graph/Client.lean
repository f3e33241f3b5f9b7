import Mosaic.Graph.Tables

/-!
# Clients

What a client may do with nodes and the handles it is given. A mutable handle is unique, and is given up
when the node is published; published handles and guards can be copied. The nodes are kept twice, in
tables and in a pool, and each step does the same to both.
-/

namespace Mosaic.Graph

/-- A handle that keeps a node alive. -/
inductive Hold where
  /-- The node can be changed. -/
  | mutable (kind : String) (id : NodeId)
  /-- The node can be read, and the handle can be copied. -/
  | published (kind : String) (id : NodeId)
  /-- The node is kept, and the handle can be copied. -/
  | guard (id : NodeId)
deriving DecidableEq, Repr

namespace Hold

def id : Hold → NodeId
  | mutable _ id => id
  | published _ id => id
  | guard id => id

/-- The kind of node that the handle is good for. -/
def kind? : Hold → Option String
  | mutable kind _ => some kind
  | published kind _ => some kind
  | guard _ => none

def copyable : Hold → Bool
  | mutable .. => false
  | published .. => true
  | guard _ => true

end Hold

structure Client (ν : Type) where
  tables : Tables ν := {}
  pool : Pool ν := {}
  /-- The handles there are, those that nodes own among them. -/
  holds : List Hold := []
  /-- The addresses that were given out, the last one first, with the kinds of their nodes. -/
  issued : List (NodeId × String) := []

namespace Client

variable {ν : Type} [Node ν]

/-- One step of a client. A handle is used only while it is held; an address may be any. -/
inductive Step : Client ν → Client ν → Prop
  | allocate (c : Client ν) (node : ν) :
    Step c
      { tables := (c.tables.allocate node).2
        pool := (c.pool.allocate node).2.acquire (c.pool.allocate node).1
        holds := .mutable (Node.kindName node) (c.tables.allocate node).1 :: c.holds
        issued := ((c.tables.allocate node).1, Node.kindName node) :: c.issued }
  | update (c : Client ν) {α : Type} (k : Kind ν α) (id : NodeId) (f : α → α)
      (h : .mutable k.name id ∈ c.holds) :
    Step c
      { c with
        tables := (c.tables.update k id f).2
        pool := (c.pool.update k id f).toOption.getD c.pool }
  | link (c : Client ν) (owner target : NodeId) :
    Step c
      { c with
        tables := (c.tables.link owner target).2
        pool := (c.pool.link owner target).toOption.getD c.pool }
  | root (c : Client ν) {α : Type} (k : Kind ν α) (id : NodeId) :
    Step c
      { c with
        tables := (c.tables.hold k id).2
        pool := (c.pool.hold k id).toOption.getD c.pool
        holds := match (c.tables.hold k id).1 with
          | .ok () => .published k.name id :: c.holds
          | .error _ => c.holds }
  /-- Reading a node, or asking for its address, changes nothing. -/
  | read (c : Client ν) : Step c c
  | freeze (c : Client ν) (kind : String) (id : NodeId) (h : .mutable kind id ∈ c.holds) :
    Step c { c with holds := .published kind id :: c.holds.erase (.mutable kind id) }
  | guard (c : Client ν) (h : Hold) (hh : h ∈ c.holds) :
    Step c { c with holds := .guard h.id :: c.holds.erase h }
  | copy (c : Client ν) (h : Hold) (hh : h ∈ c.holds) (hc : h.copyable = true) :
    Step c
      { c with
        tables := c.tables.acquire h.id
        pool := c.pool.acquire h.id
        holds := h :: c.holds }
  | drop (c : Client ν) (h : Hold) (hh : h ∈ c.holds) :
    Step c
      { c with
        tables := c.tables.release h.id
        pool := c.pool.release h.id
        holds := c.holds.erase h }
  /-- The handles in `gone` go with the nodes that own them. -/
  | collect (c : Client ν) (outside : List Tether) {gone left : List Hold}
      (h : c.holds.Perm (gone ++ left)) (hg : gone.map Hold.id = c.tables.lost outside) :
    Step c
      { c with
        tables := (c.tables.collect outside).2
        pool := (c.tables.lost outside).foldl Pool.release
          (((c.pool.collect {}).toOption.map Prod.snd).getD c.pool)
        holds := left }

end Client

end Mosaic.Graph
