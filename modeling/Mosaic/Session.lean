import Mosaic.Expr.Compile
import Mosaic.Graph.Traversal
import Mosaic.Machine.Run
import Mosaic.Object.Edits
import Mosaic.Store.Display

/-!
# Sessions

A client of one machine. It keeps values by name, objects under construction, and data that it does
not keep alive. What it keeps is added to the pins of the machine, so a collection leaves it alone.
-/

namespace Mosaic

open Mosaic.Graph (NodeId Fault Collection)

structure Session where
  machine : Machine := {}
  /-- The values it keeps. -/
  values : Std.ExtTreeMap String Value compare := {}
  /-- The objects that are not published yet. -/
  builders : Std.ExtTreeMap String (ObjectType × NodeId) compare := {}
  /-- Data whose nodes may go. -/
  slots : Std.ExtTreeMap String Datum compare := {}
  /-- The number of the next handle that is given to a program. -/
  literals : Nat := 1
  /-- How many collections were asked for. -/
  requestedCollections : Nat := 0

/-- What is known about a value. -/
structure ValueInfo where
  typeName : String
  node : Option NodeId
  /-- How many handles there are on the node. -/
  roots : Option Nat
  /-- How many fields were assigned to the object. -/
  fields : Nat
  /-- The type as an object stores it, unless it cannot. -/
  slot : Option String

/-- What a collection did, as a client can see it: what it removed is known only if no other
collection came between. -/
structure CollectionReport where
  collection : Collection
  live : Nat
  totals : Graph.Totals
  onlyRequested : Bool

namespace Session

variable {α : Type}

def ofConfig (config : Config) : Session := { machine := .ofConfig config }

def store (s : Session) : Store := s.machine.store

def withStore (s : Session) (store : Store) : Session :=
  { s with machine := { s.machine with store } }

/-- The nodes that the session itself keeps alive. -/
def held (s : Session) : List NodeId :=
  s.values.values.filterMap Value.node? ++ s.builders.values.map Prod.snd

/-- All nodes that are kept alive. -/
def nodes (s : Session) : List NodeId := s.held ++ s.machine.nodes

/-- Runs an action on the store. -/
def onStore (s : Session) (x : StoreM α) : Except Failure α × Session :=
  match x.run (.of fun _ => s.held ++ s.machine.mentions) |>.run s.store with
  | .ok a store => (.ok a, s.withStore store)
  | .error failure store => (.error failure, s.withStore store)

/-! ## The machine -/

def define (s : Session) (name : Name) (v : Value) : Except Failure Session :=
  (s.machine.define name v).map fun machine => { s with machine }

/-- The value of a global name. -/
def lookup? (s : Session) (name : Name) : Option Value := s.machine.scopes.lookup? name

/-- Gives the objects that the text of a program mentions handles of their own. -/
def adopt (s : Session) (program : Program) : Program × Session :=
  let (program, literals) := giveHandles s.literals program
  (program, { s with literals })

/-- Runs a program. It has no result if the program does not end within `fuel` items. -/
def run (s : Session) (fuel : Nat) (program : Program) :
    Option (Except Failure Value × Session) :=
  let (program, s) := s.adopt program
  (s.machine.run (s.held ++ programNodes program) fuel program).map fun (result, machine) =>
    (result, { s with machine })

def collect (s : Session) : Except Fault (CollectionReport × Session) :=
  (s.store.collect (.ofList s.nodes compare)).map fun (collection, store) =>
    let s := { s.withStore store with requestedCollections := s.requestedCollections + 1 }
    ({ collection
       live := store.pool.size
       totals := store.totals
       onlyRequested := store.totals.collections = s.requestedCollections }, s)

/-! ## Named values -/

def value? (s : Session) (name : String) : Option Value := s.values[name]?

/-- Keeps a value under a name, instead of an older one. -/
def keep (s : Session) (name : String) (v : Value) : Session :=
  { s with values := s.values.insert name v }

/-- Lets go of the value and the builder of a name. The answer says whether there was one. -/
def drop (s : Session) (name : String) : Bool × Session :=
  (s.values.contains name || s.builders.contains name,
    { s with values := s.values.erase name, builders := s.builders.erase name })

def display (s : Session) (v : Value) : String := v.display s.store.pool

def info (s : Session) (v : Value) : ValueInfo where
  typeName := v.typeName
  node := v.node?
  roots := v.node?.map fun id => s.held.count id + s.machine.handleCount id
  fields := match v.node?.bind fun id => s.store.pool.entries[id]? with
    | some e => e.node.fields.size
    | none => 0
  slot := v.toDatum.toOption.map Datum.typeName

/-- The copies of values, made together so that what they share stays shared, each with the number
of nodes copied until then. -/
def copyAll : List Value → CopyM (List (Value × Nat))
  | [] => return []
  | v :: vs => do
    let copy ← CopyM.copyValue v
    let copied := (← get).size
    return (copy, copied) :: (← copyAll vs)

/-- The value as an object of the type, if it is one. -/
def typed (s : Session) (t : ObjectType) (id : NodeId) : Except Fault Value :=
  (s.store.pool.get (Object.ofType t) id).map fun _ => .object t id

/-! ## Slots -/

def saveSlot (s : Session) (slot : String) (v : Value) : Except Failure (Datum × Session) :=
  v.toDatum.map fun d => (d, { s with slots := s.slots.insert slot d })

/-- A saved datum, if its node is still there. -/
def loadSlot (s : Session) : Datum → Except Fault Value
  | .object t id => s.typed t id
  | d => .ok d

/-! ## Objects under construction -/

/-- A name for an object: a builder, or else a value. -/
def part? (s : Session) (name : String) : Option Value :=
  match s.builders[name]? with
  | some (t, id) => some (.object t id)
  | none => s.value? name

/-- What goes by a name: a value, or else a builder. -/
def named? (s : Session) (name : String) : Option Value := (s.value? name).or (s.part? name)

def keepBuilder (s : Session) (name : String) (t : ObjectType) (id : NodeId) : Session :=
  { s with builders := s.builders.insert name (t, id) }

/-- Publishes a builder: it becomes a value of the same name. -/
def freeze (s : Session) (name : String) : Option (Value × Session) :=
  (s.builders[name]?).map fun (t, id) =>
    let v : Value := .object t id
    (v, { s.keep name v with builders := s.builders.erase name })

/-- Edits a builder, and returns how many distinct targets it then points at. Nothing is changed if
one of the new parts is not of the type it must have. -/
def edit (s : Session) (t : ObjectType) (id : NodeId) (e : Edits) :
    Except Fault (Nat × Session) := do
  let pool := s.store.pool
  for (t, part) in e.parts t do
    let _ ← pool.get (Object.ofType t) part
  let pool ← pool.update (Object.ofType t) id fun o =>
    ⟨e.apply o.val, by rw [e.type_apply, o.property]⟩
  return ((← pool.edgesOf id).length, s.withStore { s.store with pool })

end Session

end Mosaic
