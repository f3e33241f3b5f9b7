import Mosaic.Graph.Heap
import Mosaic.Object

/-!
# The store

The heap of objects, and the actions on it. An action can fail; what it did to the store until then
stays done. It runs with a list of pins, the nodes that a collection must keep whatever the store
itself says: they are what the caller holds, and an action adds to them what it holds itself. What
the stored objects hold by handles of their own is kept as long as they are stored. Pins are computed
only when a collection is due.
-/

namespace Mosaic

open Mosaic.Graph (NodeId NodeSet Kind Heap Fault)

abbrev Store := Heap Object

/-- The nodes that a collection must keep. -/
abbrev Pins := Thunk NodeSet

/-- The nodes of a list, which is computed when it is needed. -/
def Pins.of (ids : Unit → List NodeId) : Pins := Thunk.mk fun _ => .ofList (ids ()) compare

/-- Some more nodes. -/
def Pins.also (pins : Pins) (ids : Unit → List NodeId) : Pins :=
  Thunk.mk fun _ => pins.get.insertMany (ids ())

/-- An action on the store. -/
abbrev StoreM := ReaderT Pins (EStateM Failure Store)

namespace StoreM

variable {α : Type}

def fail (cause : Cause) : StoreM α := throw { cause }

def ofFault (x : Except Fault α) : StoreM α :=
  match x with
  | .ok a => pure a
  | .error fault => fail (.graph fault)

def ofExcept (x : Except Failure α) : StoreM α :=
  match x with
  | .ok a => pure a
  | .error failure => throw failure

/-- Runs an action that holds some more nodes. -/
def keeping (ids : List NodeId) (x : StoreM α) : StoreM α :=
  fun pins => x.run (pins.also fun _ => ids)

/-- The payload of a node. -/
def fetch (k : Kind Object α) (id : NodeId) : StoreM α := do
  ofFault ((← get).pool.get k id)

/-- The object of a type at a node. -/
def fetchObject (t : ObjectType) (id : NodeId) : StoreM Object := do
  return (← fetch (Object.ofType t) id).val

/-- Makes sure that the node of an object is there. -/
def load (d : Datum) : StoreM Value := do
  match d with
  | .object t id =>
    let _ ← fetchObject t id
    return d
  | _ => return d

/-- The pins of a collection before the object is stored: the handles of the objects that are stored
now, and of the new one, are held besides. -/
def pinsFor (o : Object) (store : Store) (pins : Pins) : Pins :=
  pins.also fun _ => (o.tethers ++ store.pool.tethers).map Prod.snd

def allocate (o : Object) : StoreM NodeId := do
  let before ← get
  let (id, store) ← ofFault (before.allocate (pinsFor o before (← read)) o)
  set store
  return id

def update (k : Kind Object α) (id : NodeId) (f : α → α) : StoreM Unit := do
  let store ← get
  let pool ← ofFault (store.pool.update k id f)
  set { store with pool }

/-- Allocates the objects in order, each while the ones before it are held. -/
def allocateAll : List Object → StoreM (List NodeId)
  | [] => return []
  | o :: os => do
    let id ← allocate o
    keeping [id] do return id :: (← allocateAll os)

/-- A new cluster of the values, which are held until it has them. -/
def makeCluster (items : List Value) : StoreM Value := do
  let data ← ofExcept (items.mapM Value.toDatum)
  keeping (items.filterMap Value.node?) do
    return .object .cluster (← allocate (.cluster { items := data }))

/-- A new cluster of the two coordinates. -/
def makePoint (p : Point) : StoreM Value :=
  makeCluster [.number (.ofDouble p.x), .number (.ofDouble p.y)]

end StoreM

end Mosaic
