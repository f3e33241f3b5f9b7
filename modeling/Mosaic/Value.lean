import Mosaic.Failure
import Mosaic.Number

/-!
# Values

A value is a datum, which objects can store, or a reference to a field that can be assigned. Scalars
are data by themselves; an object is known by its type and the address of its node.
-/

namespace Mosaic

open Mosaic.Graph (NodeId)

inductive ObjectType where
  | tile
  | vertex
  | edge
  | patch
  | cluster
  | lambda
deriving DecidableEq, Repr

/-- The name of the type in the language. -/
def ObjectType.name : ObjectType → String
  | tile => "tile"
  | vertex => "vertex"
  | edge => "edge"
  | patch => "patch"
  | cluster => "cluster"
  | lambda => "lambda"

def ObjectType.ofName? (name : String) : Option ObjectType :=
  [tile, vertex, edge, patch, cluster, lambda].find? fun t => t.name == name

/-- The name of the kind of node that holds objects of the type. -/
def ObjectType.nodeName : ObjectType → String
  | tile => "Tile"
  | vertex => "Vertex"
  | edge => "Edge"
  | patch => "Patch"
  | cluster => "Cluster"
  | lambda => "Lambda"

/-- What an object can store. -/
inductive Datum where
  | nil
  | number (n : Number)
  | text (s : String)
  | bool (b : Bool)
  | object (type : ObjectType) (id : NodeId)
deriving DecidableEq, Repr, Inhabited

namespace Datum

def typeName : Datum → String
  | nil => "nil"
  | number _ => "number"
  | text _ => "string"
  | bool _ => "bool"
  | object type _ => type.name

/-- The node of an object. -/
def node? : Datum → Option NodeId
  | object _ id => some id
  | _ => none

end Datum

/-- A datum, or the right to assign the field `field` of the object bound to `binding`. -/
inductive Value where
  | datum (d : Datum)
  | fieldRef (binding field : Name)
deriving DecidableEq, Repr

namespace Value

instance : Coe Datum Value := ⟨datum⟩

instance : Inhabited Value := ⟨datum .nil⟩

abbrev nil : Value := datum .nil

abbrev number (n : Number) : Value := datum (.number n)

abbrev text (s : String) : Value := datum (.text s)

abbrev bool (b : Bool) : Value := datum (.bool b)

abbrev object (type : ObjectType) (id : NodeId) : Value := datum (.object type id)

abbrev count (n : Nat) : Value := number (.ofNat n)

def typeName : Value → String
  | datum d => d.typeName
  | fieldRef .. => "field-ref"

def node? : Value → Option NodeId
  | datum d => d.node?
  | fieldRef .. => none

def isObject (v : Value) : Bool := v.node?.isSome

/-- The datum, as an object stores it. -/
def toDatum : Value → Except Failure Datum
  | datum d => .ok d
  | fieldRef .. => .error Cause.cannotCopyFieldRef

def toNumber : Value → Except Failure Number
  | datum (.number n) => .ok n
  | v => .error (Cause.typeMismatch "number" v.typeName)

def toBool : Value → Except Failure Bool
  | datum (.bool b) => .ok b
  | v => .error (Cause.typeMismatch "bool" v.typeName)

/-- The node of an object of the type. -/
def toObject (type : ObjectType) : Value → Except Failure NodeId
  | v@(datum (.object t id)) =>
    if t = type then .ok id else .error (Cause.typeMismatch type.name v.typeName)
  | v => .error (Cause.typeMismatch type.name v.typeName)

end Value

end Mosaic
