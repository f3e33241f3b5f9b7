import Mosaic.Store.Tiling

/-!
# What primitives compute

Each primitive takes its arguments in order, and the first of the wrong type decides the failure.
-/

namespace Mosaic

open Mosaic.Graph (NodeId)

namespace Primitive

def unary (f : Number → Number) (a : Value) : Except Failure Value := do
  return .number (f (← a.toNumber))

def binary (f : Number → Number → Number) (a b : Value) : Except Failure Value := do
  let a ← a.toNumber
  return .number (f a (← b.toNumber))

/-- A comparison; none holds of what is not a number. -/
def comparison (holds : Ordering → Bool) (a b : Value) : Except Failure Value := do
  let a ← a.toNumber
  return .bool ((a.compare? (← b.toNumber)).any holds)

def logical (f : Bool → Bool → Bool) (a b : Value) : Except Failure Value := do
  let a ← a.toBool
  return .bool (f a (← b.toBool))

def quotient (a b : Value) : Except Failure Value := do
  let a ← a.toNumber
  let b ← b.toNumber
  if b.isZero then throw (Cause.divisionByZero : Failure)
  return .number (a.div b)

def squareRoot (a : Value) : Except Failure Value := do
  let a ← a.toNumber
  if a.isNegative then throw (Cause.outOfDomain "sqrt" a.text : Failure)
  return .number a.sqrt

/-- The items of a cluster. -/
def itemsOf (v : Value) : StoreM (List Datum) := do
  return (← StoreM.fetch Object.clusters (← StoreM.ofExcept (v.toObject .cluster))).items

def itemAt (cluster index : Value) : StoreM Value := do
  let id ← StoreM.ofExcept (cluster.toObject .cluster)
  let index ← StoreM.ofExcept index.toNumber
  let items := (← StoreM.fetch Object.clusters id).items
  match index.toIndex?.bind fun i => items[i]? with
  | some d => StoreM.load d
  | none => StoreM.undefinedField index.text .cluster

def regularTile (sides : Value) : StoreM Value := do
  let sides ← StoreM.ofExcept sides.toNumber
  match sides.toIndex? with
  | some n => return .object .tile (← StoreM.makeTile (Plane.regularPolygon n))
  | none => StoreM.fail (.invalidGeometry ("cannot make a " ++ sides.text ++ "-gon"))

def patchOf (v : Value) : StoreM Value := do
  let tiles ← (← itemsOf v).mapM fun d => do
    let tile ← StoreM.load d
    StoreM.ofExcept (tile.toObject .tile)
  return .object .patch (← StoreM.keeping tiles (StoreM.makePatch tiles))

/-- The value of a primitive at its arguments. -/
def apply (f : Primitive) (args : List Value) : StoreM Value :=
  match f, args with
  | add, [a, b] => StoreM.ofExcept (binary Number.add a b)
  | sub, [a, b] => StoreM.ofExcept (binary Number.sub a b)
  | mul, [a, b] => StoreM.ofExcept (binary Number.mul a b)
  | div, [a, b] => StoreM.ofExcept (quotient a b)
  | pow, [a, b] => StoreM.ofExcept (binary Number.pow a b)
  | neg, [a] => StoreM.ofExcept (unary Number.neg a)
  | sin, [a] => StoreM.ofExcept (unary Number.sin a)
  | cos, [a] => StoreM.ofExcept (unary Number.cos a)
  | sqrt, [a] => StoreM.ofExcept (squareRoot a)
  | and, [a, b] => StoreM.ofExcept (logical (· && ·) a b)
  | or, [a, b] => StoreM.ofExcept (logical (· || ·) a b)
  | not, [a] => StoreM.ofExcept do return .bool !(← a.toBool)
  | eq, [a, b] => return .bool (a = b)
  | ne, [a, b] => return .bool (a ≠ b)
  | lt, [a, b] => StoreM.ofExcept (comparison Ordering.isLT a b)
  | le, [a, b] => StoreM.ofExcept (comparison Ordering.isLE a b)
  | gt, [a, b] => StoreM.ofExcept (comparison Ordering.isGT a b)
  | ge, [a, b] => StoreM.ofExcept (comparison Ordering.isGE a b)
  | len, [a] => do return .count (← itemsOf a).length
  | item, [a, b] => itemAt a b
  | regular, [a] => regularTile a
  | polygon, [a] => do return .object .tile (← StoreM.makeTile (← StoreM.pointsOf a))
  | patch, [a] => patchOf a
  | cluster _, args => StoreM.makeCluster args
  | _, _ => StoreM.fail (.malformedProgram "missing operand")

end Primitive

end Mosaic
