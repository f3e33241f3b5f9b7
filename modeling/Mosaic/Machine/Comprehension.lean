import Mosaic.Machine.Basic

/-!
# Comprehensions

The first round opens a cluster for the results. Every later round adds the value of the body for
the last element, and then either runs the body for the next element, in a frame of its own, or
closes the cluster. The source goes along as an operand.
-/

namespace Mosaic.MachineM

open Mosaic.Graph (NodeId)

/-- The element of a source at an index: an item of a cluster, or a number below a count. -/
def element? (source : Value) (index : Nat) : MachineM (Option Value) := do
  match source with
  | .datum (.object .cluster id) =>
    onStore do
      let items := (← StoreM.fetch Object.clusters id).items
      items[index]?.mapM StoreM.load
  | .datum (.number n) =>
    match n.toIndex? with
    | some count => return if index < count then some (.count index) else none
    | none => fail (.typeMismatch "count" "non-integral number")
  | _ => fail (.typeMismatch "cluster" source.typeName)

def noOpenCluster : Cause := .malformedProgram "iterate has no open cluster"

/-- The round for one element, and the operation that follows it. -/
def round (var : Name) (index : Nat) (body : Program) (source element : Value) : Program :=
  [.op .pushFrame none, .value element, .var var, .op (.assign 1) none] ++ body ++
    [.op .popFrame none, .value source, .op (.iterate var (index + 1) body) none]

/-- Starts the round at an index, or closes the cluster. -/
def schedule (var : Name) (index : Nat) (body : Program) (source : Value) : MachineM Effect := do
  match ← element? source index with
  | some element => return .items (round var index body source element)
  | none =>
    let m ← get
    match m.builders with
    | [] => fail noOpenCluster
    | builder :: builders =>
      set { m with builders }
      return .value (.object .cluster builder)

/-- Opens a cluster and starts the first round. The source and the body are held meanwhile. -/
def openCluster (var : Name) (body : Program) (source : Operand) : MachineM Effect := do
  let source ← ofExcept source.toValue
  let builder ← keeping (source.node?.toList ++ programNodes body) (onStore (StoreM.allocate (.cluster {})))
  modify fun m => { m with builders := builder :: m.builders }
  schedule var 0 body source

/-- Adds a result to the innermost open cluster and starts the next round. -/
def addResult (var : Name) (index : Nat) (body : Program) (result source : Operand) :
    MachineM Effect := do
  let result ← ofExcept result.toValue
  let source ← ofExcept source.toValue
  let d ← ofExcept result.toDatum
  match (← get).builders with
  | [] => fail noOpenCluster
  | builder :: _ =>
    onStore <| StoreM.update Object.clusters builder fun c => { c with items := c.items ++ [d] }
    schedule var index body source

end Mosaic.MachineM
