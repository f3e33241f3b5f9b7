import Std.Data.ExtTreeMap
import Mosaic.Program

/-!
# Literal objects

A program that mentions an object holds its node by a handle. The handle belongs to the text of the
program: all lambdas made from one text share its handles, and so do their copies. `giveHandles`
turns every object in a program into a literal with a handle of its own, and `programTethers` lists
the handles of a program. Handles are numbered from 1; an object that was not given a handle goes by
the number 0.
-/

namespace Mosaic

open Mosaic.Graph (Tether)

mutual

/-- The item with handles from `next` on, and the first handle that is still free. -/
def Item.giveHandles (next : Nat) : Item → Item × Nat
  | .value (.datum (.object type id)) => (.literal next type id, next + 1)
  | .op op line =>
    let (op, next) := op.giveHandles next
    (.op op line, next)
  | item => (item, next)

def Op.giveHandles (next : Nat) : Op → Op × Nat
  | .branch yes no =>
    let (yes, next) := giveHandles next yes
    let (no, next) := giveHandles next no
    (.branch yes no, next)
  | .iterate var index body =>
    let (body, next) := giveHandles next body
    (.iterate var index body, next)
  | .makeLambda params body free =>
    let (body, next) := giveHandles next body
    (.makeLambda params body free, next)
  | op => (op, next)

/-- The program with handles from `next` on, and the first handle that is still free. -/
def giveHandles (next : Nat) : List Item → List Item × Nat
  | [] => ([], next)
  | item :: items =>
    let (item, next) := item.giveHandles next
    let (items, next) := giveHandles next items
    (item :: items, next)

end

mutual

def Item.tethers : Item → List Tether
  | .value v => v.node?.toList.map (0, ·)
  | .literal handle _ id => [(handle, id)]
  | .op op _ => op.tethers
  | _ => []

def Op.tethers : Op → List Tether
  | .branch yes no => programTethers yes ++ programTethers no
  | .iterate _ _ body => programTethers body
  | .makeLambda _ body _ => programTethers body
  | _ => []

/-- The handles of a program, each with the node it holds. -/
def programTethers : List Item → List Tether
  | [] => []
  | item :: items => item.tethers ++ programTethers items

end

end Mosaic
