import Mosaic.Text.Quoted
import Mosaic.Value

/-!
# Memo keys

The text under which the result of a call is remembered: the node of the lambda, then the arguments,
scalars by what they are and objects by their nodes. A call with a lambda or a field reference among
its arguments has no key.
-/

namespace Mosaic

open Mosaic.Graph (NodeId)

def Value.memoText? : Value → Option String
  | .datum .nil => some "nil"
  | .datum (.bool b) => some (toString b)
  | .datum (.number n) => some n.exactText
  | .datum (.text s) => some (Text.quoted s)
  | .datum (.object .lambda _) => none
  | .datum (.object t id) => some (t.name ++ id.text)
  | .fieldRef .. => none

/-- The key of a call. -/
def memoKey? (callee : NodeId) (args : List Value) : Option String := do
  let args ← args.mapM Value.memoText?
  return "lambda" ++ callee.text ++ "(" ++ ",".intercalate args ++ ")"

end Mosaic
