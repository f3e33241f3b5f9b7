import Std.Data.ExtTreeMap
import Mosaic.Value

/-!
# Scopes

A frame binds names to values. A context is the frames of one active call, and the stack of contexts
has one for each call. Names are looked up in the innermost context only, its innermost frame first:
what a body needs from elsewhere is in its closure. Frames and contexts are listed innermost first.
-/

namespace Mosaic

open Mosaic.Graph (NodeId)

/-- The bindings of one block. -/
structure Frame where
  bindings : Std.ExtTreeMap Name Value compare := {}
  /-- The lambdas made here whose closures are not complete yet, oldest first. -/
  parked : List NodeId := []

namespace Frame

def define (f : Frame) (name : Name) (v : Value) : Frame :=
  { f with bindings := f.bindings.insert name v }

def lookup? (f : Frame) (name : Name) : Option Value := f.bindings[name]?

def size (f : Frame) : Nat := f.bindings.size

/-- The nodes that the frame keeps alive. -/
def nodes (f : Frame) : List NodeId := f.bindings.values.filterMap Value.node? ++ f.parked

@[simp] theorem lookup?_empty (name : Name) : lookup? {} name = none := by
  simp [lookup?]

theorem lookup?_define (f : Frame) (name n : Name) (v : Value) :
    (f.define name v).lookup? n = if name = n then some v else f.lookup? n := by
  simp [define, lookup?, Std.ExtTreeMap.getElem?_insert]

end Frame

/-- The frames of one call. -/
structure Context where
  frames : List Frame := [{}]
  /-- The label of the lambda that is called. -/
  label : Option Name := none

namespace Context

/-- The value of a name in the innermost frame that binds it. -/
def lookup? (c : Context) (name : Name) : Option Value :=
  c.frames.findSome? fun f => f.lookup? name

def nodes (c : Context) : List NodeId := c.frames.flatMap Frame.nodes

/-- Rebinds a name in the innermost frame that binds it. -/
def assign? (name : Name) (v : Value) : List Frame → Option (List Frame)
  | [] => none
  | f :: fs =>
    if f.bindings.contains name then some (f.define name v :: fs)
    else (assign? name v fs).map (f :: ·)

end Context

/-- How deep a stack of contexts is: the contexts, and the frames of the innermost one. -/
structure Checkpoint where
  contexts : Nat
  frames : Nat
deriving DecidableEq, Repr

def Checkpoint.text (c : Checkpoint) : String :=
  "Checkpoint \x7b contexts: " ++ toString c.contexts ++ ", frames: " ++ toString c.frames ++
    " \x7d"

/-- The contexts of the active calls. -/
structure Scopes where
  contexts : List Context := [{}]

namespace Scopes

def noContext : Failure := { cause := .scopeUnderflow "evaluation context" }

def noFrame : Failure := { cause := .scopeUnderflow "scope frame" }

def depth (s : Scopes) : Nat := s.contexts.length

def checkpoint (s : Scopes) : Checkpoint :=
  ⟨s.contexts.length, (s.contexts.head?.map fun c => c.frames.length).getD 0⟩

/-- The labels of the active calls, outermost first. -/
def backtrace (s : Scopes) : List Name := s.contexts.reverse.filterMap Context.label

/-- The nodes that the scopes keep alive. -/
def nodes (s : Scopes) : List NodeId := s.contexts.flatMap Context.nodes

/-! ## Contexts and frames -/

def pushContext (s : Scopes) (c : Context) : Scopes := ⟨c :: s.contexts⟩

def popContext (s : Scopes) : Except Failure (Context × Scopes) :=
  match s.contexts with
  | [] => .error noContext
  | c :: cs => .ok (c, ⟨cs⟩)

def pushFrame (s : Scopes) : Except Failure Scopes :=
  match s.contexts with
  | [] => .error noContext
  | c :: cs => .ok ⟨{ c with frames := {} :: c.frames } :: cs⟩

def popFrame (s : Scopes) : Except Failure (Frame × Scopes) :=
  match s.contexts with
  | [] => .error noContext
  | c :: cs =>
    match c.frames with
    | [] => .error noFrame
    | f :: fs => .ok (f, ⟨{ c with frames := fs } :: cs⟩)

/-- The last `n` elements of a list, or the whole list after as many new ones as are missing. -/
def fitLast {α : Type} (fresh : α) (n : Nat) (xs : List α) : List α :=
  List.replicate (n - xs.length) fresh ++ xs.drop (xs.length - n)

/-- Goes back to the depths of a checkpoint. What was pushed since is dropped, and what was popped
since is replaced by empty contexts and frames. -/
def restore (s : Scopes) (c : Checkpoint) : Scopes :=
  match fitLast {} c.contexts s.contexts with
  | [] => ⟨[]⟩
  | innermost :: cs => ⟨{ innermost with frames := fitLast {} c.frames innermost.frames } :: cs⟩

/-! ## Bindings -/

/-- Changes the innermost frame. -/
def modifyFrame (s : Scopes) (f : Frame → Frame) : Except Failure Scopes :=
  match s.contexts with
  | [] => .error noContext
  | c :: cs =>
    match c.frames with
    | [] => .error noFrame
    | frame :: frames => .ok ⟨{ c with frames := f frame :: frames } :: cs⟩

/-- Binds a name in the innermost frame. -/
def define (s : Scopes) (name : Name) (v : Value) : Except Failure Scopes :=
  s.modifyFrame fun f => f.define name v

def lookup? (s : Scopes) (name : Name) : Option Value :=
  s.contexts.head?.bind fun c => c.lookup? name

/-- Rebinds a name in the innermost frame that binds it. -/
def assign (s : Scopes) (name : Name) (v : Value) : Except Failure Scopes :=
  match s.contexts with
  | [] => .error noContext
  | c :: cs =>
    match Context.assign? name v c.frames with
    | some frames => .ok ⟨{ c with frames } :: cs⟩
    | none => .error { cause := .undefinedVariable name }

/-- Sets a lambda aside in the innermost frame until its closure can be completed. -/
def park (s : Scopes) (lambda : NodeId) : Except Failure Scopes :=
  s.modifyFrame fun f => { f with parked := f.parked ++ [lambda] }

/-- The lambdas that are set aside in the innermost frame. -/
def parked (s : Scopes) : List NodeId :=
  ((s.contexts.head?.bind fun c => c.frames.head?).map Frame.parked).getD []

/-- Takes the lambdas that were set aside in the innermost frame. -/
def takeParked (s : Scopes) : Except Failure (List NodeId × Scopes) :=
  (s.modifyFrame fun f => { f with parked := [] }).map fun rest => (s.parked, rest)

end Scopes

end Mosaic
