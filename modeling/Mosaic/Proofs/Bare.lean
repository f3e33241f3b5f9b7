import Mosaic.Machine.Basic
import Mosaic.Primitive.Apply
import Mosaic.Proofs.Store.Actions

/-!
# Failures that tell only a cause

Where a failure arises it is bare: it has a cause, and no line and no backtrace, which only the machine adds.
What is computed without the store, of values, operands and scopes, fails with bare failures only.
-/

namespace Mosaic

/-- The failure tells neither a line nor calls. -/
def Failure.Bare (f : Failure) : Prop := f.line = none ∧ f.backtrace = []

theorem Failure.Bare.of_cause {cause : Cause} : ({ cause } : Failure).Bare := ⟨rfl, rfl⟩

/-! ## Results -/

/-- If the result is a failure, it is bare. -/
def Bare {α : Type} (y : Except Failure α) : Prop := ∀ failure, y = .error failure → failure.Bare

namespace Bare

variable {α β : Type} {y : Except Failure α}

theorem ok {a : α} : Bare (.ok a) := fun _ h => by cases h

theorem error {cause : Cause} : Bare (.error { cause } : Except Failure α) := fun _ h => by cases h; exact .of_cause

theorem bind {f : α → Except Failure β} (hy : Bare y) (hf : ∀ a, Bare (f a)) : Bare (y >>= f) := by
  cases y with
  | ok a => exact hf a
  | error failure => exact fun _ h => by cases h; exact hy failure rfl

theorem map (hy : Bare y) (f : α → β) : Bare (y.map f) := by
  cases y with
  | ok a => exact ok
  | error failure => exact fun _ h => by cases h; exact hy failure rfl

theorem mapM {f : β → Except Failure α} (hf : ∀ b, Bare (f b)) (l : List β) : Bare (l.mapM f) := by
  intro failure h
  obtain ⟨b, -, hb⟩ := exists_of_mapM_error h
  exact hf b failure hb

theorem toDatum (v : Value) : Bare v.toDatum := by
  cases v
  · exact ok
  · exact error

theorem toNumber (v : Value) : Bare v.toNumber := by
  unfold Value.toNumber
  split
  · exact ok
  · exact error

theorem toBool (v : Value) : Bare v.toBool := by
  unfold Value.toBool
  split
  · exact ok
  · exact error

theorem toObject (t : ObjectType) (v : Value) : Bare (v.toObject t) := by
  unfold Value.toObject
  split
  · split
    · exact ok
    · exact error
  · exact error

theorem unary (f : Number → Number) (a : Value) : Bare (Primitive.unary f a) :=
  bind (toNumber a) fun _ => ok

theorem binary (f : Number → Number → Number) (a b : Value) : Bare (Primitive.binary f a b) :=
  bind (toNumber a) fun _ => bind (toNumber b) fun _ => ok

theorem comparison (holds : Ordering → Bool) (a b : Value) : Bare (Primitive.comparison holds a b) :=
  bind (toNumber a) fun _ => bind (toNumber b) fun _ => ok

theorem logical (f : Bool → Bool → Bool) (a b : Value) : Bare (Primitive.logical f a b) :=
  bind (toBool a) fun _ => bind (toBool b) fun _ => ok

theorem quotient (a b : Value) : Bare (Primitive.quotient a b) := by
  refine bind (toNumber a) fun _ => bind (toNumber b) fun _ => ?_
  dsimp only
  split
  · exact error
  · exact ok

theorem squareRoot (a : Value) : Bare (Primitive.squareRoot a) := by
  refine bind (toNumber a) fun _ => ?_
  dsimp only
  split
  · exact error
  · exact ok

end Bare

/-! ## Scopes and operands -/

namespace Bare

theorem toValue (o : Operand) : Bare o.toValue := by
  cases o
  · exact ok
  · exact error

theorem toVariable (o : Operand) : Bare o.toVariable := by
  cases o
  · exact error
  · exact ok

variable (s : Scopes)

theorem modifyFrame (g : Frame → Frame) : Bare (s.modifyFrame g) := by
  unfold Scopes.modifyFrame
  split
  · exact error
  · split
    · exact error
    · exact ok

theorem assign (name : Name) (v : Value) : Bare (s.assign name v) := by
  unfold Scopes.assign
  split
  · exact error
  · split
    · exact ok
    · exact error

theorem popContext : Bare s.popContext := by
  unfold Scopes.popContext
  split
  · exact error
  · exact ok

theorem pushFrame : Bare s.pushFrame := by
  unfold Scopes.pushFrame
  split
  · exact error
  · exact ok

theorem popFrame : Bare s.popFrame := by
  unfold Scopes.popFrame
  split
  · exact error
  · split
    · exact error
    · exact ok

end Bare

end Mosaic
