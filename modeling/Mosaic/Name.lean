import Std.Data.ExtTreeSet

/-!
# Names

Variable, parameter and field names, ordered as their texts. The names `$1`, `$2`, … are positional:
a call binds its arguments to them.
-/

namespace Mosaic

structure Name where
  text : String
deriving DecidableEq, Repr, Inhabited

namespace Name

instance : Coe String Name := ⟨Name.mk⟩

instance : ToString Name := ⟨Name.text⟩

instance : Ord Name := ⟨fun a b => compare a.text b.text⟩

instance : Std.TransOrd Name where
  eq_swap {a b} := Std.OrientedOrd.eq_swap (a := a.text) (b := b.text)
  isLE_trans {a b c} h₁ h₂ :=
    Std.TransOrd.isLE_trans (a := a.text) (b := b.text) (c := c.text) h₁ h₂

instance : Std.LawfulEqOrd Name where
  eq_of_compare {a b} h :=
    congrArg Name.mk (Std.LawfulEqOrd.eq_of_compare (a := a.text) (b := b.text) h)

/-- The name that binds the `i`-th argument of a call, counted from one. -/
def positional (i : Nat) : Name := ⟨"$" ++ toString i⟩

/-- A dollar sign and at least one digit. -/
def isPositional (n : Name) : Bool :=
  match n.text.toList with
  | '$' :: d :: ds => (d :: ds).all Char.isDigit
  | _ => false

/-- The distinct names of a list, in order. -/
def sorted (ns : List Name) : List Name := (Std.ExtTreeSet.ofList ns compare).toList

end Name

end Mosaic
