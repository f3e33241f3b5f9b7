import Mosaic.Expr

/-!
# What an expression demands

`Expr.reads` takes the names that a block binds out of everything in it. But a block binds one name after the
other, and a value is evaluated, and its lambdas are made, before the names that come after are bound. The
names that are looked up where the expression stands are its demands: those of a block are found from its end,
where each binding takes its targets out of what comes after it (`blockDemands`). What is demanded and not read in
the first sense are the names that a block of the expression demands before it binds them (`Expr.early`,
`Expr.mem_demands_iff`).
-/

namespace Mosaic

/-! ## Demands -/

mutual

/-- The names that an expression looks up where it stands. A block binds its names in their order. -/
def Expr.demands : Expr → List Name
  | .number _ | .text _ | .bool _ | .nil => []
  | .var name => [name]
  | .cluster items => demandsAll items
  | .binary _ lhs rhs => lhs.demands ++ rhs.demands
  | .unary _ operand => operand.demands
  | .primitive _ args => demandsAll args
  | .cond test yes no => test.demands ++ yes.demands ++ no.demands
  | .letIn bindings body => blockDemands body.demands bindings
  -- A lambda looks up what its body reads, in whatever order the body binds it.
  | .lambda _ params body => body.reads.filter fun n => !n.isPositional && !params.contains n
  | .call callee args => callee.demands ++ demandsAll args
  | .field object _ => object.demands
  | .comprehension var source body => source.demands ++ body.demands.filter fun n => n != var
  | .located _ e => e.demands

def demandsAll : List Expr → List Name
  | [] => []
  | e :: es => e.demands ++ demandsAll es

/-- The demands of the bindings and then of the names in `rest`. -/
def blockDemands (rest : List Name) : List Binding → List Name
  | [] => rest
  | .bind targets value :: bs =>
    value.demands ++ (blockDemands rest bs).filter fun n => !targets.contains n
  | .setField targets value :: bs => value.demands ++ targets.map Prod.fst ++ blockDemands rest bs

end

/-! ## Names that are demanded before they are bound -/

mutual

/-- The names that are demanded because some block, outside the bodies of lambdas, demands them before it binds
them. -/
def Expr.early : Expr → List Name
  | .number _ | .text _ | .bool _ | .nil | .var _ | .lambda .. => []
  | .cluster items => earlyAll items
  | .binary _ lhs rhs => lhs.early ++ rhs.early
  | .unary _ operand => operand.early
  | .primitive _ args => earlyAll args
  | .cond test yes no => test.early ++ yes.early ++ no.early
  | .letIn bindings body =>
    let bound := bindings.flatMap Binding.targets
    (blockDemands body.demands bindings).filter bound.contains ++
      (body.early ++ earlyBindings bindings).filter fun n => !bound.contains n
  | .call callee args => callee.early ++ earlyAll args
  | .field object _ => object.early
  | .comprehension var source body => source.early ++ body.early.filter fun n => n != var
  | .located _ e => e.early

def earlyAll : List Expr → List Name
  | [] => []
  | e :: es => e.early ++ earlyAll es

def earlyBindings : List Binding → List Name
  | [] => []
  | .bind _ value :: bs => value.early ++ earlyBindings bs
  | .setField _ value :: bs => value.early ++ earlyBindings bs

end

theorem Name.mem_sorted {ns : List Name} {n : Name} : n ∈ sorted ns ↔ n ∈ ns := by
  rw [sorted, Std.ExtTreeSet.mem_toList, Std.ExtTreeSet.mem_ofList, List.contains_iff_mem]

theorem mem_free_ofReads {label n : Name} {params : List Name} {program : Program} {body : Expr} :
    n ∈ (Template.ofReads params program body.reads).free ↔ n ∈ (Expr.lambda label params body).demands := by
  simp only [Template.ofReads, Name.mem_sorted, Expr.demands]

/-! ## Demands and dependencies -/

section

variable {n : Name} {a b c a' b' c' : List Name}

theorem mem_append_iff_or (h : n ∈ a ↔ n ∈ b ∨ n ∈ c) (h' : n ∈ a' ↔ n ∈ b' ∨ n ∈ c') :
    n ∈ a ++ a' ↔ n ∈ b ++ b' ∨ n ∈ c ++ c' := by
  rw [List.mem_append, List.mem_append, List.mem_append, h, h', or_or_or_comm]

theorem mem_filter_iff_or (h : n ∈ a ↔ n ∈ b ∨ n ∈ c) (p : Name → Bool) :
    n ∈ a.filter p ↔ n ∈ b.filter p ∨ n ∈ c.filter p := by
  rw [List.mem_filter, List.mem_filter, List.mem_filter, h, or_and_right]

end

mutual

theorem Expr.mem_demands_iff_reads (n : Name) : ∀ e : Expr, n ∈ e.demands ↔ n ∈ e.reads ∨ n ∈ e.early
  | .number _ | .text _ | .bool _ | .nil | .var _ | .lambda .. => (or_iff_left List.not_mem_nil).symm
  | .cluster items => mem_demandsAll_iff n items
  | .binary _ lhs rhs => mem_append_iff_or (lhs.mem_demands_iff_reads n) (rhs.mem_demands_iff_reads n)
  | .unary _ operand => operand.mem_demands_iff_reads n
  | .primitive _ args => mem_demandsAll_iff n args
  | .cond test yes no =>
    mem_append_iff_or (mem_append_iff_or (test.mem_demands_iff_reads n) (yes.mem_demands_iff_reads n))
      (no.mem_demands_iff_reads n)
  | .letIn bindings body => by
    have hbody := body.mem_demands_iff_reads n
    simp only [Expr.demands, Expr.reads, Expr.early, List.mem_append, List.mem_filter, Bool.not_eq_true',
      List.contains_eq_mem, decide_eq_true_eq, decide_eq_false_iff_not]
    by_cases hbound : n ∈ bindings.flatMap Binding.targets
    · simp only [hbound, not_true_eq_false, and_true, and_false, or_false, false_or]
    · rw [mem_blockDemands_iff n body.demands bindings hbound, hbody]
      simp only [hbound, not_false_eq_true, and_true, and_false, false_or]
      rw [or_or_or_comm]
  | .call callee args => mem_append_iff_or (callee.mem_demands_iff_reads n) (mem_demandsAll_iff n args)
  | .field object _ => object.mem_demands_iff_reads n
  | .comprehension var source body =>
    mem_append_iff_or (source.mem_demands_iff_reads n) (mem_filter_iff_or (body.mem_demands_iff_reads n) _)
  | .located _ e => e.mem_demands_iff_reads n

theorem mem_demandsAll_iff (n : Name) : ∀ es : List Expr, n ∈ demandsAll es ↔ n ∈ readsAll es ∨ n ∈ earlyAll es
  | [] => (or_iff_left List.not_mem_nil).symm
  | e :: es => mem_append_iff_or (e.mem_demands_iff_reads n) (mem_demandsAll_iff n es)

/-- Of a name that a block does not bind, the order of its bindings does not matter. -/
theorem mem_blockDemands_iff (n : Name) (rest : List Name) : ∀ bs : List Binding,
    n ∉ bs.flatMap Binding.targets →
      (n ∈ blockDemands rest bs ↔ n ∈ rest ∨ n ∈ bindingReads bs ∨ n ∈ earlyBindings bs)
  | [], _ => by simp [blockDemands, bindingReads, earlyBindings]
  | .bind targets value :: bs, hn => by
    rw [List.flatMap_cons, List.mem_append, not_or] at hn
    have hvalue := value.mem_demands_iff_reads n
    have hbs := mem_blockDemands_iff n rest bs hn.2
    have htargets : targets.contains n = false := by simpa [Binding.targets] using hn.1
    simp only [blockDemands, bindingReads, earlyBindings, List.mem_append, List.mem_filter, hvalue, hbs, htargets,
      Bool.not_false, and_true]
    rw [or_left_comm, or_or_or_comm]
  | .setField targets value :: bs, hn => by
    rw [List.flatMap_cons, List.mem_append, not_or] at hn
    have hvalue := value.mem_demands_iff_reads n
    have hbs := mem_blockDemands_iff n rest bs hn.2
    simp only [blockDemands, bindingReads, earlyBindings, List.mem_append, hvalue, hbs]
    rw [or_left_comm, or_right_comm (a := n ∈ value.reads), or_comm (a := n ∈ value.reads), or_or_or_comm]

end

/-- The names that an expression demands are its dependencies, and those that the walk misses. -/
theorem Expr.mem_demands_iff {e : Expr} {n : Name} : n ∈ e.demands ↔ n ∈ e.dependencies ∨ n ∈ e.early := by
  rw [e.mem_demands_iff_reads n, dependencies, Name.mem_sorted]

end Mosaic
