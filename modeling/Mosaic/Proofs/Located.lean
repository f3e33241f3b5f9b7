import Mosaic.Proofs.Guise.Run
import Mosaic.Proofs.Machine.Step

/-!
# Source positions

The positions in an expression put lines on its operations and its errors, and the code is otherwise that
of the expression without positions. There is one exception: a call without arguments whose callee is a
variable is a mere lookup, which calls already, but if the variable has a position it is looked up and the
result is called again. Expressions without such calls are `Transparent`. Runs of programs that differ in
lines end alike, and leave machines that differ in lines.
-/

namespace Mosaic

open Mosaic.Graph (NodeId)

/-! ## Expressions without positions -/

mutual

/-- The expression without its source positions. -/
def Expr.strip : Expr → Expr
  | .number n => .number n
  | .text s => .text s
  | .bool b => .bool b
  | .nil => .nil
  | .var name => .var name
  | .cluster items => .cluster (stripAll items)
  | .binary op lhs rhs => .binary op lhs.strip rhs.strip
  | .unary op operand => .unary op operand.strip
  | .primitive name args => .primitive name (stripAll args)
  | .cond test yes no => .cond test.strip yes.strip no.strip
  | .letIn bindings body => .letIn (stripBindings bindings) body.strip
  | .lambda label params body => .lambda label params body.strip
  | .call callee args => .call callee.strip (stripAll args)
  | .field object name => .field object.strip name
  | .comprehension var source body => .comprehension var source.strip body.strip
  | .located _ e => e.strip

def stripAll : List Expr → List Expr
  | [] => []
  | e :: es => e.strip :: stripAll es

def stripBindings : List Binding → List Binding
  | [] => []
  | .bind targets value :: bs => .bind targets value.strip :: stripBindings bs
  | .setField targets value :: bs => .setField targets value.strip :: stripBindings bs

end

mutual

/-- No call without arguments has a variable with a position as its callee. -/
def Expr.Transparent : Expr → Prop
  | .number _ | .text _ | .bool _ | .nil | .var _ => True
  | .cluster items => TransparentAll items
  | .binary _ lhs rhs => lhs.Transparent ∧ rhs.Transparent
  | .unary _ operand => operand.Transparent
  | .primitive _ args => TransparentAll args
  | .cond test yes no => test.Transparent ∧ yes.Transparent ∧ no.Transparent
  | .letIn bindings body => TransparentBindings bindings ∧ body.Transparent
  | .lambda _ _ body => body.Transparent
  | .call callee args =>
    (args = [] → ∀ name, callee.strip = .var name → callee = .var name) ∧ callee.Transparent ∧
      TransparentAll args
  | .field object _ => object.Transparent
  | .comprehension _ source body => source.Transparent ∧ body.Transparent
  | .located _ e => e.Transparent

def TransparentAll : List Expr → Prop
  | [] => True
  | e :: es => e.Transparent ∧ TransparentAll es

def TransparentBindings : List Binding → Prop
  | [] => True
  | .bind _ value :: bs => value.Transparent ∧ TransparentBindings bs
  | .setField _ value :: bs => value.Transparent ∧ TransparentBindings bs

end

@[simp] theorem length_stripAll (es : List Expr) : (stripAll es).length = es.length := by
  induction es with
  | nil => rfl
  | cons e es ih => simp [stripAll, ih]

@[simp] theorem targets_stripBindings (bs : List Binding) :
    (stripBindings bs).flatMap Binding.targets = bs.flatMap Binding.targets := by
  induction bs with
  | nil => rfl
  | cons b bs ih => cases b <;> simp [stripBindings, Binding.targets, ih]

mutual

@[simp] theorem Expr.reads_strip : ∀ e : Expr, e.strip.reads = e.reads
  | .number _ | .text _ | .bool _ | .nil | .var _ => rfl
  | .cluster items => by simp [Expr.strip, Expr.reads, readsAll_strip items]
  | .binary _ lhs rhs => by simp [Expr.strip, Expr.reads, Expr.reads_strip lhs, Expr.reads_strip rhs]
  | .unary _ operand => by simp [Expr.strip, Expr.reads, Expr.reads_strip operand]
  | .primitive _ args => by simp [Expr.strip, Expr.reads, readsAll_strip args]
  | .cond test yes no => by
    simp [Expr.strip, Expr.reads, Expr.reads_strip test, Expr.reads_strip yes, Expr.reads_strip no]
  | .letIn bindings body => by
    simp [Expr.strip, Expr.reads, Expr.reads_strip body, bindingReads_strip bindings]
  | .lambda _ _ body => by simp [Expr.strip, Expr.reads, Expr.reads_strip body]
  | .call callee args => by
    simp [Expr.strip, Expr.reads, Expr.reads_strip callee, readsAll_strip args]
  | .field object _ => by simp [Expr.strip, Expr.reads, Expr.reads_strip object]
  | .comprehension _ source body => by
    simp [Expr.strip, Expr.reads, Expr.reads_strip source, Expr.reads_strip body]
  | .located _ e => by simp [Expr.strip, Expr.reads, Expr.reads_strip e]

@[simp] theorem readsAll_strip : ∀ es : List Expr, readsAll (stripAll es) = readsAll es
  | [] => rfl
  | e :: es => by simp [stripAll, readsAll, Expr.reads_strip e, readsAll_strip es]

@[simp] theorem bindingReads_strip : ∀ bs : List Binding, bindingReads (stripBindings bs) = bindingReads bs
  | [] => rfl
  | .bind _ value :: bs => by
    simp [stripBindings, bindingReads, Expr.reads_strip value, bindingReads_strip bs]
  | .setField _ value :: bs => by
    simp [stripBindings, bindingReads, Expr.reads_strip value, bindingReads_strip bs]

end

/-! ## Code without lines -/

theorem relined_vars {ℓ : Lines} (names : List Name) : relined ℓ (names.map Item.var) = names.map Item.var := by
  induction names with
  | nil => rfl
  | cons name names ih => rw [List.map_cons, relined_cons, ih]; rfl

theorem relined_fieldTargets (line line' : Option Nat) (targets : List (Name × Name)) :
    relined .drop (fieldTargets line targets) = relined .drop (fieldTargets line' targets) := by
  induction targets with
  | nil => rfl
  | cons target targets ih =>
    obtain ⟨binding, field⟩ := target
    simp only [fieldTargets, relined_cons, ih]
    rfl

theorem relined_callPrimitive (name : Name) (args : Nat) (line line' : Option Nat) :
    (callPrimitive name args line).relined .drop = (callPrimitive name args line').relined .drop := by
  unfold callPrimitive
  split
  · split <;> rfl
  · rfl

@[simp] theorem Lines.drop_line (line : Option Nat) : Lines.drop line = none := rfl

mutual

/-- But for the lines, the code of an expression is that of the expression without positions. -/
theorem Expr.relined_compileAt (line line' : Option Nat) : ∀ e : Expr, e.Transparent →
    relined .drop (e.compileAt line) = relined .drop (e.strip.compileAt line')
  | .number _, _ | .text _, _ | .bool _, _ | .nil, _ | .var _, _ => rfl
  | .cluster items, h => by
    simp [Expr.strip, Expr.compileAt, relined_compileAll line line' items h]
  | .binary _ lhs rhs, h => by
    simp [Expr.strip, Expr.compileAt, Expr.relined_compileAt line line' lhs h.1,
      Expr.relined_compileAt line line' rhs h.2]
  | .unary _ operand, h => by
    simp [Expr.strip, Expr.compileAt, Expr.relined_compileAt line line' operand h]
  | .primitive name args, h => by
    simp [Expr.strip, Expr.compileAt, relined_compileAll line line' args h,
      relined_callPrimitive name args.length line line']
  | .cond test yes no, h => by
    simp [Expr.strip, Expr.compileAt, Op.relined, Expr.relined_compileAt line line' test h.1,
      Expr.relined_compileAt line line' yes h.2.1, Expr.relined_compileAt line line' no h.2.2]
  | .letIn bindings body, h => by
    simp [Expr.strip, Expr.compileAt, relined_compileBindings line line' bindings h.1,
      Expr.relined_compileAt line line' body h.2]
  | .lambda _ _ body, h => by
    simp [Expr.strip, Expr.compileAt, Template.ofReads, Template.op, Op.relined,
      Expr.relined_compileAt line line' body h]
  | .call callee args, h => by
    by_cases hvar : args = [] ∧ ∃ name, callee = .var name
    · obtain ⟨rfl, name, rfl⟩ := hvar
      rfl
    · have hne : args = [] → ∀ name, callee ≠ .var name := fun hargs name hname => hvar ⟨hargs, name, hname⟩
      have hne' : stripAll args = [] → ∀ name, callee.strip ≠ .var name := by
        intro hargs name hname
        have hargs : args = [] := List.eq_nil_of_length_eq_zero (by rw [← length_stripAll, hargs]; rfl)
        exact hne hargs name (h.1 hargs name hname)
      rw [Expr.strip, Expr.compileAt_call_of_ne line hne, Expr.compileAt_call_of_ne line' hne']
      simp [Expr.relined_compileAt line line' callee h.2.1, relined_compileAll line line' args h.2.2]
  | .field object _, h => by
    simp [Expr.strip, Expr.compileAt, Expr.relined_compileAt line line' object h]
  | .comprehension _ source body, h => by
    simp [Expr.strip, Expr.compileAt, Op.relined, Expr.relined_compileAt line line' source h.1,
      Expr.relined_compileAt line line' body h.2]
  | .located inner e, h => by
    rw [Expr.strip, Expr.compileAt]
    exact Expr.relined_compileAt (some inner) line' e h

theorem relined_compileAll (line line' : Option Nat) : ∀ es : List Expr, TransparentAll es →
    relined .drop (compileAll line es) = relined .drop (compileAll line' (stripAll es))
  | [], _ => rfl
  | e :: es, h => by
    simp [stripAll, compileAll, Expr.relined_compileAt line line' e h.1, relined_compileAll line line' es h.2]

theorem relined_compileBindings (line line' : Option Nat) : ∀ bs : List Binding, TransparentBindings bs →
    relined .drop (compileBindings line bs) = relined .drop (compileBindings line' (stripBindings bs))
  | [], _ => rfl
  | .bind targets value :: bs, h => by
    simp [stripBindings, compileBindings, Expr.relined_compileAt line line' value h.1,
      relined_compileBindings line line' bs h.2, relined_vars]
  | .setField targets value :: bs, h => by
    simp [stripBindings, compileBindings, Expr.relined_compileAt line line' value h.1,
      relined_compileBindings line line' bs h.2, relined_fieldTargets line line' targets]

end

/-! ## Runs -/

namespace Machine

variable {ℓ : Lines} {held : List NodeId} {m m' : Machine} {p q : Program}

/-- The machine with other lines in its code and in its lambdas. -/
def relined (ℓ : Lines) (m : Machine) : Machine :=
  { m with store := m.store.relined ℓ, program := Mosaic.relined ℓ m.program }

theorem under_lines (m : Machine) : m.under { config := m.config, lines := ℓ } = m.relined ℓ := by
  rw [under, relined, Scopes.above_nil, List.append_nil]

/-- The outcomes are the same but for lines: the same value, or failures with the same cause, and so the
same message, and the same backtrace. So are the machines that are left. -/
def Alike (ℓ : Lines) : Except Failure Value × Machine → Except Failure Value × Machine → Prop
  | (.ok v, m), (.ok v', m') => v' = v ∧ m'.relined ℓ = m.relined ℓ
  | (.error f, m), (.error f', m') =>
    f'.cause = f.cause ∧ f'.backtrace = f.backtrace ∧ m'.relined ℓ = m.relined ℓ
  | _, _ => False

theorem fits_lines {n : Nat} {m₁ : Machine} (hs : Steps held n m m₁) :
    ({ config := m.config, lines := ℓ } : Guise).Fits m₁ := by
  have hconfig : m.config = m₁.config := hs.config.symm
  refine ⟨.inl rfl, fun _ => rfl, by rw [hconfig], fun _ => by rw [hconfig], fun _ => ?_⟩
  show m.config.overflow? (m₁.scopes.above []).depth = _
  rw [Scopes.above_nil, hconfig]

theorem execute_relined (fuel : Nat) :
    Option.Rel (Guise.Ends { config := m.config, lines := ℓ }) (execute held fuel m)
      (execute held fuel (m.relined ℓ)) := by
  have hnodes : held ++ ({ config := m.config, lines := ℓ } : Guise).nodes = held := by
    rw [Guise.nodes_eq_nil rfl rfl, List.append_nil]
  have hrel := @execute_under { config := m.config, lines := ℓ } held m
    (fun n m₁ hs => fits_lines (by rwa [hnodes] at hs)) fuel
  rwa [hnodes, under_lines] at hrel

theorem config_of_execute {fuel : Nat} {r : Except Failure Unit}
    (h : execute held fuel m = some (r, m')) : m'.config = m.config := by
  obtain ⟨n, m₁, -, hs, ⟨-, rfl, -⟩ | ⟨f, -, hf⟩⟩ := execute_inv h
  · exact hs.config
  · exact (stopped_of_next? hf).config.trans hs.config

/-- Two runs whose machines are the same without lines end alike. -/
theorem execute_alike (hm : m'.relined ℓ = m.relined ℓ) (fuel : Nat) :
    Option.Rel (fun r r' => r'.2.relined ℓ = r.2.relined ℓ ∧
      (r.1 = .ok () ∧ r'.1 = .ok () ∨
        ∃ f f', r.1 = .error f ∧ r'.1 = .error f' ∧ f'.cause = f.cause ∧ f'.backtrace = f.backtrace))
      (execute held fuel m) (execute held fuel m') := by
  have h := @execute_relined ℓ held m fuel
  have h' := @execute_relined ℓ held m' fuel
  rw [hm] at h'
  generalize hx : execute held fuel m = x at h ⊢
  generalize hy : execute held fuel m' = y at h' ⊢
  generalize execute held fuel (m.relined ℓ) = z at h h'
  cases h with
  | none =>
    cases h'
    exact .none
  | @some r r₀ hr =>
    cases h' with
    | @some r' _ hr' =>
      obtain ⟨r, m₁⟩ := r
      obtain ⟨r', m₂⟩ := r'
      obtain ⟨r₀, m₀⟩ := r₀
      have h₁ : m₁.under { config := m.config, lines := ℓ } = m₁.relined ℓ := by
        rw [← config_of_execute hx, under_lines]
      have h₂ : m₂.under { config := m'.config, lines := ℓ } = m₂.relined ℓ := by
        rw [← config_of_execute hy, under_lines]
      cases r₀ with
      | ok u =>
        cases r with
        | error f => exact hr.elim
        | ok u =>
          cases r' with
          | error f => exact hr'.elim
          | ok u => exact .some ⟨(h₂.symm.trans hr'.symm).trans (hr.trans h₁), .inl ⟨rfl, rfl⟩⟩
      | error f₀ =>
        cases r with
        | ok u => exact hr.elim
        | error f =>
          cases r' with
          | ok u => exact hr'.elim
          | error f' =>
            refine .some ⟨(h₂.symm.trans hr'.1.symm).trans (hr.1.trans h₁), .inr ⟨f, f', rfl, rfl, ?_, ?_⟩⟩
            · exact hr'.2.cause.symm.trans hr.2.cause
            · exact (hr'.2.backtrace rfl).symm.trans (hr.2.backtrace rfl)

theorem result_alike (hm : m'.relined ℓ = m.relined ℓ) (start : Checkpoint) :
    m'.result start = m.result start := by
  show (m'.relined ℓ).result start = (m.relined ℓ).result start
  rw [hm]

theorem reset_alike (hm : m'.relined ℓ = m.relined ℓ) (start : Checkpoint) :
    (m'.reset start).relined ℓ = (m.reset start).relined ℓ := by
  show (m'.relined ℓ).reset start = (m.relined ℓ).reset start
  rw [hm]

theorem run_alike (hm : m'.relined ℓ = m.relined ℓ) (hp : Mosaic.relined ℓ q = Mosaic.relined ℓ p)
    (fuel : Nat) : Option.Rel (Alike ℓ) (m.run held fuel p) (m'.run held fuel q) := by
  simp only [relined, Machine.mk.injEq] at hm
  obtain ⟨hconfig, hstore, hscopes, -⟩ := hm
  have hstart : (m'.started q).relined ℓ = (m.started p).relined ℓ := by
    simp only [relined, started, hconfig, hstore, hscopes, hp]
  have hrel := @execute_alike ℓ held (m.started p) (m'.started q) hstart fuel
  have hcheck : m'.scopes.checkpoint = m.scopes.checkpoint := by rw [hscopes]
  show Option.Rel _ ((execute held fuel (m.started p)).map _) ((execute held fuel (m'.started q)).map _)
  rw [hcheck]
  generalize execute held fuel (m.started p) = x at hrel ⊢
  generalize execute held fuel (m'.started q) = y at hrel ⊢
  cases hrel with
  | none => exact .none
  | @some r r' hr =>
    obtain ⟨r, m₁⟩ := r
    obtain ⟨r', m₂⟩ := r'
    obtain ⟨hm₂, ⟨rfl, rfl⟩ | ⟨f, f', rfl, rfl, hcause, hbacktrace⟩⟩ := hr
    · have hresult := result_alike hm₂ m.scopes.checkpoint
      refine .some ?_
      simp only [Except.bind, hresult]
      cases m₁.result m.scopes.checkpoint with
      | ok v => exact ⟨rfl, congrArg (fun m : Machine => { m with operands := [] }) hm₂⟩
      | error failure => exact ⟨rfl, rfl, reset_alike hm₂ _⟩
    · exact .some ⟨hcause, hbacktrace, reset_alike hm₂ _⟩

/-- Source positions are transparent where no call without arguments has a variable with a position as its
callee: but for lines, the code is that of the expression without positions, and on the same machine both
end alike. -/
theorem located_transparent {e : Expr} (h : e.Transparent) :
    Mosaic.relined .drop e.compile = Mosaic.relined .drop e.strip.compile ∧
    ∀ (held : List NodeId) (m : Machine) (fuel : Nat),
      Option.Rel (Alike .drop) (m.run held fuel e.compile) (m.run held fuel e.strip.compile) :=
  have hcode := e.relined_compileAt none none h
  ⟨hcode, fun _ _ fuel => run_alike rfl hcode.symm fuel⟩

/-- A lambda with positions in its body, called through a variable with a position. -/
def positioned : Expr :=
  .letIn [.bind ["f"] (.located 2 (.lambda "f" ["n"] (.located 3 (.binary .div (.var "n") (.number (.ofNat 0))))))]
    (.located 4 (.call (.located 4 (.var "f")) [.number (.ofNat 1)]))

theorem located_transparent_positioned :
    positioned.Transparent ∧ ∀ (held : List NodeId) (m : Machine) (fuel : Nat),
      Option.Rel (Alike .drop) (m.run held fuel positioned.compile) (m.run held fuel positioned.strip.compile) := by
  have h : positioned.Transparent := by
    simp [positioned, Expr.Transparent, TransparentAll, TransparentBindings]
  exact ⟨h, (located_transparent h).2⟩

/-- A variable with a position is looked up, and its value is called. -/
example : (Expr.call (.located 3 (.var "f")) []).compile =
    [.var "f", .op .getVariable (some 3), .op (.call 0) none] := rfl

end Machine

end Mosaic
