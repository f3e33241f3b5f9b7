import Mathlib.Logic.Equiv.List
import Mosaic.Proofs.Located
import Mosaic.Proofs.Machine.Step

/-!
# Where code comes from

A site is a place in a syntax tree. `Expr.codeAt` is the code of an expression in which every operation and
every error tells the site it comes from, where compiled code tells the line there. But for that the two are
the same (`Expr.relined_codeAt`), so a run of the one fails as a run of the other does
(`Machine.exists_failed_of_relined`), and the line of the failure of the one is the line at the site that the
other tells.
-/

namespace Mosaic

open Mosaic.Graph (NodeId)

/-! ## Sites -/

/-- The way from an expression to one of its subexpressions: at each turn, which of the children to go on to. -/
abbrev Site := List Nat

def Binding.value : Binding → Expr
  | .bind _ value | .setField _ value => value

namespace Expr

/-- The expressions directly below an expression in the syntax tree. -/
def children : Expr → List Expr
  | number _ | text _ | bool _ | nil | var _ => []
  | cluster items => items
  | binary _ lhs rhs => [lhs, rhs]
  | unary _ operand => [operand]
  | primitive _ args => args
  | cond test yes no => [test, yes, no]
  | letIn bindings body => bindings.map Binding.value ++ [body]
  | lambda _ _ body => [body]
  | call callee args => callee :: args
  | field object _ => [object]
  | comprehension _ source body => [source, body]
  | located _ e => [e]

/-- The subexpression at a site. -/
def at? : Expr → Site → Option Expr
  | e, [] => some e
  | e, i :: s => e.children[i]?.bind fun child => child.at? s

/-- The line that the children stand in, if the expression itself stands in `line`. -/
def lineBelow (line : Option Nat) : Expr → Option Nat
  | located inner _ => some inner
  | _ => line

/-- The line of the innermost source position around the subexpression at a site, if the whole expression
stands in `line`. -/
def lineAt : Option Nat → Expr → Site → Option Nat
  | line, _, [] => line
  | line, e, i :: s => e.children[i]?.bind fun child => lineAt (e.lineBelow line) child s

variable {e child : Expr} {line : Option Nat} {i : Nat} {s : Site}

theorem at?_cons (h : e.children[i]? = some child) (s : Site) : e.at? (i :: s) = child.at? s := by
  rw [at?, h, Option.bind_some]

theorem lineAt_cons (h : e.children[i]? = some child) (s : Site) :
    e.lineAt line (i :: s) = child.lineAt (e.lineBelow line) s := by
  rw [lineAt, h, Option.bind_some]

theorem lineAt_isSome (hline : line.isSome = true) (hs : (e.at? s).isSome = true) :
    (e.lineAt line s).isSome = true := by
  induction s generalizing e line with
  | nil => exact hline
  | cons i s ih =>
    cases hi : e.children[i]? with
    | none => simp [at?, hi] at hs
    | some child =>
      rw [at?_cons hi] at hs
      rw [lineAt_cons hi]
      refine ih ?_ hs
      cases e <;> first | exact hline | rfl

theorem at?_isSome (h : (e.lineAt line s).isSome = true) : (e.at? s).isSome = true := by
  induction s generalizing e line with
  | nil => rfl
  | cons i s ih =>
    cases hi : e.children[i]? with
    | none => simp [lineAt, hi] at h
    | some child =>
      rw [lineAt_cons hi] at h
      rw [at?_cons hi]
      exact ih h

end Expr

/-! ## Code that tells sites -/

/-- The marks on the `i`-th child. -/
def below (ρ : Site → Option Nat) (i : Nat) : Site → Option Nat := fun s => ρ (i :: s)

mutual

/-- The code of an expression in which every operation and every error has the mark of the subexpression that
it does a step of. -/
def Expr.codeAt (ρ : Site → Option Nat) : Expr → Program
  | .number n => [.value (.number n)]
  | .text s => [.value (.text s)]
  | .bool b => [.value (.bool b)]
  | .nil => [.value .nil]
  | .var name => [.var name, .op .getVariable (ρ [])]
  | .cluster items => codeAtAll ρ 0 items ++ [.op (.apply (.cluster items.length)) (ρ [])]
  | .binary op lhs rhs =>
    lhs.codeAt (below ρ 0) ++ rhs.codeAt (below ρ 1) ++ [.op (.apply op.primitive) (ρ [])]
  | .unary op operand => operand.codeAt (below ρ 0) ++ [.op (.apply op.primitive) (ρ [])]
  | .primitive name args => codeAtAll ρ 0 args ++ [callPrimitive name args.length (ρ [])]
  | .cond test yes no =>
    test.codeAt (below ρ 0) ++ [.op (.branch (yes.codeAt (below ρ 1)) (no.codeAt (below ρ 2))) (ρ [])]
  | .letIn bindings body =>
    .op .pushFrame (ρ []) ::
      (codeAtBindings ρ 0 bindings ++
        .op .setDependencies (ρ []) :: (body.codeAt (below ρ bindings.length) ++ [.op .popFrame (ρ [])]))
  | .lambda label params body =>
    [.var label, .op (Template.ofReads params (body.codeAt (below ρ 0)) body.reads).op (ρ [])]
  | .call (.var name) [] => [.var name, .op .getVariable (ρ [0])]
  | .call callee args =>
    callee.codeAt (below ρ 0) ++ codeAtAll ρ 1 args ++ [.op (.call args.length) (ρ [])]
  | .field object name => object.codeAt (below ρ 0) ++ [.op (.getField name) (ρ [])]
  | .comprehension var source body =>
    source.codeAt (below ρ 0) ++ [.op (.iterate var 0 (body.codeAt (below ρ 1))) (ρ [])]
  | .located _ e => e.codeAt (below ρ 0)

/-- The code of the children from the `i`-th on. -/
def codeAtAll (ρ : Site → Option Nat) (i : Nat) : List Expr → Program
  | [] => []
  | e :: es => e.codeAt (below ρ i) ++ codeAtAll ρ (i + 1) es

def codeAtBindings (ρ : Site → Option Nat) (i : Nat) : List Binding → Program
  | [] => []
  | .bind targets value :: bs =>
    value.codeAt (below ρ i) ++ targets.map Item.var ++
      .op (.assign targets.length) (ρ []) :: codeAtBindings ρ (i + 1) bs
  | .setField targets value :: bs =>
    value.codeAt (below ρ i) ++ fieldTargets (ρ []) targets ++
      .op (.setField targets.length) (ρ []) :: codeAtBindings ρ (i + 1) bs

end

/-- The code that tells sites. -/
def Expr.traced (e : Expr) : Program := e.codeAt fun s => some (Encodable.encode s)

theorem Expr.codeAt_call_of_ne (ρ : Site → Option Nat) {callee : Expr} {args : List Expr}
    (h : args = [] → ∀ name, callee ≠ .var name) :
    (Expr.call callee args).codeAt ρ =
      callee.codeAt (below ρ 0) ++ codeAtAll ρ 1 args ++ [.op (.call args.length) (ρ [])] := by
  cases args with
  | nil =>
    cases callee with
    | var name => exact (h rfl name rfl).elim
    | _ => rfl
  | cons arg args => cases callee <;> rfl

/-! ## Marks and lines -/

/-- What becomes of the mark of a subexpression is its line, if the expression stands in `line`. -/
def Expr.Marked (ℓ : Lines) (ρ : Site → Option Nat) (line : Option Nat) (e : Expr) : Prop :=
  ∀ s, (e.at? s).isSome = true → ℓ (ρ s) = e.lineAt line s

section

variable {ℓ : Lines} {ρ : Site → Option Nat} {line : Option Nat}

theorem Expr.Marked.self {e : Expr} (h : e.Marked ℓ ρ line) : ℓ (ρ []) = line := h [] rfl

theorem Expr.Marked.child {e child : Expr} {i : Nat} (h : e.Marked ℓ ρ line) (hi : e.children[i]? = some child) :
    child.Marked ℓ (below ρ i) (e.lineBelow line) := by
  intro s hs
  have hmark := h (i :: s) (by rwa [Expr.at?_cons hi])
  rwa [Expr.lineAt_cons hi] at hmark

theorem relined_fieldTargets_of_eq {mark : Option Nat} (h : ℓ mark = line) (targets : List (Name × Name)) :
    relined ℓ (fieldTargets mark targets) = fieldTargets line targets := by
  induction targets with
  | nil => rfl
  | cons target targets ih =>
    obtain ⟨binding, field⟩ := target
    simp only [fieldTargets, relined_cons, Item.relined_op, h, ih]
    rfl

theorem relined_callPrimitive_of_eq {mark : Option Nat} (h : ℓ mark = line) (name : Name) (args : Nat) :
    (callPrimitive name args mark).relined ℓ = callPrimitive name args line := by
  subst h
  unfold callPrimitive
  split
  · split <;> rfl
  · rfl

mutual

/-- With the lines for the marks, the code is compiled code. -/
theorem Expr.relined_codeAt {ρ : Site → Option Nat} {line : Option Nat} :
    ∀ e : Expr, e.Marked ℓ ρ line → relined ℓ (e.codeAt ρ) = e.compileAt line
  | .number _, _ | .text _, _ | .bool _, _ | .nil, _ => rfl
  | .var _, h => by simp [Expr.codeAt, Expr.compileAt, Item.relined, Op.relined, h.self]
  | .cluster items, h => by
    have hitems := relined_codeAtAll (ρ := ρ) 0 items fun i item hi => by
      rw [Nat.zero_add]
      exact h.child hi
    simp [Expr.codeAt, Expr.compileAt, Expr.lineBelow, Op.relined, hitems, h.self]
  | .binary _ lhs rhs, h => by
    have hlhs := Expr.relined_codeAt lhs (h.child (i := 0) rfl)
    have hrhs := Expr.relined_codeAt rhs (h.child (i := 1) rfl)
    simp [Expr.codeAt, Expr.compileAt, Expr.lineBelow, Op.relined, hlhs, hrhs, h.self]
  | .unary _ operand, h => by
    have hoperand := Expr.relined_codeAt operand (h.child (i := 0) rfl)
    simp [Expr.codeAt, Expr.compileAt, Expr.lineBelow, Op.relined, hoperand, h.self]
  | .primitive name args, h => by
    have hargs := relined_codeAtAll (ρ := ρ) 0 args fun i arg hi => by
      rw [Nat.zero_add]
      exact h.child hi
    simp [Expr.codeAt, Expr.compileAt, Expr.lineBelow, hargs, relined_callPrimitive_of_eq h.self]
  | .cond test yes no, h => by
    have htest := Expr.relined_codeAt test (h.child (i := 0) rfl)
    have hyes := Expr.relined_codeAt yes (h.child (i := 1) rfl)
    have hno := Expr.relined_codeAt no (h.child (i := 2) rfl)
    simp [Expr.codeAt, Expr.compileAt, Expr.lineBelow, Op.relined, htest, hyes, hno, h.self]
  | .letIn bindings body, h => by
    have hbindings := relined_codeAtBindings (ρ := ρ) 0 bindings h.self fun i b hi => by
      rw [Nat.zero_add]
      refine h.child ?_
      rw [Expr.children, List.getElem?_append_left (by simpa using (List.getElem?_eq_some_iff.1 hi).1),
        List.getElem?_map, hi]
      rfl
    have hbody := Expr.relined_codeAt body (h.child (i := bindings.length) (by simp [Expr.children]))
    simp [Expr.codeAt, Expr.compileAt, Expr.lineBelow, Op.relined, hbindings, hbody, h.self]
  | .lambda _ _ body, h => by
    have hbody := Expr.relined_codeAt body (h.child (i := 0) rfl)
    simp [Expr.codeAt, Expr.compileAt, Expr.lineBelow, Item.relined, Template.ofReads, Template.op, Op.relined, hbody,
      h.self]
  | .call callee args, h => by
    have hcallee := Expr.relined_codeAt callee (h.child (i := 0) rfl)
    by_cases hvar : args = [] ∧ ∃ name, callee = .var name
    · obtain ⟨rfl, name, rfl⟩ := hvar
      exact hcallee
    · have hne : args = [] → ∀ name, callee ≠ .var name := fun hargs name hname => hvar ⟨hargs, name, hname⟩
      have hargs := relined_codeAtAll (ρ := ρ) 1 args fun i arg hi => by
        rw [Nat.add_comm]
        exact h.child hi
      rw [Expr.codeAt_call_of_ne ρ hne, Expr.compileAt_call_of_ne line hne]
      simp [Expr.lineBelow, Op.relined, hcallee, hargs, h.self]
  | .field object _, h => by
    have hobject := Expr.relined_codeAt object (h.child (i := 0) rfl)
    simp [Expr.codeAt, Expr.compileAt, Expr.lineBelow, Op.relined, hobject, h.self]
  | .comprehension _ source body, h => by
    have hsource := Expr.relined_codeAt source (h.child (i := 0) rfl)
    have hbody := Expr.relined_codeAt body (h.child (i := 1) rfl)
    simp [Expr.codeAt, Expr.compileAt, Expr.lineBelow, Op.relined, hsource, hbody, h.self]
  | .located _ e, h => Expr.relined_codeAt e (h.child (i := 0) rfl)

theorem relined_codeAtAll {ρ : Site → Option Nat} {line : Option Nat} (k : Nat) :
    ∀ es : List Expr, (∀ (i : Nat) (e : Expr), es[i]? = some e → e.Marked ℓ (below ρ (k + i)) line) →
      relined ℓ (codeAtAll ρ k es) = compileAll line es
  | [], _ => rfl
  | e :: es, h => by
    have hfirst : relined ℓ (e.codeAt (below ρ k)) = e.compileAt line := Expr.relined_codeAt e (h 0 e rfl)
    have hrest := relined_codeAtAll (k + 1) es fun i e' hi => by
      rw [Nat.add_assoc, Nat.add_comm 1 i]
      exact h (i + 1) e' hi
    rw [codeAtAll, compileAll, relined_append, hfirst, hrest]

theorem relined_codeAtBindings {ρ : Site → Option Nat} {line : Option Nat} (k : Nat) :
    ∀ bs : List Binding, ℓ (ρ []) = line →
      (∀ (i : Nat) (b : Binding), bs[i]? = some b → b.value.Marked ℓ (below ρ (k + i)) line) →
      relined ℓ (codeAtBindings ρ k bs) = compileBindings line bs
  | [], _, _ => rfl
  | .bind targets value :: bs, hself, h => by
    have hfirst : relined ℓ (value.codeAt (below ρ k)) = value.compileAt line :=
      Expr.relined_codeAt value (h 0 (.bind targets value) rfl)
    have hrest := relined_codeAtBindings (k + 1) bs hself fun i b hi => by
      rw [Nat.add_assoc, Nat.add_comm 1 i]
      exact h (i + 1) b hi
    simp [codeAtBindings, compileBindings, Op.relined, hfirst, hrest, relined_vars, hself]
  | .setField targets value :: bs, hself, h => by
    have hfirst : relined ℓ (value.codeAt (below ρ k)) = value.compileAt line :=
      Expr.relined_codeAt value (h 0 (.setField targets value) rfl)
    have hrest := relined_codeAtBindings (k + 1) bs hself fun i b hi => by
      rw [Nat.add_assoc, Nat.add_comm 1 i]
      exact h (i + 1) b hi
    simp [codeAtBindings, compileBindings, Op.relined, hfirst, hrest, relined_fieldTargets_of_eq hself, hself]

end

end

/-! ## Runs -/

/-- A numbered line for every site, where `d` stands for a site without a line. -/
def Expr.siteLines (e : Expr) (d : Nat) : Lines where
  line := Option.map fun k => (e.lineAt none (Denumerable.ofNat Site k)).getD d
  line_none := rfl
  line_or a b := by cases a <;> rfl

theorem Expr.relined_traced (n d : Nat) (e : Expr) :
    relined ((located n e).siteLines d) (located n e).traced = (located n e).compile := by
  refine e.relined_codeAt fun s hs => ?_
  have hline : (e.lineAt (some n) s).isSome = true := lineAt_isSome rfl hs
  obtain ⟨line, hline⟩ := Option.isSome_iff_exists.1 hline
  have hroot : (located n e).lineAt none (0 :: s) = some line := hline
  rw [hline]
  show some (((located n e).lineAt none (Denumerable.ofNat Site (Encodable.encode (0 :: s)))).getD d) = some line
  rw [Denumerable.ofNat_encode, hroot, Option.getD_some]

/-- The line that the item tells if it fails. -/
def Item.line? : Item → Option Nat
  | .op _ line => line
  | .error failure => failure.line
  | .value _ | .literal .. | .var _ => none

namespace Machine

variable {ℓ : Lines} {held : List NodeId} {m m' m₁ m₂ : Machine} {k fuel : Nat} {f : Failure}

/-- A failure has the line of the item at which the run stops. -/
theorem Stopped.line (h : m.Stopped held f m') {item : Item} {rest : Program} (hp : m.program = item :: rest) :
    f.line = item.line? := by
  cases h with
  | error program | overdrawn program | underflow program =>
    cases program.symm.trans hp
    rfl
  | @perform op line _ failure m₁ program within operands performed =>
    cases program.symm.trans hp
    have hbare : failure.Bare := (MachineM.bare_perform _ _ _ trivial).error performed
    simp [Failure.withBacktrace, Failure.atLine, Item.line?, hbare.1]

theorem exists_failed_of_relined (h : execute held fuel (m.relined ℓ) = some (.error f, m')) :
    ∃ f₀ m₀, execute held fuel m = some (.error f₀, m₀) ∧ f₀.cause = f.cause ∧ f₀.backtrace = f.backtrace ∧
      f.line = ℓ f₀.line := by
  have hrel := @execute_relined ℓ held m fuel
  rw [h] at hrel
  generalize execute held fuel m = r at hrel ⊢
  cases hrel with
  | @some r _ hr =>
    obtain ⟨r, m₀⟩ := r
    cases r with
    | ok u => exact hr.elim
    | error f₀ => exact ⟨f₀, m₀, rfl, hr.2.cause.symm, (hr.2.backtrace rfl).symm, hr.2.line⟩

/-- A run fails at the same item with other lines in its code. -/
theorem stops_relined (hs : Steps held k m m₁) (hn : m₁.next? held = some (.error f m₂)) :
    Steps held k (m.relined ℓ) (m₁.relined ℓ) ∧ ∃ f' m₂', (m₁.relined ℓ).next? held = some (.error f' m₂') := by
  have hnodes : held ++ ({ config := m.config, lines := ℓ } : Guise).nodes = held := by
    rw [Guise.nodes_eq_nil rfl rfl, List.append_nil]
  have hunder : m₁.under { config := m.config, lines := ℓ } = m₁.relined ℓ := by rw [← hs.config, under_lines]
  have hsteps := Steps.under (G := { config := m.config, lines := ℓ }) (by rwa [hnodes])
    fun j m' _ hs' => fits_lines (by rwa [hnodes] at hs')
  obtain ⟨f', hf', -⟩ := next?_under_of_error (G := { config := m.config, lines := ℓ }) (fits_lines hs)
    (by rwa [hnodes])
  rw [under_lines, hunder] at hsteps
  rw [hunder] at hf'
  exact ⟨hsteps, f', _, hf'⟩

theorem relined_started (config : Config) (p : Program) :
    ((ofConfig config).started p).relined ℓ = (ofConfig config).started (Mosaic.relined ℓ p) := by
  have hempty : Graph.Entries.relined ℓ {} = {} := Graph.Entries.relined_empty
  simp only [relined, started, ofConfig, Graph.Heap.relined, Graph.Pool.relined, hempty]

/-- Within so many items of the run of the expression on a new machine, a step of the subexpression at the site fails:
the run stops at an item with this failure, and if the code tells sites, it stops at the same item, which tells that
site, with a failure that is the same but for the line. -/
def StopsAt (held : List NodeId) (config : Config) (fuel : Nat) (e : Expr) (f : Failure) (s : Site) : Prop :=
  ∃ k m₁ m₁' m₂ m₂' item rest, k < fuel ∧
    Steps held k ((ofConfig config).started e.compile) m₁ ∧ m₁.next? held = some (.error f m₁') ∧
    Steps held k ((ofConfig config).started e.traced) m₂ ∧ m₂.program = item :: rest ∧
    item.line? = some (Encodable.encode s) ∧
    m₂.next? held = some (.error { f with line := some (Encodable.encode s) } m₂')

variable {config : Config} {n : Nat} {e : Expr}

/-- A failure with a line has the line at the site of the subexpression of which a step has failed. -/
theorem exists_site_of_failed
    (h : execute held fuel ((ofConfig config).started (Expr.located n e).compile) = some (.error f, m'))
    (hf : f.line ≠ none) :
    ∃ s part line, (Expr.located n e).at? s = some part ∧ (Expr.located n e).lineAt none s = some line ∧
      f.line = some line ∧ StopsAt held config fuel (Expr.located n e) f s := by
  have hrelined (d : Nat) : (ofConfig config).started (Expr.located n e).compile =
      ((ofConfig config).started (Expr.located n e).traced).relined ((Expr.located n e).siteLines d) := by
    rw [relined_started, Expr.relined_traced]
  have hfailed (d : Nat) : ∃ f₀ m₀, execute held fuel ((ofConfig config).started (Expr.located n e).traced) =
      some (.error f₀, m₀) ∧ f₀.cause = f.cause ∧ f₀.backtrace = f.backtrace ∧
        f.line = (Expr.located n e).siteLines d f₀.line :=
    exists_failed_of_relined (hrelined d ▸ h)
  obtain ⟨⟨cause, mark, backtrace⟩, m₀, hrun, rfl, rfl, hline⟩ := hfailed 0
  obtain ⟨f₁, m₁, hrun₁, -, -, hline₁⟩ := hfailed 1
  obtain ⟨rfl, rfl⟩ : _ = f₁ ∧ m₀ = m₁ := by simpa [hrun] using hrun₁
  cases mark with
  | none => exact (hf hline).elim
  | some j =>
    -- A site without a line would give the failure the lines 0 and 1 at once.
    cases hs : (Expr.located n e).lineAt none (Denumerable.ofNat Site j) with
    | none => simp [Expr.siteLines, hline₁, hs] at hline
    | some line =>
      obtain ⟨part, hpart⟩ := Option.isSome_iff_exists.1 (Expr.at?_isSome (Option.isSome_iff_exists.2 ⟨line, hs⟩))
      refine ⟨_, part, line, hpart, hs, by simpa [Expr.siteLines, hs] using hline, ?_⟩
      obtain ⟨k, m₂, hk, hsteps, hend⟩ := execute_inv hrun
      obtain ⟨f₂, hf₂, hn⟩ := hend.resolve_left fun h => by cases h.1
      obtain rfl := Except.error.inj hf₂
      obtain ⟨item, rest, hp⟩ := exists_cons_of_next? hn
      -- The run with lines fails at the same item, and it has only one failure.
      obtain ⟨hsteps', f', m', hn'⟩ := stops_relined (ℓ := (Expr.located n e).siteLines 0) hsteps hn
      rw [← hrelined 0] at hsteps'
      obtain ⟨i, rfl⟩ : ∃ i, fuel = k + (i + 1) := ⟨fuel - k - 1, by omega⟩
      rw [hsteps'.execute_eq, execute_of_failed hn'] at h
      obtain ⟨rfl, rfl⟩ : f' = _ ∧ m' = _ := by simpa using h
      refine ⟨k, _, _, m₂, m₀, item, rest, hk, hsteps', hn', hsteps, hp, ?_, ?_⟩
      · rw [← (stopped_of_next? hn).line hp, Denumerable.encode_ofNat]
      · rw [hn, Denumerable.encode_ofNat]

end Machine

end Mosaic
