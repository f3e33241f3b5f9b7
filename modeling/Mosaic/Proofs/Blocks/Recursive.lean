import Mosaic.Proofs.Blocks.Sheltered
import Mosaic.Proofs.Dependencies.Run

/-!
# Blocks are recursive

A block may bind a name to a lambda that reads names which are bound only later. If the bindings that come after
spare the name, then when the body starts, the lambda that is bound to it has all its free names that are in scope
(`Machine.Midway.recursive`): it was complete when it was made, or it was set aside in the frame of the block, and
there it is found at the end of the block. An assignment of a field of the name would bind it to a copy, which is
not set aside.
-/

namespace Mosaic

open Mosaic.Graph (NodeId Pool)

/-- The expression makes a lambda. -/
inductive Expr.IsLambda : Expr → Prop
  | lambda (label : Name) (params : List Name) (body : Expr) : IsLambda (.lambda label params body)
  | located {e : Expr} (line : Nat) (h : e.IsLambda) : IsLambda (.located line e)

theorem Expr.IsLambda.exists_compileAt_eq {e : Expr} (h : e.IsLambda) (line : Option Nat) :
    ∃ label params body free line', e.compileAt line = [.var label, .op (.makeLambda params body free) line'] := by
  induction h generalizing line with
  | lambda label params body => exact ⟨label, _, _, _, line, rfl⟩
  | located inner _ ih => exact ih (some inner)

/-- The code of a block ends with that of its body. -/
theorem Expr.exists_compileAt_letIn (line : Option Nat) (bs : List Binding) (body : Expr) :
    ∃ q, (Expr.letIn bs body).compileAt line = q ++ (body.compileAt line ++ [.op .popFrame line]) :=
  ⟨.op .pushFrame line :: (compileBindings line bs ++ [.op .setDependencies line]), by simp [Expr.compileAt]⟩

theorem compileBindings_append (line : Option Nat) (bs bs' : List Binding) :
    compileBindings line (bs ++ bs') = compileBindings line bs ++ compileBindings line bs' := by
  induction bs with
  | nil => rfl
  | cons b bs ih => cases b <;> simp [compileBindings, ih]

theorem Lambda.Filled.isComplete {l l' : Lambda} (h : l.Filled l') (hl : l.isComplete = true) :
    l'.isComplete = true := by
  refine List.isEmpty_iff.2 (List.eq_nil_iff_forall_not_mem.2 fun name hname => ?_)
  obtain ⟨hfree, hnone⟩ := Lambda.mem_unresolved.1 hname
  have hmissed : name ∈ l.unresolved := by
    refine Lambda.mem_unresolved.2 ⟨by rwa [h.rest] at hfree, Option.eq_none_iff_forall_ne_some.2 fun d hd => ?_⟩
    rw [h.kept name d hd] at hnone
    cases hnone
  rw [List.isEmpty_iff.1 hl] at hmissed
  cases hmissed

namespace Machine

variable {m m' m₁ : Machine} {held : List NodeId} {p q R T : Program} {item : Item} {x : Name} {v : Value}
  {ids : List NodeId} {id : NodeId}

/-! ## The first machine with a program -/

/-- The second machine is the first one on the way from the first machine that has the program. -/
inductive FirstAt (held : List NodeId) (p : Program) : Machine → Machine → Prop
  | here {m : Machine} (program : m.program = p) : FirstAt held p m m
  | later {m m₁ m' : Machine} (program : m.program ≠ p) (step : m.next? held = some (.ok () m₁))
      (rest : FirstAt held p m₁ m') : FirstAt held p m m'

theorem exists_program_of_next? (hp : m.program = item :: R) (hn : m.next? held = some (.ok () m₁)) :
    ∃ q, m₁.program = q ++ R := by
  cases stepped_of_next? hn with
  | push program =>
    obtain ⟨-, rfl⟩ := List.cons.inj (hp.symm.trans program)
    exact ⟨[], rfl⟩
  | @perform op line rest e m₂ program _ _ performed =>
    obtain ⟨-, rfl⟩ := List.cons.inj (hp.symm.trans program)
    exact ⟨e.code, by rw [Effect.program_settle, (Kept.of_perform performed).program]; rfl⟩

namespace FirstAt

theorem program_eq (h : FirstAt held p m m') : m'.program = p := by
  induction h with
  | here program => exact program
  | later _ _ _ ih => exact ih

theorem eq_of_program (h : FirstAt held p m m') (hp : m.program = p) : m' = m := by
  cases h with
  | here => rfl
  | later program => exact (program hp).elim

/-- What every step before keeps. -/
theorem invariant {I : Machine → Prop} (h : FirstAt held p m m')
    (step : ∀ m m₁, m.program ≠ p → I m → m.next? held = some (.ok () m₁) → I m₁) (start : I m) : I m' := by
  induction h with
  | here => exact start
  | later program hn _ ih => exact ih (step _ _ program start hn)

theorem next (h : FirstAt held p m m') (hne : m.program ≠ p) :
    ∃ m₁, m.next? held = some (.ok () m₁) ∧ FirstAt held p m₁ m' := by
  cases h with
  | here program => exact (hne program).elim
  | later _ step rest => exact ⟨_, step, rest⟩

/-- Before a shorter program, the machine comes to the end of what it has. -/
theorem through (h : FirstAt held p m m') (hp : m.program = q ++ T) (hlt : p.length < T.length) :
    ∃ m₁, FirstAt held T m m₁ ∧ FirstAt held p m₁ m' := by
  induction h generalizing q with
  | here program =>
    rw [← program, hp, List.length_append] at hlt
    omega
  | later program step rest ih =>
    cases q with
    | nil => exact ⟨_, .here hp, .later program step rest⟩
    | cons item q =>
      obtain ⟨code, hcode⟩ := exists_program_of_next? hp step
      obtain ⟨m₁, hfirst, hrest⟩ := ih (q := code ++ q) (hcode.trans (List.append_assoc code q T).symm)
      refine ⟨m₁, .later (fun heq => ?_) step hfirst, hrest⟩
      have hlength := congrArg List.length (hp.symm.trans heq)
      simp only [List.cons_append, List.length_cons, List.length_append] at hlength
      omega

end FirstAt

/-! ## Lambdas that stay complete -/

theorem Steady.complete (h : m.Steady held) (hn : m.next? held = some (.ok () m₁)) (hid : id ∈ m₁.scopes.nodes)
    (hc : m.Complete id) : m₁.Complete id := by
  obtain ⟨l, hl, hcomplete⟩ := hc
  obtain ⟨item, rest, hp⟩ := exists_cons_of_next? hn
  obtain ⟨n₀, hveiled⟩ := h.veiled
  obtain ⟨B, g, t, -, htwin, hwhole⟩ := (h.step hn).whole
  obtain ⟨o, ho⟩ := Option.isSome_iff_exists.1 (hwhole.scopes.isSome id hid)
  obtain ⟨e₁, he₁, -, -⟩ := htwin.left.entry id o ho
  obtain ⟨e, he, hnode⟩ := Pool.get_eq_ok_iff.1 hl
  rcases ((hveiled.step hp).1 m₁ hn).frames id e e₁ he he₁ with hsame | ⟨op, line, -, hwrites⟩
  · exact ⟨l, Pool.get_eq_ok_iff.2 ⟨e₁, he₁, hsame.trans hnode⟩, hcomplete⟩
  · rw [hnode] at hwrites
    generalize hnode₁ : e₁.node = node at hwrites
    cases hwrites with
    | fill _ filled => exact ⟨_, Pool.get_eq_ok_iff.2 ⟨e₁, he₁, hnode₁⟩, filled.isComplete hcomplete⟩

/-! ## The binding of a lambda -/

theorem houses_of_assign {line : Option Nat} {S : List Operand} (hp : m.program = .op (.assign 1) line :: R)
    (ho : m.operands = .var x :: .value v :: S) (hn : m.next? held = some (.ok () m₁)) :
    m₁.program = R ∧ m₁.store = m.store ∧ m₁.scopes.Houses x v m.scopes.parked 0 := by
  obtain ⟨e, m₂, -, rfl, performed⟩ := performed_of_next? hp hn
  have hargs : m.arguments (.assign 1) = [.value v, .var x] := by
    rw [arguments, ho]
    rfl
  rw [hargs] at performed
  obtain ⟨rfl, h⟩ := MachineM.houses_assign.ok performed
  exact h

theorem eq_of_next?_var {name : Name} (hp : m.program = .var name :: R) (hn : m.next? held = some (.ok () m₁)) :
    m₁ = { m with program := R, operands := .var name :: m.operands } := by
  rw [next?_of_operand hp rfl] at hn
  cases hn
  rfl

/-- The code of a lambda and of its binding. -/
theorem FirstAt.bound {label : Name} {params : List Name} {body : Program} {free : List Name}
    {line line' : Option Nat} (h : FirstAt held p m m')
    (hp : m.program = .var label :: .op (.makeLambda params body free) line :: .var x :: .op (.assign 1) line' :: R)
    (hlt : p.length ≤ R.length) (hm : m.Steady held) :
    ∃ id ids m₁, FirstAt held p m₁ m' ∧ m₁.program = R ∧ m₁.Steady held ∧
      m₁.scopes.Houses x (.object .lambda id) ids 0 ∧ (m₁.Complete id ∨ id ∈ ids) := by
  have hne : ∀ {m : Machine} {item : Item} {q : Program}, m.program = item :: q → R <:+ q → m.program ≠ p := by
    intro m item q hm hsuffix heq
    have hlength := congrArg List.length (hm.symm.trans heq)
    have hle := hsuffix.length_le
    rw [List.length_cons] at hlength
    omega
  obtain ⟨m₁, hn₁, h⟩ := h.next (hne hp ⟨[_, _, _], rfl⟩)
  have hm₁ := hm.step hn₁
  obtain rfl := eq_of_next?_var hp hn₁
  obtain ⟨m₂, hn₂, h⟩ := h.next (hne rfl ⟨[_, _], rfl⟩)
  have hm₂ := hm₁.step hn₂
  obtain ⟨id, ho₂, hp₂, hid⟩ := complete_or_parked rfl hn₂
  obtain ⟨m₃, hn₃, h⟩ := h.next (hne hp₂ ⟨[_], rfl⟩)
  have hm₃ := hm₂.step hn₃
  obtain rfl := eq_of_next?_var hp₂ hn₃
  obtain ⟨m₄, hn₄, h⟩ := h.next (hne rfl (List.suffix_refl R))
  obtain ⟨hp₄, hstore, hhouses⟩ := houses_of_assign rfl (congrArg _ ho₂) hn₄
  refine ⟨id, m₂.scopes.parked, m₄, h, hp₄, hm₃.step hn₄, hhouses, hid.imp_left fun hcomplete => ?_⟩
  obtain ⟨l, hl, hcomplete⟩ := hcomplete
  exact ⟨l, hstore ▸ hl, hcomplete⟩

/-! ## The main result -/

theorem Midway.steady (h : m.Midway held) : m.Steady held := by
  obtain ⟨m₀, g₀, e, n, hsound, -, hheld, he, hs⟩ := h
  exact hs.invariant (P := Steady held) (fun _ _ hm hn => hm.step hn)
    ((hsound.started e).steady rfl hheld he rfl)

theorem Sheltering.of_bindings {bs : List Binding} {line : Option Nat}
    (hassigned : x ∉ assignedBindings bs) (hbound : x ∉ bs.flatMap Binding.targets)
    (hp : m.program = compileBindings line bs ++ .op .setDependencies line :: R)
    (hhouses : m.scopes.Houses x v ids 0) :
    Sheltering x v ids (.op .setDependencies line :: R) m := by
  refine .outside (d := 0) (K := []) ⟨?_, ⟨m.operands, rfl⟩, hhouses⟩
  rw [hp]
  exact spares_compileBindings line bs hassigned 0 _ (fun _ => hbound) (.done [])

/-- Blocks are recursive. In the middle of a run let a block be next that binds `x` to a lambda, and in the
bindings after it let no field of `x` be assigned and `x` not be bound again. When the body of the block starts, `x` is
bound to a lambda, and its closure has all its free names that are in scope then. -/
theorem Midway.recursive {bs bs' : List Binding} {value body : Expr} {line : Option Nat} (h : m.Midway held)
    (hp : m.program = (Expr.letIn (bs ++ .bind [x] value :: bs') body).compileAt line ++ R)
    (hvalue : value.IsLambda) (hbound : x ∉ bs'.flatMap Binding.targets) (hassigned : x ∉ assignedBindings bs')
    (hfirst : FirstAt held (body.compileAt line ++ .op .popFrame line :: R) m m') :
    ∃ id, m'.scopes.lookup? x = some (.object .lambda id) ∧ m'.Covered id := by
  obtain ⟨label, params, code, free, inner, hcode⟩ := hvalue.exists_compileAt_eq line
  let B := body.compileAt line ++ .op .popFrame line :: R
  let Q := compileBindings line bs' ++ .op .setDependencies line :: B
  -- The machine comes to the binding of the name.
  have hblock : m.program = (.op .pushFrame line :: compileBindings line bs) ++
      .var label :: .op (.makeLambda params code free) inner :: .var x :: .op (.assign 1) line :: Q := by
    rw [hp]
    simp [Expr.compileAt, compileBindings_append, compileBindings, hcode, Q, B]
  have hlt : B.length < Q.length := by
    simp only [Q, List.length_append, List.length_cons]
    omega
  obtain ⟨m₁, hfirst₁, hrest₁⟩ := hfirst.through hblock (Nat.lt_add_right 4 hlt)
  have hm₁ := hfirst₁.invariant (I := Steady held) (fun _ _ _ hm hn => hm.step hn) h.steady
  obtain ⟨id, ids, m₂, hrest₂, hp₂, hm₂, hhouses, hid⟩ := hrest₁.bound hfirst₁.program_eq (Nat.le_of_lt hlt) hm₁
  -- To the end of the block, what is bound to the name and what is set aside stays.
  obtain ⟨m₃, hfirst₃, hrest₃⟩ := hrest₂.through hp₂ (Nat.lt_succ_self _)
  obtain ⟨hm₃, hsheltering, hid⟩ := hfirst₃.invariant
    (I := fun m => m.Steady held ∧ Sheltering x (.object .lambda id) ids (.op .setDependencies line :: B) m ∧
      (m.Complete id ∨ id ∈ ids))
    (fun m m₁ hT hm hn => by
      obtain ⟨hm, hsheltering, hid⟩ := hm
      have hsheltering₁ := hsheltering.step hT hm hn
      exact ⟨hm.step hn, hsheltering₁, hid.imp_left (hm.complete hn (hsheltering₁.mem_nodes rfl))⟩)
    ⟨hm₂, .of_bindings hassigned hbound hp₂ hhouses, hid⟩
  -- The end of the block completes what is set aside.
  have hhouses₃ := hsheltering.houses_of_program hfirst₃.program_eq
  obtain ⟨m₄, hn₄, hrest₄⟩ := hrest₃.next fun heq => List.cons_ne_self _ _ (hfirst₃.program_eq.symm.trans heq)
  obtain ⟨hp₄, hlookup, hcovered⟩ := covered_of_setDependencies hfirst₃.program_eq hn₄
  obtain rfl := hrest₄.eq_of_program hp₄
  have hbound : m'.scopes.lookup? x = some (.object .lambda id) := (hlookup x).trans hhouses₃.lookup?
  refine ⟨id, hbound, ?_⟩
  rcases hid with hcomplete | hid
  · exact (hm₃.complete hn₄ (Scopes.mem_nodes_of_lookup? hbound rfl) hcomplete).covered
  · exact hcovered id (hhouses₃.parked hid)

/-- The first machine that has so many items left, if the machine comes to it within `n` items. -/
def firstAt? (length : Nat) : Nat → Machine → Option Machine
  | 0, _ => none
  | n + 1, m =>
    if m.program.length = length then some m
    else
      match m.next? [] with
      | some (.ok () m') => firstAt? length n m'
      | _ => none

/-- As long as the machine has items before the program `p`, it has more items than there are in `p`. -/
theorem FirstAt.of_firstAt? {n : Nat} (h : firstAt? p.length n m = some m') (hp : m.program = q ++ p) :
    FirstAt [] p m m' := by
  induction n generalizing m q with
  | zero => cases h
  | succ n ih =>
    unfold firstAt? at h
    split at h
    · rename_i hlength
      cases h
      have hq : q.length = 0 := by
        rw [hp, List.length_append] at hlength
        omega
      rw [List.length_eq_zero_iff.1 hq] at hp
      exact .here hp
    · rename_i hlength
      split at h
      · rename_i hn
        cases q with
        | nil => exact (hlength (congrArg List.length hp)).elim
        | cons item q =>
          obtain ⟨code, hcode⟩ := exists_program_of_next? hp hn
          exact .later (fun heq => hlength (congrArg List.length heq)) hn
            (ih h (hcode.trans (List.append_assoc code q p).symm))
      · cases h

/-- Two bindings of lambdas, the first of which calls the second. -/
def forward : List Binding :=
  [.bind ["f"] (.lambda "f" ["n"] (.call (.var "g") [.var "n"])), .bind ["g"] (.lambda "g" ["n"] (.var "n"))]

/-- A block with these bindings comes to its body, and there the first lambda is found with all its free names. -/
theorem recursive_forward :
    let body : Expr := .call (.var "f") [.number (.ofNat 1)]
    ∃ m', FirstAt [] (body.compileAt none ++ [.op .popFrame none])
        ((ofConfig {}).started (Expr.letIn forward body).compile) m' ∧
      ∃ id, m'.scopes.lookup? "f" = some (.object .lambda id) ∧ m'.Covered id := by
  intro body
  have hcomes : (firstAt? (body.compileAt none ++ [Item.op .popFrame none]).length 20
      ((ofConfig {}).started (Expr.letIn forward body).compile)).isSome = true := by
    decide +kernel
  obtain ⟨m', hm'⟩ := Option.isSome_iff_exists.1 hcomes
  obtain ⟨q, hq⟩ := Expr.exists_compileAt_letIn none forward body
  have hfirst := FirstAt.of_firstAt? hm' hq
  have hmidway : ((ofConfig {}).started (Expr.letIn forward body).compile).Midway [] :=
    ⟨ofConfig {}, _, .letIn forward body, 0, sound_ofConfig {}, ⟨0, [], rfl⟩, nofun,
      by simp [forward, body, Expr.Countable, CountableBindings, CountableAll], .refl _⟩
  have hp : ((ofConfig {}).started (Expr.letIn forward body).compile).program =
      (Expr.letIn ([] ++ .bind ["f"] (.lambda "f" ["n"] (.call (.var "g") [.var "n"])) ::
        [.bind ["g"] (.lambda "g" ["n"] (.var "n"))]) body).compileAt none ++ [] :=
    (List.append_nil _).symm
  exact ⟨m', hfirst, hmidway.recursive hp (.lambda ..) (by simp [Binding.targets])
    (by simp [assignedBindings, Expr.assigned]) hfirst⟩

end Machine

end Mosaic
