import Mosaic.Proofs.Blocks.Housed
import Mosaic.Proofs.Blocks.Sparing
import Mosaic.Proofs.Dependencies.Lockstep

/-!
# Runs that spare a binding

While code runs that spares a name, the frame that binds it keeps what it is bound to and what is set aside there
(`Machine.Sheltered.step`). The calls that the code makes have contexts of their own, above that frame. So the frame
is the same all along, up to the end of its block (`Machine.Sheltering.step`).
-/

namespace Mosaic

open Mosaic.Graph (NodeId Pool)

theorem MachineM.Idles.ends {α : Type} {m : Machine} {y : MachineM α} (h : Idles [] m m.scopes y) :
    Ends y m (fun _ => True) fun _ m' => m'.scopes = m.scopes := by
  intro pins
  have hpins := h pins nofun
  cases hy : y pins m with
  | ok a m₁ =>
    rw [hy] at hpins
    obtain ⟨s₁, -, hs, -⟩ := hpins
    exact hs
  | error failure m₁ => trivial

namespace Machine

variable {x : Name} {v : Value} {ids : List NodeId} {T R : Program} {d : Nat} {K : List Operand} {m m₁ : Machine}
  {held : List NodeId} {op : Op} {line : Option Nat} {e : Effect} {pins : Pins}

/-- The program spares the name, with the operands `K` on top of the stack, and the frame below `d` frames binds the
name and has the lambdas set aside. -/
structure Sheltered (x : Name) (v : Value) (ids : List NodeId) (T : Program) (d : Nat) (K : List Operand)
    (m : Machine) : Prop where
  sparing : Sparing x T d K m.program
  known : ∃ rest, m.operands = K ++ rest
  houses : m.scopes.Houses x v ids d

namespace Sheltered

theorem of_performed (hcalls : ¬ op.Calls)
    (performed : MachineM.perform op (m.arguments op) pins (m.taking op R) = .ok e m₁)
    (hrest : ∀ p, op.Unfolds p → Sparing x T d [] (p ++ R))
    (h : MachineM.Housing x v ids d (m.taking op R) (MachineM.perform op (m.arguments op))) :
    ∃ d K, Sheltered x v ids T d K (e.settle m₁) := by
  refine ⟨d, [], ?_, ⟨_, rfl⟩, ?_⟩
  · rw [Effect.program_settle, (Kept.of_perform performed).program]
    exact hrest e.code (MachineM.Unfolding.perform hcalls _ _ _ _ _ performed)
  · rw [Effect.scopes_settle]
    exact h.ok performed

theorem sparing_of_eq_nil (rest : Sparing x T d [] R) : ∀ p, p = [] → Sparing x T d [] (p ++ R) := by
  rintro _ rfl
  exact rest

/-- What an operation leads to, before the end of the block. -/
theorem perform (h : Sheltered x v ids T d K m) (hp : m.program = .op op line :: R) (hT : m.program ≠ T)
    (hsound : op.Sound) (hlen : op.arity ≤ m.operands.length)
    (performed : MachineM.perform op (m.arguments op) pins (m.taking op R) = .ok e m₁) :
    (∃ d K, Sheltered x v ids T d K (e.settle m₁)) ∨
      op.Calls ∧ ∃ callee l memoize, m.Entered (e.settle m₁) R callee l memoize ∧ Sparing x T d [] R := by
  have hsparing := h.sparing
  have hhouses : (m.taking op R).scopes.Houses x v ids d := h.houses
  rw [hp] at hsparing hT
  cases hsparing with
  | done => exact (hT rfl).elim
  | @fieldRef _ K _ binding field line rest =>
    obtain ⟨below, hbelow⟩ := h.known
    rw [Standing.arguments_of_known h.known rfl] at performed
    obtain ⟨rfl, stays⟩ := MachineM.Ends.getFieldRef.ok performed
    refine .inl ⟨d, .value (.fieldRef binding field) :: K, ?_, ⟨below, ?_⟩, h.houses.of_eq (congrArg _ stays.scopes)⟩
    · rw [Effect.program_settle, stays.program]
      exact rest
    · have hbelow' : m₁.operands = K ++ below := by
        rw [stays.operands, taking, hbelow]
        rfl
      exact congrArg _ hbelow'
  | @setField _ n _ _ line known spares rest =>
    refine .inl (of_performed id performed (sparing_of_eq_nil rest) ?_)
    have htail : ∀ binding field, .value (.fieldRef binding field) ∈ (m.arguments (.setField n)).tail → binding ≠ x :=
      fun _ _ hmem => (Standing.known_of_setField (D := (· ≠ x)) h.known known
        (fun binding field hmem => .inl (spares binding field hmem)) hmem).of_nil
    generalize m.arguments (.setField n) = args at htail
    cases args with
    | nil => exact MachineM.Ends.fail trivial
    | cons value targets => exact .setField hhouses htail
  | assign line names spares rest =>
    refine .inl (of_performed id performed (sparing_of_eq_nil rest) ?_)
    obtain ⟨value, hargs⟩ := Standing.arguments_assign h.known hsound hlen
    rw [hargs]
    exact .assign hhouses spares
  | pushFrame line rest =>
    refine .inl (of_performed id performed (sparing_of_eq_nil rest) ?_)
    exact MachineM.Ends.getThen (MachineM.Ends.bind (MachineM.Ends.setScopes trivial fun s hs => hhouses.pushFrame hs)
      fun _ _ h => MachineM.Ends.ret h)
  | popFrame line rest =>
    refine .inl (of_performed id performed (sparing_of_eq_nil rest) ?_)
    exact MachineM.Ends.getThen (MachineM.Ends.okThen trivial fun r hr => MachineM.Ends.modifyThen
      (MachineM.Ends.ret (hhouses.popFrame hr)))
  | @branch _ _ yes no _ line taken other rest =>
    refine .inl (of_performed id performed ?_ (.of_scopes hhouses (MachineM.Idles.perform (fun _ => Iff.rfl)
      (.inr (.inl ⟨yes, no, rfl⟩)) _).ends))
    rintro p (rfl | rfl)
    · exact taken
    · exact other
  | @iterate _ index _ var _ line inner e spares rest =>
    refine .inl (of_performed id performed ?_ (.of_scopes hhouses (MachineM.Idles.perform (fun _ => Iff.rfl)
      (.inr (.inr ⟨var, index, _, rfl⟩)) _).ends))
    rintro p (rfl | ⟨source, element, rfl⟩)
    · exact rest
    · exact rest.round inner source element spares
  | mild line hmild own rest =>
    by_cases hcalls : op.Calls
    · cases (MachineM.Ends.performCall hcalls).ok performed with
      | answered w stays =>
        exact .inl ⟨d, [], stays.program.symm ▸ rest, ⟨_, rfl⟩, h.houses.of_eq (congrArg _ stays.scopes)⟩
      | entered callee l frame memoize called stored memo kept scopes limit =>
        exact .inr ⟨hcalls, callee, l, memoize, ⟨⟨op, line, hp, hcalls, called⟩, stored, memo,
          congrArg (_ ++ ·) kept.program, frame, scopes⟩, rest⟩
    · refine .inl (of_performed (d := d) hcalls performed ?_ ?_)
      · rintro p hunfolds
        obtain rfl : p = [] := by
          cases op with
          | branch | iterate => exact hmild.elim
          | _ => exact hunfolds
        exact rest
      · have hblind : op.Blind →
            MachineM.Housing x v ids d (m.taking op R) (MachineM.perform op (m.arguments op)) := fun h =>
          .of_scopes hhouses (MachineM.Idles.perform (fun _ => Iff.rfl) (.inl ⟨h, hcalls⟩) _).ends
        cases op with
        | getVariable | call => exact (hcalls trivial).elim
        | apply | getField | memoize => exact hblind trivial
        | makeLambda params body free =>
          generalize m.arguments _ = args
          rcases args with _ | ⟨o, _ | _⟩
          · exact MachineM.Ends.fail trivial
          · exact MachineM.Ends.okThen trivial fun label _ => MachineM.Housing.makeLambda hhouses
          · exact MachineM.Ends.fail trivial
        | setDependencies => exact .setDependencies hhouses (own rfl)
        | _ => exact hmild.elim

/-- A step leads on to the end of the block, or it enters the body of a lambda. -/
theorem step (h : Sheltered x v ids T d K m) (hT : m.program ≠ T) (hm : m.Steady held)
    (hn : m.next? held = some (.ok () m₁)) :
    (∃ d K, Sheltered x v ids T d K m₁) ∨
      ∃ R callee l memoize, m.Entered m₁ R callee l memoize ∧ Sparing x T d [] R := by
  cases stepped_of_next? hn with
  | @push item rest o program operand =>
    have hsparing := h.sparing
    rw [program] at hsparing hT
    obtain ⟨below, hbelow⟩ := h.known
    cases hsparing with
    | done => exact (hT rfl).elim
    | value w rest => exact .inl ⟨d, [], rest, ⟨_, rfl⟩, h.houses⟩
    | var name rest =>
      cases operand
      exact .inl ⟨d, .var name :: K, rest, ⟨below, congrArg _ hbelow⟩, h.houses⟩
    | _ => cases operand
  | @perform op line R e m₁ program within operands performed =>
    rcases h.perform program hT (hm.sound program) operands performed with
      h' | ⟨-, callee, l, memoize, hentered, hrest⟩
    · exact .inl h'
    · exact .inr ⟨R, callee, l, memoize, hentered, hrest⟩

end Sheltered

/-- The machine runs code that spares the name, or it is in a call that was made from there. -/
inductive Sheltering (x : Name) (v : Value) (ids : List NodeId) (T : Program) (m : Machine) : Prop
  | outside {d : Nat} {K : List Operand} (h : Sheltered x v ids T d K m)
  | inCall {d : Nat} {G : Guise} {A : NodeId → Prop} {memoize : Program} {S : List Operand} {E : List NodeId}
    {Q : Program} {O : List Operand} {b : Nat} {m₀ : Machine}
    (body : InBody G A (.op .popContext none :: memoize) S E Q O b m₀) (memo : IsMemoize memoize)
    (eq : m₀.under G = m) (after : Sparing x T d [] G.program) (houses : Scopes.Houses x v ids d ⟨G.contexts⟩)

namespace Sheltering

theorem of_entered {callee : NodeId} {l : Lambda} {memoize : Program} (hm : m.Steady held)
    (hn : m.next? held = some (.ok () m₁)) (h : m.Entered m₁ R callee l memoize) (hafter : Sparing x T d [] R)
    (hhouses : m.scopes.Houses x v ids d) : Sheltering x v ids T m₁ := by
  obtain ⟨item, rest, hp⟩ := exists_cons_of_next? hn
  obtain ⟨S, E, τ, Q, O, b, hinside⟩ := hm.inside
  have hQ : Q ≠ [] := by
    rintro rfl
    simp [hinside.program] at hp
  obtain ⟨-, Q₁, O₁, b₁, hinside₁⟩ := hinside.step hQ hn
  obtain ⟨G, m₀, hcontexts, rfl, rfl, hbody⟩ := h.inBody hinside hQ hinside₁
  exact .inCall hbody h.memo rfl hafter (hhouses.of_eq hcontexts)

theorem mem_nodes {id : NodeId} (h : Sheltering x v ids T m) (hid : v.node? = some id) : id ∈ m.scopes.nodes := by
  cases h with
  | outside h => exact h.houses.mem_nodes hid
  | @inCall d G _ _ _ _ _ _ _ m₀ body memo eq after houses =>
    subst eq
    have hnodes : (m₀.under G).scopes.nodes = m₀.scopes.nodes ++ Scopes.nodes ⟨G.contexts⟩ := List.flatMap_append
    rw [hnodes]
    exact List.mem_append_right _ (houses.mem_nodes hid)

theorem step (h : Sheltering x v ids T m) (hT : m.program ≠ T) (hm : m.Steady held)
    (hn : m.next? held = some (.ok () m₁)) : Sheltering x v ids T m₁ := by
  cases h with
  | outside h =>
    rcases h.step hT hm hn with ⟨d', K', h₁⟩ | ⟨R, callee, l, memoize, hentered, hafter⟩
    · exact .outside h₁
    · exact of_entered hm hn hentered hafter h.houses
  | @inCall d G A memoize S E Q O b m₀ body memo eq after houses =>
    subst eq
    by_cases hQ : Q = []
    · subst hQ
      obtain ⟨hprogram, -, hcontexts⟩ := body.pop hn
      refine .outside (K := []) ⟨?_, ⟨_, rfl⟩, houses.of_eq hcontexts⟩
      rw [hprogram]
      rcases memo with rfl | ⟨key, rfl⟩
      · exact after
      · exact .mild none trivial nofun after
    · obtain ⟨m₀', Q', O', b', rfl, -, body'⟩ := body.step hQ hn
      exact .inCall body' memo rfl after houses

theorem houses_of_program (h : Sheltering x v ids T m) (hT : m.program = T) : m.scopes.Houses x v ids 0 := by
  cases h with
  | outside h =>
    obtain rfl := h.sparing.depth_eq hT
    exact h.houses
  | @inCall d G A memoize S E Q O b m₀ body memo eq after houses =>
    subst eq
    have hlonger : T.length < (m₀.under G).program.length := by
      rw [under_eq_of_keep body.lines, body.inside.program]
      have hle := after.suffix.length_le
      simp only [List.length_append, List.length_cons]
      omega
    rw [hT] at hlonger
    exact (Nat.lt_irrefl _ hlonger).elim

end Sheltering

end Machine

end Mosaic
