import Mosaic.Proofs.Backtrace.Calls
import Mosaic.Proofs.Leftover.Inward

/-!
# Frugal steps

A machine that is frugal and whose program is inward stays so with every step, and it is still frugal if the
step fails. Only a call puts other code in front of the program: that of the body of a lambda, which starts in
a context of its own. Results are not remembered, so only the end of that context comes after the body
(`MachineM.Returning`).
-/

namespace Mosaic

open Mosaic.Graph (NodeId)

/-! ## Calls without a memo -/

/-- The items that the effect leaves end with the end of a call, if there are any. -/
def Effect.Returns (e : Effect) : Prop := e.code = [] ∨ ∃ body, e.code = body ++ [.op .popContext none]

namespace MachineM

/-- On this machine the action leaves a call that returns, or nothing. -/
abbrev Returning (m : Machine) (x : MachineM Effect) : Prop := Ends x m (fun _ => True) fun e _ => e.Returns

namespace Returning

variable {α : Type} {m : Machine} {x : MachineM α} {f : α → MachineM Effect}

theorem fail {cause : Cause} : Returning m (MachineM.fail cause) := Ends.fail trivial

theorem value {v : Value} : Returning m (pure (.value v)) := Ends.ret (.inl rfl)

theorem bind (hm : m.config.memoize = false) (hx : Moving True (fun _ => True) m x)
    (hf : ∀ a m', m'.config.memoize = false → Returning m' (f a)) : Returning m (x >>= f) :=
  Ends.bind (hx.imp (fun _ _ => trivial) fun _ _ h => h.config ▸ hm) hf

theorem enter (hm : m.config.memoize = false) (l : Lambda) (args : List Value) :
    Returning m (MachineM.enter l args none) := by
  have hbody : Returning m (enterBody l args none) :=
    bind hm .onStore fun _ _ _ => Ends.modifyThen (Ends.ret (.inr ⟨l.body, rfl⟩))
  rw [enter_eq]
  refine Ends.getThen ?_
  split
  · split
    · exact fail
    · exact hbody
  · exact hbody

theorem invoke (hm : m.config.memoize = false) (callee : NodeId) (args : List Value) :
    Returning m (MachineM.invoke callee args) := by
  rw [invoke_eq]
  refine bind hm .onStore fun l m' hm' => ?_
  split
  · exact fail
  · rw [answer_eq]
    refine Ends.getThen ?_
    simp only [hm', Bool.false_eq_true, if_false]
    exact enter hm' l args

theorem getVariable (hm : m.config.memoize = false) (name : Name) : Returning m (MachineM.getVariable name) := by
  refine bind hm .lookup fun v m' hm' => ?_
  split
  · refine bind hm' .onStore fun l m'' hm'' => ?_
    split
    · exact invoke hm'' _ _
    · exact value
  · exact value

theorem call (hm : m.config.memoize = false) (operands : List Operand) : Returning m (MachineM.call operands) := by
  refine Ends.okThen trivial fun vs _ => ?_
  split
  · exact fail
  · exact invoke hm _ _
  · exact fail

theorem perform {op : Op} {args : List Operand} (hop : op.Calls) (hm : m.config.memoize = false) :
    Returning m (MachineM.perform op args) := by
  cases op with
  | getVariable =>
    rcases args with _ | ⟨o, _ | _⟩
    · exact fail
    · exact Ends.okThen trivial fun name _ => getVariable hm name
    · exact fail
  | call n => exact call hm args
  | _ => exact hop.elim

end Returning

end MachineM

/-! ## Operations -/

theorem Scopes.Changes.depths {I : Prop} {W : Name → Prop} {s s' : Scopes} (h : s.Changes I W s') :
    s'.depths = s.depths := by
  rcases h with rfl | ⟨c, C, fs, hs, hs', hfs⟩
  · rfl
  · have hlength : fs.length = c.frames.length := by
      cases hc : c.frames <;> cases hfs' : fs <;> rw [hc, hfs'] at hfs
      case cons.cons => exact congrArg Nat.succ hfs.2.length_eq.symm
      all_goals first | rfl | exact hfs.elim
    simp [Scopes.depths, hs, hs', hlength]

namespace Inward

variable {S : Prop} {ns : List Nat} {Q : Program} {op : Op} {line : Option Nat}

theorem parks (h : Inward S ns (.op op line :: Q)) (hS : S) (hparks : op.Parks) : ns ≠ [1] := by
  cases h with
  | level _ _ parks => exact parks hS hparks
  | _ => exact hparks.elim

theorem ne_memoize (h : Inward S ns (.op op line :: Q)) (key : String) : op ≠ .memoize key := by
  rintro rfl
  cases h with
  | level _ hlevel => exact hlevel

theorem rest_of_operand {item : Item} {o : Operand} (h : Inward S ns (item :: Q)) (ho : item.operand? = some o) :
    Inward S ns Q := by
  cases h with
  | value _ rest | var _ rest => exact rest
  | error | pushFrame | popFrame | popContext | branch | iterate | level => cases ho

theorem rest_of_calls (h : Inward S ns (.op op line :: Q)) (hcalls : op.Calls) : Inward S ns Q := by
  cases h with
  | level _ _ _ rest => exact rest
  | _ => exact hcalls.elim

theorem of_isCode (h : Inward S ns Q) (hne : ns ≠ []) {body : Program} (hbody : IsCode body) :
    Inward S (1 :: ns) (body ++ .op .popContext none :: Q) := by
  obtain ⟨line, e, -, rfl⟩ := hbody
  obtain ⟨k, ns, rfl⟩ := List.exists_cons_of_ne_nil hne
  exact e.inward_compileAt line 0 (k :: ns) (fun _ heq => by simp at heq) _ (.popContext none h)

end Inward

namespace Machine

variable {S J K : Prop} {m m' : Machine} {op : Op} {args : List Operand} {line : Option Nat} {Q : Program}

/-- The lambdas that the operation may call have compiled bodies. -/
def CallsCode (m : Machine) (op : Op) (args : List Operand) : Prop :=
  ∀ callee l, m.Calls op args callee → m.store.pool.get Object.lambdas callee = .ok l → IsCode l.body

/-- The machine is frugal and its program inward. -/
structure Thrifty (S : Prop) (m : Machine) : Prop where
  frugal : m.Frugal S False
  inward : Inward S m.scopes.depths m.program

namespace Frugal

theorem withScopes (h : m.Frugal S J) {s : Scopes} (hs : s.Tidy S K) : Frugal S K { m with scopes := s } :=
  ⟨h.forgets, h.handles, h.memo, hs⟩

theorem weaken (h : m.Frugal S J) : m.Frugal S False :=
  h.withScopes ⟨h.scopes.some_context, h.scopes.aside, fun _ hF => hF.elim⟩

theorem strengthen (h : m.Frugal S False) (hinner : S → J → m.scopes.depths ≠ [1]) : m.Frugal S J :=
  h.withScopes ⟨h.scopes.some_context, h.scopes.aside, hinner⟩

/-- Only the store, the memo and the scopes matter. -/
theorem congr (h : m.Frugal S J) (hconfig : m'.config = m.config) (hstore : m'.store = m.store)
    (hmemo : m'.memo = m.memo) (hscopes : m'.scopes = m.scopes) : m'.Frugal S J :=
  ⟨hconfig ▸ h.forgets, hstore ▸ h.handles, hmemo ▸ h.memo, hscopes ▸ h.scopes⟩

theorem performShift (h : m.Frugal S False) (hQ : Inward S m.scopes.depths (.op op line :: Q))
    (hshifts : op.Shifts) (hcalls : ¬ op.Calls) :
    MachineM.Ends (MachineM.perform op args) m (Machine.Frugal S False) fun e m' =>
      m'.Frugal S False ∧ Inward S m'.scopes.depths (e.code ++ Q) := by
  generalize hdepths : m.scopes.depths = ns at hQ
  have hleaves : ∀ {s : Scopes} {ns' : List Nat}, s.Tidy S False ∧ s.depths = ns' → Inward S ns' Q →
      Frugal S False { m with scopes := s } ∧ Inward S s.depths Q :=
    fun ⟨htidy, hs⟩ hQ => ⟨h.withScopes htidy, hs ▸ hQ⟩
  cases hQ with
  | level line hlevel =>
    cases op with
    | getVariable | call => exact (hcalls trivial).elim
    | pushContext | popContext | pushFrame | popFrame => exact hlevel.elim
    | _ => exact hshifts.elim
  | branch | iterate => exact hshifts.elim
  | popContext line rest =>
    refine .getThen (MachineM.Ends.okThen h fun _ hs => .modifyThen (.ret ?_))
    exact hleaves (h.scopes.popContext hs hdepths) rest
  | pushFrame line rest =>
    refine .getThen (.bind (MachineM.Ends.setScopes h fun s hs => ?_) fun _ _ h' => .ret h')
    exact hleaves (h.scopes.pushFrame hs hdepths) rest
  | popFrame line rest =>
    exact .getThen (MachineM.Ends.okThen h fun _ hs => .modifyThen (.ret (hleaves (h.scopes.popFrame hs hdepths) rest)))

theorem inward_of_calls (h : m.Frugal S False) (hQ : Inward S m.scopes.depths Q) (hcalls : op.Calls)
    (hcode : m.CallsCode op args) :
    MachineM.Ends (MachineM.perform op args) m (fun _ => True) fun e m' =>
      Inward S m'.scopes.depths (e.code ++ Q) := by
  refine ((MachineM.Ends.performCall hcalls).and (MachineM.Returning.perform hcalls h.forgets)).imp
    (fun _ _ _ => trivial) fun e m' ⟨hcalled, hreturns⟩ => ?_
  cases hcalled with
  | answered v stays =>
    rw [stays.scopes]
    exact hQ
  | entered callee l frame memoize called stored memo kept scopes limit =>
    have hne : m.scopes.depths ≠ [] := fun hnil => h.scopes.some_context (List.map_eq_nil_iff.1 hnil)
    obtain rfl : memoize = [] := by
      rcases memo with rfl | ⟨key, rfl⟩
      · rfl
      · rcases hreturns with hnil | ⟨body, hlast⟩
        · simp [Effect.code] at hnil
        · simpa [Effect.code] using congrArg List.getLast? hlast
    rw [scopes]
    simpa [Effect.code, Scopes.depths, Scopes.pushContext] using hQ.of_isCode hne (hcode callee l called stored)

theorem inward_of_spares (hQ : Inward S m.scopes.depths (.op op line :: Q)) (hshifts : ¬ op.Shifts)
    (hcalls : ¬ op.Calls) :
    MachineM.Ends (MachineM.perform op args) m (fun _ => True) fun e m' =>
      Inward S m'.scopes.depths (e.code ++ Q) := by
  have hmoves : MachineM.Moving op.Binds (fun _ => True) m (MachineM.perform op args) :=
    .perform hshifts (op.spares_all args)
  refine (hmoves.and ((MachineM.Unfolding.perform hcalls args).ends m)).imp (fun _ _ _ => trivial)
    fun e m' ⟨hm', hunfolds⟩ => ?_
  rw [hm'.scopes.depths]
  exact hQ.unfold hshifts hunfolds

/-- What an operation leads to, also if it fails. -/
theorem perform (h : m.Frugal S False) (hQ : Inward S m.scopes.depths (.op op line :: Q))
    (hcode : m.CallsCode op args) :
    MachineM.Ends (MachineM.perform op args) m (Machine.Frugal S False) fun e m' =>
      m'.Frugal S False ∧ Inward S m'.scopes.depths (e.code ++ Q) := by
  by_cases hown : op.Shifts ∧ ¬ op.Calls
  · exact h.performShift hQ hown.1 hown.2
  have hshifts : op.Shifts → op.Calls := fun hs => by_contra fun hc => hown ⟨hs, hc⟩
  have hfrugal : MachineM.Ends (MachineM.perform op args) m (Machine.Frugal S op.Parks) fun _ m' =>
      m'.Frugal S op.Parks :=
    ((MachineM.frugal S op.Parks).perform hshifts hQ.ne_memoize (fun hparks _ => hparks)
      (fun _ => StoreM.keepsHandles.copying_interface) (fun _ _ _ _ => trivial) args).keeps (h.strengthen hQ.parks)
  have hinward : MachineM.Ends (MachineM.perform op args) m (fun _ => True) fun e m' =>
      Inward S m'.scopes.depths (e.code ++ Q) := by
    by_cases hcalls : op.Calls
    · exact h.inward_of_calls (hQ.rest_of_calls hcalls) hcalls hcode
    · exact inward_of_spares hQ (fun hs => hcalls (hshifts hs)) hcalls
  exact (hfrugal.and hinward).imp (fun _ _ hm' => hm'.1.weaken) fun _ _ hm' => ⟨hm'.1.weaken, hm'.2⟩

end Frugal

/-! ## Steps -/

namespace Thrifty

variable {G : Prop} {A : NodeId → Prop} {τ : Shape} {T O : List Operand} {E held : List NodeId} {b : Nat}
  {f : Failure}

theorem perform (h : m.Thrifty S) (hin : Inside G A [] T E τ (.op op line :: Q) O b m) :
    MachineM.Ends (MachineM.perform op (m.arguments op)) (m.taking op Q) (Machine.Frugal S False) fun e m' =>
      m'.Frugal S False ∧ Inward S m'.scopes.depths (e.code ++ Q) := by
  have hQ := h.inward
  rw [hin.program, List.append_nil] at hQ
  have htaking : (m.taking op Q).Frugal S False := h.frugal.congr rfl rfl rfl rfl
  refine htaking.perform hQ fun callee l hcalls hstored => ?_
  exact (hin.safe.store.get (hin.calls hcalls) hstored).2 id l rfl

theorem step (h : m.Thrifty S) (hin : Inside G A [] T E τ Q O b m) (hn : m.next? held = some (.ok () m')) :
    m'.Thrifty S := by
  cases stepped_of_next? hn with
  | @push item rest o program operand =>
    refine ⟨h.frugal.congr rfl rfl rfl rfl, ?_⟩
    have hinward := h.inward
    rw [program] at hinward
    exact hinward.rest_of_operand operand
  | @perform op line rest e m₁ program within operands performed =>
    obtain rfl : Q = .op op line :: rest := by simpa [program] using hin.program.symm
    obtain ⟨hfrugal, hinward⟩ := (h.perform hin).ok performed
    have hprogram : m₁.program = rest := (Kept.of_perform performed).program
    refine ⟨by cases e <;> exact hfrugal.congr rfl rfl rfl rfl, ?_⟩
    rwa [Effect.scopes_settle, Effect.program_settle, hprogram]

theorem failed (h : m.Thrifty S) (hin : Inside G A [] T E τ Q O b m) (hn : m.next? held = some (.error f m')) :
    m'.Frugal S False := by
  cases stopped_of_next? hn with
  | @perform op line rest failure m₁ program within operands performed =>
    obtain rfl : Q = .op op line :: rest := by simpa [program] using hin.program.symm
    exact (h.perform hin).error performed
  | _ => exact h.frugal.congr rfl rfl rfl rfl

end Thrifty

end Machine

end Mosaic
