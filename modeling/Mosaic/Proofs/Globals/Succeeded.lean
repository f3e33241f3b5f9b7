import Mosaic.Proofs.Globals.Failed
import Mosaic.Proofs.Globals.Shaded

/-!
# What a run does to the globals

To restore the checkpoint of the start in the middle of a run leaves the scopes of the start as they are by
then: what was pushed since is dropped. So what a step does to the scopes of the start is told by what the
restored scopes are before and after it. A step inside a call does nothing to them
(`Machine.InCall.restore_eq`), and a step at the surface rebinds names by the assignment of a field only, and
only names that no block of the run binds (`Surface.rebinds`). Nothing else that a run binds or rebinds gets
to the global names, whether by its blocks, comprehensions and calls or in the bodies of lambdas
(`Machine.globals_of_run`).
-/

namespace Mosaic

open Mosaic.Graph (NodeId)

namespace Scopes.Extends

variable {W : Name → Prop} {d : Nat} {start s : Scopes}

theorem checkpoint_eq (h : start.Extends W d s) :
    (s.restore start.checkpoint).checkpoint = start.checkpoint :=
  checkpoint_eq_of_depths (h.restore (List.nil_append _).symm).depths

theorem restored (h : start.Extends W d s) (V : Name → Prop) : (s.restore start.checkpoint).Extends V d s := by
  rcases h with ⟨hstart, hs, rfl⟩ | ⟨c, C, own, fs, hstart, hs, hlen, hagrees⟩
  · obtain rfl : s = ⟨[]⟩ := congrArg Scopes.mk hs
    have hcheckpoint : start.checkpoint = ⟨0, 0⟩ := by simp [checkpoint, hstart]
    exact .inl ⟨by rw [hcheckpoint]; rfl, rfl, rfl⟩
  · have hrestore : s.restore start.checkpoint = ⟨{ c with frames := fs } :: C⟩ :=
      restore_of_frames hs (by simp [checkpoint, hstart]) (by simp [checkpoint, hstart, hagrees.length_eq])
    exact .inr ⟨{ c with frames := fs }, C, own, fs, congrArg contexts hrestore, hs, hlen,
      Context.Changes.agrees_refl fs⟩

end Scopes.Extends

namespace Machine

/-- The next item assigns a field of what the name is bound to. -/
def Assigns (m : Machine) (name : Name) : Prop :=
  ∃ n line rest field, m.program = .op (.setField n) line :: rest ∧
    .value (.fieldRef name field) ∈ (m.arguments (.setField n)).tail

/-- The next item assigns a field of what the name is bound to in the scopes of the checkpoint: it is in no
call, and no frame that was pushed since binds the name. -/
structure Rebinds (cp : Checkpoint) (m : Machine) (name : Name) : Prop where
  surface : m.scopes.depth = cp.contexts
  assigns : m.Assigns name
  unbound : Context.Unbound (m.scopes.since cp) name

end Machine

/-! ## Steps -/

namespace Surface

open Machine

variable {W : Name → Prop} {start : Scopes} {d n : Nat} {K : List Operand} {m m' m₁ : Machine} {op : Op}
  {line : Option Nat} {R : Program} {held : List NodeId} {e : Effect}

theorem rebinds_setField (h : Surface W start d K m) (hp : m.program = .op (.setField n) line :: R)
    (hperform : MachineM.perform (.setField n) (m.arguments (.setField n)) (Pins.of fun _ => held)
      (m.taking (.setField n) R) = .ok e m₁) :
    (m.scopes.restore start.checkpoint).Extends
      (fun name => m.Rebinds start.checkpoint name ∧ W name) d m₁.scopes := by
  obtain hcalls | heq | heq | ⟨hshifts, hspares, -⟩ := h.kinds hp
  · exact hcalls.elim
  · cases heq
  · cases heq
  have hrestored := h.scopes.restored fun name => m.Rebinds start.checkpoint name ∧ W name
  rcases h.scopes with ⟨hstart, hnil, rfl⟩ | ⟨c, C, own, fs, hstart, hs, hlen, hagrees⟩
  · -- Without a context there is nothing to rebind.
    have hmoves := MachineM.Moving.perform (m := m.taking (.setField n) R) hshifts hspares
      (Pins.of fun _ => held)
    rw [hperform] at hmoves
    rcases hmoves.scopes with heq | ⟨c, C, fs, hc, -⟩
    · exact hrestored.of_eq (congrArg Scopes.contexts heq)
    · cases hnil.symm.trans hc
  · have hcontexts : start.checkpoint.contexts = C.length + 1 := by simp [Scopes.checkpoint, hstart]
    have hframes : start.checkpoint.frames = fs.length := by
      simp [Scopes.checkpoint, hstart, hagrees.length_eq]
    have hshaded := MachineM.shades_setField (m := m.taking (.setField n) R) (n := n)
      (W := fun name => m.Assigns name ∧ W name)
      (fun binding field hmem => ⟨⟨n, line, R, field, hp, hmem⟩, hspares binding field hmem⟩) hs
      (Pins.of fun _ => held)
    rw [hperform] at hshaded
    obtain ⟨own', fs', hs₁, hshades⟩ := hshaded
    have hbelow := hshades.below.imp fun f f' hf => hf.imp (W := fun name =>
      m.Rebinds start.checkpoint name ∧ W name) fun name hname =>
        ⟨⟨by rw [Scopes.depth, hs, hcontexts]; rfl, hname.1.1,
          Scopes.since_of_frames hs hframes ▸ hname.2⟩, hname.1.2⟩
    exact .inr ⟨{ c with frames := fs }, C, own', fs',
      congrArg Scopes.contexts (Scopes.restore_of_frames hs hcontexts hframes), hs₁,
      hshades.top.length_eq.symm.trans hlen, hbelow⟩

/-- What a step from the surface does to the scopes of the start. -/
theorem rebinds (h : Surface W start d K m) (hn : m.next? held = some (.ok () m')) :
    ∃ upper C d', m'.scopes.contexts = upper ++ C ∧ (m.scopes.restore start.checkpoint).Extends
      (fun name => m.Rebinds start.checkpoint name ∧ W name) d' ⟨C⟩ := by
  have hrestored := h.scopes.restored fun name => m.Rebinds start.checkpoint name ∧ W name
  cases stepped_of_next? hn with
  | push => exact ⟨[], _, d, rfl, hrestored⟩
  | @perform op line rest e m₁ program within operands performed =>
    rw [Effect.scopes_settle]
    have hends : ∀ {E Q}, MachineM.Ends (MachineM.perform op (m.arguments op)) (m.taking op rest) E Q →
        Q e m₁ := fun h => h.ok performed
    rcases h.kinds program with hcalls | rfl | rfl | ⟨hshifts, -, hbinds⟩
    · cases hends (MachineM.Ends.performCall hcalls) with
      | answered v stays => exact ⟨[], _, d, rfl, hrestored.of_eq (congrArg Scopes.contexts stays.scopes)⟩
      | entered callee l frame memoize called stored memo kept scopes limit =>
        exact ⟨[_], m.scopes.contexts, d, congrArg Scopes.contexts scopes, hrestored⟩
    · obtain ⟨-, -, c, C, hc, hc'⟩ := hends MachineM.Ends.pushFrame
      exact ⟨[], _, d + 1, rfl, hrestored.pushFrame hc hc'⟩
    · obtain ⟨-, -, c, C, f, fs, hc, hf, hc'⟩ := hends MachineM.Ends.popFrame
      have htame := h.tame
      rw [program] at htame
      cases htame with
      | popFrame => exact ⟨[], _, _, rfl, hrestored.popFrame hc hf hc'⟩
      | mild line hmild => exact hmild.elim
    · by_cases hset : ∃ n, op = .setField n
      · obtain ⟨n, rfl⟩ := hset
        exact ⟨[], _, d, rfl, h.rebinds_setField program performed⟩
      · have hspares : ∀ V : Name → Prop, op.Spares V (m.arguments op) := by
          cases op <;> first | exact fun _ => trivial | exact absurd ⟨_, rfl⟩ hset
        exact ⟨[], _, d, rfl, hrestored.changes (hends (MachineM.Moving.perform hshifts (hspares _))).scopes
          hbinds⟩

end Surface

namespace Machine

variable {W : Name → Prop} {start : Scopes} {held : List NodeId} {m m' m₁ m₂ : Machine} {e : Expr} {n : Nat}

theorem InCall.restore_eq (h : InCall W start m) (hn : m.next? held = some (.ok () m')) :
    m'.scopes.restore start.checkpoint = m.scopes.restore start.checkpoint := by
  obtain ⟨d, G, A, S, E, Q, O, b, m₀, memoize, hbody, rfl, hextends⟩ := h
  have hlength : G.contexts.length = start.checkpoint.contexts := hextends.length
  have hunder : ∀ m : Machine, (m.under G).scopes.restore start.checkpoint =
      (⟨G.contexts⟩ : Scopes).restore start.checkpoint := fun m => Scopes.restore_append rfl hlength
  by_cases hQ : Q = []
  · subst hQ
    obtain ⟨-, -, hcontexts⟩ := hbody.pop hn
    rw [hunder, ← hcontexts]
  · obtain ⟨m₀', -, -, -, rfl, -⟩ := hbody.step hQ hn
    rw [hunder, hunder]

theorem rebinds_of_step (hm : m.Grounded) (hc : m.Compiled) (he : e.Countable)
    (hs : Steps held n (m.started e.compile) m₁) (hn : m₁.next? held = some (.ok () m₂)) :
    (m₁.scopes.restore m.scopes.checkpoint).Extends
      (fun name => m₁.Rebinds m.scopes.checkpoint name ∧ name ∈ e.assigned) 0
      (m₂.scopes.restore m.scopes.checkpoint) := by
  rcases surface_or_inCall hm hc he (.refl _) (surface_started m e) hs with ⟨d, K, h⟩ | h
  · obtain ⟨upper, C, d', hcontexts, hextends⟩ := h.rebinds hn
    have hrestored := hextends.restore hcontexts
    rwa [h.scopes.checkpoint_eq] at hrestored
  · rw [h.restore_eq hn]
    exact .refl _

/-- A run touches only the globals whose fields it assigns. However a machine is set up whose lambdas have
compiled bodies, a successful run of an expression leaves as many contexts, and frames in each of them, as
before, the same names are bound, and every name whose fields the expression does not assign outside the
bodies of lambdas has the value it had. Along the run the scopes that were there at the start bind the same
names, and a step rebinds one of them only by the assignment of a field, outside of calls, and only if no
block or comprehension that the run is in binds the name itself. -/
theorem globals_of_run (held : List NodeId) {m m' : Machine} {e : Expr} {fuel : Nat} {v : Value}
    (hm : m.Grounded) (hc : m.Compiled) (he : e.Countable)
    (hr : m.run held fuel e.compile = some (.ok v, m')) :
    m'.scopes.depths = m.scopes.depths ∧
    (∀ name, (m'.scopes.lookup? name).isSome = (m.scopes.lookup? name).isSome) ∧
    (∀ name, name ∉ e.assigned → m'.scopes.lookup? name = m.scopes.lookup? name) ∧
    ∀ n m₁ m₂, Steps held n (m.started e.compile) m₁ → m₁.next? held = some (.ok () m₂) →
      (m₁.scopes.restore m.scopes.checkpoint).Extends
        (fun name => m₁.Rebinds m.scopes.checkpoint name ∧ name ∈ e.assigned) 0
        (m₂.scopes.restore m.scopes.checkpoint) := by
  obtain ⟨⟨ended, m₁⟩, hex, hr⟩ := Option.map_eq_some_iff.1 hr
  obtain ⟨n, m₂, _, hs, hend⟩ := execute_inv hex
  rcases hend with ⟨rfl, rfl, hp⟩ | ⟨f, rfl, -⟩
  · have hscopes := scopes_of_ended hm hc he hs hp
    have heq : m'.scopes = m₁.scopes := by
      dsimp only at hr
      split at hr <;> cases hr
      rfl
    rw [heq]
    exact ⟨hscopes.depths, fun name => (hscopes.lookup? name).1, fun name => (hscopes.lookup? name).2,
      fun _ _ _ hs hn => rebinds_of_step hm hc he hs hn⟩
  · cases hr

/-- A block that binds `x`, and a lambda with a parameter `x` whose body assigns a field of it. -/
def rebinding : Expr :=
  .letIn [.bind ["f"] (.lambda "f" ["x"] (.letIn [.setField [("x", "g")] (.number (.ofNat 1))] (.var "x"))),
    .bind ["x"] (.cluster [])] (.call (.var "f") [.var "x"])

theorem globals_of_run_rebinding :
    holding.Grounded ∧ holding.Compiled ∧ rebinding.Countable ∧
    ∃ v m', holding.run [] 40 rebinding.compile = some (.ok v, m') ∧
      m'.scopes.depths = [1] ∧ m'.scopes.lookup? "x" = some (.object .cluster 1) := by
  have he : rebinding.Countable := by simp [rebinding, Expr.Countable, CountableAll, CountableBindings]
  have hends : (holding.run [] 40 rebinding.compile).map (fun r => r.1.isOk) = some true := by
    decide +kernel
  obtain ⟨⟨_ | v, m'⟩, hr, hok⟩ := Option.map_eq_some_iff.1 hends
  · cases hok
  · obtain ⟨hdepths, -, hlookup, -⟩ := globals_of_run [] grounded_holding compiled_holding he hr
    exact ⟨grounded_holding, compiled_holding, he, v, m', hr, hdepths, hlookup "x" (by decide)⟩

end Machine

end Mosaic
