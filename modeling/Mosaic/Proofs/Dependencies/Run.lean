import Mosaic.Proofs.Dependencies.Lockstep

/-!
# Runs depend only on what the expression reads

With scopes that are as deep, and in which the dependencies of an expression resolve to the same values, its code
ends in the same way (`Machine.finishes_with_scopes`). The dependencies alone do not suffice: the walk takes the
targets of a block out of all its values, also out of those that are evaluated before the target is bound. What it
misses are the names in `Expr.early`.
-/

namespace Mosaic

open Mosaic.Graph (NodeId Pool)

/-! ## What is held -/

theorem Machine.Finishes.beside {C : Cause → Prop} {B : Backdrop} {g : Fragment} {m : Machine} {n : Nat} {t : Store}
    {R : Program} {ending : Ending} (hm : m.Whole C g) (ht : Twin (.plain C B) g m.store t)
    (hf : Finishes B.left R m ending) : Finishes B.right R (m.beside n t) ending := by
  induction hf generalizing g t with
  | @returned m v program result =>
    obtain ⟨rest, hoperands⟩ := List.head?_eq_some_iff.1 result
    have hv : g.Good v := hm.operands v (hoperands ▸ List.mem_cons_self ..)
    rw [← ht.cut_eq hv]
    exact .returned (m := m.beside n t) program result
  | failed program step =>
    obtain ⟨s₁, -, hn, -⟩ := next?_beside_of_error (n := n) hm ht step
    exact .failed program hn
  | step program step rest ih =>
    obtain ⟨s₁, g₁, hn, ht₁, hm₁⟩ := next?_beside_of_ok (n := n) hm ht step
    exact .step program hn (ih hm₁ ht₁)

namespace Machine.Sound

variable {g : Fragment} {m : Machine} {held : List NodeId} {e : Expr} {line : Option Nat} {s : Scopes}
  {ending : Ending}

theorem withScopes (h : m.Sound g) (hs : s.All g.Good (g.At .lambda)) : (m.withScopes s).Sound g :=
  { h with scopes := hs }

theorem whole_of_code (h : m.Sound g) (he : e.Countable) (hp : m.program = e.compileAt line) :
    m.Whole Cause.Ordinary g where
  program item hitem := .of_plain (IsCode.plain ⟨line, e, he, rfl⟩ item (hp ▸ hitem))
  operands := h.operands
  scopes := h.scopes
  builders := h.builders
  memo := h.memo

/-- What is held besides, as far as it is there, makes no difference. -/
theorem finishes_of_held (h : m.Sound g) (he : e.Countable) (hp : m.program = e.compileAt line)
    {left right : List NodeId} (hleft : ∀ id ∈ left, (g id).isSome = true)
    (hright : ∀ id ∈ right, (g id).isSome = true) (hf : Finishes left [] m ending) :
    Finishes right [] m ending :=
  Finishes.beside (B := ⟨m.store.pool.handles, left, right⟩) (n := m.config.collectEvery) (t := m.store)
    (h.whole_of_code he hp) (h.twin rfl hleft hright) hf

theorem veiled (h : m.Sound g) (hbuilders : m.builders = []) (hp : m.program = e.compileAt line) :
    m.Veiled m.next := by
  have hopen : ∀ id : NodeId, True → id ∉ m.builders := fun id _ => hbuilders ▸ List.not_mem_nil
  have hvalid : ∀ {v}, g.Good v → Within (· ∉ m.builders) m.next v.node?.toList := fun hv =>
    Within.imp (h.valid hv) hopen
  refine ⟨⟨.refl (h.rested.store.imp (fun _ hq => hq) hopen), h.scopes.imp (fun _ hv => hvalid hv) fun id hid =>
    ⟨hopen id trivial, h.lt_next hid.isSome⟩, fun key v hv => hvalid (h.memo key v hv), Nat.le_refl _, fun id _ =>
    hopen id trivial⟩, ?_, fun o ho => ?_, hbuilders ▸ List.nodup_nil⟩
  · have hold : Old m.next m.program := by simp [Old, hp]
    exact hold.clear (fun id _ => hopen id trivial) (Nat.le_refl _)
  · cases o with
    | value v => exact hvalid (h.operands v ho)
    | var name => exact .nil

theorem steady (h : m.Sound g) (hbuilders : m.builders = []) (hheld : ∀ id ∈ held, (g id).isSome = true)
    (he : e.Countable) (hp : m.program = e.compileAt line) : m.Steady held where
  inside := ⟨_, _, _, _, _, _, .of_code h.safe he False.elim (hp.trans (List.append_nil _).symm) rfl⟩
  veiled := ⟨m.next, h.veiled hbuilders hp⟩
  whole := ⟨⟨m.store.pool.handles, held, held⟩, g, m.store, rfl, h.twin rfl hheld hheld, h.whole_of_code he hp⟩

end Machine.Sound

/-! ## The main result -/

theorem Footing.Rests.of_nodes {D : Name → Prop} {X : List NodeId} {c : Context} {cs : List Context}
    (hframes : c.frames ≠ []) (h : ∀ id ∈ Scopes.nodes ⟨c :: cs⟩, id ∈ X) :
    Footing.Rests D X ⟨c.frames, c.label, cs⟩ where
  frames := hframes
  hidden := Context.hidden_of_nodes fun f hf id hid =>
    h id (List.mem_append_left _ (List.mem_flatMap.2 ⟨f, hf, hid⟩))
  contexts id hid := h id (List.mem_append_right _ hid)

/-- Scopes as deep, in which the names in `D` resolve to the same values, are moored beside each other. -/
theorem Moored.of_lookup? {D : Name → Prop} {p : Pool Object} {s s' : Scopes} (hs : s.Open) (hs' : s'.Open)
    (hdepth : s'.depth = s.depth) (hD : ∀ name, D name → s'.lookup? name = s.lookup? name) :
    Moored D (s.nodes ++ s'.nodes) p [] s s' := by
  obtain ⟨c, cs, f, fs, hc, hf⟩ := hs.exists_frame
  obtain ⟨c', cs', f', fs', hc', hf'⟩ := hs'.exists_frame
  have hnodes : ∀ id ∈ Scopes.nodes ⟨c :: cs⟩, id ∈ s.nodes ++ s'.nodes := fun id hid =>
    List.mem_append_left _ (by rwa [Scopes.nodes, hc])
  have hnodes' : ∀ id ∈ Scopes.nodes ⟨c' :: cs'⟩, id ∈ s.nodes ++ s'.nodes := fun id hid =>
    List.mem_append_right _ (by rwa [Scopes.nodes, hc'])
  have hparked : ∀ {c cs}, (∀ id ∈ Scopes.nodes ⟨c :: cs⟩, id ∈ s.nodes ++ s'.nodes) →
      ∀ id ∈ c.frames.flatMap Frame.parked, id ∈ s.nodes ++ s'.nodes := fun h id hid =>
    h id (List.mem_append_left _ (Context.mem_flatMap_nodes.2 (.inr hid)))
  refine ⟨[], ⟨c.frames, c.label, cs⟩, ⟨c'.frames, c'.label, cs'⟩, ?_, .nil, congrArg Scopes.mk hc,
    congrArg Scopes.mk hc'⟩
  exact
    { left := .of_nodes (hf ▸ List.cons_ne_nil f fs) hnodes
      right := .of_nodes (hf' ▸ List.cons_ne_nil f' fs') hnodes'
      depth := by simpa [Scopes.depth, hc, hc'] using hdepth
      lookup? := fun n hn => by
        show c'.lookup? n = c.lookup? n
        simpa [Scopes.lookup?, hc, hc'] using hD n hn
      parked := fun id => by
        rw [or_iff_left_of_imp (hparked hnodes' id), or_iff_left_of_imp (hparked hnodes id)] }

namespace Machine

variable {held : List NodeId} {g : Fragment} {m : Machine} {e : Expr} {line : Option Nat} {S : Scopes}

/-- One direction of the main result. -/
theorem Finishes.withScopes {ending : Ending} (hm : m.Sound g) (hbuilders : m.builders = [])
    (hheld : ∀ id ∈ held, (g id).isSome = true) (he : e.Countable) (hp : m.program = e.compileAt line)
    (hopen : m.scopes.Open) (hS : S.All g.Good (g.At .lambda)) (hopen' : S.Open)
    (hdepth : S.depth = m.scopes.depth) (hsame : ∀ name ∈ e.demands, S.lookup? name = m.scopes.lookup? name)
    (hf : Finishes held [] m ending) : Finishes held [] (m.withScopes S) ending := by
  -- While the machines run side by side, the nodes of both scopes are held.
  let X := m.scopes.nodes ++ S.nodes
  have hX : ∀ id ∈ held ++ X, (g id).isSome = true := by
    intro id hid
    simp only [X, List.mem_append] at hid
    rcases hid with hid | hid | hid
    · exact hheld id hid
    · exact hm.scopes.isSome id hid
    · exact hS.isSome id hid
  have hsighted : Sighted (· ∈ e.demands) [] [] m.program := by
    have hlooks := e.looks_compileAt line [] (fun name hname => .inl hname) [] (.nil [])
    rwa [List.append_nil, ← hp] at hlooks
  have hstanding : Standing (· ∈ e.demands) X [] [] m S :=
    ⟨hsighted, ⟨_, rfl⟩, .of_lookup? hopen hopen' hdepth hsame⟩
  have hmore := hm.finishes_of_held he hp hheld hX hf
  have hother := hmore.of_aligned (.standing hstanding) (hm.steady hbuilders hX he hp) fun id hid =>
    List.mem_append_right held hid
  exact (hm.withScopes hS).finishes_of_held he hp hX hheld hother

/-- The code of an expression reads nothing of the scopes but its dependencies, and what it reads early. Take any
other scopes, with as many contexts, in which all these names resolve to the same values. Then the code ends in
the same way: with the same value, from which the same objects can be reached, or with the same cause, or never. -/
theorem finishes_with_scopes (hm : m.Sound g) (hbuilders : m.builders = []) (hheld : ∀ id ∈ held, (g id).isSome = true)
    (he : e.Countable) (hp : m.program = e.compileAt line) (hopen : m.scopes.Open)
    (hS : S.All g.Good (g.At .lambda)) (hopen' : S.Open) (hdepth : S.depth = m.scopes.depth)
    (hsame : ∀ name, name ∈ e.dependencies ∨ name ∈ e.early → S.lookup? name = m.scopes.lookup? name)
    (ending : Ending) : Finishes held [] { m with scopes := S } ending ↔ Finishes held [] m ending := by
  have hdemands : ∀ name ∈ e.demands, S.lookup? name = m.scopes.lookup? name := fun name hname =>
    hsame name (Expr.mem_demands_iff.1 hname)
  constructor
  · intro hf
    exact Finishes.withScopes (m := m.withScopes S) (hm.withScopes hS) hbuilders hheld he hp hopen' hm.scopes hopen
      hdepth.symm (fun name hname => (hdemands name hname).symm) hf
  · exact .withScopes hm hbuilders hheld he hp hopen hS hopen' hdepth hdemands

/-! ## A block that reads a name before it binds it -/

/-- The block binds `x` to what `x` is outside of it. -/
def rereading : Expr := .letIn [.bind ["x"] (.var "x")] (.binary .add (.var "x") (.var "y"))

/-- Globals of which the block reads `x` and `y`. -/
def threeGlobals (z : Value) : Scopes :=
  ⟨[{ frames := [((Frame.define {} "x" (.count 7)).define "y" (.count 1)).define "z" z] }]⟩

theorem all_threeGlobals {g : Fragment} {z : Value} (hz : g.Good z) : (threeGlobals z).All g.Good (g.At .lambda) := by
  intro c hc f hf
  obtain rfl := List.mem_singleton.1 hc
  obtain rfl := List.mem_singleton.1 hf
  exact ((Frame.All.empty.define (Fragment.good_of_scalar rfl)).define (Fragment.good_of_scalar rfl)).define hz

/-- The walk finds that the block reads `y`, and misses that it reads `x`. With both as they are, it does not
matter what `z` is. -/
theorem finishes_with_scopes_rereading :
    let m : Machine := { scopes := threeGlobals (.count 3), program := rereading.compile }
    rereading.dependencies = ["y"] ∧ rereading.early = ["x"] ∧
      ∀ ending, Finishes [] [] { m with scopes := threeGlobals (.text "a") } ending ↔ Finishes [] [] m ending := by
  have hsound : Sound (fun _ => none)
      { scopes := threeGlobals (.count 3), program := rereading.compile, config := {} } :=
    { sound_ofConfig {} with
      scopes := all_threeGlobals (Fragment.good_of_scalar rfl)
      program := fun id hid => by simp [Expr.compile] at hid }
  have hheld : ∀ id ∈ ([] : List NodeId), ((none : Option Object)).isSome = true := by simp
  have hprogram : rereading.compile = rereading.compileAt none := rfl
  have hdependencies : rereading.dependencies = ["y"] := by decide +kernel
  refine ⟨hdependencies, rfl, finishes_with_scopes hsound rfl hheld ?_ hprogram ⟨0, [], rfl⟩
    (all_threeGlobals (Fragment.good_of_scalar rfl)) ⟨0, [], rfl⟩ rfl fun name hname => ?_⟩
  · simp [rereading, Expr.Countable, CountableBindings]
  · have hname : name = "y" ∨ name = "x" := by
      rw [hdependencies] at hname
      exact hname.imp List.mem_singleton.1 List.mem_singleton.1
    rcases hname with rfl | rfl <;> decide

end Machine

end Mosaic
