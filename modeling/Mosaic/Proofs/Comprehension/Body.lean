import Mosaic.Proofs.Comprehension.Rounds
import Mosaic.Proofs.Fields.Assignment
import Mosaic.Proofs.Published.Run

/-!
# Bodies of comprehensions

While the body of a comprehension runs, the clusters that were open before it lie below those that it opens,
and neither they nor a cluster that is still to be read are written to: an operation of compiled code that
adds a slot, or closes a cluster, has a cluster of its own to do it to (`Machine.Amid.keeps_cluster`). When the
body has come to its end the stacks are as before, with one more value.
-/

namespace Mosaic

open Mosaic.Graph (NodeId Node Pool)

variable {held : List NodeId} {m m' : Machine} {g : Fragment} {n : Nat} {R body : Program} {S : List Operand}
  {id : NodeId} {c : Cluster}

namespace Machine

/-! ## Machines in the middle of a run -/

/-- The machine is in the middle of a run of the code of an expression, on a machine all of whose lambdas have
compiled bodies. So neither the program nor a body has an object in its text. -/
def Midway (held : List NodeId) (m : Machine) : Prop :=
  ∃ (m₀ : Machine) (g₀ : Fragment) (e : Expr) (n : Nat), m₀.Sound g₀ ∧ m₀.scopes.Open ∧
    (∀ id ∈ held, (g₀ id).isSome = true) ∧ e.Countable ∧ Steps held n (m₀.started e.compile) m

theorem Sound.rested (h : m.Sound g) : m.Rested where
  store :=
    { below id e he := (h.entries id e he).1
      fresh _ _ := trivial
      pointers id e he p hp := ⟨trivial, (h.entries id e he).2 p hp⟩
      body id e l he hl := by simp [Old, (plain_iff.1 (h.compiled id e l he hl).plain).1] }
  scopes := h.scopes.imp (fun _ hv => h.valid hv) fun _ hid => ⟨trivial, h.lt_next hid.isSome⟩

theorem Sound.safe (h : m.Sound g) : Safe (fun _ => True) m.builders ⟨m.scopes.depths, 0⟩ m :=
  ⟨h.closed_store, h.scopes.imp (fun _ hv => h.valid hv) fun _ hid => ⟨trivial, h.lt_next hid.isSome⟩,
    fun key v hv => h.valid (h.memo key v hv), rfl, [], rfl, rfl, by simp⟩

theorem Sound.taking {op : Op} {line : Option Nat} (h : m.Sound g) (hp : m.program = .op op line :: R) :
    (m.taking op R).Sound g where
  entries := h.entries
  compiled := h.compiled
  closed := h.closed
  entry := h.entry
  handles := h.handles
  program id hid := h.program id (by rw [hp, programNodes_cons]; exact List.mem_append_right _ hid)
  operands v hv := h.operands v (List.mem_of_mem_drop hv)
  scopes := h.scopes
  builders := h.builders
  memo := h.memo

namespace Midway

theorem steps (h : m.Midway held) (hs : Steps held n m m') : m'.Midway held :=
  let ⟨m₀, g₀, e, k, hsound, hopen, hheld, he, hs₀⟩ := h
  ⟨m₀, g₀, e, k + n, hsound, hopen, hheld, he, hs₀.trans hs⟩

theorem sound (h : m.Midway held) : ∃ g, m.Sound g ∧ ∀ id ∈ held, (g id).isSome = true :=
  let ⟨_, _, _, _, hsound, _, hheld, he, hs⟩ := h
  hsound.of_steps hheld he hs

theorem veiled (h : m.Midway held) : ∃ n₀, m.Veiled n₀ := by
  obtain ⟨m₀, g₀, e, n, hsound, -, -, he, hs⟩ := h
  exact ⟨m₀.next, (hsound.rested.started (by simp [Old, Expr.compile])).steps hs⟩

theorem ready {op : Op} {line : Option Nat} (h : m.Midway held) (hp : m.program = .op op line :: R) :
    op.Sound ∧ ∃ k ks, m.scopes.depths = (k + 1) :: ks := by
  obtain ⟨m₀, g₀, e, n, hsound, hopen, -, he, hs⟩ := h
  have hstart : Inside True (fun _ => True) [] [] [] ⟨[.value], m₀.scopes.depths, 0⟩ e.compile [] 0
      (m₀.started e.compile) :=
    .of_code (m := m₀.started e.compile) (hsound.started e).safe he (fun _ => hopen) (List.append_nil _).symm rfl
  obtain ⟨Q, O, b, h⟩ := hstart.of_steps hs
  obtain rfl : Q = .op op line :: R := by rw [← hp, h.program, List.append_nil]
  cases h.flow with
  | op _ sound _ _ ready _ => exact ⟨sound, (ready trivial).1⟩

end Midway

/-! ## Inside the body -/

/-- In the middle of the body its operands and clusters are above those that were there. -/
theorem Midway.amid (h : m.Midway held) (hbody : IsCode body) (hp : m.program = body ++ R)
    (hs : Amid held R m m') : ∃ Q O b, Inside False (fun _ => True) R m.operands m.builders
      ⟨[.value], m.scopes.depths, 0⟩ Q O b m' := by
  obtain ⟨k, hs, hbefore⟩ := hs
  obtain ⟨g, hg, -⟩ := h.sound
  obtain ⟨line, e, he, rfl⟩ := hbody
  have hstart := Inside.of_code (G := False) hg.safe he False.elim hp rfl
  rcases hstart.run hs with ⟨Q, O, b, -, hin⟩ | ⟨j, m₁, O, b, hj, hs₁, hin⟩
  · exact ⟨Q, O, b, hin⟩
  · -- The body is used up for the first time at the end.
    obtain rfl : j = k := Nat.le_antisymm hj (Nat.le_of_not_lt fun hlt => hbefore j m₁ hlt hs₁ hin.ended.1)
    exact ⟨[], O, b, (hs₁.sub hs (Nat.le_refl _) |> fun hrest => by
      rw [Nat.sub_self] at hrest
      exact hrest.eq_of_zero) ▸ hin⟩

theorem Evaluates.ended {w : Value} (h : m.Midway held) (hbody : IsCode body) (hp : m.program = body ++ R)
    (he : Evaluates held R m w m') :
    m'.program = R ∧ m'.operands = .value w :: m.operands ∧ m'.scopes.depths = m.scopes.depths ∧
      m'.builders = m.builders := by
  obtain ⟨k, hs, hprogram, hoperands, hbefore⟩ := he
  obtain ⟨Q, O, b, hin⟩ := h.amid hbody hp ⟨k, hs, hbefore⟩
  obtain rfl : Q = [] := by simpa [hprogram] using hin.program
  obtain ⟨-, -, hdepths, hbuilders⟩ := hin.ended
  exact ⟨hprogram, hoperands, hdepths, hbuilders⟩

end Machine

namespace Inside

variable {G : Prop} {A : NodeId → Prop} {E : List NodeId} {τ : Shape} {Q : Program} {O : List Operand} {b : Nat}

/-- What was open before, and what is named below the code, is there. -/
theorem isSome (hin : Inside G A R S E τ Q O b m) (h : m.Sound g) (hid : id ∈ E ∨ id ∈ programNodes R) :
    (g id).isSome = true := by
  rcases hid with hid | hid
  · obtain ⟨B, hB, -⟩ := hin.safe.builders
    exact (h.builders id (hB ▸ List.mem_append_right B hid)).isSome
  · exact h.program id (by rw [hin.program, programNodes_append]; exact List.mem_append_right _ hid)

theorem notMem (hin : Inside G A R S E τ Q O b m) {n₀ : Nat} (h : m.Veiled n₀)
    (hid : id ∈ E ∨ id ∈ programNodes R) {B : List NodeId} (hB : m.builders = B ++ E) : id ∉ B := by
  intro hmem
  rcases hid with hid | hid
  · exact (List.nodup_append.1 (hB ▸ h.nodup)).2.2 id hmem id hid rfl
  · refine (h.unreferenced (hB ▸ List.mem_append_left E hmem)).program ?_
    rw [hin.program, programNodes_append]
    exact List.mem_append_right _ hid

theorem keeps_cluster (hin : Inside G A R S E τ Q O b m) (h : m.Midway held) (hQ : Q ≠ [])
    (hnext : m.next? held = some (.ok () m')) (hid : id ∈ E ∨ id ∈ programNodes R)
    (hc : m.store.pool.get Object.clusters id = .ok c) : m'.store.pool.get Object.clusters id = .ok c := by
  obtain ⟨-, Q', O', b', hin'⟩ := hin.step hQ hnext
  obtain ⟨n₀, hveiled⟩ := h.veiled
  obtain ⟨g, hg, -⟩ := (h.steps (.one hnext)).sound
  obtain ⟨item, Q, rfl⟩ := List.exists_cons_of_ne_nil hQ
  obtain ⟨o, ho⟩ := Option.isSome_iff_exists.1 (hin'.isSome hg hid)
  obtain ⟨e, he, hn⟩ := Pool.get_eq_ok_iff.1 hc
  obtain ⟨e', he', -⟩ := hg.entry id o ho
  refine Pool.get_eq_ok_iff.2 ⟨e', he', ?_⟩
  rw [← hn]
  rcases ((hveiled.step hin.program).1 m' hnext).frames id e e' he he' with hsame | ⟨op, line, rfl, hwrites⟩
  · exact hsame
  rw [hn] at hwrites
  generalize e'.node = o' at hwrites
  cases hwrites with
  | append innermost =>
    -- The innermost cluster is one that the code has opened.
    obtain ⟨B, hB, hlen, -⟩ := hin.safe.builders
    have hpos : b ≠ 0 := by
      cases hin.flow with
      | op _ _ _ cluster _ _ => exact cluster trivial
    obtain ⟨b₁, B, rfl⟩ := List.exists_cons_of_length_pos (l := B) (by rw [hlen]; exact Nat.pos_of_ne_zero hpos)
    obtain rfl : b₁ = id := by simpa [hB] using innermost
    exact absurd (List.mem_cons_self ..) (hin.notMem hveiled hid hB)

end Inside

/-- The body leaves a cluster alone that was open before, or that is named below it. -/
theorem Machine.Amid.keeps_cluster (hs : m.Amid held R m') (h : m.Midway held) (hbody : IsCode body)
    (hp : m.program = body ++ R) (hid : id ∈ m.builders ∨ id ∈ programNodes R)
    (hc : m.store.pool.get Object.clusters id = .ok c) : m'.store.pool.get Object.clusters id = .ok c := by
  obtain ⟨k, hs, hbefore⟩ := hs
  induction k generalizing m' with
  | zero => rwa [hs.eq_of_zero]
  | succ k ih =>
    obtain ⟨m₁, hs₁, hnext⟩ := hs.exists_of_succ
    have hamid : m.Amid held R m₁ := ⟨k, hs₁, fun j m₂ hj => hbefore j m₂ (Nat.lt_succ_of_lt hj)⟩
    obtain ⟨Q, O, b, hin⟩ := h.amid hbody hp hamid
    have hQ : Q ≠ [] := by
      rintro rfl
      exact hbefore k m₁ (Nat.lt_succ_self k) hs₁ hin.program
    exact hin.keeps_cluster (h.steps hs₁) hQ hnext hid
      (ih hs₁ fun j m₂ hj => hbefore j m₂ (Nat.lt_succ_of_lt hj))

end Mosaic
