import OpenShmem.Concurrent

/-!
# Calls within a run

A library, on processes that share a world. In a run from the start, how many calls of a
process have ended says which call it is at (`Run.standing`); so the run can be cut where a
call of it began and where it had ended (`Run.takes`), and what the call left on record
lies between (`Takes.leaves`). A run can be seen in less detail, with another record
(`Run.image`).
-/

namespace OpenShmem

namespace Scene

variable {ι : Type} {E : Sig} {ε α σ τ N M : Type}

/-- The scene with another world and another trace. -/
def seenAs (s : Scene ι E ε α σ N) (w : τ) (t : List (ι × M)) : Scene ι E ε α τ M :=
  ⟨s.todo, s.results, w, t⟩

end Scene

/-- What one event adds to the parts of a trace. -/
theorem partOf_concat_self {ι N : Type} [DecidableEq ι] (t : List (ι × N)) (i : ι) (e : N) :
    partOf i (t ++ [(i, e)]) = partOf i t ++ [e] := by
  rw [partOf_append]
  exact congrArg _ (partOf_map_self [e])

theorem partOf_concat_of_ne {ι N : Type} [DecidableEq ι] {i j : ι} (hj : j ≠ i)
    (t : List (ι × N)) (e : N) : partOf j (t ++ [(i, e)]) = partOf j t := by
  rw [partOf_append]
  exact (congrArg _ (partOf_map_of_ne hj.symm [e])).trans (List.append_nil _)

namespace Shared

variable {ι : Type} [DecidableEq ι] {E : Sig} {ε α σ τ N M : Type} {S : Shared ι E σ N}
  {T : Shared ι E τ M} {s s' : Scene ι E ε α σ N} {todo : ι → List (Prog E ε α)} {w₀ : σ} {i : ι}

/-- **A run in less detail**: where the answers and the moves of one world are those of
another when it is looked at with `f`, its runs are runs of the other. -/
theorem Run.image (f : σ → τ)
    (hanswers : ∀ {w i c x w'}, S.Answers w i c x w' → T.Answers (f w) i c x (f w'))
    (hdrift : ∀ {w w'}, S.Drift w w' → T.Drift (f w) (f w')) (h : S.Run s s')
    (t : List (ι × M)) :
    ∃ ext, T.Run (s.seenAs (f s.world) t) (s'.seenAs (f s'.world) (t ++ ext)) := by
  induction h with
  | refl => exact ⟨[], by rw [List.append_nil]⟩
  | tail _ hstep ih =>
    obtain ⟨ext, hrun⟩ := ih
    cases hstep with
    | @call i c k rest x w htodo hx =>
      refine ⟨ext ++ (T.note c x).map fun n => (i, n), hrun.tail ?_⟩
      rw [← List.append_assoc]
      exact .call htodo (hanswers hx)
    | finish htodo => exact ⟨ext, hrun.tail (.finish htodo)⟩
    | drift hmove => exact ⟨ext, hrun.tail (.drift (hdrift hmove))⟩

/-- **Where a process stands**: behind the call it is at are those after the ones that
have ended. -/
theorem Run.standing (h : S.Run (start todo w₀) s) (i : ι) :
    (s.todo i).drop 1 = (todo i).drop ((s.results i).length + 1) ∧
      (s.results i).length + (s.todo i).length = (todo i).length := by
  induction h with
  | refl => exact ⟨rfl, Nat.zero_add _⟩
  | tail _ hstep ih =>
    obtain ⟨hrest, hlength⟩ := ih
    cases hstep with
    | @call j c k rest x w htodo hx =>
      by_cases hj : i = j
      · subst hj
        rw [htodo] at hrest hlength
        rw [Scene.answered_todo_self]
        exact ⟨hrest, hlength⟩
      · rw [Scene.answered_todo_of_ne hj]
        exact ⟨hrest, hlength⟩
    | @finish j o rest htodo =>
      by_cases hj : i = j
      · subst hj
        rw [htodo] at hrest hlength
        rw [Scene.finished_todo_self, Scene.finished_results_self, List.length_append]
        refine ⟨?_, ?_⟩
        · rw [List.drop_one, List.tail_cons] at hrest
          rw [hrest, List.drop_drop]
          rfl
        · rw [List.length_cons] at hlength
          rw [List.length_singleton]
          omega
      · rw [Scene.finished_todo_of_ne hj, Scene.finished_results_of_ne hj]
        exact ⟨hrest, hlength⟩
    | drift hmove => exact ⟨hrest, hlength⟩

/-- The run when a call of a process began, if the calls before it have ended by now. -/
theorem Run.at_call (h : S.Run (start todo w₀) s) {k : ℕ} (hk : k ≤ (s.results i).length) :
    ∃ s₁, S.Run (start todo w₀) s₁ ∧ S.Run s₁ s ∧ (s₁.results i).length = k ∧
      s₁.todo i = (todo i).drop k := by
  induction h with
  | refl =>
    obtain rfl : k = 0 := Nat.le_zero.mp hk
    exact ⟨_, .refl, .refl, rfl, rfl⟩
  | @tail mid last hrun hstep ih =>
    by_cases hmid : k ≤ (mid.results i).length
    · obtain ⟨s₁, hstart, hrest, hlength, htodo⟩ := ih hmid
      exact ⟨s₁, hstart, hrest.tail hstep, hlength, htodo⟩
    · -- the call has begun with the last step, which ended the one before it
      obtain ⟨hstanding, -⟩ := Run.standing hrun i
      have hlast : S.Run (start todo w₀) last := hrun.tail hstep
      cases hstep with
      | call htodo hx => exact absurd hk hmid
      | @finish j o rest htodo =>
        by_cases hj : i = j
        · subst hj
          rw [Scene.finished_results_self, List.length_append, List.length_singleton] at hk
          rw [htodo, List.drop_one, List.tail_cons] at hstanding
          obtain rfl : k = (mid.results i).length + 1 := by omega
          refine ⟨_, hlast, .refl, ?_, ?_⟩
          · rw [Scene.finished_results_self, List.length_append, List.length_singleton]
          · rw [Scene.finished_todo_self, hstanding]
        · rw [Scene.finished_results_of_ne hj] at hk
          exact absurd hk hmid
      | drift hmove => exact absurd hk hmid

/-- How calls ended stays so. -/
theorem Run.results_getElem? (h : S.Run s s') {k : ℕ} (hk : k < (s.results i).length) :
    (s'.results i)[k]? = (s.results i)[k]? := by
  obtain ⟨ext, -, hran⟩ := h.ran
  obtain ⟨os, hos, -⟩ := hran i
  rw [hos, List.getElem?_append_left hk]

/-- Process `i` begins `m` in `s`, and by `s'` it has ended with `o`. -/
structure Takes (S : Shared ι E σ N) (s s' : Scene ι E ε α σ N) (i : ι) (m : Prog E ε α)
    (o : Outcome ε α) : Prop where
  run : S.Run s s'
  begun : ∃ rest, s.todo i = m :: rest
  ended : (s'.results i)[(s.results i).length]? = some o

/-- **A call within a run**, from where it began to where it had ended. -/
theorem Run.takes (h : S.Run (start todo w₀) s) {k : ℕ} {m : Prog E ε α} {o : Outcome ε α}
    (hm : (todo i)[k]? = some m) (hended : (s.results i)[k]? = some o) :
    ∃ s₁ s₂, S.Run (start todo w₀) s₁ ∧ S.Takes s₁ s₂ i m o ∧ S.Run s₂ s ∧
      (s₁.results i).length = k := by
  have hlength : k < (s.results i).length := (List.getElem?_eq_some_iff.mp hended).1
  obtain ⟨s₂, hs₂, hrest, hlength₂, -⟩ := h.at_call (Nat.succ_le_of_lt hlength)
  have hk₂ : k < (s₂.results i).length := hlength₂ ▸ Nat.lt_succ_self k
  obtain ⟨s₁, hs₁, hmid, hlength₁, htodo⟩ := hs₂.at_call (Nat.le_of_lt hk₂)
  obtain ⟨hk, hget⟩ := List.getElem?_eq_some_iff.mp hm
  have hbegun : s₁.todo i = m :: (todo i).drop (k + 1) := by
    rw [htodo, List.drop_eq_getElem_cons hk, hget]
  refine ⟨s₁, s₂, hs₁, ⟨hmid, ⟨_, hbegun⟩, ?_⟩, hrest, hlength₁⟩
  rw [hlength₁, ← hrest.results_getElem? hk₂, hended]

/-- **What a call leaves**: its record stands at the front of what its process left from
where it began to where it has ended. -/
theorem Takes.leaves {m : Prog E ε α} {o : Outcome ε α} (h : S.Takes s s' i m o)
    {Q : Outcome ε α → List N → Prop} (hm : m.Leaves S.note Q) :
    ∃ ext t₁ t₂, s'.trace = s.trace ++ ext ∧ partOf i ext = t₁ ++ t₂ ∧ Q o t₁ := by
  obtain ⟨rest, hbegun⟩ := h.begun
  obtain ⟨ext, htrace, hran⟩ := h.run.ran
  obtain ⟨os, hos, hi⟩ := hran i
  have ho : os[0]? = some o := by
    have hended := h.ended
    rw [hos, List.getElem?_append_right (Nat.le_refl _), Nat.sub_self] at hended
    exact hended
  rw [hbegun] at hi
  obtain ⟨t₁, t₂, ht, hQ⟩ := hi.ended hm ho
  exact ⟨ext, t₁, t₂, htrace, ht, hQ⟩

end Shared

end OpenShmem
