import Mathlib.Logic.Function.Basic
import Mathlib.Logic.Relation
import OpenShmem.Record

/-!
# Processes that share a world

A library over an arbitrary effect signature. Every process has a list of
programs to run, call by call. The calls of different processes, and the steps
that the world takes by itself, are interleaved in any order; what calls leave on
record forms one trace of the whole run.

A run is taken apart in two ways. The part of the trace that is one process's is
the record of its own programs (`Run.ran`), so that what `Prog.Leaves` says of a
program run alone holds of it here; and what the world has to do with the trace is
an invariant (`Run.invariant`), for which only the single steps have to be looked
at.
-/

namespace OpenShmem

/-- A world that processes share. -/
structure Shared (ι : Type) (E : Sig) (σ N : Type) : Type where
  /-- how a call of a process may be answered, and the world after it -/
  Answers : σ → ι → (c : E.Call) → E.Reply c → σ → Prop
  /-- what the world may do by itself -/
  Drift : σ → σ → Prop
  /-- what a call leaves on record -/
  note : Prog.Note E N

/-- Where every process is, and what has happened so far. -/
structure Scene (ι : Type) (E : Sig) (ε α σ N : Type) : Type where
  /-- the programs a process has still to run, the first of them begun -/
  todo : ι → List (Prog E ε α)
  /-- how the others ended, oldest first -/
  results : ι → List (Outcome ε α)
  world : σ
  /-- what was left on record, by whom, oldest first -/
  trace : List (ι × N)

/-- What process `i` has left in a trace. -/
def partOf {ι N : Type} [DecidableEq ι] (i : ι) (t : List (ι × N)) : List N :=
  t.filterMap fun e => if e.1 = i then some e.2 else none

section PartOf

variable {ι N : Type} [DecidableEq ι] {i j : ι}

@[simp] theorem partOf_nil : partOf i ([] : List (ι × N)) = [] := rfl

@[simp] theorem partOf_append (t u : List (ι × N)) :
    partOf i (t ++ u) = partOf i t ++ partOf i u :=
  List.filterMap_append

@[simp] theorem partOf_map_self (ns : List N) : partOf i (ns.map fun n => (i, n)) = ns := by
  induction ns with
  | nil => rfl
  | cons n ns ih =>
    simp only [partOf] at ih
    simp only [partOf, List.map_cons, List.filterMap_cons, if_true, ih]

theorem partOf_map_of_ne (h : j ≠ i) (ns : List N) : partOf i (ns.map fun n => (j, n)) = [] := by
  simp [partOf, List.filterMap_map, h]

/-- Looking at a process and changing what is on record commute. -/
theorem partOf_map {M : Type} (f : N → M) (t : List (ι × N)) :
    partOf i (t.map (Prod.map id f)) = (partOf i t).map f := by
  rw [partOf, partOf, List.filterMap_map, List.map_filterMap]
  congr 1
  funext e
  by_cases h : e.1 = i <;> simp [h]

end PartOf

namespace Scene

variable {ι : Type} [DecidableEq ι] {E : Sig} {ε α σ N : Type}

/-- Process `i` has been answered and goes on with `m`. -/
def answered (s : Scene ι E ε α σ N) (i : ι) (m : Prog E ε α) (rest : List (Prog E ε α)) (w : σ)
    (ns : List N) : Scene ι E ε α σ N where
  todo := Function.update s.todo i (m :: rest)
  results := s.results
  world := w
  trace := s.trace ++ ns.map fun n => (i, n)

/-- The first program of process `i` has ended with `o`. -/
def finished (s : Scene ι E ε α σ N) (i : ι) (rest : List (Prog E ε α)) (o : Outcome ε α) :
    Scene ι E ε α σ N :=
  { s with
    todo := Function.update s.todo i rest
    results := Function.update s.results i (s.results i ++ [o]) }

@[simp] theorem answered_todo_self {s : Scene ι E ε α σ N} {i : ι} {m : Prog E ε α}
    {rest : List (Prog E ε α)} {w : σ} {ns : List N} :
    (s.answered i m rest w ns).todo i = m :: rest :=
  Function.update_self ..

theorem answered_todo_of_ne {s : Scene ι E ε α σ N} {i j : ι} {m : Prog E ε α}
    {rest : List (Prog E ε α)} {w : σ} {ns : List N} (h : j ≠ i) :
    (s.answered i m rest w ns).todo j = s.todo j :=
  Function.update_of_ne h ..

@[simp] theorem finished_todo_self {s : Scene ι E ε α σ N} {i : ι} {rest : List (Prog E ε α)}
    {o : Outcome ε α} : (s.finished i rest o).todo i = rest :=
  Function.update_self ..

theorem finished_todo_of_ne {s : Scene ι E ε α σ N} {i j : ι} {rest : List (Prog E ε α)}
    {o : Outcome ε α} (h : j ≠ i) : (s.finished i rest o).todo j = s.todo j :=
  Function.update_of_ne h ..

@[simp] theorem finished_results_self {s : Scene ι E ε α σ N} {i : ι} {rest : List (Prog E ε α)}
    {o : Outcome ε α} : (s.finished i rest o).results i = s.results i ++ [o] :=
  Function.update_self ..

theorem finished_results_of_ne {s : Scene ι E ε α σ N} {i j : ι} {rest : List (Prog E ε α)}
    {o : Outcome ε α} (h : j ≠ i) : (s.finished i rest o).results j = s.results j :=
  Function.update_of_ne h ..

/-- The world has moved. -/
def drifted (s : Scene ι E ε α σ N) (w : σ) : Scene ι E ε α σ N := { s with world := w }

/-- Every program still to be run makes only calls that satisfy `P`. -/
def Confined (P : ι → E.Call → Prop) (s : Scene ι E ε α σ N) : Prop :=
  ∀ i, ∀ m ∈ s.todo i, m.Sat (P i) fun _ => True

end Scene

namespace Shared

variable {ι : Type} [DecidableEq ι] {E : Sig} {ε α σ N : Type} (S : Shared ι E σ N)

/-- Before anything has happened. -/
def start (todo : ι → List (Prog E ε α)) (w : σ) : Scene ι E ε α σ N := ⟨todo, fun _ => [], w, []⟩

/-- One step: a call is answered, a program has ended, or the world moves. -/
inductive Step : Scene ι E ε α σ N → Scene ι E ε α σ N → Prop where
  | call {s : Scene ι E ε α σ N} {i : ι} {c : E.Call} {k : E.Reply c → Prog E ε α}
    {rest : List (Prog E ε α)} {x : E.Reply c} {w : σ} (htodo : s.todo i = .call c k :: rest)
    (hx : S.Answers s.world i c x w) : Step s (s.answered i (k x) rest w (S.note c x))
  | finish {s : Scene ι E ε α σ N} {i : ι} {o : Outcome ε α} {rest : List (Prog E ε α)}
    (htodo : s.todo i = .done o :: rest) : Step s (s.finished i rest o)
  | drift {s : Scene ι E ε α σ N} {w : σ} (h : S.Drift s.world w) : Step s (s.drifted w)

/-- Any number of steps. -/
abbrev Run : Scene ι E ε α σ N → Scene ι E ε α σ N → Prop := Relation.ReflTransGen S.Step

end Shared

/-! ## What one process has done -/

/-- Of the programs `ps`, one after the other, the first have ended with `os`, the
list `qs` is left, and `t` is on record. -/
inductive Ran {E : Sig} {ε α N : Type} (note : Prog.Note E N) :
    List (Prog E ε α) → List N → List (Outcome ε α) → List (Prog E ε α) → Prop where
  | idle (ps : List (Prog E ε α)) : Ran note ps [] [] ps
  | call {c : E.Call} {k : E.Reply c → Prog E ε α} {ps qs : List (Prog E ε α)} {t : List N}
    {os : List (Outcome ε α)} (x : E.Reply c) (h : Ran note (k x :: ps) t os qs) :
    Ran note (.call c k :: ps) (note c x ++ t) os qs
  | finish {o : Outcome ε α} {ps qs : List (Prog E ε α)} {t : List N} {os : List (Outcome ε α)}
    (h : Ran note ps t os qs) : Ran note (.done o :: ps) t (o :: os) qs

namespace Ran

variable {E : Sig} {ε α N : Type} {note : Prog.Note E N} {ps qs : List (Prog E ε α)} {t : List N}
  {os : List (Outcome ε α)}

/-- **What one program leaves.** The first program is still running, and will leave
what it has left so far with what is to come; or it has ended, and the others
have run after it. -/
theorem leaves {m : Prog E ε α} {Q : Outcome ε α → List N → Prop} (h : Ran note (m :: ps) t os qs)
    (hm : m.Leaves note Q) :
    (os = [] ∧ ∃ m', qs = m' :: ps ∧ m'.Leaves note fun o t' => Q o (t ++ t')) ∨
      ∃ o os' t₁ t₂, os = o :: os' ∧ t = t₁ ++ t₂ ∧ Q o t₁ ∧ Ran note ps t₂ os' qs := by
  -- by induction on the program: `Q` gains what each call leaves
  induction m generalizing t Q with
  | done o =>
    cases h with
    | idle => exact Or.inl ⟨rfl, _, rfl, hm⟩
    | finish h => exact Or.inr ⟨o, _, [], t, rfl, rfl, hm, h⟩
  | call c k ih =>
    cases h with
    | idle => exact Or.inl ⟨rfl, _, rfl, hm⟩
    | call x h =>
      obtain ⟨hos, m', hqs, hm'⟩ | ⟨o, os', t₁, t₂, hos, rfl, hQ, hrest⟩ := ih x h (hm x)
      · exact Or.inl ⟨hos, m', hqs, hm'.mono fun o t' hQ => by rwa [List.append_assoc]⟩
      · exact Or.inr ⟨o, os', note c x ++ t₁, t₂, hos, (List.append_assoc ..).symm, hQ, hrest⟩

/-- A program that has ended left its record at the front. -/
theorem ended {m : Prog E ε α} {Q : Outcome ε α → List N → Prop} {o : Outcome ε α}
    (h : Ran note (m :: ps) t os qs) (hm : m.Leaves note Q) (ho : os[0]? = some o) :
    ∃ t₁ t₂, t = t₁ ++ t₂ ∧ Q o t₁ := by
  obtain ⟨rfl, -⟩ | ⟨o', os', t₁, t₂, rfl, rfl, hQ, -⟩ := h.leaves hm
  · cases ho
  · obtain rfl := Option.some.inj ho
    exact ⟨t₁, t₂, rfl, hQ⟩

end Ran

/-! ## Taking a run apart -/

namespace Shared

variable {ι : Type} [DecidableEq ι] {E : Sig} {ε α σ N : Type} {S : Shared ι E σ N}
  {s s' : Scene ι E ε α σ N}

/-- One step keeps the calls to come where they were confined. -/
theorem Step.confined {P : ι → E.Call → Prop} (h : S.Step s s') (hs : s.Confined P) :
    s'.Confined P := by
  cases h with
  | @call i c k rest x w htodo hx =>
    have hi := hs i
    rw [htodo] at hi
    obtain ⟨hm, hrest⟩ := List.forall_mem_cons.mp hi
    intro j m hmem
    by_cases hj : j = i
    · subst hj
      rw [Scene.answered_todo_self] at hmem
      rcases List.mem_cons.mp hmem with rfl | hmem
      · exact hm.2 x
      · exact hrest m hmem
    · rw [Scene.answered_todo_of_ne hj] at hmem
      exact hs j m hmem
  | @finish i o rest htodo =>
    have hi := hs i
    rw [htodo] at hi
    intro j m hmem
    by_cases hj : j = i
    · subst hj
      rw [Scene.finished_todo_self] at hmem
      exact hi m (List.mem_cons_of_mem _ hmem)
    · rw [Scene.finished_todo_of_ne hj] at hmem
      exact hs j m hmem
  | drift h => exact hs

theorem Run.confined {P : ι → E.Call → Prop} (h : S.Run s s') (hs : s.Confined P) :
    s'.Confined P := by
  induction h with
  | refl => exact hs
  | tail _ hstep ih => exact hstep.confined ih

/-- One step, as each process sees it. -/
theorem Step.ran (h : S.Step s s') : ∃ ext, s'.trace = s.trace ++ ext ∧
    ∀ i, ∀ t os qs, Ran S.note (s'.todo i) t os qs →
      ∃ os', Ran S.note (s.todo i) (partOf i ext ++ t) os' qs ∧
        ∀ r, r = s'.results i ++ os → r = s.results i ++ os' := by
  cases h with
  | @call i c k rest x w htodo hx =>
    refine ⟨_, rfl, fun j t os qs hran => ⟨os, ?_, fun r hr => hr⟩⟩
    by_cases hj : j = i
    · subst hj
      rw [Scene.answered_todo_self] at hran
      -- the call comes before all that the process has still to do
      rw [htodo, partOf_map_self]
      exact .call x hran
    · rw [Scene.answered_todo_of_ne hj] at hran
      rw [partOf_map_of_ne (Ne.symm hj)]
      exact hran
  | @finish i o rest htodo =>
    refine ⟨[], (List.append_nil _).symm, fun j t os qs hran => ?_⟩
    by_cases hj : j = i
    · subst hj
      rw [Scene.finished_todo_self] at hran
      refine ⟨o :: os, ?_, ?_⟩
      · rw [htodo]
        exact .finish hran
      · rintro r rfl
        rw [Scene.finished_results_self, List.append_assoc]
        rfl
    · rw [Scene.finished_todo_of_ne hj] at hran
      refine ⟨os, hran, ?_⟩
      rintro r rfl
      rw [Scene.finished_results_of_ne hj]
  | drift h =>
    exact ⟨[], (List.append_nil _).symm, fun j t os qs hran => ⟨os, hran, fun r hr => hr⟩⟩

/-- **A run, as each process sees it**: its part of the trace is the record of the
programs it has run. -/
theorem Run.ran (h : S.Run s s') : ∃ ext, s'.trace = s.trace ++ ext ∧
    ∀ i, ∃ os, s'.results i = s.results i ++ os ∧
      Ran S.note (s.todo i) (partOf i ext) os (s'.todo i) := by
  induction h using Relation.ReflTransGen.head_induction_on with
  | refl => exact ⟨[], (List.append_nil _).symm, fun i => ⟨[], (List.append_nil _).symm, .idle _⟩⟩
  | head hstep _ ih =>
    obtain ⟨ext', htrace', hran'⟩ := ih
    obtain ⟨ext, htrace, hran⟩ := hstep.ran
    refine ⟨ext ++ ext', ?_, fun i => ?_⟩
    · rw [htrace', htrace, List.append_assoc]
    · obtain ⟨os, hos, hi⟩ := hran' i
      obtain ⟨os', hi', hos'⟩ := hran i _ _ _ hi
      exact ⟨os', hos' _ hos, by rwa [partOf_append]⟩

/-- **Invariants of the world and the trace**: what every answer and every move of
the world keeps holds of what a run adds to the trace. -/
theorem Run.invariant {P : ι → E.Call → Prop} {I : σ → List (ι × N) → Prop} (h : S.Run s s')
    (hs : s.Confined P) (hstart : I s.world [])
    (hcall : ∀ {w i c x w' t}, I w t → P i c → S.Answers w i c x w' →
      I w' (t ++ (S.note c x).map fun n => (i, n)))
    (hdrift : ∀ {w w' t}, I w t → S.Drift w w' → I w' t) :
    ∀ ext, s'.trace = s.trace ++ ext → I s'.world ext := by
  induction h with
  | refl =>
    intro ext hext
    obtain rfl := List.self_eq_append_right.mp hext
    exact hstart
  | @tail mid last hrun hstep ih =>
    intro ext hext
    have hmid := Run.confined hrun hs
    cases hstep with
    | @call i c k rest x w htodo hx =>
      obtain ⟨old, hold, -⟩ := Run.ran hrun
      have hi := hmid i
      rw [htodo] at hi
      -- the trace only grows, so what this step adds is its last part
      obtain rfl : ext = old ++ (S.note c x).map fun n => (i, n) := by
        rw [Scene.answered, hold, List.append_assoc] at hext
        exact (List.append_cancel_left hext).symm
      exact hcall (ih old hold) (List.forall_mem_cons.mp hi).1.1 hx
    | finish htodo => exact ih ext hext
    | drift hdrift' => exact hdrift (ih ext hext) hdrift'

end Shared

/-! ## Playing a schedule -/

namespace Shared

variable {ι : Type} [DecidableEq ι] {E : Sig} {ε α σ N δ : Type} (S : Shared ι E σ N)
  (answer : σ → ι → (c : E.Call) → Option (E.Reply c × σ)) (drift : δ → σ → Option σ)

/-- A step, of process `i` when `answer` answers its call or of the world by one of
its moves. `none` while a process has to wait, and when it has nothing left to do. -/
def move (s : Scene ι E ε α σ N) : ι ⊕ δ → Option (Scene ι E ε α σ N)
  | .inl i =>
    match s.todo i with
    | [] => none
    | .done o :: rest => some (s.finished i rest o)
    | .call c k :: rest =>
      (answer s.world i c).map fun p => s.answered i (k p.1) rest p.2 (S.note c p.1)
  | .inr d => (drift d s.world).map s.drifted

/-- The steps of a schedule, one after the other. -/
def play (schedule : List (ι ⊕ δ)) (s : Scene ι E ε α σ N) : Option (Scene ι E ε α σ N) :=
  schedule.foldlM (S.move answer drift) s

variable {S answer drift}

theorem step_of_move (hanswer : ∀ {w i c x w'}, answer w i c = some (x, w') →
    S.Answers w i c x w') (hdrift : ∀ {d w w'}, drift d w = some w' → S.Drift w w')
    {s s' : Scene ι E ε α σ N} {m : ι ⊕ δ} (h : S.move answer drift s m = some s') :
    S.Step s s' := by
  cases m with
  | inl i =>
    rw [move] at h
    split at h
    · cases h
    · next o rest htodo =>
      cases h
      exact .finish htodo
    · next c k rest htodo =>
      obtain ⟨⟨x, w⟩, hx, rfl⟩ := Option.map_eq_some_iff.mp h
      exact .call htodo (hanswer hx)
  | inr d =>
    obtain ⟨w, hw, rfl⟩ := Option.map_eq_some_iff.mp h
    exact .drift (hdrift hw)

/-- A schedule that can be played to its end is a run. -/
theorem run_of_play (hanswer : ∀ {w i c x w'}, answer w i c = some (x, w') →
    S.Answers w i c x w') (hdrift : ∀ {d w w'}, drift d w = some w' → S.Drift w w')
    {schedule : List (ι ⊕ δ)} {s s' : Scene ι E ε α σ N}
    (h : S.play answer drift schedule s = some s') : S.Run s s' := by
  induction schedule generalizing s with
  | nil =>
    cases h
    exact .refl
  | cons m schedule ih =>
    obtain ⟨mid, hmid, h⟩ := Option.bind_eq_some_iff.mp h
    exact .head (step_of_move hanswer hdrift hmid) (ih h)

end Shared

end OpenShmem
