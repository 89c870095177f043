import Mathlib.Logic.Function.Basic
import OpenShmem.Record

/-!
# Interleavings

A library over an arbitrary effect signature. Every process of a `System` runs
one program a round, call by call, and the calls of different processes are
interleaved in any order. Each process owns a cell: what a call is answered may
depend on all cells, but changes only the caller's.

Proofs go process by process. A `View` is what one process knows of its own
cell: the calls it is allowed there, and the answers it then reckons with.
`Safe V Q m` says that the program `m` keeps to the allowed calls and ends with
`Q` whatever it sees. An `Outline` ties the views to the system by an invariant
of the whole configuration, and `Outline.reach` is its induction over runs.
`System.noted` is the system with a record of its answers in every cell; every
run is the run of one.
-/

namespace OpenShmem

/-- Processes that run their programs against cells they share. -/
structure System (ι : Type) (E : Sig) (ε α τ : Type) : Type where
  /-- the program of each process in each round -/
  prog : ι → ℕ → Prog E ε α
  /-- how many rounds a process runs -/
  rounds : ℕ
  /-- the cells at the start -/
  cell : ι → τ
  /-- how a call of a process in a round may be answered, and what that makes of
  the caller's cell -/
  Answers : (ι → τ) → ι → ℕ → (c : E.Call) → E.Reply c → τ → Prop

/-- Where every process is, and what the cells hold. -/
structure Config (ι : Type) (E : Sig) (ε α τ : Type) : Type where
  /-- the round of each process -/
  round : ι → ℕ
  /-- what is left of its program in that round -/
  tree : ι → Prog E ε α
  cell : ι → τ

/-- Process `i` has been answered: it goes on with `m`, and its cell is `t`. -/
def Config.answered {ι : Type} [DecidableEq ι] {E : Sig} {ε α τ : Type} (cfg : Config ι E ε α τ)
    (i : ι) (m : Prog E ε α) (t : τ) : Config ι E ε α τ :=
  { cfg with tree := Function.update cfg.tree i m, cell := Function.update cfg.cell i t }

/-- What one process knows: the calls it may make with its cell as it is, and
the answers, with the cell after them, that it reckons with. -/
structure View (E : Sig) (τ : Type) : Type where
  Allowed : τ → E.Call → Prop
  Sees : τ → (c : E.Call) → E.Reply c → τ → Prop

namespace Prog

variable {E : Sig} {ε α β τ : Type} {V : View E τ}

/-- The program makes only allowed calls and ends with `Q`. -/
def Safe (V : View E τ) (Q : τ → Outcome ε α → Prop) : Prog E ε α → τ → Prop
  | done o, t => Q t o
  | call c k, t => V.Allowed t c ∧ ∀ x t', V.Sees t c x t' → (k x).Safe V Q t'

variable {Q Q' : τ → Outcome ε α → Prop} {t : τ}

theorem Safe.mono {m : Prog E ε α} (h : m.Safe V Q t) (hQ : ∀ t o, Q t o → Q' t o) :
    m.Safe V Q' t := by
  induction m generalizing t with
  | done o => exact hQ t o h
  | call c k ih => exact ⟨h.1, fun x t' hx => ih x (h.2 x t' hx)⟩

/-- The rule for `?`. -/
theorem Safe.bind {m : Prog E ε α} {f : α → Prog E ε β} {R : τ → Outcome ε β → Prop}
    (hm : m.Safe V (fun t o => match o with
      | .ok a => (f a).Safe V R t
      | .err e => R t (.err e)
      | .panic => R t .panic
      | .pending => R t .pending) t) :
    (m >>= f).Safe V R t := by
  induction m generalizing t with
  | done o => cases o <;> exact hm
  | call c k ih => exact ⟨hm.1, fun x t' hx => ih x (hm.2 x t' hx)⟩

/-- Partial correctness: safe, and every value returned satisfies `R`. -/
def Keeps (V : View E τ) (R : τ → α → Prop) (m : Prog E ε α) (t : τ) : Prop :=
  m.Safe V (fun t o => ∀ a, o = .ok a → R t a) t

variable {R : τ → α → Prop} {R' : τ → β → Prop}

theorem Keeps.pure {a : α} (h : R t a) : (pure a : Prog E ε α).Keeps V R t := by
  rintro b ⟨⟩
  exact h

/-- A program that never returns a value keeps anything. -/
theorem Keeps.of_ne_ok {o : Outcome ε α} (h : ∀ a, o ≠ .ok a) :
    (done o : Prog E ε α).Keeps V R t :=
  fun a ha => absurd ha (h a)

theorem Keeps.bind {m : Prog E ε α} {f : α → Prog E ε β} (hm : m.Keeps V R t)
    (hf : ∀ t a, R t a → (f a).Keeps V R' t) : (m >>= f).Keeps V R' t := by
  refine Safe.bind (Safe.mono hm ?_)
  rintro t (a | e | _ | _) h
  · exact hf t a (h a rfl)
  · exact fun _ h => by cases h
  · exact fun _ h => by cases h
  · exact fun _ h => by cases h

/-- The rule for `match m { .. }`. -/
theorem Keeps.reify_bind {ε' : Type} {m : Prog E ε α} {f : Outcome ε α → Prog E ε' β}
    (hm : m.Keeps V R t) (hok : ∀ t a, R t a → (f (.ok a)).Keeps V R' t)
    (hother : ∀ t o, (∀ a, o ≠ .ok a) → (f o).Keeps V R' t) :
    (m.reify >>= f : Prog E ε' β).Keeps V R' t := by
  induction m generalizing t with
  | done o =>
    cases o with
    | ok a => exact hok t a (hm a rfl)
    | err e => exact hother t _ fun _ h => by cases h
    | panic => exact hother t _ fun _ h => by cases h
    | pending => exact hother t _ fun _ h => by cases h
  | call c k ih => exact ⟨hm.1, fun x t' hx => ih x (hm.2 x t' hx)⟩

/-- The rule for `match m { Ok(a) => .., Err(e) => .. }`. -/
theorem Keeps.attempt_bind {ε' : Type} {m : Prog E ε α} {f : Except ε α → Prog E ε' β}
    (hm : m.Keeps V R t) (hok : ∀ t a, R t a → (f (.ok a)).Keeps V R' t)
    (herr : ∀ t e, (f (.error e)).Keeps V R' t) :
    (m.attempt >>= f : Prog E ε' β).Keeps V R' t := by
  induction m generalizing t with
  | done o =>
    cases o with
    | ok a => exact hok t a (hm a rfl)
    | err e => exact herr t e
    | panic => exact of_ne_ok fun _ h => by cases h
    | pending => exact of_ne_ok fun _ h => by cases h
  | call c k ih => exact ⟨hm.1, fun x t' hx => ih x (hm.2 x t' hx)⟩

end Prog

namespace System

variable {ι : Type} [DecidableEq ι] {E : Sig} {ε α τ : Type} (S : System ι E ε α τ)

/-- Every process at the beginning of its first round. -/
def start : Config ι E ε α τ := ⟨fun _ => 0, fun i => S.prog i 0, S.cell⟩

/-- Process `i` begins its next round. -/
def advanced (cfg : Config ι E ε α τ) (i : ι) : Config ι E ε α τ :=
  { cfg with
    round := Function.update cfg.round i (cfg.round i + 1)
    tree := Function.update cfg.tree i (S.prog i (cfg.round i + 1)) }

/-- One step of process `i`: a call is answered, or the next round begins. -/
inductive Step (i : ι) (cfg : Config ι E ε α τ) : Config ι E ε α τ → Prop where
  | call {c : E.Call} {k : E.Reply c → Prog E ε α} {x : E.Reply c} {t : τ}
    (htree : cfg.tree i = .call c k) (hx : S.Answers cfg.cell i (cfg.round i) c x t) :
    Step i cfg (cfg.answered i (k x) t)
  | next {o : Outcome ε α} (htree : cfg.tree i = .done o) (hround : cfg.round i + 1 < S.rounds) :
    Step i cfg (S.advanced cfg i)

/-- What can be reached by runs in which every process `i` steps only from
configurations with `P cfg i`. -/
inductive Reach (P : Config ι E ε α τ → ι → Prop) : Config ι E ε α τ → Prop where
  | start : Reach P S.start
  | step {cfg cfg' : Config ι E ε α τ} {i : ι} (h : Reach P cfg) (hP : P cfg i)
    (hstep : S.Step i cfg cfg') : Reach P cfg'

end System

/-! ## Proof outlines -/

section Outline

variable {ι : Type} [DecidableEq ι] {E : Sig} {ε α τ : Type}

/-- A proof outline of a system whose steps satisfy `P`. -/
structure Outline (S : System ι E ε α τ) (P : Config ι E ε α τ → ι → Prop) : Type where
  /-- what a process knows in a round -/
  view : ι → ℕ → View E τ
  /-- what holds when it ends its round -/
  post : ι → ℕ → τ → Outcome ε α → Prop
  /-- what holds of all processes together -/
  inv : Config ι E ε α τ → Prop
  inv_start : inv S.start
  safe_start : ∀ i, (S.prog i 0).Safe (view i 0) (post i 0) (S.cell i)
  safe_next : ∀ i r t o, r + 1 < S.rounds → post i r t o →
    (S.prog i (r + 1)).Safe (view i (r + 1)) (post i (r + 1)) t
  /-- a process sees no more than its view says -/
  sees : ∀ {cfg i c k x t}, inv cfg → cfg.tree i = .call c k →
    (view i (cfg.round i)).Allowed (cfg.cell i) c → S.Answers cfg.cell i (cfg.round i) c x t →
    (view i (cfg.round i)).Sees (cfg.cell i) c x t
  inv_call : ∀ {cfg i c k x t}, inv cfg → P cfg i → cfg.tree i = .call c k →
    (view i (cfg.round i)).Allowed (cfg.cell i) c → S.Answers cfg.cell i (cfg.round i) c x t →
    inv (cfg.answered i (k x) t)
  inv_next : ∀ {cfg i o}, inv cfg → cfg.round i + 1 < S.rounds → cfg.tree i = .done o →
    inv (S.advanced cfg i)

namespace Outline

variable {S : System ι E ε α τ} {P : Config ι E ε α τ → ι → Prop} (O : Outline S P)

/-- Every process is safe where it is. -/
def AllSafe (cfg : Config ι E ε α τ) : Prop :=
  ∀ i, (cfg.tree i).Safe (O.view i (cfg.round i)) (O.post i (cfg.round i)) (cfg.cell i)

/-- One step keeps the invariant and the safety of every process. -/
theorem step {cfg cfg' : Config ι E ε α τ} {i : ι} (hinv : O.inv cfg) (hsafe : O.AllSafe cfg)
    (hP : P cfg i) (hstep : S.Step i cfg cfg') : O.inv cfg' ∧ O.AllSafe cfg' := by
  have hi := hsafe i
  cases hstep with
  | call htree hx =>
    rw [htree] at hi
    refine ⟨O.inv_call hinv hP htree hi.1 hx, fun j => ?_⟩
    by_cases hj : j = i
    · subst hj
      simp only [Config.answered, Function.update_self]
      exact hi.2 _ _ (O.sees hinv htree hi.1 hx)
    · simp only [Config.answered, Function.update_of_ne hj]
      exact hsafe j
  | next htree hround =>
    rw [htree] at hi
    refine ⟨O.inv_next hinv hround htree, fun j => ?_⟩
    by_cases hj : j = i
    · subst hj
      simp only [System.advanced, Function.update_self]
      exact O.safe_next _ _ _ _ hround hi
    · simp only [System.advanced, Function.update_of_ne hj]
      exact hsafe j

/-- **The rule for interleavings.** -/
theorem reach {cfg : Config ι E ε α τ} (h : S.Reach P cfg) : O.inv cfg ∧ O.AllSafe cfg := by
  induction h with
  | start => exact ⟨O.inv_start, O.safe_start⟩
  | step _ hP hstep ih => exact O.step ih.1 ih.2 hP hstep

end Outline

end Outline

/-! ## Keeping a record -/

section Noted

variable {ι : Type} [DecidableEq ι] {E : Sig} {ε α τ N : Type}

/-- The system with a record of its answers in the cell of every process, oldest
first. -/
def System.noted (S : System ι E ε α τ) (note : Prog.Note E N) :
    System ι E ε α (τ × List N) where
  prog := S.prog
  rounds := S.rounds
  cell := fun i => (S.cell i, [])
  Answers := fun cells i round c x t =>
    S.Answers (fun j => (cells j).1) i round c x t.1 ∧ t.2 = (cells i).2 ++ note c x

/-- The configuration without the records. -/
def Config.plain (cfg : Config ι E ε α (τ × List N)) : Config ι E ε α τ :=
  ⟨cfg.round, cfg.tree, fun i => (cfg.cell i).1⟩

theorem Config.plain_answered (cfg : Config ι E ε α (τ × List N)) (i : ι) (m : Prog E ε α)
    (t : τ × List N) : (cfg.answered i m t).plain = cfg.plain.answered i m t.1 := by
  have hcell : (fun j => (Function.update cfg.cell i t j).1) =
      Function.update (fun j => (cfg.cell j).1) i t.1 := by
    funext j
    by_cases hj : j = i
    · subst hj
      simp only [Function.update_self]
    · simp only [Function.update_of_ne hj]
  exact congrArg (Config.mk _ _) hcell

/-- Every run leaves a record. -/
theorem System.Reach.noted {S : System ι E ε α τ} {P : Config ι E ε α τ → ι → Prop}
    {cfg : Config ι E ε α τ} (h : S.Reach P cfg) (note : Prog.Note E N) :
    ∃ cfg', cfg'.plain = cfg ∧ (S.noted note).Reach (fun cfg' i => P cfg'.plain i) cfg' := by
  induction h with
  | start => exact ⟨(S.noted note).start, rfl, .start⟩
  | @step cfg cfg' i _ hP hstep ih =>
    obtain ⟨noted, rfl, hreach⟩ := ih
    cases hstep with
    | @call c k x t htree hx =>
      refine ⟨noted.answered i (k x) (t, (noted.cell i).2 ++ note c x),
        noted.plain_answered i _ _, hreach.step hP (.call htree ⟨hx, rfl⟩)⟩
    | next htree hround =>
      exact ⟨(S.noted note).advanced noted i, rfl, hreach.step hP (.next htree hround)⟩

end Noted

/-! ## Playing a schedule -/

namespace System

variable {ι : Type} [DecidableEq ι] {E : Sig} {ε α τ : Type} (S : System ι E ε α τ)

/-- The step of process `i` when `answer` answers its call. `none` while it has
to wait, when it has ended its last round, and when `check` is against it. -/
def move (answer : (ι → τ) → ι → ℕ → (c : E.Call) → Option (E.Reply c × τ))
    (check : Config ι E ε α τ → ι → Bool) (cfg : Config ι E ε α τ) (i : ι) :
    Option (Config ι E ε α τ) :=
  if check cfg i then
    match cfg.tree i with
    | .call c k => (answer cfg.cell i (cfg.round i) c).map fun p => cfg.answered i (k p.1) p.2
    | .done _ => if cfg.round i + 1 < S.rounds then some (S.advanced cfg i) else none
  else none

/-- The steps of the processes in a schedule, one after the other. -/
def play (answer : (ι → τ) → ι → ℕ → (c : E.Call) → Option (E.Reply c × τ))
    (check : Config ι E ε α τ → ι → Bool) (schedule : List ι) (cfg : Config ι E ε α τ) :
    Option (Config ι E ε α τ) :=
  schedule.foldlM (S.move answer check) cfg

variable {S} {answer : (ι → τ) → ι → ℕ → (c : E.Call) → Option (E.Reply c × τ)}
  {check : Config ι E ε α τ → ι → Bool}

theorem step_of_move (hanswer : ∀ {cells i r c x t}, answer cells i r c = some (x, t) →
    S.Answers cells i r c x t) {cfg cfg' : Config ι E ε α τ} {i : ι}
    (h : S.move answer check cfg i = some cfg') : check cfg i = true ∧ S.Step i cfg cfg' := by
  rw [move] at h
  split at h
  · next hcheck =>
    refine ⟨hcheck, ?_⟩
    split at h
    · next c k htree =>
      obtain ⟨⟨x, t⟩, hx, rfl⟩ := Option.map_eq_some_iff.mp h
      exact .call htree (hanswer hx)
    · next o htree =>
      split at h
      · next hround =>
        cases h
        exact .next htree hround
      · cases h
  · cases h

/-- A schedule that can be played to its end is a run. -/
theorem reach_of_play (hanswer : ∀ {cells i r c x t}, answer cells i r c = some (x, t) →
    S.Answers cells i r c x t) {P : Config ι E ε α τ → ι → Prop}
    (hcheck : ∀ cfg i, check cfg i = true → P cfg i) {schedule : List ι}
    {cfg cfg' : Config ι E ε α τ} (hreach : S.Reach P cfg)
    (h : S.play answer check schedule cfg = some cfg') : S.Reach P cfg' := by
  induction schedule generalizing cfg with
  | nil =>
    cases h
    exact hreach
  | cons i schedule ih =>
    obtain ⟨mid, hmid, h⟩ := Option.bind_eq_some_iff.mp h
    obtain ⟨hi, hstep⟩ := step_of_move hanswer hmid
    exact ih (hreach.step (hcheck cfg i hi) hstep) h

end System

end OpenShmem
