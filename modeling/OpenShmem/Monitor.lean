import Mathlib.Logic.Relation
import OpenShmem.Concurrent
import OpenShmem.Machine

/-!
# Monitors

A library over an arbitrary effect signature. Threads make calls on a value that a
mutex guards. A call first does what it does without the mutex, and may return from
there; or it waits for the mutex, works on the value while it holds it, and lets go
with its result. The external calls of different threads are interleaved in any
order, and answered in any way.

What the mutex buys is that this does not show. The calls that went through it are a
`Serial` history: each of them ran from its first external call to its last with the
value that the one before it left (`Run.orderly`). So a history is a run of every
machine that makes one call after the other and answers each as the monitor does
(`Serial.outputs`).
-/

namespace OpenShmem

/-! ## Answered so far -/

/-- An external call and what it was answered. -/
abbrev Sig.Event (E : Sig) : Type := (c : E.Call) × E.Reply c

namespace Prog

variable {E : Sig} {ε α N W : Type}

/-- Answered as in `t`, the program `m` has become the last one. -/
inductive Walk : Prog E ε α → List E.Event → Prog E ε α → Prop where
  | stay (m : Prog E ε α) : Walk m [] m
  | step {c : E.Call} {k : E.Reply c → Prog E ε α} {t : List E.Event} {m : Prog E ε α}
    (x : E.Reply c) (h : Walk (k x) t m) : Walk (call c k) (⟨c, x⟩ :: t) m

/-- One answer more. -/
theorem Walk.answered {m : Prog E ε α} {t : List E.Event} {c : E.Call}
    {k : E.Reply c → Prog E ε α} (h : Walk m t (call c k)) (x : E.Reply c) :
    Walk m (t ++ [⟨c, x⟩]) (k x) := by
  generalize hm' : call c k = m' at h
  induction h with
  | stay m =>
    subst hm'
    exact .step x (.stay _)
  | step y h ih => exact .step y (ih hm')

/-- A program that has ended goes nowhere. -/
theorem Walk.of_done {o : Outcome ε α} {t : List E.Event} {m : Prog E ε α}
    (h : Walk (done o) t m) : t = [] ∧ m = done o := by
  cases h
  exact ⟨rfl, rfl⟩

/-- What a call and its answer leave on record, of many of them. -/
def Note.events (note : Note E N) (t : List E.Event) : List N := t.flatMap fun e => note e.1 e.2

theorem Note.events_append (note : Note E N) (t u : List E.Event) :
    note.events (t ++ u) = note.events t ++ note.events u :=
  List.flatMap_append

/-- The environment that answers as in a list, and as it likes after its end. -/
noncomputable def replay [∀ c, Nonempty (E.Reply c)] : Handler E (List E.Event) :=
  fun c t =>
    match t with
    | [] => (Classical.ofNonempty, [])
    | e :: t => open Classical in
      if h : e.1 = c then (h ▸ e.2, t) else (Classical.ofNonempty, t)

section Replay

variable [∀ c, Nonempty (E.Reply c)]

@[simp] theorem replay_cons (c : E.Call) (x : E.Reply c) (t : List E.Event) :
    replay c (⟨c, x⟩ :: t) = (x, t) := by
  simp [replay]

/-- In that environment the program goes the way the list says, with a record kept. -/
theorem Walk.replayed_noting {m m' : Prog E ε α} {t : List E.Event} (h : Walk m t m')
    (note : Note E N) (u : List E.Event) (log : List N) :
    m.run (replay.noting note) (t ++ u, log) =
      m'.run (replay.noting note) (u, log ++ note.events t) := by
  induction h generalizing log with
  | stay m => rw [Note.events, List.flatMap_nil, List.append_nil, List.nil_append]
  | @step c k t m x h ih =>
    have hstep : replay.noting note c (⟨c, x⟩ :: t ++ u, log) =
        (x, (t ++ u, log ++ note c x)) := by
      rw [List.cons_append, Handler.noting, replay_cons]
    rw [run_call, hstep, ih, List.append_assoc]
    rfl

end Replay

end Prog

/-! ## Threads at a monitor -/

/-- The calls that threads make on a value behind a mutex. -/
structure Monitor (E : Sig) (ε γ ρ σ : Type) : Type where
  /-- what a call does before it asks for the mutex: with a result it returns from there -/
  before : γ → Prog E ε (Option ρ)
  /-- what it does while it holds the mutex: its result, and the value it leaves -/
  inside : γ → σ → Prog E ε (ρ × σ)

/-- Where a thread is. -/
inductive Phase (E : Sig) (ε γ ρ σ : Type) : Type where
  /-- between two calls -/
  | idle
  /-- in a call, without the mutex -/
  | before (c : γ) (m : Prog E ε (Option ρ))
  /-- in a call, with the mutex -/
  | inside (c : γ) (m : Prog E ε (ρ × σ))

/-- A call that has returned. -/
structure Returned (γ ρ : Type) : Type where
  call : γ
  result : ρ
  /-- it had the mutex -/
  locked : Bool

/-- Where every thread is, and what has happened so far. -/
structure Threads (ι : Type) (E : Sig) (ε γ ρ σ : Type) : Type where
  /-- the calls a thread has still to begin -/
  todo : ι → List γ
  phase : ι → Phase E ε γ ρ σ
  /-- who holds the mutex -/
  holder : Option ι
  /-- what it guards -/
  value : σ
  /-- the calls that have returned, oldest first -/
  history : List (ι × Returned γ ρ)
  /-- the external calls made under the mutex, by whom, oldest first -/
  trace : List (ι × E.Event)

namespace Phase

variable {E : Sig} {ε γ ρ σ : Type}

/-- The call a thread is in. -/
def current : Phase E ε γ ρ σ → Option γ
  | idle => none
  | before c _ => some c
  | inside c _ => some c

end Phase

namespace Threads

variable {ι : Type} [DecidableEq ι] {E : Sig} {ε γ ρ σ : Type}

/-- Nobody has begun. -/
def start (todo : ι → List γ) (v : σ) : Threads ι E ε γ ρ σ where
  todo := todo
  phase _ := .idle
  holder := none
  value := v
  history := []
  trace := []

/-- Thread `i` is in another phase. -/
def moved (s : Threads ι E ε γ ρ σ) (i : ι) (p : Phase E ε γ ρ σ) : Threads ι E ε γ ρ σ :=
  { s with phase := Function.update s.phase i p }

/-- A call of thread `i` has returned. -/
def returned (s : Threads ι E ε γ ρ σ) (i : ι) (r : Returned γ ρ) : Threads ι E ε γ ρ σ :=
  { s with phase := Function.update s.phase i .idle, history := s.history ++ [(i, r)] }

section Moves

variable {s : Threads ι E ε γ ρ σ} {i j : ι} {p : Phase E ε γ ρ σ} {r : Returned γ ρ}

@[simp] theorem moved_phase_self : (s.moved i p).phase i = p := Function.update_self ..

theorem moved_phase_of_ne (h : j ≠ i) : (s.moved i p).phase j = s.phase j :=
  Function.update_of_ne h ..

@[simp] theorem returned_phase_self : (s.returned i r).phase i = .idle := Function.update_self ..

theorem returned_phase_of_ne (h : j ≠ i) : (s.returned i r).phase j = s.phase j :=
  Function.update_of_ne h ..

end Moves

/-- The calls that went through the mutex. -/
def locked (s : Threads ι E ε γ ρ σ) : List (ι × Returned γ ρ) :=
  s.history.filter fun e => e.2.locked

end Threads

namespace Monitor

variable {ι : Type} [DecidableEq ι] {E : Sig} {ε γ ρ σ : Type} (M : Monitor E ε γ ρ σ)

/-- One step of a thread. -/
inductive Step : Threads ι E ε γ ρ σ → Threads ι E ε γ ρ σ → Prop where
  /-- it begins a call -/
  | begin {s : Threads ι E ε γ ρ σ} {i : ι} {c : γ} {rest : List γ} (hphase : s.phase i = .idle)
    (htodo : s.todo i = c :: rest) :
    Step s { s.moved i (.before c (M.before c)) with todo := Function.update s.todo i rest }
  /-- an external call is answered, without the mutex -/
  | ask {s : Threads ι E ε γ ρ σ} {i : ι} {c : γ} {q : E.Call} {k : E.Reply q → Prog E ε (Option ρ)}
    (hphase : s.phase i = .before c (.call q k)) (x : E.Reply q) :
    Step s (s.moved i (.before c (k x)))
  /-- the call returns, without the mutex -/
  | refuse {s : Threads ι E ε γ ρ σ} {i : ι} {c : γ} {r : ρ}
    (hphase : s.phase i = .before c (.done (.ok (some r)))) : Step s (s.returned i ⟨c, r, false⟩)
  /-- the mutex is free and the thread takes it -/
  | enter {s : Threads ι E ε γ ρ σ} {i : ι} {c : γ}
    (hphase : s.phase i = .before c (.done (.ok none))) (hfree : s.holder = none) :
    Step s { s.moved i (.inside c (M.inside c s.value)) with holder := some i }
  /-- an external call is answered, under the mutex -/
  | call {s : Threads ι E ε γ ρ σ} {i : ι} {c : γ} {q : E.Call} {k : E.Reply q → Prog E ε (ρ × σ)}
    (hphase : s.phase i = .inside c (.call q k)) (x : E.Reply q) :
    Step s { s.moved i (.inside c (k x)) with trace := s.trace ++ [(i, ⟨q, x⟩)] }
  /-- the call returns, and lets go of the mutex -/
  | leave {s : Threads ι E ε γ ρ σ} {i : ι} {c : γ} {r : ρ} {v : σ}
    (hphase : s.phase i = .inside c (.done (.ok (r, v)))) :
    Step s { s.returned i ⟨c, r, true⟩ with holder := none, value := v }

/-- Any number of steps. -/
abbrev Run : Threads ι E ε γ ρ σ → Threads ι E ε γ ρ σ → Prop := Relation.ReflTransGen M.Step

/-! ## Serial histories -/

/-- One call after the other from the value `v`: their external calls, and the value
that is left. -/
inductive Serial (v : σ) : List (ι × Returned γ ρ) → List (ι × E.Event) → σ → Prop where
  | nil : Serial v [] [] v
  | snoc {h : List (ι × Returned γ ρ)} {t : List (ι × E.Event)} {w w' : σ} {i : ι} {c : γ} {r : ρ}
    {u : List E.Event} (hist : Serial v h t w)
    (hcall : (M.inside c w).Walk u (.done (.ok (r, w')))) :
    Serial v (h ++ [(i, ⟨c, r, true⟩)]) (t ++ u.map fun e => (i, e)) w'

/-! ## What the mutex gives -/

/-- The calls of a thread: those that have returned, the one it is in, and the others. -/
def callsOf (s : Threads ι E ε γ ρ σ) (i : ι) : List γ :=
  (partOf i s.history).map Returned.call ++ (s.phase i).current.toList ++ s.todo i

/-- What the call that holds the mutex has done so far. -/
inductive Underway (s : Threads ι E ε γ ρ σ) : List (ι × E.Event) → Prop where
  | free (h : s.holder = none) : Underway s []
  | held {i : ι} {c : γ} {m : Prog E ε (ρ × σ)} {u : List E.Event} (h : s.holder = some i)
    (hphase : s.phase i = .inside c m) (hu : (M.inside c s.value).Walk u m) :
    Underway s (u.map fun e => (i, e))

/-- What holds of threads that began with the value `v`. -/
structure Orderly (v : σ) (s : Threads ι E ε γ ρ σ) : Prop where
  /-- without the mutex a call does what it does before it asks for it -/
  before : ∀ i c m, s.phase i = .before c m → ∃ t, (M.before c).Walk t m
  /-- the mutex is held by whoever is inside -/
  inside : ∀ i c m, s.phase i = .inside c m →
    s.holder = some i ∧ ∃ t, (M.before c).Walk t (.done (.ok none))
  /-- a call that has returned either had the mutex, or never asked for it -/
  returned : ∀ e ∈ s.history, ∃ t,
    (M.before e.2.call).Walk t (.done (.ok (if e.2.locked then none else some e.2.result)))
  /-- the calls that had the mutex had it one after the other -/
  serial : ∃ t u, M.Serial v s.locked t s.value ∧ s.trace = t ++ u ∧ M.Underway s u

variable {M} {v : σ} {s s' : Threads ι E ε γ ρ σ}

/-- A thread that moves on within a call. -/
theorem callsOf_moved (s : Threads ι E ε γ ρ σ) (i : ι) (p : Phase E ε γ ρ σ)
    (h : p.current = (s.phase i).current) (j : ι) : callsOf (s.moved i p) j = callsOf s j := by
  rw [callsOf, callsOf]
  by_cases hj : j = i
  · subst hj
    rw [Threads.moved_phase_self, h]
    rfl
  · rw [Threads.moved_phase_of_ne hj]
    rfl

/-- A thread whose call returns. -/
theorem callsOf_returned (s : Threads ι E ε γ ρ σ) (i : ι) (r : Returned γ ρ)
    (h : (s.phase i).current = some r.call) (j : ι) :
    callsOf (s.returned i r) j = callsOf s j := by
  have hpart : partOf j (s.returned i r).history =
      partOf j s.history ++ partOf j ([r].map fun r => (i, r)) := partOf_append _ _
  rw [callsOf, callsOf, hpart]
  by_cases hj : j = i
  · subst hj
    rw [Threads.returned_phase_self, h, partOf_map_self]
    simp [Phase.current, Threads.returned]
  · rw [Threads.returned_phase_of_ne hj, partOf_map_of_ne (Ne.symm hj), List.append_nil]
    rfl

/-- No step changes what calls a thread makes. -/
theorem Step.callsOf_eq (h : M.Step s s') (j : ι) : callsOf s' j = callsOf s j := by
  cases h with
  | @begin i c rest hphase htodo =>
    by_cases hj : j = i
    · subst hj
      simp [callsOf, Threads.moved, Phase.current, hphase, htodo]
    · simp [callsOf, Threads.moved, Function.update_of_ne hj]
  | @ask i c q k hphase x => exact callsOf_moved s i (.before c (k x)) (by rw [hphase]; rfl) j
  | @refuse i c r hphase => exact callsOf_returned s i ⟨c, r, false⟩ (by rw [hphase]; rfl) j
  | @enter i c hphase hfree =>
    exact callsOf_moved s i (.inside c (M.inside c s.value)) (by rw [hphase]; rfl) j
  | @call i c q k hphase x => exact callsOf_moved s i (.inside c (k x)) (by rw [hphase]; rfl) j
  | @leave i c r w hphase => exact callsOf_returned s i ⟨c, r, true⟩ (by rw [hphase]; rfl) j

/-- **Program order**: in every run a thread makes its calls in its order. -/
theorem Run.callsOf_eq (h : M.Run s s') (i : ι) : callsOf s' i = callsOf s i := by
  induction h with
  | refl => rfl
  | tail _ hstep ih => rw [hstep.callsOf_eq, ih]

/-- **Real time**: a call that has returned comes before whatever is called later. -/
theorem Run.history_append (h : M.Run s s') : ∃ later, s'.history = s.history ++ later := by
  induction h with
  | refl => exact ⟨[], (List.append_nil _).symm⟩
  | tail _ hstep ih =>
    obtain ⟨later, hlater⟩ := ih
    cases hstep with
    | refuse _ => exact ⟨later ++ [_], by rw [← List.append_assoc, ← hlater]; rfl⟩
    | leave _ => exact ⟨later ++ [_], by rw [← List.append_assoc, ← hlater]; rfl⟩
    | _ => exact ⟨later, hlater⟩

omit [DecidableEq ι] in
theorem Orderly.start (todo : ι → List γ) (v : σ) :
    M.Orderly v (Threads.start todo v : Threads ι E ε γ ρ σ) where
  before _ _ _ h := by cases h
  inside _ _ _ h := by cases h
  returned _ h := by cases h
  serial := ⟨[], [], .nil, rfl, .free rfl⟩

/-- Steps of other threads, without the mutex, are nothing to who holds it. -/
theorem Underway.elsewhere {u : List (ι × E.Event)} (h : M.Underway s u) {i : ι}
    {p : Phase E ε γ ρ σ} (hi : ∀ c m, s.phase i ≠ .inside c m) (hholder : s'.holder = s.holder)
    (hvalue : s'.value = s.value) (hphase : s'.phase = Function.update s.phase i p) :
    M.Underway s' u := by
  cases h with
  | free h => exact .free (hholder.trans h)
  | @held j c m u h hinside hu =>
    have hj : j ≠ i := fun hj => hi c m (hj ▸ hinside)
    refine .held (hholder.trans h) ?_ (by rw [hvalue]; exact hu)
    rw [hphase, Function.update_of_ne hj]
    exact hinside

/-- Where a thread is after one thread has moved. -/
theorem phase_moved {i j : ι} {p q : Phase E ε γ ρ σ}
    {phase : ι → Phase E ε γ ρ σ} (h : Function.update phase i p j = q) :
    (j = i ∧ p = q) ∨ (j ≠ i ∧ phase j = q) := by
  by_cases hj : j = i
  · subst hj
    exact Or.inl ⟨rfl, by rw [← h, Function.update_self]⟩
  · exact Or.inr ⟨hj, by rw [← h, Function.update_of_ne hj]⟩

/-- Where the threads are before the mutex, after one of them has moved. -/
theorem Orderly.before_moved (hs : M.Orderly v s) {i : ι} {p : Phase E ε γ ρ σ}
    (hp : ∀ c m, p = .before c m → ∃ t, (M.before c).Walk t m) {j : ι} {c : γ}
    {m : Prog E ε (Option ρ)} (hj : Function.update s.phase i p j = .before c m) :
    ∃ t, (M.before c).Walk t m := by
  rcases phase_moved hj with ⟨-, hnew⟩ | ⟨-, hold⟩
  · exact hp c m hnew
  · exact hs.before j c m hold

/-- Who is inside, after a thread has moved that does not take the mutex or let go of it. -/
theorem Orderly.inside_moved (hs : M.Orderly v s) {i : ι} {p : Phase E ε γ ρ σ}
    (hp : ∀ c m, p = .inside c m → ∃ m', s.phase i = .inside c m') {j : ι} {c : γ}
    {m : Prog E ε (ρ × σ)} (hj : Function.update s.phase i p j = .inside c m) :
    s.holder = some j ∧ ∃ t, (M.before c).Walk t (.done (.ok none)) := by
  rcases phase_moved hj with ⟨rfl, hnew⟩ | ⟨-, hold⟩
  · obtain ⟨m', hold⟩ := hp c m hnew
    exact hs.inside j c m' hold
  · exact hs.inside j c m hold

/-- One step keeps order. -/
theorem Orderly.step (hs : M.Orderly v s) (h : M.Step s s') : M.Orderly v s' := by
  obtain ⟨t, u, hserial, htrace, hunder⟩ := hs.serial
  cases h with
  | @begin i c rest hphase htodo =>
    refine ⟨fun j c' m hj => hs.before_moved ?_ hj, fun j c' m hj => hs.inside_moved ?_ hj,
      hs.returned, t, u, hserial, htrace, ?_⟩
    · rintro _ _ ⟨⟩
      exact ⟨[], .stay _⟩
    · rintro _ _ ⟨⟩
    · exact hunder.elsewhere (by simp [hphase]) rfl rfl rfl
  | @ask i c q k hphase x =>
    refine ⟨fun j c' m hj => hs.before_moved ?_ hj, fun j c' m hj => hs.inside_moved ?_ hj,
      hs.returned, t, u, hserial, htrace, ?_⟩
    · rintro _ _ ⟨⟩
      obtain ⟨w, hw⟩ := hs.before _ _ _ hphase
      exact ⟨_, hw.answered x⟩
    · rintro _ _ ⟨⟩
    · exact hunder.elsewhere (by simp [hphase]) rfl rfl rfl
  | @refuse i c r hphase =>
    refine ⟨fun j c' m hj => hs.before_moved ?_ hj, fun j c' m hj => hs.inside_moved ?_ hj,
      ?_, t, u, ?_, htrace, ?_⟩
    · rintro _ _ ⟨⟩
    · rintro _ _ ⟨⟩
    · refine List.forall_mem_append.mpr ⟨hs.returned, List.forall_mem_singleton.mpr ?_⟩
      exact hs.before _ _ _ hphase
    · simpa [Threads.locked, Threads.returned, List.filter_append] using hserial
    · exact hunder.elsewhere (by simp [hphase]) rfl rfl rfl
  | @enter i c hphase hfree =>
    -- nobody is inside, so the trace is that of the calls that have returned
    obtain ⟨-⟩ | ⟨hheld, -, -⟩ := hunder
    swap
    · cases hfree.symm.trans hheld
    rw [List.append_nil] at htrace
    refine ⟨fun j c' m hj => hs.before_moved ?_ hj, fun j c' m hj => ?_, hs.returned, t, [],
      hserial, ?_, ?_⟩
    · rintro _ _ ⟨⟩
    · rcases phase_moved hj with ⟨rfl, hnew⟩ | ⟨-, hold⟩
      · cases hnew
        exact ⟨rfl, hs.before _ _ _ hphase⟩
      · cases hfree.symm.trans (hs.inside j c' m hold).1
    · rw [List.append_nil]
      exact htrace
    · exact .held (u := []) rfl Threads.moved_phase_self (.stay (M.inside c s.value))
  | @call i c q k hphase x =>
    obtain ⟨hheld, hbefore⟩ := hs.inside _ _ _ hphase
    obtain ⟨hfree⟩ | @⟨j, c', m, es, hj, hinside, hes⟩ := hunder
    · cases hfree.symm.trans hheld
    obtain rfl : j = i := Option.some.inj (hj.symm.trans hheld)
    obtain ⟨rfl, rfl⟩ := Phase.inside.inj (hinside.symm.trans hphase)
    refine ⟨fun j c' m hj => hs.before_moved ?_ hj, fun j c' m hj => hs.inside_moved ?_ hj,
      hs.returned, t, _, hserial, ?_, .held hheld Threads.moved_phase_self (hes.answered x)⟩
    · rintro _ _ ⟨⟩
    · rintro _ _ ⟨⟩
      exact ⟨_, hphase⟩
    · rw [List.map_append, ← List.append_assoc, ← htrace]
      rfl
  | @leave i c r w hphase =>
    obtain ⟨hheld, hbefore⟩ := hs.inside _ _ _ hphase
    obtain ⟨hfree⟩ | @⟨j, c', m, es, hj, hinside, hes⟩ := hunder
    · cases hfree.symm.trans hheld
    obtain rfl : j = i := Option.some.inj (hj.symm.trans hheld)
    obtain ⟨rfl, rfl⟩ := Phase.inside.inj (hinside.symm.trans hphase)
    refine ⟨fun j c' m hj => hs.before_moved ?_ hj, fun j c' m hj => ?_, ?_, s.trace, [], ?_, ?_,
      .free rfl⟩
    · rintro _ _ ⟨⟩
    · rcases phase_moved hj with ⟨rfl, hnew⟩ | ⟨hne, hold⟩
      · cases hnew
      · exact absurd (Option.some.inj ((hs.inside j c' m hold).1.symm.trans hheld)) hne
    · refine List.forall_mem_append.mpr ⟨hs.returned, List.forall_mem_singleton.mpr ?_⟩
      exact hbefore
    · have hlocked : (s.returned j ⟨c', r, true⟩).locked = s.locked ++ [(j, ⟨c', r, true⟩)] := by
        simp [Threads.locked, Threads.returned, List.filter_append]
      rw [htrace]
      exact hlocked ▸ hserial.snoc hes
    · exact (List.append_nil _).symm

/-- **Order in every run**: the calls that had the mutex had it one after the other. -/
theorem Run.orderly {todo : ι → List γ} (h : M.Run (Threads.start todo v) s) : M.Orderly v s := by
  induction h with
  | refl => exact .start todo v
  | tail _ hstep ih => exact ih.step hstep

/-! ## A history is a run -/

omit [DecidableEq ι] in
/-- **Serial histories are runs** of every machine that answers a call as the monitor
does. `R` relates the guarded value, the external calls made so far and the ones to
come to a state of the machine. -/
theorem Serial.outputs {τ ο : Type} {N : Machine τ γ ο} {A : ρ → ο}
    {R : σ → List E.Event → List E.Event → τ → Prop}
    (hstep : ∀ {w w' c r past u rest p}, R w past (u ++ rest) p →
      (M.inside c w).Walk u (.done (.ok (r, w'))) →
      (N.step p c).1 = A r ∧ R w' (past ++ u) rest (N.step p c).2)
    {h : List (ι × Returned γ ρ)} {t : List (ι × E.Event)} {w : σ} (hserial : M.Serial v h t w)
    {rest : List E.Event} {p : τ} (hp : R v [] (t.map Prod.snd ++ rest) p) :
    N.outputs p (h.map fun e => e.2.call) = h.map (fun e => A e.2.result) ∧
      R w (t.map Prod.snd) rest (N.final p (h.map fun e => e.2.call)) := by
  -- by induction on the history, from its end: the last call is still to come for the others
  induction hserial generalizing rest with
  | nil => exact ⟨rfl, hp⟩
  | @snoc h t w w' i c r u _ hcall ih =>
    have hu : (t ++ u.map fun e => (i, e)).map Prod.snd = t.map Prod.snd ++ u := by
      simp [Function.comp_def]
    rw [hu, List.append_assoc] at hp
    obtain ⟨houts, hfinal⟩ := ih hp
    obtain ⟨hout, hnext⟩ := hstep hfinal hcall
    rw [hu, List.map_append, List.map_append, Machine.outputs_append, Machine.final_append, houts]
    exact ⟨congrArg (fun o => List.map (fun e => A e.2.result) h ++ [o]) hout, hnext⟩

/-! ## Playing a schedule -/

variable (M)

/-- The step of thread `i`, when `answer` answers its external calls. `none` while it has
to wait, and when it has no call left. -/
def move (answer : (c : E.Call) → E.Reply c) (s : Threads ι E ε γ ρ σ) (i : ι) :
    Option (Threads ι E ε γ ρ σ) :=
  match s.phase i with
  | .idle =>
    match s.todo i with
    | [] => none
    | c :: rest =>
      some { s.moved i (.before c (M.before c)) with todo := Function.update s.todo i rest }
  | .before c (.call q k) => some (s.moved i (.before c (k (answer q))))
  | .before c (.done (.ok (some r))) => some (s.returned i ⟨c, r, false⟩)
  | .before c (.done (.ok none)) =>
    if s.holder.isNone then
      some { s.moved i (.inside c (M.inside c s.value)) with holder := some i }
    else none
  | .inside c (.call q k) =>
    some { s.moved i (.inside c (k (answer q))) with trace := s.trace ++ [(i, ⟨q, answer q⟩)] }
  | .inside c (.done (.ok (r, v))) =>
    some { s.returned i ⟨c, r, true⟩ with holder := none, value := v }
  | _ => none

/-- The steps of a schedule, one after the other. -/
def play (answer : (c : E.Call) → E.Reply c) (schedule : List ι) (s : Threads ι E ε γ ρ σ) :
    Option (Threads ι E ε γ ρ σ) :=
  schedule.foldlM (M.move answer) s

variable {M} {answer : (c : E.Call) → E.Reply c}

theorem step_of_move {i : ι} (h : M.move answer s i = some s') : M.Step s s' := by
  rw [move] at h
  split at h
  · next hphase =>
    split at h
    · cases h
    · next c rest htodo =>
      cases h
      exact .begin hphase htodo
  · next c q k hphase =>
    cases h
    exact .ask hphase _
  · next c r hphase =>
    cases h
    exact .refuse hphase
  · next c hphase =>
    split at h
    · next hfree =>
      cases h
      exact .enter hphase (Option.isNone_iff_eq_none.mp hfree)
    · cases h
  · next c q k hphase =>
    cases h
    exact .call hphase _
  · next c r w hphase =>
    cases h
    exact .leave hphase
  · cases h

/-- A schedule that can be played to its end is a run. -/
theorem run_of_play {schedule : List ι} (h : M.play answer schedule s = some s') :
    M.Run s s' := by
  induction schedule generalizing s with
  | nil =>
    cases h
    exact .refl
  | cons i schedule ih =>
    obtain ⟨mid, hmid, h⟩ := Option.bind_eq_some_iff.mp h
    exact .head (step_of_move hmid) (ih h)

end Monitor

end OpenShmem
