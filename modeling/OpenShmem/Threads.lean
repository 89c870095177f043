import OpenShmem.Lifecycle
import OpenShmem.Monitor

/-!
# Threads of a process

The library is called from any number of threads. `init`, `finalize` and every
operation work under the lifecycle mutex from their first external call to their
last; an operation that fails its own checks has returned before it asks for the
mutex; the methods of a request and the constructors of transports, heaps and
connections never ask for it. The source relies on this twice: PMIx's FFI "is
serialized by the mutex", and so are blocking UCC operations.

`processMonitor` is the library as a monitor. A run of any threads on it is then a
run of `processMachine` (`threads_serialize`), and so what holds of a process that
makes one call after the other holds of theirs (`threads_lifecycle`).
-/

namespace OpenShmem

instance (c : Ext.Call) : Nonempty (Ext.Reply c) := ⟨(accommodating 0 c ()).1⟩

section Monitor

variable (ne : Endian) (nm : NoMessage) (fuel : ℕ)

/-- A call has come back with `o`, unless it is still waiting. -/
def comingBack {α : Type} (o : Outcome Error Unit) (a : α) : Fn α :=
  match o with
  | .pending => .done .pending
  | _ => pure a

/-- A call that never asks for the mutex. -/
def unlocked {α : Type} (m : Fn α) : Fn (Option (Outcome Error Unit)) := do
  let o ← (m.reify : Fn (Outcome Error α))
  comingBack o.void (some o.void)

/-- What a call does before it asks for the mutex. -/
def PublicCall.before : PublicCall → Fn (Option (Outcome Error Unit))
  | init | finalize => return none
  | operation op =>
    match op.checks ne with
    | .ok () => return none
    | o => return some o
  | onRequest req call => unlocked (OpenShmem.onRequest ne nm req call)
  | transport estimatedNumEps => unlocked (UcxTransport.new estimatedNumEps)
  | heap size => unlocked (SymHeap.withSize size)
  | handshake own symHeap size => unlocked (OpenShmem.handshake own symHeap size)

/-- The public calls, on the state behind the lifecycle mutex. -/
def processMonitor (collectives : Bool) :
    Monitor Ext Error PublicCall (Outcome Error Unit) Lock where
  before c := c.before ne nm
  inside c l := do
    let (o, l') ← c.exec ne nm fuel collectives l
    comingBack o (o, l')

end Monitor

section Serialize

variable {ne : Endian} {nm : NoMessage} {fuel : ℕ} {collectives : Bool}

theorem comingBack_bind_walk {m : Fn (Outcome Error Unit × Lock)} {t : List Ext.Event}
    {r : Outcome Error Unit} {l : Lock}
    (h : (m >>= fun p => comingBack p.1 (p.1, p.2)).Walk t (.done (.ok (r, l)))) :
    m.Walk t (.done (.ok (r, l))) := by
  induction m generalizing t with
  | done o =>
    cases o with
    | ok p =>
      obtain ⟨o, l'⟩ := p
      cases o <;> cases h <;> exact .stay _
    | err e => cases h
    | panic => cases h
    | pending => cases h
  | call c k ih =>
    cases h with
    | step x h => exact .step x (ih x h)

/-- A process between two calls, in the environment that has answered as in `past` and
will answer as in `rest`. -/
structure Played (l : Lock) (past rest : List Ext.Event) (p : Process (List Ext.Event)) :
    Prop where
  lock : p.lock = l
  world : p.world = rest
  sessions : p.sessions = sessionNote.events past

/-- A call that went through the mutex is a step of the process. -/
theorem Played.step {l l' : Lock} {c : PublicCall} {r : Outcome Error Unit}
    {past u rest : List Ext.Event} {p : Process (List Ext.Event)} (hp : Played l past (u ++ rest) p)
    (hcall : ((processMonitor ne nm fuel collectives).inside c l).Walk u (.done (.ok (r, l')))) :
    let q := (processMachine ne nm fuel collectives Prog.replay).step p c
    q.1 = r ∧ Played l' (past ++ u) rest q.2 := by
  obtain ⟨rfl, hworld, hsessions⟩ := hp
  have hrun := (comingBack_bind_walk hcall).replayed_noting sessionNote rest p.sessions
  rw [← hworld] at hrun
  have hstep : (processMachine ne nm fuel collectives Prog.replay).step p c =
      (r, ⟨l', rest, p.sessions ++ sessionNote.events u⟩) := congrArg p.after hrun
  rw [hstep]
  refine ⟨rfl, rfl, rfl, ?_⟩
  rw [Prog.Note.events_append, hsessions]

variable {ι : Type} [DecidableEq ι]
  {todo : ι → List PublicCall}
  {s s' : Threads ι Ext Error PublicCall (Outcome Error Unit) Lock}

/-- What has gone through the mutex stays at the front. -/
theorem locked_append (hrun : (processMonitor ne nm fuel collectives).Run s s') :
    ∃ later, s'.locked = s.locked ++ later := by
  obtain ⟨later, hlater⟩ := hrun.history_append
  exact ⟨later.filter fun e => e.2.locked, by rw [Threads.locked, hlater, List.filter_append]; rfl⟩

omit [DecidableEq ι] in
/-- The calls that went through the mutex, made one after the other by a process. -/
theorem serial_played {h : List (ι × Returned PublicCall (Outcome Error Unit))}
    {t : List (ι × Ext.Event)} {l : Lock}
    (hserial : (processMonitor ne nm fuel collectives).Serial .initial h t l) :
    let M := processMachine ne nm fuel collectives Prog.replay
    let start := Process.start (t.map Prod.snd)
    M.outputs start (h.map fun e => e.2.call) = (h.map fun e => e.2.result) ∧
      Played l (t.map Prod.snd) [] (M.final start (h.map fun e => e.2.call)) := by
  have hstart : Played .initial [] (t.map Prod.snd ++ []) (Process.start (t.map Prod.snd)) :=
    ⟨rfl, (List.append_nil _).symm, rfl⟩
  exact hserial.outputs (A := id) (R := Played)
    (N := processMachine ne nm fuel collectives Prog.replay) (fun hp hcall => hp.step hcall) hstart

/-- **Threads are serialized.** In every state that threads reach, in any
interleaving and with any answers to the external calls: each thread has made its own
calls in its own order; a call that has returned without the mutex did only what comes
before it; the external calls made under the mutex are, but for those of the call that
holds it now, the calls of whole operations, one after the other; and these have
returned, and left the state, as if one process had made them in the order in which
they let go of the mutex, an order in which a call that had returned comes before any
that is begun later. -/
theorem threads_serialize (ne : Endian) (nm : NoMessage) (fuel : ℕ) (collectives : Bool)
    (todo : ι → List PublicCall)
    (hrun : (processMonitor ne nm fuel collectives).Run (.start todo .initial) s) :
    (∀ i, Monitor.callsOf s i = todo i) ∧
    (∀ e ∈ s.history, e.2.locked = false →
      ∃ u, (e.2.call.before ne nm).Walk u (.done (.ok (some e.2.result)))) ∧
    (∀ s', (processMonitor ne nm fuel collectives).Run s s' →
      ∃ later, s'.locked = s.locked ++ later) ∧
    ∃ t u, s.trace = t ++ u ∧ (processMonitor ne nm fuel collectives).Underway s u ∧
      (processMonitor ne nm fuel collectives).Serial .initial s.locked t s.value ∧
      ∃ (W : Type) (handler : Prog.Handler Ext W) (w : W),
        let M := processMachine ne nm fuel collectives handler
        let p := M.final (Process.start w) (s.locked.map fun e => e.2.call)
        M.outputs (Process.start w) (s.locked.map fun e => e.2.call) =
            (s.locked.map fun e => e.2.result) ∧
          p.lock = s.value ∧ p.sessions = sessionNote.events (t.map Prod.snd) := by
  have hord := hrun.orderly
  obtain ⟨t, u, hserial, htrace, hunder⟩ := hord.serial
  obtain ⟨houts, hplayed⟩ := serial_played hserial
  refine ⟨fun i => hrun.callsOf_eq i, ?_, fun s' h => locked_append h, t, u, htrace, hunder,
    hserial, List Ext.Event, Prog.replay, t.map Prod.snd, houts, hplayed.lock, hplayed.sessions⟩
  intro e he hlocked
  obtain ⟨u, hu⟩ := hord.returned e he
  rw [hlocked] at hu
  exact ⟨u, hu⟩

/-- Two threads: one starts the library up and down, and meanwhile the other has an
empty contribution refused, and waits for its turn to allocate. -/
def twoThreads : Bool → List PublicCall
  | false => [.init, .finalize]
  | true => [.operation (.collect .u8 []), .operation (.malloc 8)]

/-- The first begins `init`, and the second is refused; `init` goes on to its end. -/
def twoThreadsSchedule : List Bool :=
  List.replicate 10 false ++ [true, true, true] ++ List.replicate 27 false ++ [true, true] ++
    List.replicate 4 false

theorem twoThreads_runs : ∃ s, (processMonitor .little noMessageMinusSix 1 true).play
      (fun c => (accommodating 4096 c ()).1) twoThreadsSchedule (.start twoThreads .initial) =
        some s ∧
    s.history.map (fun e => (e.1, e.2.result, e.2.locked)) =
      [(true, .err (.usage "collective contribution must be non-empty"), false),
        (false, .ok (), true), (true, .ok (), true), (false, .ok (), true)] ∧
    s.holder = none := by
  refine ⟨_, (Option.some_get (?_ : Option.isSome _ = true)).symm, ?_, ?_⟩ <;> decide

theorem threads_serialize_instance : ∃ s, s.holder = none ∧
    ∀ i, Monitor.callsOf (s : Threads Bool Ext Error PublicCall (Outcome Error Unit) Lock) i =
      twoThreads i := by
  obtain ⟨s, hplay, -, hfree⟩ := twoThreads_runs
  exact ⟨s, hfree, (threads_serialize .little noMessageMinusSix 1 true twoThreads
    (Monitor.run_of_play hplay)).1⟩

/-! ## The lifecycle, for threads -/

/-- A call of the history is a step of the process that the calls before it have
made. -/
theorem locked_step (hrun : (processMonitor ne nm fuel collectives).Run (.start todo .initial) s)
    {front back : List (ι × Returned PublicCall (Outcome Error Unit))} {i : ι} {c : PublicCall}
    {r : Outcome Error Unit} {b : Bool} (hsplit : s.locked = front ++ (i, ⟨c, r, b⟩) :: back) :
    ∃ w : List Ext.Event,
      let M := processMachine ne nm fuel collectives Prog.replay
      M.outputs (Process.start w) (front.map fun e => e.2.call) = (front.map fun e => e.2.result) ∧
        (M.step (M.final (Process.start w) (front.map fun e => e.2.call)) c).1 = r := by
  obtain ⟨t, u, hserial, -, -⟩ := hrun.orderly.serial
  obtain ⟨houts, -⟩ := serial_played hserial
  refine ⟨t.map Prod.snd, ?_⟩
  rw [hsplit, List.map_append, List.map_append, Machine.outputs_append] at houts
  obtain ⟨hfront, hrest⟩ := List.append_inj houts (by simp)
  exact ⟨hfront, (List.cons.inj hrest).1⟩

/-- A call that went through the mutex had passed its own checks. -/
theorem locked_reaches (hrun : (processMonitor ne nm fuel collectives).Run (.start todo .initial) s)
    {e : ι × Returned PublicCall (Outcome Error Unit)} (he : e ∈ s.locked) {op : Operation}
    (hop : e.2.call = .operation op) : op.ReachesState ne := by
  obtain ⟨hmem, hlocked⟩ := List.mem_filter.mp he
  obtain ⟨t, ht⟩ := hrun.orderly.returned e hmem
  rw [if_pos hlocked, hop] at ht
  show op.checks ne = .ok ()
  change Prog.Walk (match op.checks ne with | .ok () => return none | o => return some o) t _ at ht
  split at ht
  · assumption
  · cases ht

/-- The calls that went through the mutex, with their results. -/
def outcomes (h : List (ι × Returned PublicCall (Outcome Error Unit))) :
    List (PublicCall × Outcome Error Unit) :=
  h.map fun e => (e.2.call, e.2.result)

omit [DecidableEq ι] in
theorem outcomes_eq_zip (h : List (ι × Returned PublicCall (Outcome Error Unit))) :
    outcomes h = (h.map fun e => e.2.call).zip (h.map fun e => e.2.result) := by
  rw [outcomes, List.zip_map']

/-- **The lifecycle, for threads.** Whatever threads do, as long as none panics under the
mutex: of the calls that go through it, exactly an `init` that comes while a state is
stored is refused as a second one, and exactly an operation that comes while none is
stored finds the library not initialized, where a state is stored from an `init` that
returned `Ok` to the next `finalize`, of whatever threads; and whenever nobody holds the
mutex, each session that any thread has opened has had its disconnect asked for before the
next was opened, and one is left that has not exactly while a state is stored. -/
theorem threads_lifecycle (ne : Endian) (nm : NoMessage) (fuel : ℕ) (collectives : Bool)
    (todo : ι → List PublicCall)
    (hrun : (processMonitor ne nm fuel collectives).Run (.start todo .initial) s)
    (hcalm : ∀ e ∈ s.locked, e.2.result ≠ .panic) :
    (∀ front e back, s.locked = front ++ e :: back →
      (e.2.result = .err .alreadyInitialized ↔
        e.2.call = .init ∧ storedAfter (outcomes front) = true) ∧
      (e.2.result = .err .notInitialized ↔
        (∃ op, e.2.call = .operation op) ∧ storedAfter (outcomes front) = false)) ∧
    (s.holder = none →
      openSession (sessionNote.events (s.trace.map Prod.snd)) =
          some (s.value.state.map ShmemState.client) ∧
        s.value.state.isSome = storedAfter (outcomes s.locked) ∧
        (collectives = true → ∀ state ∈ s.value.state, state.collectives.isSome)) := by
  refine ⟨?_, fun hfree => ?_⟩
  · rintro front ⟨i, c, r, b⟩ back hsplit
    obtain ⟨w, houts, hr⟩ := locked_step hrun hsplit
    have hmem : (i, ⟨c, r, b⟩) ∈ s.locked := by simp [hsplit]
    have hquiet : .panic ∉ (front.map fun e => e.2.result) := by
      intro h
      obtain ⟨e, he, hpanic⟩ := List.mem_map.mp h
      exact hcalm e (by simp [hsplit, he]) hpanic
    rw [← houts] at hquiet
    obtain ⟨hsound, hstored⟩ := (Sound.start collectives w).run _ hquiet
    rw [houts, ← outcomes_eq_zip] at hstored
    obtain ⟨t, ht, hlock, heffect⟩ := step_effect hsound.unpoisoned c
      (by rw [hr]; exact hcalm _ hmem)
    have hlaw := heffect.stepLaw (hlock.trans hsound.unpoisoned.symm) ht hsound.runtime
    rw [hr] at hlaw
    refine ⟨?_, ?_⟩
    · rw [hlaw.already, hstored]
      rfl
    · rw [hlaw.absent, ← Option.isNone_iff_eq_none, ← Option.not_isSome, Bool.not_eq_true', hstored]
      constructor
      · rintro ⟨hnone, op, hop, -⟩
        exact ⟨⟨op, hop⟩, hnone⟩
      · rintro ⟨⟨op, hop⟩, hnone⟩
        exact ⟨hnone, op, hop, locked_reaches hrun hmem hop⟩
  · obtain ⟨t, u, hserial, htrace, hunder⟩ := hrun.orderly.serial
    obtain ⟨-⟩ | ⟨hheld, -, -⟩ := hunder
    swap
    · cases hfree.symm.trans hheld
    obtain ⟨houts, hlock, -, hsessions⟩ := serial_played hserial
    have hquiet : .panic ∉ (s.locked.map fun e => e.2.result) := by
      intro h
      obtain ⟨e, he, hpanic⟩ := List.mem_map.mp h
      exact hcalm e he hpanic
    rw [← houts] at hquiet
    obtain ⟨hsound, hstored⟩ := (Sound.start collectives (t.map Prod.snd)).run _ hquiet
    rw [houts, ← outcomes_eq_zip] at hstored
    rw [htrace, List.append_nil, ← hlock, ← hsessions]
    exact ⟨hsound.session, hstored, hsound.runtime⟩

theorem threads_lifecycle_instance : ∃ s, s.history.map (fun e => (e.1, e.2.result, e.2.locked)) =
      [(true, .err (.usage "collective contribution must be non-empty"), false),
        (false, .ok (), true), (true, .ok (), true), (false, .ok (), true)] ∧
    openSession (sessionNote.events
      ((s : Threads Bool Ext Error PublicCall (Outcome Error Unit) Lock).trace.map Prod.snd)) =
        some (s.value.state.map ShmemState.client) := by
  obtain ⟨s, hplay, hhistory, hfree⟩ := twoThreads_runs
  refine ⟨s, hhistory, ((threads_lifecycle .little noMessageMinusSix 1 true twoThreads
    (Monitor.run_of_play hplay) ?_).2 hfree).1⟩
  intro e he hpanic
  have hmem : (e.1, e.2.result, e.2.locked) ∈
      s.history.map (fun e => (e.1, e.2.result, e.2.locked)) :=
    List.mem_map_of_mem (List.mem_filter.mp he).1
  rw [hhistory, hpanic] at hmem
  simp at hmem

end Serialize

end OpenShmem
