import OpenShmem.HeapRuns
import OpenShmem.Lifecycle
import OpenShmem.PeerTable

/-!
# What poisons the lifecycle lock

A panic under the guard poisons the mutex, and every later call fails. Puts,
`malloc` and `free` never panic on a stored state, whatever they are given. A
get allocates its buffer once the range is accepted, and the range is checked
against the words of the machine, not against the largest allocation; so does
`init` with the size of the heap. These two windows are all there is: outside
them every call comes back and leaves the stored state in reach.
-/

namespace OpenShmem

/-! ## The calls -/

/-- The calls of the data interface that take sizes and offsets. -/
inductive DataCall : Type where
  | putmem (dstPe : ℕ) (bytes : List UInt8) (dstOffset : ℕ)
  | getmem (srcPe srcOffset len : ℕ)
  | put (T : Pod) (dstPe : ℕ) (src : List T.Value) (dstOffset : ℕ)
  | get (T : Pod) (srcPe srcOffset lenElems : ℕ)
  | malloc (size : ℕ)
  | free (ptr : SymPtr)

namespace DataCall

/-- The public call. -/
def toPublic : DataCall → PublicCall
  | putmem pe bytes offset => .operation (.rma (.putmem pe bytes offset))
  | getmem pe offset len => .operation (.rma (.getmem pe offset len))
  | put T pe src offset => .operation (.rma (.put T pe src offset))
  | get T pe offset lenElems => .operation (.rma (.get T pe offset lenElems))
  | malloc size => .operation (.malloc size)
  | free ptr => .operation (.free ptr)

/-- A range of `len` bytes that the validator accepts and Rust cannot allocate. -/
def TooLong (state : ShmemState) (pe offset len : ℕ) : Prop :=
  isizeMax < len ∧ ∃ accepted, peerAndAddress state pe offset len = .ok accepted

/-- The call is a get of such a range. -/
def Overruns (state : ShmemState) : DataCall → Prop
  | getmem pe offset len => TooLong state pe offset len
  | get T pe offset lenElems => TooLong state pe offset (lenElems * T.size)
  | _ => False

end DataCall

/-- A heap size that is accepted and, rounded up to words, cannot be allocated. -/
def HeapTooLarge (size : ℕ) : Prop := size + 7 < 2 ^ 64 ∧ isizeMax < (size + 7) / 8 * 8

instance (size : ℕ) : Decidable (HeapTooLarge size) := inferInstanceAs (Decidable (_ ∧ _))

/-! ## Calls on a stored state -/

/-- A call that comes back leaves the lock as poisoned as it was. -/
theorem release_of_returned {α : Type} {l : Lock} {stored : Option ShmemState}
    {o : Outcome Error α} (h : o.Returned) : l.release stored o = ⟨l.poisoned, stored⟩ :=
  release_of_ne_panic (Outcome.returned_iff.mp h).1

section Calls

variable {W : Type} {handler : Prog.Handler Ext W} {fuel : ℕ} {state : ShmemState}

/-- Waiting for a request does not panic. -/
theorem waitRequest_ne_panic (request : Request) (fuel : ℕ) :
    (UcxTransport.waitRequest request fuel).Sat (fun _ => True) (· ≠ .panic) := by
  induction fuel with
  | zero => exact fun h => by cases h
  | succ fuel ih =>
    refine ⟨trivial, fun polled => ?_⟩
    refine Fn.sat_orErr_bind (fun finished _ => ?_) fun e _ h => by cases h
    split
    · exact fun h => by cases h
    · exact ih

/-- Every request is complete, or has failed, by the time it was polled `fuel`
times. -/
def Completing (handler : Prog.Handler Ext W) (fuel : ℕ) : Prop :=
  ∀ request w, ((UcxTransport.waitRequest request fuel).run handler w).1 ≠ .pending

theorem completeRequest_ends (hwaits : Completing handler fuel) (request : Option Request) :
    (completeRequest fuel request).Ends handler := by
  cases request with
  | none => exact .done trivial
  | some request =>
    intro w
    have hpanic := (waitRequest_ne_panic request fuel).run handler w
    exact Outcome.returned_iff.mpr ⟨hpanic, hwaits request w⟩

theorem orErr_ends {α ε : Type} (x : Except ε α) (f : ε → Error) : (Fn.orErr x f).Ends handler := by
  cases x with
  | ok a => exact .done trivial
  | error e => exact .done trivial

theorem okOr_ends {α : Type} (x : Option α) (e : Error) : (Fn.okOr x e).Ends handler := by
  cases x with
  | some a => exact .done trivial
  | none => exact .done trivial

theorem peerAndAddress_ends (state : ShmemState) (pe offset len : ℕ) :
    (Fn.lift (peerAndAddress state pe offset len)).Ends handler := by
  obtain ⟨peer, address, h⟩ | ⟨m, h⟩ := peerAndAddress_cases state pe offset len
  · rw [h]
    exact .done trivial
  · rw [h]
    exact .done trivial

theorem putmem_ends (hwaits : Completing handler fuel) (pe : ℕ) (bytes : List UInt8) (offset : ℕ) :
    (putmem fuel (.holding state) pe bytes offset).Ends handler := by
  rw [putmem, withState_holding]
  refine (peerAndAddress_ends state pe offset _).bind fun accepted => ?_
  obtain ⟨peer, address⟩ := accepted
  dsimp only
  split
  · exact .done trivial
  · exact .call fun w => (orErr_ends _ _).bind fun request => completeRequest_ends hwaits request

/-- A get comes back unless its buffer cannot be allocated. -/
theorem getmem_ends (hwaits : Completing handler fuel) {pe offset len : ℕ}
    (h : ¬ DataCall.TooLong state pe offset len) :
    (getmem fuel (.holding state) pe offset len).Ends handler := by
  rw [getmem, withState_holding]
  obtain ⟨peer, address, haccept⟩ | ⟨m, hrefuse⟩ := peerAndAddress_cases state pe offset len
  · rw [haccept, Fn.lift_ok_bind]
    have hlen : len ≤ isizeMax := Nat.le_of_not_lt fun hlong => h ⟨hlong, _, haccept⟩
    dsimp only
    rw [if_pos hlen]
    split
    · exact .done trivial
    · refine .call fun w => (orErr_ends _ _).bind fun received => ?_
      exact (completeRequest_ends hwaits received.1).bind fun _ => .done trivial
  · rw [hrefuse]
    exact .done trivial

/-- If it cannot, `vec!` panics. -/
theorem getmem_panics {pe offset len : ℕ} (h : DataCall.TooLong state pe offset len) :
    getmem fuel (.holding state) pe offset len = Fn.panic := by
  obtain ⟨hlong, ⟨peer, address⟩, haccept⟩ := h
  rw [getmem, withState_holding, haccept, Fn.lift_ok_bind]
  exact if_neg (Nat.not_le_of_lt hlong)

variable {ne : Endian} {T : Pod}

theorem put_ends (hwaits : Completing handler fuel) (pe : ℕ) (src : List T.Value) (offset : ℕ) :
    (put ne fuel (.holding state) T pe src offset).Ends handler := by
  rw [put, Pod.podAsBytes, if_neg (not_not_intro T.size_eq_sizeOf)]
  cases checkedMul 64 src.length T.size with
  | none => exact .done trivial
  | some len => exact putmem_ends hwaits pe _ offset

theorem get_ends (hwaits : Completing handler fuel) {pe offset lenElems : ℕ}
    (h : ¬ DataCall.TooLong state pe offset (lenElems * T.size)) :
    (get ne fuel (.holding state) T pe offset lenElems).Ends handler := by
  rw [get]
  cases hlen : checkedMul 64 lenElems T.size with
  | none => exact .done trivial
  | some len =>
    obtain ⟨-, rfl⟩ := checkedMul_eq_some.mp hlen
    rw [Fn.okOr_some_bind]
    refine (getmem_ends hwaits h).bind fun bytes => ?_
    rw [Pod.collect_decode_chunks]
    exact .done trivial

theorem get_panics {pe offset lenElems : ℕ}
    (h : DataCall.TooLong state pe offset (lenElems * T.size)) :
    get ne fuel (.holding state) T pe offset lenElems = Fn.panic := by
  have hfits : lenElems * T.size < 2 ^ 64 := by
    obtain ⟨-, ⟨peer, address⟩, haccept⟩ := h
    obtain ⟨-, -, -, -, hrange⟩ := peerAndAddress_eq_ok.mp haccept
    omega
  have hlen : checkedMul 64 lenElems T.size = some (lenElems * T.size) :=
    checkedMul_eq_some.mpr ⟨hfits, rfl⟩
  rw [get, hlen, Fn.okOr_some_bind, getmem_panics h]
  rfl

end Calls

/-! ## The heap of a reachable state -/

/-- The stored heap, if there is one, is sound. -/
def HeapSound (l : Lock) : Prop := ∀ state ∈ l.state, HeapInv state.heap

section Reachable

variable {l : Lock}

theorem HeapSound.release {α : Type} {stored : Option ShmemState} {o : Outcome Error α}
    (h : ∀ state ∈ stored, HeapInv state.heap) : HeapSound (l.release stored o) := h

theorem heapSound_none {α : Type} {o : Outcome Error α} : HeapSound (l.release none o) :=
  fun _ h => by cases h

/-- The heap that is brought up is the one `withSize` made. -/
theorem bringUp_heap (client : PmixClient) :
    (bringUp client).Yields fun state => HeapInv state.heap := by
  have hnew : SymHeap.new.Yields HeapInv := by
    rw [SymHeap.new]
    refine Prog.Yields.bind_any fun var => ?_
    refine (SymHeap.withSize_sat _).mono (fun _ h => h) fun o ho heap hheap => ?_
    obtain ⟨region, rkey, hsize, rfl⟩ := ho heap hheap
    refine HeapInv.fresh ?_ region rkey
    have : 8 ≤ (var.bind parseUsize).getD defaultHeapSize := hsize
    omega
  rw [bringUp]
  refine Prog.Yields.bind_any fun rank => ?_
  cases rank with
  | none => exact Prog.Yields.of_ne_ok fun _ h => by cases h
  | some rank =>
    refine Prog.Yields.bind_any fun transport => ?_
    refine Prog.Yields.bind (closing_yields hnew client) fun heap hheap => ?_
    iterate 3 refine Prog.Yields.bind_any fun _ => ?_
    exact Prog.Yields.pure hheap

/-- The last block of `init` keeps the heap. -/
theorem installCollectives_heap {state : ShmemState} (h : HeapInv state.heap) :
    (installCollectives state).Yields fun p => ∀ s ∈ p.2, HeapInv s.heap := by
  have hsame : ∀ s ∈ some state, HeapInv s.heap := fun s hs => Option.some.inj hs ▸ h
  refine Prog.Yields.bind_any fun o => ?_
  cases o with
  | ok runtime =>
    refine Prog.Yields.pure ?_
    rintro s ⟨⟩
    exact h
  | err e => exact Prog.Yields.bind_any fun _ => Prog.Yields.pure fun _ h => by cases h
  | panic => exact Prog.Yields.pure hsame
  | pending => exact Prog.Yields.pure hsame

theorem init_heap (collectives : Bool) (hl : HeapSound l) :
    (init collectives l).Yields fun p => HeapSound p.2 := by
  rw [init]
  split
  · have hconnect : connect.Yields fun state => HeapInv state.heap :=
      Prog.Yields.bind_any fun connected => Prog.Yields.bind_any fun client => bringUp_heap client
    refine Prog.Yields.bind hconnect.reify_yields fun o ho => ?_
    cases o with
    | ok state =>
      have hstate := ho state rfl
      cases collectives with
      | true =>
        refine Prog.Yields.bind (installCollectives_heap hstate) fun p hp => ?_
        exact Prog.Yields.pure (.release hp)
      | false =>
        refine Prog.Yields.pure (.release ?_)
        rintro s ⟨⟩
        exact hstate
    | err e => exact Prog.Yields.pure heapSound_none
    | panic => exact Prog.Yields.pure heapSound_none
    | pending => exact Prog.Yields.pure heapSound_none
  all_goals exact Prog.Yields.pure hl

theorem finalize_heap (hl : HeapSound l) : (finalize l).Yields fun p => HeapSound p.2 := by
  rw [finalize]
  split
  · exact Prog.Yields.pure hl
  · exact Prog.Yields.bind_any fun _ => Prog.Yields.pure heapSound_none
  all_goals exact Prog.Yields.pure hl

theorem reading_heap {α : Type} (hl : HeapSound l) (m : Fn α) :
    (reading l m).Yields fun p => HeapSound p.2 :=
  Prog.Yields.bind_any fun _ => Prog.Yields.pure (.release hl)

/-- A change of the stored heap that keeps the invariant keeps it stored. -/
theorem withStateMut_heap {α : Type} (hl : HeapSound l)
    {operation : SymHeap → Outcome Error α × SymHeap}
    (h : ∀ heap, HeapInv heap → HeapInv (operation heap).2) :
    HeapSound (withStateMut l fun state =>
      ((operation state.heap).1, { state with heap := (operation state.heap).2 })).2 := by
  obtain ⟨poisoned, stored⟩ := l
  cases poisoned with
  | true => exact hl
  | false =>
    cases stored with
    | none => exact hl
    | some state =>
      refine .release ?_
      rintro s ⟨⟩
      exact h state.heap (hl state rfl)

variable {ne : Endian} {nm : NoMessage} {fuel : ℕ} {collectives : Bool}

/-- Every public call keeps the stored heap sound. -/
theorem exec_heap (c : PublicCall) (hl : HeapSound l) :
    (c.exec ne nm fuel collectives l).Yields fun p => HeapSound p.2 := by
  cases c with
  | init => exact init_heap collectives hl
  | finalize => exact finalize_heap hl
  | operation op =>
    cases op with
    | malloc size => exact Prog.Yields.pure (withStateMut_heap hl fun heap h => h.malloc size)
    | free ptr => exact Prog.Yields.pure (withStateMut_heap hl fun heap h => h.free ptr)
    | _ => exact reading_heap hl _
  | onRequest req call => exact Prog.Yields.bind_any fun _ => Prog.Yields.pure hl
  | transport n => exact Prog.Yields.bind_any fun _ => Prog.Yields.pure hl
  | heap size => exact Prog.Yields.bind_any fun _ => Prog.Yields.pure hl
  | handshake own heap size => exact Prog.Yields.bind_any fun _ => Prog.Yields.pure hl

end Reachable

/-! ## Runs of data calls -/

section Runs

variable (ne : Endian) (nm : NoMessage) (fuel : ℕ) (collectives : Bool)
variable {W : Type} (handler : Prog.Handler Ext W)

/-- A step is what its call ends with. -/
theorem process_step {p : Process W} {c : PublicCall} {o : Outcome Error Unit} {l : Lock}
    (hrun : ((c.exec ne nm fuel collectives p.lock).run (handler.noting sessionNote)
      (p.world, p.sessions)).1 = .ok (o, l)) :
    ((processMachine ne nm fuel collectives handler).step p c).1 = o ∧
      ((processMachine ne nm fuel collectives handler).step p c).2.lock = l := by
  rw [processMachine]
  dsimp only
  generalize (c.exec ne nm fuel collectives p.lock).run (handler.noting sessionNote)
    (p.world, p.sessions) = ran at hrun ⊢
  obtain ⟨answer, w, sessions⟩ := ran
  obtain rfl : answer = .ok (o, l) := hrun
  exact ⟨rfl, rfl⟩

/-- Every reachable state has a sound heap. -/
theorem heapSound_run (w : W) (calls : List PublicCall) :
    HeapSound
      ((processMachine ne nm fuel collectives handler).final (Process.start w) calls).lock := by
  refine Machine.invariant (M := processMachine ne nm fuel collectives handler)
    (I := fun p => HeapSound p.lock) (fun p c hp => ?_) calls (Process.start w) fun _ h => by cases h
  have hexec : (c.exec ne nm fuel collectives p.lock).Yields fun r => HeapSound r.2 :=
    exec_heap c hp
  have hsound := hexec.run (handler.noting sessionNote) (p.world, p.sessions)
  rw [processMachine]
  dsimp only
  generalize (c.exec ne nm fuel collectives p.lock).run (handler.noting sessionNote)
    (p.world, p.sessions) = ran at hsound ⊢
  -- a call that does not return a lock leaves the one it found
  obtain ⟨⟨o, l⟩ | e | _ | _, w', sessions⟩ := ran
  · exact hsound (o, l) rfl
  · exact hp
  · exact hp
  · exact hp

/-- The stored state is in reach: nothing but its heap has changed, the lock is
not poisoned, and `finalize` would close the session. -/
def InReach (state : ShmemState) (p : Process W) : Prop :=
  (∃ heap, p.lock = .holding { state with heap }) ∧
    ((processMachine ne nm fuel collectives handler).step p .finalize).2.sessions =
      p.sessions ++ [.closed state.client]

/-- Every call comes back, and afterwards the stored state is in reach. -/
def NeverPoisons (p : Process W) (state : ShmemState) (calls : List DataCall) : Prop :=
  (∀ o ∈ (processMachine ne nm fuel collectives handler).outputs p (calls.map DataCall.toPublic),
      o.Returned) ∧
    InReach ne nm fuel collectives handler state
      ((processMachine ne nm fuel collectives handler).final p (calls.map DataCall.toPublic))

variable {handler} {p : Process W} {state : ShmemState}

/-- A lock that nobody has poisoned lets `finalize` through. -/
theorem inReach_of_lock (hlock : p.lock = .holding state) :
    InReach ne nm fuel collectives handler state p := by
  obtain ⟨_, w, sessions⟩ := p
  obtain rfl := hlock
  exact ⟨⟨state.heap, rfl⟩, rfl⟩

/-- The step of a call that only reads the stored state. -/
theorem step_reading (hlock : p.lock = .holding state) (op : Operation) {α : Type} {m : Fn α}
    (hop : op.exec ne nm fuel (.holding state) = reading (.holding state) m) :
    ((processMachine ne nm fuel collectives handler).step p (.operation op)).1 =
        (m.run handler p.world).1.void ∧
      ((processMachine ne nm fuel collectives handler).step p (.operation op)).2.lock =
        (Lock.holding state).release (some state) (m.run handler p.world).1 := by
  refine process_step ne nm fuel collectives handler ?_
  have hnoting := (Prog.run_noting handler sessionNote m p.world p.sessions).1
  rw [PublicCall.exec, hlock, hop, reading, Prog.run_reify_bind, hnoting]
  rfl

/-- The call comes back with a sound heap stored. -/
def KeepsState (state : ShmemState) (r : Outcome Error Unit × Process W) : Prop :=
  r.1.Returned ∧ ∃ heap, HeapInv heap ∧ r.2.lock = .holding { state with heap }

/-- A call that comes back and only reads the stored state. -/
theorem keeps_reading (hlock : p.lock = .holding state) (hheap : HeapInv state.heap)
    {op : Operation} {α : Type} {m : Fn α}
    (hop : op.exec ne nm fuel (.holding state) = reading (.holding state) m)
    (hm : m.Ends handler) :
    KeepsState state ((processMachine ne nm fuel collectives handler).step p (.operation op)) := by
  have hback := hm p.world
  obtain ⟨houtcome, hlock'⟩ := step_reading ne nm fuel collectives hlock op hop
  rw [KeepsState, houtcome, hlock', release_of_returned hback]
  exact ⟨hback.bind_ok _, state.heap, hheap, rfl⟩

/-- A call that changes the stored heap. -/
theorem keeps_withStateMut (hlock : p.lock = .holding state) {op : Operation} {α : Type}
    (operation : SymHeap → Outcome Error α × SymHeap)
    (hop : op.exec ne nm fuel (.holding state) =
      let q := withStateMut (.holding state) fun s =>
        ((operation s.heap).1, { s with heap := (operation s.heap).2 })
      pure (q.1.void, q.2))
    (hback : (operation state.heap).1.Returned) (hheap : HeapInv (operation state.heap).2) :
    KeepsState state ((processMachine ne nm fuel collectives handler).step p (.operation op)) := by
  have hrun : ((op.exec ne nm fuel p.lock).run (handler.noting sessionNote)
      (p.world, p.sessions)).1 = .ok ((operation state.heap).1.void,
        (Lock.holding state).release (some { state with heap := (operation state.heap).2 })
          (operation state.heap).1) := by
    rw [hlock, hop]
    rfl
  obtain ⟨houtcome, hlock'⟩ := process_step ne nm fuel collectives handler (c := .operation op) hrun
  rw [KeepsState, houtcome, hlock', release_of_returned hback]
  exact ⟨hback.bind_ok _, _, hheap, rfl⟩

/-- A data call that does not overrun keeps the state in reach. -/
theorem keeps_dataCall (hwaits : Completing handler fuel) (hlock : p.lock = .holding state)
    (hheap : HeapInv state.heap) {c : DataCall} (hc : ¬ c.Overruns state) :
    KeepsState state ((processMachine ne nm fuel collectives handler).step p c.toPublic) := by
  cases c with
  | putmem pe bytes offset =>
    exact keeps_reading ne nm fuel collectives hlock hheap rfl (putmem_ends hwaits pe bytes offset)
  | getmem pe offset len =>
    exact keeps_reading ne nm fuel collectives hlock hheap rfl
      ((getmem_ends hwaits hc).bind fun _ => .done trivial)
  | put T pe src offset =>
    exact keeps_reading ne nm fuel collectives hlock hheap rfl (put_ends hwaits pe src offset)
  | get T pe offset lenElems =>
    exact keeps_reading ne nm fuel collectives hlock hheap rfl
      ((get_ends hwaits hc).bind fun _ => .done trivial)
  | malloc size =>
    refine keeps_withStateMut ne nm fuel collectives hlock (fun heap => heap.malloc size) rfl ?_
      (hheap.malloc size)
    obtain ⟨m, -, h⟩ | ⟨_, b, _, _, -, -, -, -, -, -, h⟩ := hheap.malloc_cases size
    · rw [h]
      exact trivial
    · rw [h]
      exact trivial
  | free ptr =>
    refine keeps_withStateMut ne nm fuel collectives hlock (fun heap => heap.free ptr) rfl ?_
      (hheap.free ptr)
    obtain ⟨-, h⟩ | ⟨s, -, -, h⟩ := hheap.free_cases ptr
    · rw [h]
      exact trivial
    · rw [h]
      exact trivial

/-- One that does panics. -/
theorem overrun_panics (hlock : p.lock = .holding state) {c : DataCall} (hc : c.Overruns state) :
    ((processMachine ne nm fuel collectives handler).step p c.toPublic).1 = .panic := by
  cases c with
  | getmem pe offset len =>
    have hpanic : (RmaRequest.exec ne fuel (.holding state) (.getmem pe offset len)) = Fn.panic := by
      rw [RmaRequest.exec, getmem_panics hc]
      rfl
    obtain ⟨houtcome, -⟩ := step_reading ne nm fuel collectives hlock
      (.rma (.getmem pe offset len)) rfl
    rw [DataCall.toPublic, houtcome, hpanic]
    rfl
  | get T pe offset lenElems =>
    have hpanic : (RmaRequest.exec ne fuel (.holding state) (.get T pe offset lenElems)) =
        Fn.panic := by
      rw [RmaRequest.exec, get_panics hc]
      rfl
    obtain ⟨houtcome, -⟩ := step_reading ne nm fuel collectives hlock
      (.rma (.get T pe offset lenElems)) rfl
    rw [DataCall.toPublic, houtcome, hpanic]
    rfl
  | putmem pe bytes offset => exact hc.elim
  | put T pe src offset => exact hc.elim
  | malloc size => exact hc.elim
  | free ptr => exact hc.elim

/-- **The run of data calls.** On a stored state with a sound heap no call
panics exactly when none of them overruns: what a call changes of the state is
its heap, and overrunning does not depend on that. -/
theorem neverPoisons_iff (hwaits : Completing handler fuel) (calls : List DataCall) :
    ∀ (p : Process W) (state : ShmemState), p.lock = .holding state → HeapInv state.heap →
      (NeverPoisons ne nm fuel collectives handler p state calls ↔
        ∀ c ∈ calls, ¬ c.Overruns state) := by
  induction calls with
  | nil =>
    intro p state hlock _
    exact ⟨fun _ _ h => (List.not_mem_nil h).elim, fun _ =>
      ⟨fun _ h => (List.not_mem_nil h).elim, inReach_of_lock ne nm fuel collectives hlock⟩⟩
  | cons c calls ih =>
    intro p state hlock hheap
    by_cases hc : c.Overruns state
    · constructor
      · rintro ⟨hback, -⟩
        have hstep := hback _ List.mem_cons_self
        rw [overrun_panics ne nm fuel collectives hlock hc] at hstep
        exact False.elim hstep
      · exact fun h => absurd hc (h c List.mem_cons_self)
    · obtain ⟨hback, heap, hsound, hlock'⟩ :=
        keeps_dataCall ne nm fuel collectives hwaits hlock hheap hc
      have hrest := ih _ { state with heap } hlock' hsound
      constructor
      · rintro ⟨hall, hreach⟩
        refine List.forall_mem_cons.mpr ⟨hc, ?_⟩
        exact hrest.mp ⟨fun o ho => hall o (List.mem_cons_of_mem _ ho), hreach⟩
      · intro hnone
        obtain ⟨hall, hreach⟩ := hrest.mpr (List.forall_mem_cons.mp hnone).2
        exact ⟨List.forall_mem_cons.mpr ⟨hback, hall⟩, hreach⟩

end Runs

/-! ## Starting up -/

section StartUp

variable {W : Type} {handler : Prog.Handler Ext W}

theorem transport_ends (estimatedNumEps : ℕ) :
    (UcxTransport.new estimatedNumEps).Ends handler := by
  refine .call fun _ => (orErr_ends _ _).bind fun _ => ?_
  refine .call fun _ => (orErr_ends _ _).bind fun _ => ?_
  refine .call fun _ => (orErr_ends _ _).bind fun _ => ?_
  refine .call fun _ => (orErr_ends _ _).bind fun _ => ?_
  exact .call fun _ => (orErr_ends _ _).bind fun _ => .done trivial

theorem withSize_ends {size : ℕ} (h : ¬ HeapTooLarge size) :
    (SymHeap.withSize size).Ends handler := by
  rw [SymHeap.withSize]
  split
  · exact .done trivial
  · cases hpadded : checkedAdd 64 size (8 - 1) with
    | none => exact .done trivial
    | some padded =>
      obtain ⟨hfits, rfl⟩ := checkedAdd_eq_some.mp hpadded
      have hsmall : (size + (8 - 1)) / 8 * 8 ≤ isizeMax :=
        Nat.le_of_not_lt fun hlarge => h ⟨hfits, hlarge⟩
      rw [Fn.okOr_some_bind]
      dsimp only
      rw [dif_pos hsmall]
      refine .call fun _ => .call fun _ => (orErr_ends _ _).bind fun _ => ?_
      exact .call fun _ => (orErr_ends _ _).bind fun _ => .done trivial

/-- A heap that is too large is not refused: `vec!` panics. -/
theorem withSize_panics {size : ℕ} (h : HeapTooLarge size) :
    SymHeap.withSize size = Fn.panic := by
  obtain ⟨hfits, hlarge⟩ := h
  have hmin : ¬ size < alignment := by
    have hmax : isizeMax = 2 ^ 63 - 1 := rfl
    have halign : alignment = 8 := rfl
    omega
  have hpadded : checkedAdd 64 size (8 - 1) = some (size + (8 - 1)) :=
    checkedAdd_eq_some.mpr ⟨hfits, rfl⟩
  rw [SymHeap.withSize, if_neg hmin, hpadded, Fn.okOr_some_bind]
  exact dif_neg (Nat.not_le_of_lt hlarge)

theorem closing_ends {α : Type} {client : PmixClient} {m : Fn α} (hm : m.Ends handler) :
    (closing client m).Ends handler := by
  refine hm.attempt.bind fun caught => ?_
  cases caught with
  | ok a => exact .done trivial
  | error e => exact .call fun _ => .done trivial

theorem jobSize_ends : jobSize.Ends handler := by
  have hpublished : publishedJobSize.Ends handler := by
    refine .call fun w => ?_
    generalize (handler (.pmix .procWildcard) w).1 = answer
    cases answer with
    | error e => exact .done trivial
    | ok u =>
      refine .call fun w => ?_
      generalize (handler (.pmix (.getWildcardUint32 .jobSize)) w).1 = size
      cases size with
      | error e => exact .done trivial
      | ok value => exact .done trivial
  refine hpublished.bind fun published => ?_
  cases published with
  | some size => exact .done trivial
  | none => exact .call fun _ => .done trivial

theorem putBytes_ends (key : PmixKey) (bytes : List UInt8) : (putBytes key bytes).Ends handler := by
  refine .call fun _ => (orErr_ends _ _).bind fun _ => ?_
  refine .call fun _ => (orErr_ends _ _).bind fun _ => ?_
  exact .call fun _ => orErr_ends _ _

theorem publish_ends (transport : UcxTransport) (heap : SymHeap) :
    (publish transport heap).Ends handler := by
  refine (putBytes_ends _ _).bind fun _ => (putBytes_ends _ _).bind fun _ => ?_
  refine .call fun _ => (orErr_ends _ _).bind fun _ => ?_
  refine .call fun _ => (orErr_ends _ _).bind fun _ => ?_
  exact .call fun _ => orErr_ends _ _

theorem connectPeer_ends (pe : ℕ) (b : Bootstrap) : (connectPeer pe b).Ends handler := by
  refine .call fun _ => (orErr_ends _ _).bind fun _ => ?_
  refine .call fun _ => (orErr_ends _ _).bind fun address => ?_
  refine .call fun _ => (orErr_ends _ _).bind fun rkeyBytes => ?_
  refine .call fun _ => (orErr_ends _ _).bind fun heapBase => ?_
  split
  · exact .done trivial
  · have hendpoint : (UcxTransport.createEndpoint address).Ends handler :=
      .call fun _ => (orErr_ends _ _).bind fun _ => .done trivial
    refine hendpoint.bind fun _ => ?_
    exact .call fun _ => (orErr_ends _ _).bind fun _ => .done trivial

theorem connectPeers_ends (pes : List ℕ) (b : Bootstrap) : (connectPeers pes b).Ends handler := by
  induction pes generalizing b with
  | nil => exact .done trivial
  | cons pe pes ih => exact (connectPeer_ends pe b).bind fun b' => ih b'

theorem handshake_ends (transport : UcxTransport) (heap : SymHeap) (size : ℕ) :
    (handshake transport heap size).Ends handler := by
  rw [handshake]
  split
  · exact .done trivial
  · refine (publish_ends _ _).bind fun _ => ?_
    refine .call fun _ => (orErr_ends _ _).bind fun _ => ?_
    refine Prog.Ends.bind (.call fun _ => .call fun _ => .done trivial) fun _ => ?_
    exact (orErr_ends _ _).bind fun _ => connectPeers_ends _ _

theorem runtime_ends (client : PmixClient) (rank size : ℕ) :
    (Runtime.new client rank size).Ends handler := by
  refine (okOr_ends _ _).bind fun _ => ?_
  refine .call fun _ => (orErr_ends _ _).bind fun _ => ?_
  refine .call fun _ => (orErr_ends _ _).bind fun _ => ?_
  exact .call fun _ => (orErr_ends _ _).bind fun _ => .done trivial

/-- The environment has this value of `SHMEM_SYMMETRIC_SIZE`, and PMIx knows
the rank of a client. -/
structure HasHeapSize (handler : Prog.Handler Ext W) (value : String) : Prop where
  size : ∀ w, (handler (.sys (.envVar "SHMEM_SYMMETRIC_SIZE")) w).1 = some value
  rank : ∀ client w, (handler (.pmix (.requireRank client)) w).1.isSome

variable {value : String} {bytes : ℕ}

theorem configured_size (hvalue : parseUsize value = some bytes) :
    ((some value).bind parseUsize).getD defaultHeapSize = bytes := by
  rw [Option.bind_some, hvalue, Option.getD_some]

theorem connect_ends (henv : HasHeapSize handler value) (hvalue : parseUsize value = some bytes)
    (h : ¬ HeapTooLarge bytes) : connect.Ends handler := by
  have hheap : SymHeap.new.Ends handler := by
    refine .call fun w => ?_
    have hends : (SymHeap.withSize
        (((some value).bind parseUsize).getD defaultHeapSize)).Ends handler := by
      rw [configured_size hvalue]
      exact withSize_ends h
    rw [henv.size w]
    exact hends
  refine .call fun _ => (orErr_ends _ _).bind fun client => ?_
  refine .call fun w => ?_
  obtain ⟨rank, hrank⟩ := Option.isSome_iff_exists.mp (henv.rank client w)
  rw [hrank]
  refine (closing_ends (transport_ends 1)).bind fun transport => ?_
  refine (closing_ends hheap).bind fun heap => ?_
  refine jobSize_ends.bind fun reported => ?_
  refine (closing_ends (okOr_ends _ _)).bind fun size => ?_
  exact (closing_ends (handshake_ends _ _ _)).bind fun _ => .done trivial

/-- `init` on a lock that nobody has poisoned comes back, and leaves it so,
whatever else the environment answers. -/
def InitReturns (collectives : Bool) (value : String) : Prop :=
  ∀ (W : Type) (handler : Prog.Handler Ext W), HasHeapSize handler value →
    ∀ l : Lock, l.poisoned = false →
      (init collectives l).EndsWith handler fun r => r.1.Returned ∧ r.2.poisoned = false

theorem installCollectives_ends (state : ShmemState) :
    (installCollectives state).EndsWith handler fun r => r.1.Returned := by
  refine (runtime_ends _ _ _).reify.bind fun o ho => ?_
  cases o with
  | ok runtime => exact .pure trivial
  | err e => exact .call fun _ => .pure trivial
  | panic => exact False.elim ho
  | pending => exact False.elim ho

/-- A heap that can be allocated is never the reason for a panic. -/
theorem initReturns_of_fits (collectives : Bool) (hvalue : parseUsize value = some bytes)
    (h : ¬ HeapTooLarge bytes) : InitReturns collectives value := by
  intro W handler henv l hl
  obtain ⟨poisoned, stored⟩ := l
  obtain rfl : poisoned = false := hl
  cases stored with
  | some state => exact .pure ⟨trivial, rfl⟩
  | none =>
    refine (connect_ends henv hvalue h).reify.bind fun o ho => ?_
    cases o with
    | ok state =>
      cases collectives with
      | true =>
        refine (installCollectives_ends state).bind fun r hr => ?_
        exact .pure ⟨hr, congrArg Lock.poisoned (release_of_returned hr)⟩
      | false => exact .pure ⟨trivial, rfl⟩
    | err e => exact .pure ⟨trivial, rfl⟩
    | panic => exact False.elim ho
    | pending => exact False.elim ho

/-- The accommodating environment with this value of `SHMEM_SYMMETRIC_SIZE`. -/
def withHeapSize (value : String) : Prog.Handler Ext Unit
  | .sys (.envVar "SHMEM_SYMMETRIC_SIZE"), w => (some value, w)
  | c, w => accommodating 4096 c w

theorem withHeapSize_has (value : String) : HasHeapSize (withHeapSize value) value :=
  ⟨fun _ => rfl, fun _ _ => rfl⟩

/-- One that cannot is: the panic goes through every clean-up. -/
theorem connect_panics (hvalue : parseUsize value = some bytes) (h : HeapTooLarge bytes) :
    (connect.run (withHeapSize value) ()).1 = .panic := by
  have hheap : (SymHeap.new.run (withHeapSize value) ()).1 = .panic := by
    have hnew : SymHeap.new.run (withHeapSize value) () =
        (SymHeap.withSize (((some value).bind parseUsize).getD defaultHeapSize)).run
          (withHeapSize value) () := rfl
    rw [hnew, configured_size hvalue, withSize_panics h]
    rfl
  have hclosing : ((closing ⟨0⟩ SymHeap.new).run (withHeapSize value) ()).1 = .panic :=
    Prog.run_bind_panic (Prog.run_attempt_panic hheap)
  have hbringUp : ((bringUp ⟨0⟩).run (withHeapSize value) ()).1 = .panic := by
    have htransport : (closing ⟨0⟩ (UcxTransport.new 1)).run (withHeapSize value) () =
        (.ok ⟨⟨true, true⟩, [1, 2, 3, 4]⟩, ()) := rfl
    have hrank : (Fn.pmix (.requireRank ⟨0⟩)).run (withHeapSize value) () =
        (.ok (some 0), ()) := rfl
    rw [bringUp, Prog.run_bind_of_ok hrank]
    dsimp only
    rw [Prog.run_bind_of_ok htransport]
    exact Prog.run_bind_panic hclosing
  exact hbringUp

theorem not_initReturns_of_tooLarge (collectives : Bool) (hvalue : parseUsize value = some bytes)
    (h : HeapTooLarge bytes) : ¬ InitReturns collectives value := by
  intro hinit
  obtain ⟨r, hrun, hback, -⟩ := hinit Unit (withHeapSize value) (withHeapSize_has value) .initial
    rfl ()
  have hlost : ((init collectives .initial).run (withHeapSize value) ()).1 =
      .ok (.panic, Lock.initial.release none (.panic : Outcome Error Unit)) := by
    have hopen : init collectives .initial = connect.reify >>= _ := rfl
    rw [hopen, Prog.run_reify_bind, connect_panics hvalue h]
    rfl
  rw [hlost] at hrun
  obtain rfl := Outcome.ok.inj hrun
  exact hback

end StartUp

/-! ## The two windows -/

/-- **What poisons the lock.** From every reachable state that is stored, a
sequence of data calls comes back and keeps the state in reach exactly when none
of them is a get of an accepted range longer than an allocation may be; `init`
comes back exactly when the configured heap is not longer than that. -/
theorem poisoning_iff {W : Type} (handler : Prog.Handler Ext W) (w : W) (ne : Endian)
    (nm : NoMessage) (fuel : ℕ) (collectives : Bool) (hwaits : Completing handler fuel) :
    (∀ (history : List PublicCall) (state : ShmemState),
      ((processMachine ne nm fuel collectives handler).final (Process.start w) history).lock =
          .holding state →
        ∀ calls : List DataCall,
          NeverPoisons ne nm fuel collectives handler
              ((processMachine ne nm fuel collectives handler).final (Process.start w) history)
              state calls ↔
            ∀ c ∈ calls, ¬ c.Overruns state) ∧
      ∀ (value : String) (bytes : ℕ), parseUsize value = some bytes →
        (InitReturns collectives value ↔ ¬ HeapTooLarge bytes) := by
  constructor
  · intro history state hlock calls
    have hsound := heapSound_run ne nm fuel collectives handler w history
    rw [HeapSound, hlock] at hsound
    exact neverPoisons_iff ne nm fuel collectives hwaits calls _ state hlock (hsound state rfl)
  · intro value bytes hvalue
    by_cases h : HeapTooLarge bytes
    · exact iff_of_false (not_initReturns_of_tooLarge collectives hvalue h) (not_not_intro h)
    · exact iff_of_true (initReturns_of_fits collectives hvalue h) h

theorem completing_accommodating : Completing (accommodating 4096) 1 := fun _ _ h => by cases h

theorem poisoning_iff_instance :
    (∃ state,
      ((processMachine .little noMessageMinusSix 1 true (accommodating 4096)).final
          (Process.start ()) [.init]).lock = .holding state ∧
        NeverPoisons .little noMessageMinusSix 1 true (accommodating 4096)
          ((processMachine .little noMessageMinusSix 1 true (accommodating 4096)).final
            (Process.start ()) [.init])
          state [.malloc 16, .getmem 0 8 64, .free ⟨4096⟩, .free ⟨1⟩]) ∧
      InitReturns true "4096" := by
  have hboth := poisoning_iff (accommodating 4096) () .little noMessageMinusSix 1 true
    completing_accommodating
  constructor
  · refine ⟨_, rfl, (hboth.1 [.init] _ rfl _).mpr ?_⟩
    have hsmall : ¬ isizeMax < 64 := by decide
    simp [DataCall.Overruns, DataCall.TooLong, hsmall]
  · exact (hboth.2 "4096" 4096 (by decide)).mpr (by decide)

/-- A PE alone in its job accepts a range of `2 ^ 63` bytes of its own heap. -/
theorem lone_accepts : ∃ state,
    ((processMachine .little noMessageMinusSix 1 true (accommodating 4096)).final
        (Process.start ()) [.init]).lock = .holding state ∧
      ∃ accepted, peerAndAddress state 0 0 (2 ^ 63) = .ok accepted :=
  ⟨_, rfl, _, rfl⟩

/-- On a PE alone in its job, a get of `2 ^ 63` bytes from itself panics; and so
does `init` with `SHMEM_SYMMETRIC_SIZE=9223372036854775808`. -/
theorem lock_poisoned :
    (¬ ∀ (W : Type) (handler : Prog.Handler Ext W) (w : W) (fuel : ℕ) (collectives : Bool),
      Completing handler fuel → ∀ (history : List PublicCall) (state : ShmemState),
        ((processMachine .little noMessageMinusSix fuel collectives handler).final
            (Process.start w) history).lock = .holding state →
          ∀ calls : List DataCall,
            NeverPoisons .little noMessageMinusSix fuel collectives handler
              ((processMachine .little noMessageMinusSix fuel collectives handler).final
                (Process.start w) history)
              state calls) ∧
      ¬ ∀ (collectives : Bool) (value : String) (bytes : ℕ), parseUsize value = some bytes →
        InitReturns collectives value := by
  constructor
  · intro h
    obtain ⟨state, hlock, haccept⟩ := lone_accepts
    have hlong : isizeMax < 2 ^ 63 := by decide
    have hover : (DataCall.getmem 0 0 (2 ^ 63)).Overruns state := ⟨hlong, haccept⟩
    obtain ⟨hback, -⟩ := h Unit (accommodating 4096) () 1 true completing_accommodating [.init] state
      hlock [.getmem 0 0 (2 ^ 63)]
    have hstep := hback _ List.mem_cons_self
    rw [overrun_panics .little noMessageMinusSix 1 true hlock hover] at hstep
    exact hstep
  · intro h
    have hvalue : parseUsize "9223372036854775808" = some (2 ^ 63) := by decide
    exact not_initReturns_of_tooLarge true hvalue (by decide) (h true _ _ hvalue)

end OpenShmem
