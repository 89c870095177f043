import OpenShmem.Machine
import OpenShmem.Plain

/-!
# The lifecycle protocol

A process makes public calls one after the other; PMIx, UCX, UCC and the
environment answer as they like. `processMachine` runs the calls and keeps the
record of sessions opened and closed. The protocol is an invariant of its runs
(`Sound`) and a law of each step (`StepLaw`), and both follow from what one call
does to a lock that nobody has poisoned.
-/

namespace OpenShmem

/-! ## Public calls -/

/-- A call that works on the stored state. -/
inductive Operation : Type where
  | myPe
  | nPes
  | heapBase
  | malloc (size : ℕ)
  | free (ptr : SymPtr)
  | rma (req : RmaRequest)
  | fence
  | quiet
  | quietPe (pe : ℕ)
  | quietAll
  | barrier
  | broadcast (T : Pod) (root : ℕ) (values : List T.Value)
  | collect (T : Pod) (values : List T.Value)
  | reduce (T : Pod) (reduction : UccReductionOp) (values : List T.Value)
  | post (call : NbCall)

/-- Any public call. The last four do not look at the stored state. -/
inductive PublicCall : Type where
  | init
  | finalize
  | operation (op : Operation)
  | onRequest (req : CollectiveRequest) (call : RequestCall)
  | transport (estimatedNumEps : ℕ)
  | heap (size : ℕ)
  | handshake (own : UcxTransport) (symHeap : SymHeap) (size : ℕ)

/-- `Ok(_)` for `Ok(a)`. -/
def Outcome.void {ε α : Type} (o : Outcome ε α) : Outcome ε Unit := o >>= fun _ => .ok ()

section Exec

variable (ne : Endian) (nm : NoMessage) (fuel : ℕ)

/-- A call that only reads the stored state: its result and the lock it leaves,
poisoned if it panics. -/
def reading {α : Type} (l : Lock) (m : Fn α) : Fn (Outcome Error Unit × Lock) := do
  let o ← (m.reify : Fn (Outcome Error α))
  return (o.void, l.release l.state o)

/-- The checks an operation makes of its arguments before it asks for the
state. -/
def Operation.checks : Operation → Outcome Error Unit
  | rma (.put T _ src _) => (T.podAsBytes ne src).void
  | rma (.get T _ _ lenElems) =>
    (Outcome.okOr (checkedMul 64 lenElems T.size) (.usage "typed RMA length overflow")).void
  | broadcast T _ values | post (.broadcast T _ values) =>
    if values.isEmpty then .err (.usage "collective buffer must be non-empty")
    else (encode ne T values).void
  | collect _ values | post (.collect _ values) =>
    if values.isEmpty then .err (.usage "collective contribution must be non-empty") else .ok ()
  | reduce T reduction values =>
    if !T.reductionSupported reduction then
      .err (.usage "reduction operation is not supported for this POD type")
    else (encode ne T values).void
  | post (.reduce T reduction values) =>
    if values.isEmpty then .err (.usage "collective buffer must be non-empty")
    else if !T.reductionSupported reduction then
      .err (.usage "reduction operation is not supported for this POD type")
    else (encode ne T values).void
  | _ => .ok ()

/-- The call goes through `with_state`, `with_state_mut`, `my_pe` or `n_pes`:
none of its checks sends it back before. -/
def Operation.ReachesState (op : Operation) : Prop := op.checks ne = .ok ()

/-- The call, its value dropped. -/
def Operation.exec (l : Lock) : Operation → Fn (Outcome Error Unit × Lock)
  | myPe => reading l (Fn.lift (OpenShmem.myPe l))
  | nPes => reading l (Fn.lift (OpenShmem.nPes l))
  | heapBase => reading l (OpenShmem.heapBase l)
  | malloc size =>
    let p := OpenShmem.malloc l size
    return (p.1.void, p.2)
  | free ptr =>
    let p := OpenShmem.free l ptr
    return (p.1.void, p.2)
  | rma req => reading l (req.exec ne fuel l)
  | fence => reading l (OpenShmem.fence l)
  | quiet => reading l (OpenShmem.quiet fuel l)
  | quietPe pe => reading l (OpenShmem.quietPe fuel l pe)
  | quietAll => reading l (OpenShmem.quietAll fuel l)
  | barrier => reading l (OpenShmem.barrier nm fuel l)
  | broadcast T root values =>
    reading l (OpenShmem.broadcast ne nm fuel l T root values >>= fun p => Fn.lift p.1)
  | collect T values => reading l (OpenShmem.collect ne nm fuel l T values)
  | reduce T reduction values =>
    reading l (OpenShmem.reduce ne nm fuel l T reduction values >>= fun p => Fn.lift p.1)
  | post call => reading l (call.post ne l)

/-- A method of a request, its value dropped. -/
def onRequest (req : CollectiveRequest) : RequestCall → Fn Unit
  | .test => do
    let (o, _) ← req.test ne nm
    Fn.lift o.void
  | .wait fuel => do
    let (o, _) ← req.wait ne nm fuel
    Fn.lift o
  | .result T => Fn.lift (req.result ne T).void

/-- A call that does not look at the stored state: its result, next to the
lock as it was. -/
def apart {α : Type} (l : Lock) (m : Fn α) : Fn (Outcome Error Unit × Lock) := do
  let o ← (m.reify : Fn (Outcome Error α))
  return (o.void, l)

/-- The call, its value dropped, and the lock it leaves. -/
def PublicCall.exec (collectives : Bool) (l : Lock) : PublicCall → Fn (Outcome Error Unit × Lock)
  | init => OpenShmem.init collectives l
  | finalize => OpenShmem.finalize l
  | operation op => op.exec ne nm fuel l
  | onRequest req call => apart l (OpenShmem.onRequest ne nm req call)
  | transport estimatedNumEps => apart l (UcxTransport.new estimatedNumEps)
  | heap size => apart l (SymHeap.withSize size)
  | handshake own symHeap size => apart l (OpenShmem.handshake own symHeap size)

end Exec

/-! ## The process -/

/-- A process between two calls. -/
structure Process (W : Type) : Type where
  lock : Lock
  world : W
  /-- the sessions opened and closed so far, oldest first -/
  sessions : List SessionEvent

namespace Process

variable {W : Type}

/-- The process before its first call. -/
def start (w : W) : Process W := ⟨.initial, w, []⟩

/-- What a call leaves. -/
def after (p : Process W) :
    Outcome Error (Outcome Error Unit × Lock) × W × List SessionEvent →
      Outcome Error Unit × Process W
  | (.ok (o, lock), w, sessions) => (o, ⟨lock, w, sessions⟩)
  | (.err e, w, sessions) => (.err e, ⟨p.lock, w, sessions⟩)
  | (.panic, w, sessions) => (.panic, ⟨p.lock, w, sessions⟩)
  | (.pending, w, sessions) => (.pending, ⟨p.lock, w, sessions⟩)

end Process

/-- A process making public calls, in an environment that answers as `handler`
does. -/
def processMachine (ne : Endian) (nm : NoMessage) (fuel : ℕ) (collectives : Bool) {W : Type}
    (handler : Prog.Handler Ext W) : Machine (Process W) PublicCall (Outcome Error Unit) where
  step p c := p.after ((c.exec ne nm fuel collectives p.lock).run (handler.noting sessionNote)
    (p.world, p.sessions))

/-! ## The protocol -/

/-- The open session, if there is one. `none` when an event comes out of order:
a second session is opened, or one is closed that is not open. -/
def sessionStep : Option PmixClient → SessionEvent → Option (Option PmixClient)
  | none, .opened client => some (some client)
  | some current, .closed client => if client = current then some none else none
  | _, _ => none

/-- The open session after these events. -/
def openSession (events : List SessionEvent) : Option (Option PmixClient) :=
  events.foldlM sessionStep none

/-- Whether a state is stored after this call. -/
def storedStep (stored : Bool) : PublicCall × Outcome Error Unit → Bool
  | (.init, .ok ()) => true
  | (.finalize, _) => false
  | _ => stored

/-- A state is stored from an `init` that returned `Ok` to the next `finalize`. -/
def storedAfter (history : List (PublicCall × Outcome Error Unit)) : Bool :=
  history.foldl storedStep false

/-- The law of one call `c` that took the process from `p` to `p'` with the
result `o`. -/
structure StepLaw (ne : Endian) (collectives : Bool) {W : Type} (c : PublicCall) (p : Process W)
    (o : Outcome Error Unit) (p' : Process W) : Prop where
  /-- exactly a second `init` is refused -/
  already : o = .err .alreadyInitialized ↔ c = .init ∧ p.lock.state.isSome
  /-- and then nothing happens -/
  unchanged : o = .err .alreadyInitialized → p'.lock = p.lock ∧ p'.sessions = p.sessions
  /-- exactly a call that finds no state says so -/
  absent : o = .err .notInitialized ↔
    p.lock.state = none ∧ ∃ op, c = .operation op ∧ op.ReachesState ne
  /-- `init` comes back -/
  initReturns : c = .init → o.Returned
  /-- an `init` that succeeds stores the state of the session it opened -/
  initSucceeds : c = .init → o = .ok () →
    ∃ state, p'.lock.state = some state ∧ p'.sessions = p.sessions ++ [.opened state.client]
  /-- an `init` that fails stores nothing and closes what it opened -/
  initFails : c = .init → ∀ e, o = .err e → e ≠ .alreadyInitialized →
    p'.lock.state = none ∧ (p'.sessions = p.sessions ∨
      ∃ client, p'.sessions = p.sessions ++ [.opened client, .closed client])
  /-- `finalize` closes the stored session, if there is one -/
  finalizes : c = .finalize → p'.lock.state = none ∧
    p'.sessions = p.sessions ++ (p.lock.state.map fun s => SessionEvent.closed s.client).toList
  /-- every other call leaves sessions alone, and of the state all but the heap -/
  others : c ≠ .init → c ≠ .finalize → p'.sessions = p.sessions ∧
    ∃ heap : ShmemState → SymHeap,
      p'.lock.state = p.lock.state.map fun s => { s with heap := heap s }
  /-- with the feature, the UCC runtime is never missing -/
  present : collectives = true → o ≠ .err .missingCollectives

/-! ## What one call can do -/

/-- Everything a call that does not panic can do to an unpoisoned lock: the
state it finds, its result, what happens to sessions, and the state it leaves. -/
inductive Effect (ne : Endian) (collectives : Bool) :
    PublicCall → Option ShmemState → Outcome Error Unit → List SessionEvent →
      Option ShmemState → Prop where
  /-- `init` with a state stored -/
  | again (state : ShmemState) :
    Effect ne collectives .init (some state) (.err .alreadyInitialized) [] (some state)
  /-- `connect_new` failed -/
  | refused {e : Error} (he : ¬ e.Lifecycle) :
    Effect ne collectives .init none (.err e) [] none
  /-- a later step of `init` failed -/
  | failed (client : PmixClient) {e : Error} (he : ¬ e.Lifecycle) :
    Effect ne collectives .init none (.err e) [.opened client, .closed client] none
  /-- `init` went through -/
  | stored (state : ShmemState) (hruntime : collectives = true → state.collectives.isSome) :
    Effect ne collectives .init none (.ok ()) [.opened state.client] (some state)
  /-- `finalize` with nothing stored -/
  | idle : Effect ne collectives .finalize none (.ok ()) [] none
  /-- `finalize` took the state -/
  | taken (state : ShmemState) {o : Outcome Error Unit} (ho : Admits ⟨False, False⟩ o) :
    Effect ne collectives .finalize (some state) o [.closed state.client] none
  /-- an operation with nothing stored -/
  | early (op : Operation) :
    Effect ne collectives (.operation op) none (op.checks ne >>= fun _ => .err .notInitialized) []
      none
  /-- an operation on the stored state -/
  | worked (op : Operation) (state : ShmemState) (heap : SymHeap) {o : Outcome Error Unit}
    (ho : Admits ⟨state.collectives = none, True⟩ o) :
    Effect ne collectives (.operation op) (some state) o [] (some { state with heap })
  /-- a call that does not look at the state -/
  | aside {c : PublicCall} (state : Option ShmemState) {o : Outcome Error Unit}
    (hc : c ≠ .init ∧ c ≠ .finalize ∧ ∀ op, c ≠ .operation op) (ho : Admits ⟨False, True⟩ o) :
    Effect ne collectives c state o [] state

section Effects

variable {ne : Endian} {nm : NoMessage} {fuel : ℕ} {collectives : Bool}

/-- What is to be shown of the tree of a call. -/
def Does (ne : Endian) (collectives : Bool) (c : PublicCall) (found : Option ShmemState)
    (m : Fn (Outcome Error Unit × Lock)) : Prop :=
  m.Leaves sessionNote fun r t => ∃ o l, r = .ok (o, l) ∧
    (o ≠ .panic → l.poisoned = false ∧ Effect ne collectives c found o t l.state)

theorem release_of_ne_panic {α : Type} {l : Lock} {state : Option ShmemState} {o : Outcome Error α}
    (ho : o ≠ .panic) : l.release state o = ⟨l.poisoned, state⟩ := by
  cases o <;> simp_all [Lock.release]

theorem void_ne_panic {α : Type} {o : Outcome Error α} (h : o.void ≠ .panic) : o ≠ .panic := by
  rintro rfl
  exact h rfl

theorem admits_void {α : Type} {g : Leeway} {o : Outcome Error α} (h : Admits g o) :
    Admits g o.void :=
  .bind h fun _ => .ok _

/-! ### Operations -/

/-- With nothing stored an operation makes its checks and goes no further. -/
theorem operation_initial (op : Operation) :
    op.exec ne nm fuel .initial =
      let r := op.checks ne >>= fun _ => .err .notInitialized
      pure (r, Lock.release .initial none r) := by
  cases op with
  | rma req =>
    cases req with
    | put T pe src offset =>
      simp only [Operation.exec, RmaRequest.exec, put, Operation.checks]
      -- the bytes are encoded before the lock is asked
      cases T.podAsBytes ne src <;> rfl
    | get T pe offset lenElems =>
      simp only [Operation.exec, RmaRequest.exec, get, Operation.checks]
      cases checkedMul 64 lenElems T.size <;> rfl
    | putmem _ _ _ => rfl
    | getmem _ _ _ => rfl
    | atomicOp _ _ _ _ => rfl
    | atomicFetch _ _ _ _ => rfl
  | broadcast T root values =>
    simp only [Operation.exec, broadcast, Operation.checks]
    split
    · rfl
    · cases encode ne T values <;> rfl
  | collect T values =>
    simp only [Operation.exec, collect, Operation.checks]
    split <;> rfl
  | reduce T reduction values =>
    simp only [Operation.exec, reduce, Operation.checks]
    split
    · rfl
    · cases encode ne T values <;> rfl
  | post call =>
    cases call with
    | barrier => rfl
    | broadcast T root values =>
      simp only [Operation.exec, NbCall.post, broadcastNb, Operation.checks]
      split
      · rfl
      · cases encode ne T values <;> rfl
    | collect T values =>
      simp only [Operation.exec, NbCall.post, collectNb, Operation.checks]
      split <;> rfl
    | reduce T reduction values =>
      simp only [Operation.exec, NbCall.post, reduceNb, Operation.checks]
      split
      · rfl
      · split
        · rfl
        · cases encode ne T values <;> rfl
  | _ => rfl

/-- The stored state apart from its heap, next to the result of an operation. -/
theorem does_reading {α : Type} (op : Operation) (state : ShmemState) {m : Fn α}
    (hm : Plain ⟨state.collectives = none, True⟩ m) :
    Does ne collectives (.operation op) (some state) (reading (.holding state) m) := by
  refine Prog.Sat.leaves_reify_bind hm fun o ho => ?_
  refine ⟨o.void, _, rfl, fun hcalm => ?_⟩
  rw [release_of_ne_panic (void_ne_panic hcalm)]
  exact ⟨rfl, .worked op state state.heap (admits_void ho)⟩

/-- An operation that changes the stored heap. -/
theorem does_withStateMut {α : Type} (op : Operation) (state : ShmemState)
    {operation : ShmemState → Outcome Error α × SymHeap}
    (ho : Admits ⟨state.collectives = none, True⟩ (operation state).1) :
    Does ne collectives (.operation op) (some state)
      (let p := withStateMut (.holding state) fun s =>
        ((operation s).1, { s with heap := (operation s).2 })
       pure (p.1.void, p.2)) := by
  refine ⟨_, _, rfl, fun hcalm => ?_⟩
  have hne : (operation state).1 ≠ .panic := void_ne_panic hcalm
  refine ⟨?_, ?_⟩
  · exact congrArg Lock.poisoned (release_of_ne_panic hne)
  · rw [show (withStateMut (.holding state) fun s =>
        ((operation s).1, { s with heap := (operation s).2 })).2.state = some _ from rfl]
    exact .worked op state _ (admits_void ho)

theorem does_operation (op : Operation) (state : ShmemState) :
    Does ne collectives (.operation op) (some state) (op.exec ne nm fuel (.holding state)) := by
  cases op with
  | myPe => exact does_reading _ state (.pure state.rank)
  | nPes => exact does_reading _ state (.pure state.size)
  | heapBase => exact does_reading _ state (.pure state.heap.localBase)
  | malloc size => exact does_withStateMut _ state (admits_malloc state.heap size)
  | free ptr => exact does_withStateMut _ state (admits_free state.heap ptr)
  | rma req => exact does_reading _ state (plain_rma ne req)
  | fence => exact does_reading _ state plain_fence
  | quiet => exact does_reading _ state plain_quiet
  | quietPe pe => exact does_reading _ state (plain_quietPe pe)
  | quietAll => exact does_reading _ state plain_quiet
  | barrier => exact does_reading _ state plain_barrier
  | broadcast T root values => exact does_reading _ state <|
    (plainPair_broadcast root values).plain fun _ hp => .lift hp
  | collect T values => exact does_reading _ state (plain_collect values)
  | reduce T reduction values =>
    exact does_reading _ state <|
      (plainPair_reduce reduction values).plain fun _ hp => .lift hp
  | post call => exact does_reading _ state (plain_nbCall call)

/-! ### Starting up -/

/-- What `bringUp` may end with, and what it then has left on record. -/
def BroughtUp (client : PmixClient) : Outcome Error ShmemState → List SessionEvent → Prop
  | .ok state, t => state.client = client ∧ t = []
  | .err e, t => ¬ e.Lifecycle ∧ t = [.closed client]
  | .panic, _ => True
  | .pending, _ => False

/-- A step of `init` with its clean-up: on failure the session is closed. -/
theorem closing_leaves {α : Type} {client : PmixClient} {m : Fn α} {f : α → Fn ShmemState}
    (hm : Plain ⟨False, False⟩ m) (hf : ∀ a, (f a).Leaves sessionNote (BroughtUp client)) :
    (closing client m >>= f).Leaves sessionNote (BroughtUp client) := by
  rw [closing, Prog.bind_assoc]
  refine Prog.Sat.leaves_attempt_bind hm hf (fun e he => ?_) trivial fun h => h.not_pending
  exact fun _ => ⟨he.not_lifecycle, rfl⟩

theorem bringUp_leaves (client : PmixClient) :
    (bringUp client).Leaves sessionNote (BroughtUp client) := by
  refine Prog.Leaves.silent (fun _ => rfl) fun rank => ?_
  cases rank with
  | none => exact trivial
  | some rank =>
    refine closing_leaves (plain_transport 1) fun transport => ?_
    refine closing_leaves plain_heap fun heap => ?_
    refine Prog.Sat.leaves_bind jobSize_silent fun reported => ?_
    refine closing_leaves (.okOr (by simp)) fun size => ?_
    exact closing_leaves (plain_handshake _ _ _) fun bootstrap => ⟨rfl, rfl⟩

/-- What `connect` may end with. -/
def ConnectEnds : Outcome Error ShmemState → List SessionEvent → Prop
  | .ok state, t => t = [.opened state.client]
  | .err e, t => ¬ e.Lifecycle ∧ (t = [] ∨ ∃ client, t = [.opened client, .closed client])
  | .panic, _ => True
  | .pending, _ => False

theorem connect_leaves : connect.Leaves sessionNote ConnectEnds := by
  intro connected
  cases connected with
  | error e => exact ⟨by simp, Or.inl rfl⟩
  | ok client =>
    refine (bringUp_leaves client).mono ?_
    rintro (state | e | _ | _) t h
    · obtain ⟨hclient, rfl⟩ := h
      exact congrArg (fun c => [SessionEvent.opened c]) hclient.symm
    · obtain ⟨he, rfl⟩ := h
      exact ⟨he, Or.inr ⟨client, rfl⟩⟩
    · exact trivial
    · exact h

/-- The last block of `init`, after a session was opened. -/
theorem installCollectives_leaves (ne : Endian) (state : ShmemState) :
    (installCollectives state).Leaves sessionNote fun r t => ∃ o kept, r = .ok (o, kept) ∧
      (o ≠ .panic → Effect ne true .init none o (.opened state.client :: t) kept) := by
  refine Prog.Sat.leaves_reify_bind (plain_runtime (g := ⟨False, False⟩) _ _ _) fun o ho => ?_
  cases o with
  | ok runtime => exact ⟨_, _, rfl, fun _ => .stored { state with collectives := some runtime } fun _ => rfl⟩
  | err e => exact fun _ => ⟨_, _, rfl, fun _ => .failed state.client ho.not_lifecycle⟩
  | panic => exact ⟨_, _, rfl, fun h => absurd rfl h⟩
  | pending => exact ho.not_pending.elim

theorem does_init : Does ne collectives .init none (init collectives .initial) := by
  refine Prog.Leaves.bind (Prog.Leaves.mono connect_leaves.reify ?_)
  rintro _ t ⟨o, rfl, ho⟩
  cases o with
  | ok state =>
    obtain rfl : t = [.opened state.client] := ho
    cases collectives with
    | true =>
      refine Prog.Leaves.bind (Prog.Leaves.mono (installCollectives_leaves ne state) ?_)
      rintro _ t ⟨o, kept, rfl, heffect⟩
      refine ⟨o, _, rfl, fun hcalm => ?_⟩
      rw [release_of_ne_panic hcalm, List.append_nil]
      exact ⟨rfl, heffect hcalm⟩
    | false => exact ⟨_, _, rfl, fun _ => ⟨rfl, .stored state fun h => by cases h⟩⟩
  | err e =>
    obtain ⟨he, rfl | ⟨client, rfl⟩⟩ := ho
    · exact ⟨_, _, rfl, fun _ => ⟨rfl, .refused he⟩⟩
    · exact ⟨_, _, rfl, fun _ => ⟨rfl, .failed client he⟩⟩
  | panic => exact ⟨_, _, rfl, fun h => absurd rfl h⟩
  | pending => exact ho.elim

theorem does_finalize (state : ShmemState) :
    Does ne collectives .finalize (some state) (finalize (.holding state)) := by
  intro answer
  have hadmits : Admits ⟨False, False⟩ (.mapErr answer Error.pmixError : Outcome Error Unit) :=
    .mapErr (by simp)
  refine ⟨_, _, rfl, fun hcalm => ?_⟩
  rw [release_of_ne_panic hcalm]
  exact ⟨rfl, .taken state hadmits⟩

/-! ### Calls that do not look at the state -/

theorem does_apart {α : Type} {c : PublicCall} {l : Lock} {m : Fn α} (hl : l.poisoned = false)
    (hc : c ≠ .init ∧ c ≠ .finalize ∧ ∀ op, c ≠ .operation op) (hm : Plain ⟨False, True⟩ m) :
    Does ne collectives c l.state (apart l m) :=
  Prog.Sat.leaves_reify_bind hm fun o ho =>
    ⟨o.void, l, rfl, fun _ => ⟨hl, .aside l.state hc (admits_void ho)⟩⟩

theorem plain_onRequest (req : CollectiveRequest) (call : RequestCall) :
    Plain ⟨False, True⟩ (onRequest ne nm req call) := by
  cases call with
  | test => exact (plainPair_test req).plain fun _ hp => .lift (admits_void hp)
  | wait fuel => exact (plainPair_wait fuel req).plain fun _ hp => .lift hp
  | result T => exact .lift (admits_void (admits_result req))

/-- **One call.** From an unpoisoned lock every call that does not panic leaves
an unpoisoned lock and does one of the things `Effect` lists. -/
theorem does_exec {l : Lock} (hl : l.poisoned = false) (c : PublicCall) :
    Does ne collectives c l.state (c.exec ne nm fuel collectives l) := by
  obtain ⟨poisoned, found⟩ := l
  obtain rfl : poisoned = false := hl
  cases c with
  | init =>
    cases found with
    | none => exact does_init
    | some state => exact ⟨_, _, rfl, fun _ => ⟨rfl, .again state⟩⟩
  | finalize =>
    cases found with
    | none => exact ⟨_, _, rfl, fun _ => ⟨rfl, .idle⟩⟩
    | some state => exact does_finalize state
  | operation op =>
    cases found with
    | none =>
      rw [PublicCall.exec, show (⟨false, none⟩ : Lock) = .initial from rfl, operation_initial]
      refine ⟨_, _, rfl, fun hcalm => ?_⟩
      rw [release_of_ne_panic hcalm]
      exact ⟨rfl, .early op⟩
    | some state => exact does_operation op state
  | onRequest req call =>
    exact does_apart rfl ⟨by simp, by simp, by simp⟩ (plain_onRequest req call)
  | transport n => exact does_apart rfl ⟨by simp, by simp, by simp⟩ (plain_transport n)
  | heap size => exact does_apart rfl ⟨by simp, by simp, by simp⟩ (plain_withSize size)
  | handshake own symHeap size =>
    exact does_apart rfl ⟨by simp, by simp, by simp⟩ (plain_handshake own symHeap size)

end Effects

/-! ## What follows from an effect -/

section Laws

variable {ne : Endian} {collectives : Bool} {c : PublicCall} {found left : Option ShmemState}
  {o : Outcome Error Unit} {t : List SessionEvent}

theorem openSession_append (events t : List SessionEvent) :
    openSession (events ++ t) = openSession events >>= fun current => t.foldlM sessionStep current :=
  List.foldlM_append

theorem Effect.openSession (h : Effect ne collectives c found o t left) {events : List SessionEvent}
    (hevents : openSession events = some (found.map ShmemState.client)) :
    OpenShmem.openSession (events ++ t) = some (left.map ShmemState.client) := by
  rw [openSession_append, hevents]
  cases h with
  | taken state ho => simp [sessionStep]
  | failed client he => simp [sessionStep]
  | _ => rfl

theorem Effect.stored_eq (h : Effect ne collectives c found o t left) :
    left.isSome = storedStep found.isSome (c, o) := by
  cases h with
  | aside found hc ho =>
    obtain ⟨hinit, hfinalize, -⟩ := hc
    cases c with
    | init => exact absurd rfl hinit
    | finalize => exact absurd rfl hfinalize
    | _ => rfl
  | _ => rfl

theorem Effect.runtime (h : Effect ne collectives c found o t left)
    (hfound : collectives = true → ∀ state ∈ found, state.collectives.isSome) :
    collectives = true → ∀ state ∈ left, state.collectives.isSome := by
  cases h with
  | again state => exact hfound
  | refused he => simp
  | failed client he => simp
  | stored state hruntime =>
    rintro hc _ ⟨⟩
    exact hruntime hc
  | idle => simp
  | taken state ho => simp
  | early op => simp
  | worked op state heap ho =>
    rintro hc _ ⟨⟩
    exact hfound hc state rfl
  | aside _ hc ho => exact hfound

theorem admits_checks (op : Operation) : Admits ⟨False, True⟩ (op.checks ne) := by
  rw [Operation.checks.eq_def]
  split
  · exact admits_void (admits_podAsBytes ne _)
  · exact admits_void (.okOr (by simp))
  · split
    · exact .err (by simp)
    · exact admits_void (admits_encode _)
  · split
    · exact .err (by simp)
    · exact admits_void (admits_encode _)
  · split
    · exact .err (by simp)
    · exact .ok _
  · split
    · exact .err (by simp)
    · exact .ok _
  · split
    · exact .err (by simp)
    · exact admits_void (admits_encode _)
  · split
    · exact .err (by simp)
    · split
      · exact .err (by simp)
      · exact admits_void (admits_encode _)
  · exact .ok _

/-- The result of an operation that finds nothing stored. -/
theorem early_cases (ne : Endian) (op : Operation) :
    (op.ReachesState ne ∧
      (op.checks ne >>= fun _ => .err .notInitialized : Outcome Error Unit) =
        .err .notInitialized) ∨
    (¬ op.ReachesState ne ∧ Admits ⟨False, True⟩
      (op.checks ne >>= fun _ => .err .notInitialized : Outcome Error Unit)) := by
  have hchecks : Admits ⟨False, True⟩ (op.checks ne) := admits_checks op
  rw [Operation.ReachesState]
  cases h : op.checks ne with
  | ok _ => exact Or.inl ⟨rfl, rfl⟩
  | err e =>
    rw [h] at hchecks
    exact Or.inr ⟨by simp, hchecks⟩
  | panic => exact Or.inr ⟨by simp, .panic⟩
  | pending => exact Or.inr ⟨by simp, .pending⟩

/-- An effect other than a second `init` or a call that finds no state has a
result that does not concern the lifecycle, but for the missing UCC runtime. -/
theorem Effect.result (h : Effect ne collectives c found o t left) :
    (c = .init ∧ found.isSome ∧ o = .err .alreadyInitialized ∧ t = [] ∧ left = found) ∨
    (found = none ∧ (∃ op, c = .operation op ∧ op.ReachesState ne) ∧ o = .err .notInitialized) ∨
    (¬ (c = .init ∧ found.isSome) ∧
      ¬ (found = none ∧ ∃ op, c = .operation op ∧ op.ReachesState ne) ∧
      Admits ⟨∃ state ∈ found, state.collectives = none, True⟩ o) := by
  cases h with
  | again state => exact Or.inl ⟨rfl, rfl, rfl, rfl, rfl⟩
  | refused he => exact Or.inr (Or.inr ⟨by simp, by simp, .err he⟩)
  | failed client he => exact Or.inr (Or.inr ⟨by simp, by simp, .err he⟩)
  | stored state hruntime => exact Or.inr (Or.inr ⟨by simp, by simp, .ok _⟩)
  | idle => exact Or.inr (Or.inr ⟨by simp, by simp, .ok _⟩)
  | taken state ho =>
    exact Or.inr (Or.inr ⟨by simp, by simp, ho.mono (fun h => h.elim) fun h => h.elim⟩)
  | early op =>
    obtain ⟨hreaches, ho⟩ | ⟨hreaches, ho⟩ := early_cases ne op
    · exact Or.inr (Or.inl ⟨rfl, ⟨op, rfl, hreaches⟩, ho⟩)
    · refine Or.inr (Or.inr ⟨by simp, ?_, ho.mono (fun h => h.elim) id⟩)
      rintro ⟨-, op', hop, hreaches'⟩
      cases hop
      exact hreaches hreaches'
  | worked op state heap ho =>
    exact Or.inr (Or.inr ⟨by simp, by simp, ho.mono (fun h => ⟨state, rfl, h⟩) id⟩)
  | aside _ hc ho =>
    obtain ⟨hinit, -, hop⟩ := hc
    refine Or.inr (Or.inr ⟨fun h => hinit h.1, ?_, ho.mono (fun h => h.elim) id⟩)
    rintro ⟨-, op, rfl, -⟩
    exact hop op rfl

theorem Effect.init_cases (h : Effect ne collectives .init found o t left) :
    (o = .err .alreadyInitialized) ∨
    (∃ state, o = .ok () ∧ left = some state ∧ t = [.opened state.client]) ∨
    (∃ e, o = .err e ∧ left = none ∧ (t = [] ∨ ∃ client, t = [.opened client, .closed client])) := by
  cases h with
  | again state => exact Or.inl rfl
  | refused he => exact Or.inr (Or.inr ⟨_, rfl, rfl, Or.inl rfl⟩)
  | failed client he => exact Or.inr (Or.inr ⟨_, rfl, rfl, Or.inr ⟨client, rfl⟩⟩)
  | stored state hruntime => exact Or.inr (Or.inl ⟨state, rfl, rfl, rfl⟩)
  | aside _ hc ho => exact absurd rfl hc.1

theorem Effect.finalize_eq (h : Effect ne collectives .finalize found o t left) :
    left = none ∧ t = (found.map fun s => SessionEvent.closed s.client).toList := by
  cases h with
  | idle => exact ⟨rfl, rfl⟩
  | taken state ho => exact ⟨rfl, rfl⟩
  | aside _ hc ho => exact absurd rfl hc.2.1

theorem Effect.other_eq (h : Effect ne collectives c found o t left) (hinit : c ≠ .init)
    (hfinalize : c ≠ .finalize) :
    t = [] ∧ ∃ heap : ShmemState → SymHeap, left = found.map fun s => { s with heap := heap s } := by
  cases h with
  | early op => exact ⟨rfl, fun s => s.heap, rfl⟩
  | worked op state heap ho => exact ⟨rfl, fun _ => heap, rfl⟩
  | aside found hc ho => exact ⟨rfl, fun s => s.heap, by cases found <;> rfl⟩
  | idle => exact absurd rfl hfinalize
  | taken state ho => exact absurd rfl hfinalize
  | _ => exact absurd rfl hinit

variable {W : Type} {p p' : Process W}

/-- The law of a step follows from its effect. -/
theorem Effect.stepLaw (h : Effect ne collectives c p.lock.state o t p'.lock.state)
    (hlock : p'.lock.poisoned = p.lock.poisoned) (ht : p'.sessions = p.sessions ++ t)
    (hruntime : collectives = true → ∀ state ∈ p.lock.state, state.collectives.isSome) :
    StepLaw ne collectives c p o p' := by
  -- an effect is a refusal because of what is stored, a refusal because nothing is, or neither
  have hresult := h.result
  constructor
  case already =>
    obtain ⟨rfl, hstored, rfl, -, -⟩ | ⟨hnone, -, rfl⟩ | ⟨hnot, -, ho⟩ := hresult
    · simpa using hstored
    · simp [hnone]
    · exact ⟨fun h => absurd h ho.ne_alreadyInitialized, fun h => absurd h hnot⟩
  case unchanged =>
    intro hrefused
    obtain ⟨-, -, -, rfl, hleft⟩ | ⟨-, -, rfl⟩ | ⟨-, -, ho⟩ := hresult
    · exact ⟨congrArg₂ Lock.mk hlock hleft, ht.trans (List.append_nil _)⟩
    · cases hrefused
    · exact absurd hrefused ho.ne_alreadyInitialized
  case absent =>
    obtain ⟨rfl, hstored, rfl, -, -⟩ | ⟨hnone, hreaches, rfl⟩ | ⟨-, hnot, ho⟩ := hresult
    · simp
    · exact ⟨fun _ => ⟨hnone, hreaches⟩, fun _ => rfl⟩
    · exact ⟨fun h => absurd h ho.ne_notInitialized, fun h => absurd h hnot⟩
  case initReturns =>
    rintro rfl
    rcases h.init_cases with rfl | ⟨state, rfl, -⟩ | ⟨e, rfl, -⟩ <;> exact trivial
  case initSucceeds =>
    rintro rfl rfl
    obtain hno | ⟨state, -, hleft, rfl⟩ | ⟨e, hno, -⟩ := h.init_cases
    · cases hno
    · exact ⟨state, hleft, ht⟩
    · cases hno
  case initFails =>
    rintro rfl e rfl hother
    obtain hrefused | ⟨state, hno, -⟩ | ⟨e', -, hleft, hclosed⟩ := h.init_cases
    · exact absurd (by simpa using hrefused) hother
    · cases hno
    · obtain rfl | ⟨client, rfl⟩ := hclosed
      · exact ⟨hleft, Or.inl (ht.trans (List.append_nil _))⟩
      · exact ⟨hleft, Or.inr ⟨client, ht⟩⟩
  case finalizes =>
    rintro rfl
    obtain ⟨hleft, rfl⟩ := h.finalize_eq
    exact ⟨hleft, ht⟩
  case others =>
    intro hinit hfinalize
    obtain ⟨rfl, hleft⟩ := h.other_eq hinit hfinalize
    exact ⟨ht.trans (List.append_nil _), hleft⟩
  case present =>
    rintro hc rfl
    obtain ⟨-, -, hno, -⟩ | ⟨-, -, hno⟩ | ⟨-, -, ho⟩ := hresult
    · cases hno
    · cases hno
    · obtain ⟨state, hstate, hnone⟩ := ho.missing rfl
      simpa [hnone] using hruntime hc state hstate

end Laws

/-! ## Runs -/

section Runs

variable {ne : Endian} {nm : NoMessage} {fuel : ℕ} {collectives : Bool} {W : Type}
  {handler : Prog.Handler Ext W}

/-- What holds of a process between any two calls, if none has panicked. -/
structure Sound (collectives : Bool) (p : Process W) : Prop where
  unpoisoned : p.lock.poisoned = false
  session : openSession p.sessions = some (p.lock.state.map ShmemState.client)
  runtime : collectives = true → ∀ state ∈ p.lock.state, state.collectives.isSome

theorem Sound.start (collectives : Bool) (w : W) : Sound collectives (Process.start w) :=
  ⟨rfl, rfl, fun _ _ h => by cases h⟩

/-- A step that does not panic has an effect. -/
theorem step_effect {p : Process W} (hlock : p.lock.poisoned = false) (c : PublicCall)
    (hcalm : ((processMachine ne nm fuel collectives handler).step p c).1 ≠ .panic) :
    let r := (processMachine ne nm fuel collectives handler).step p c
    ∃ t, r.2.sessions = p.sessions ++ t ∧ r.2.lock.poisoned = false ∧
      Effect ne collectives c p.lock.state r.1 t r.2.lock.state := by
  have hdoes : Does ne collectives c p.lock.state (c.exec ne nm fuel collectives p.lock) :=
    does_exec hlock c
  obtain ⟨t, hlog, o, l, hrun, heffect⟩ := hdoes.run handler p.world p.sessions
  -- the run as a triple, so that `after` can be read off
  generalize hr : (c.exec ne nm fuel collectives p.lock).run (handler.noting sessionNote)
    (p.world, p.sessions) = r at hlog hrun
  obtain ⟨answer, w, sessions⟩ := r
  obtain rfl : answer = .ok (o, l) := hrun
  have hstep : (processMachine ne nm fuel collectives handler).step p c = (o, ⟨l, w, sessions⟩) :=
    congrArg p.after hr
  rw [hstep] at hcalm ⊢
  obtain ⟨hunpoisoned, heffect⟩ := heffect hcalm
  exact ⟨t, hlog, hunpoisoned, heffect⟩

/-- A step keeps the invariant. -/
theorem Sound.step {p : Process W} (h : Sound collectives p) (c : PublicCall)
    (hcalm : ((processMachine ne nm fuel collectives handler).step p c).1 ≠ .panic) :
    Sound collectives ((processMachine ne nm fuel collectives handler).step p c).2 := by
  obtain ⟨t, ht, hlock, heffect⟩ := step_effect h.unpoisoned c hcalm
  refine ⟨hlock, ?_, heffect.runtime h.runtime⟩
  rw [ht]
  exact heffect.openSession h.session

/-- A run without a panic keeps the invariant, and whether a state is stored at
its end is read off the calls and their results. -/
theorem Sound.run {p : Process W} (h : Sound collectives p) (calls : List PublicCall)
    (hcalm : .panic ∉ (processMachine ne nm fuel collectives handler).outputs p calls) :
    let M := processMachine ne nm fuel collectives handler
    Sound collectives (M.final p calls) ∧
      (M.final p calls).lock.state.isSome =
        (calls.zip (M.outputs p calls)).foldl storedStep p.lock.state.isSome := by
  induction calls generalizing p with
  | nil => exact ⟨h, rfl⟩
  | cons c calls ih =>
    rw [Machine.outputs_cons, List.mem_cons, not_or] at hcalm
    obtain ⟨hc, hrest⟩ := hcalm
    obtain ⟨t, -, -, heffect⟩ := step_effect h.unpoisoned c (Ne.symm hc)
    obtain ⟨hsound, hstored⟩ := ih (h.step c (Ne.symm hc)) hrest
    refine ⟨hsound, ?_⟩
    rw [Machine.final_cons, hstored, Machine.outputs_cons, List.zip_cons_cons, List.foldl_cons,
      heffect.stored_eq]

/-- **The lifecycle protocol.** Whatever calls a process makes and whatever they
are answered, as long as none panics: the sessions it opens are closed one by
one, and one is open exactly while its state is stored; a state is stored from
an `init` that returned `Ok` to the next `finalize`; with the feature a stored
state has its UCC runtime; and the next call, whatever it is, obeys the law. -/
theorem lifecycle_protocol (ne : Endian) (nm : NoMessage) (fuel : ℕ) (collectives : Bool)
    (handler : Prog.Handler Ext W) (w : W) (calls : List PublicCall)
    (hcalm : .panic ∉
      (processMachine ne nm fuel collectives handler).outputs (Process.start w) calls) :
    let M := processMachine ne nm fuel collectives handler
    let p := M.final (Process.start w) calls
    openSession p.sessions = some (p.lock.state.map ShmemState.client) ∧
      p.lock.state.isSome = storedAfter (calls.zip (M.outputs (Process.start w) calls)) ∧
      (collectives = true → ∀ state ∈ p.lock.state, state.collectives.isSome) ∧
      ∀ c, (M.step p c).1 ≠ .panic → StepLaw ne collectives c p (M.step p c).1 (M.step p c).2 := by
  obtain ⟨hsound, hstored⟩ := (Sound.start collectives w).run calls hcalm
  refine ⟨hsound.session, hstored, hsound.runtime, fun c hc => ?_⟩
  obtain ⟨t, ht, hlock, heffect⟩ := step_effect hsound.unpoisoned c hc
  exact heffect.stepLaw (hlock.trans hsound.unpoisoned.symm) ht hsound.runtime

/-- The protocol over two lives of a process, in an environment where all goes
well. -/
theorem lifecycle_protocol_instance :
    let calls := [.operation .myPe, .init, .init, .operation .nPes, .finalize, .finalize]
    let M := processMachine .little noMessageMinusSix 1 true (accommodating 4096)
    let p := M.final (Process.start ()) calls
    M.outputs (Process.start ()) calls =
        [.err .notInitialized, .ok (), .err .alreadyInitialized, .ok (), .ok (), .ok ()] ∧
      openSession p.sessions = some (p.lock.state.map ShmemState.client) := by
  refine ⟨by decide, ?_⟩
  exact (lifecycle_protocol .little noMessageMinusSix 1 true (accommodating 4096) () _
    (by decide)).1

end Runs

end OpenShmem
