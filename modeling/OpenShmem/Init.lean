import OpenShmem.State

/-!
# Process lifecycle

The second part of `src/init.rs`, and the functions of `src/symheap.rs` that
work on the stored heap. `init` opens a PMIx session, builds the transport and
the heap, exchanges them with the other PEs, and stores the state; every step
that fails after the session is open closes it again. `collectives` says
whether the feature of that name is compiled in.
-/

namespace OpenShmem

/-! ## Starting up -/

/-- `match m { Ok(value) => value, Err(error) => { let _ = client.disconnect(None);
return Err(error); } }` -/
def closing {α : Type} (client : PmixClient) (m : Fn α) : Fn α := do
  match ← (m.attempt : Fn (Except Error α)) with
  | .ok a => return a
  | .error e =>
    let _ ← Fn.pmix (.disconnect client)
    Fn.fail e

/-- The job size as PMIx publishes it. -/
def publishedJobSize : Fn (Option ℕ) := do
  match ← Fn.pmix .procWildcard with
  | .error _ => return none
  | .ok () =>
    match ← Fn.pmix (.getWildcardUint32 .jobSize) with
    | .error _ => return none
    | .ok value => return some value.toNat

/-- The job size: the published one, else that of `PMIX_SIZE`. -/
def jobSize : Fn (Option ℕ) := do
  match ← publishedJobSize with
  | some size => return some size
  | none =>
    let var ← Fn.sys (.envVar "PMIX_SIZE")
    return var.bind parseUsize

/-- What `init` does with the open session, up to storing the state. -/
def bringUp (client : PmixClient) : Fn ShmemState := do
  match ← Fn.pmix (.requireRank client) with
  | none => Fn.panic
  | some rank =>
    let transport ← closing client (UcxTransport.new 1)
    let heap ← closing client SymHeap.new
    let reported ← jobSize
    let size ← closing client (Fn.okOr reported
      (.internal "PMIx job size unavailable and PMIX_SIZE is not set to a valid value"))
    let bootstrap ← closing client (handshake transport heap size)
    return {
      peers := bootstrap.peers
      heap := heap
      transport := transport
      collectives := none
      client := client
      rank := rank.toNat
      size := size
      peerRkeys := bootstrap.peerRkeys }

/-- `init` up to storing the state. -/
def connect : Fn ShmemState := do
  let connected ← Fn.pmix .connectNew
  let client ← Fn.orErr connected Error.ofPmixError
  bringUp client

/-- The last block of `init`: the result and what is then stored. -/
def installCollectives (state : ShmemState) : Fn (Outcome Error Unit × Option ShmemState) := do
  match ← ((Runtime.new state.client state.rank state.size).reify :
      Fn (Outcome Error Runtime)) with
  | .ok runtime => return (.ok (), some { state with collectives := some runtime })
  | .err e =>
    let _ ← Fn.pmix (.disconnect state.client)
    return (.err e, none)
  | .panic => return (.panic, some state)
  | .pending => return (.pending, some state)

/-- `init`: the result and the lock it leaves. -/
def init (collectives : Bool) (l : Lock) : Fn (Outcome Error Unit × Lock) :=
  match lockState l with
  | .ok none => do
    match ← (connect.reify : Fn (Outcome Error ShmemState)) with
    | .ok state =>
      if collectives then
        let (o, stored) ← installCollectives state
        return (o, l.release stored o)
      else
        let o : Outcome Error Unit := .ok ()
        return (o, l.release (some state) o)
    | .err e =>
      let o : Outcome Error Unit := .err e
      return (o, l.release none o)
    | .panic =>
      let o : Outcome Error Unit := .panic
      return (o, l.release none o)
    | .pending =>
      let o : Outcome Error Unit := .pending
      return (o, l.release none o)
  | .ok (some _) => return (.err .alreadyInitialized, l)
  | .err e => return (.err e, l)
  | .panic => return (.panic, l)
  | .pending => return (.pending, l)

/-! ## The stored state -/

/-- This process's PE rank. -/
def myPe (l : Lock) : Outcome Error ℕ := do
  let state ← lockState l
  .okOr (state.map ShmemState.rank) .notInitialized

/-- The number of PEs in the job. -/
def nPes (l : Lock) : Outcome Error ℕ := do
  let state ← lockState l
  .okOr (state.map ShmemState.size) .notInitialized

/-- `symheap::malloc`. -/
def malloc (l : Lock) (size : ℕ) : Outcome Error SymPtr × Lock :=
  withStateMut l fun state =>
    let p := state.heap.malloc size
    (p.1, { state with heap := p.2 })

/-- `symheap::free`. -/
def free (l : Lock) (ptr : SymPtr) : Outcome Error Unit × Lock :=
  withStateMut l fun state =>
    let p := state.heap.free ptr
    (p.1, { state with heap := p.2 })

/-- `symheap::heap_base`. -/
def heapBase (l : Lock) : Fn ℕ := withState l fun state => return state.heap.localBase

/-! ## Shutting down -/

/-- Finalize the PMIx session. The state is taken before the disconnect is
asked for, so it is gone also when that fails. -/
def finalize (l : Lock) : Fn (Outcome Error Unit × Lock) :=
  match lockState l with
  | .ok none => return (.ok (), l)
  | .ok (some state) => do
    let answer ← Fn.pmix (.disconnect state.client)
    let o : Outcome Error Unit := .mapErr answer Error.pmixError
    return (o, l.release none o)
  | .err e => return (.err e, l)
  | .panic => return (.panic, l)
  | .pending => return (.pending, l)

end OpenShmem
