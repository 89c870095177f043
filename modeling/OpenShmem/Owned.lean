import OpenShmem.Lifecycle
import OpenShmem.Raii

/-!
# Functions with their handles

The functions of `init` and `finalize` once more, with the drops that the compiler
inserts written out: locals go out of scope in the reverse of their order, the fields of a
struct in their own order, the entries of a `BTreeMap` by key. The handles are those the
source names: the UCX configuration, context and worker, the heap's region and memory
handle, an endpoint and a remote key for each peer, the UCC library, context and team, and
the box with the callback's state. A function returns its handles next to its value.

A handle is made on those it is created with, or keeps a pointer into: the worker on the
context, the memory handle on the context and the region, endpoint and remote key on the
worker, the team on its context and on the box. A remote key is unpacked with an endpoint;
whether it needs that one too is decided behind `RemoteKey::unpack`, and `keyNeedsEp` says
it here.

These are the handles that `init` makes. The requests and collectives of an operation are
its own or its caller's, and are not followed.
-/

namespace OpenShmem

open Prog (make dropAll embed orDrop within)

/-- A function of the library, with its handles. -/
abbrev OwnedFn (α : Type) : Type := Prog Ext.withHandles Error α

namespace OwnedFn

def pmix (c : PmixCall) : OwnedFn c.Reply := Prog.outer (E := Ext) (.pmix c)

def ucx (c : UcxCall) : OwnedFn c.Reply := Prog.outer (E := Ext) (.ucx c)

def ucc (c : UccCall) : OwnedFn c.Reply := Prog.outer (E := Ext) (.ucc c)

def sys (c : SysCall) : OwnedFn c.Reply := Prog.outer (E := Ext) (.sys c)

end OwnedFn

/-! ## The transport -/

/-- The handles of a transport. -/
structure TransportHandles : Type where
  worker : ℕ
  context : ℕ
  deriving DecidableEq, Repr

/-- In the order of the fields of `UcxTransport`. -/
def TransportHandles.resources (t : TransportHandles) : List Resource :=
  [⟨t.worker, [t.context]⟩, ⟨t.context, []⟩]

def UcxTransport.newOwned (estimatedNumEps : ℕ) : OwnedFn (UcxTransport × TransportHandles) := do
  let read ← OwnedFn.ucx .configRead
  orDrop read configError []
  let config ← make []
  let created ← OwnedFn.ucx (.contextNew estimatedNumEps)
  orDrop created Error.ofStatus [config]
  let context ← make []
  -- `drop(config)`
  dropAll [config]
  let created ← OwnedFn.ucx .workerCreate
  orDrop created Error.ofStatus [context]
  let worker ← make [context]
  let packed ← OwnedFn.ucx .packAddress
  let packedAddress ← orDrop packed Error.ofStatus [worker, context]
  -- `MtWorker::new` is given the worker, and drops it when it fails
  let mt ← OwnedFn.ucx .mtWorkerNew
  orDrop mt Error.ofStatus [worker, context]
  let transport : UcxTransport := {
    capabilities := { rma := true, loopback := !packedAddress.isEmpty }
    packedAddress := packedAddress }
  return (transport, ⟨worker, context⟩)

/-! ## The heap -/

/-- The handles of a heap. -/
structure HeapHandles : Type where
  memh : ℕ
  region : ℕ
  deriving DecidableEq, Repr

/-- In the order of the fields of `SymHeap`: UCX unmaps before the region is dropped. -/
def HeapHandles.resources (context : ℕ) (h : HeapHandles) : List Resource :=
  [⟨h.memh, [context, h.region]⟩, ⟨h.region, []⟩]

def SymHeap.withSizeOwned (context size : ℕ) : OwnedFn (SymHeap × HeapHandles) := do
  if size < alignment then
    .done (.err (.usage "symmetric heap is too small"))
  else
    let padded ← .done (.okOr (checkedAdd 64 size (8 - 1)) (.usage "symmetric heap size overflow"))
    let words := padded / 8
    if small : words * 8 ≤ isizeMax then
      let memory ← OwnedFn.sys (.allocWords words small)
      let region ← make []
      let mapped ← OwnedFn.ucx (.memMap memory.base (words * 8))
      orDrop mapped Error.ofStatus [region]
      let memh ← make [context, region]
      let packed ← OwnedFn.ucx .packRkey
      let packedRkey ← orDrop packed Error.ofStatus [memh, region]
      return (fresh words memory packedRkey, ⟨memh, region⟩)
    else .done .panic

def SymHeap.newOwned (context : ℕ) : OwnedFn (SymHeap × HeapHandles) := do
  let var ← OwnedFn.sys (.envVar "SHMEM_SYMMETRIC_SIZE")
  withSizeOwned context ((var.bind parseUsize).getD defaultHeapSize)

/-! ## The peers -/

section Keys

variable (keyNeedsEp : Bool)

/-- The handles of a `PeerConnection`. -/
structure PeerHandles : Type where
  endpoint : ℕ
  rkey : ℕ
  deriving DecidableEq, Repr

/-- What a remote key is made on. -/
def rkeyOn (worker endpoint : ℕ) : List ℕ := if keyNeedsEp then [worker, endpoint] else [worker]

/-- In the order of the fields of `PeerConnection`. -/
def PeerHandles.resources (worker : ℕ) (p : PeerHandles) : List Resource :=
  [⟨p.endpoint, [worker]⟩, ⟨p.rkey, rkeyOn keyNeedsEp worker p.endpoint⟩]

/-- The handles of the table, by PE number. -/
abbrev TableHandles : Type := Std.ExtTreeMap ℕ PeerHandles

def TableHandles.resources (worker : ℕ) (t : TableHandles) : List Resource :=
  t.toList.flatMap fun entry => entry.2.resources keyNeedsEp worker

/-- What `BTreeMap::insert` hands back, to be dropped at once. -/
def TableHandles.replaced (worker : ℕ) (t : TableHandles) (pe : ℕ) : List Resource :=
  t[pe]?.toList.flatMap (PeerHandles.resources keyNeedsEp worker)

/-- `UcxTransport::create_endpoint`. -/
def UcxTransport.createEndpointOwned (worker : ℕ) (address : List UInt8) : OwnedFn (Ep × ℕ) := do
  let created ← OwnedFn.ucx (.createEp address)
  orDrop created Error.ofStatus []
  let endpoint ← make [worker]
  return (⟨address⟩, endpoint)

/-- One round of the peer loop, up to the insertion. -/
def connectPeerOwned (worker pe : ℕ) (b : Bootstrap) : OwnedFn (Bootstrap × PeerHandles) := do
  let peerProc ← OwnedFn.pmix (.procWithNspace pe)
  orDrop peerProc Error.ofPmixError []
  let addressValue ← OwnedFn.pmix (.getBytesCopy pe .workerAddr)
  let address ← orDrop addressValue Error.ofPmixError []
  let rkeyValue ← OwnedFn.pmix (.getBytesCopy pe .heapRkey)
  let rkeyBytes ← orDrop rkeyValue Error.ofPmixError []
  let baseValue ← OwnedFn.pmix (.getUint64 pe .heapBase)
  let heapBase ← orDrop baseValue Error.ofPmixError []
  if address.isEmpty || rkeyBytes.length < 4 || heapBase == 0 then
    .done (.err (.internal "peer published incomplete bootstrap metadata"))
  else
    let (ep, endpoint) ← UcxTransport.createEndpointOwned worker address
    let unpacked ← OwnedFn.ucx (.rkeyUnpack ep rkeyBytes)
    orDrop unpacked Error.ofStatus [endpoint]
    let rkey ← make (rkeyOn keyNeedsEp worker endpoint)
    let b : Bootstrap := {
      peerRkeys := b.peerRkeys.insert pe heapBase rkeyBytes
      peers := b.peers.insert pe ⟨ep, ⟨ep, rkeyBytes⟩, heapBase⟩ }
    return (b, ⟨endpoint, rkey⟩)

/-- The peer loop. -/
def connectPeersOwned (worker : ℕ) :
    List ℕ → Bootstrap → TableHandles → OwnedFn (Bootstrap × TableHandles)
  | [], b, table => return (b, table)
  | pe :: pes, b, table => do
    let (b, peer) ←
      within ((table.resources keyNeedsEp worker).map Resource.id)
        (connectPeerOwned keyNeedsEp worker pe b)
    dropAll ((table.replaced keyNeedsEp worker pe).map Resource.id)
    connectPeersOwned worker pes b (table.insert pe peer)

def handshakeOwned (worker : ℕ) (transport : UcxTransport) (heap : SymHeap) (size : ℕ) :
    OwnedFn (Bootstrap × TableHandles) := do
  if size = 0 then .done (.err (.usage "bootstrap job size must be nonzero"))
  else
    embed (publish transport heap)
    let wildcard ← OwnedFn.pmix .procWildcard
    orDrop wildcard Error.ofPmixError []
    let fenced ← embed pmixFence
    orDrop fenced Error.pmixError []
    connectPeersOwned keyNeedsEp worker (List.range (size % 2 ^ 32)) ⟨∅, ∅⟩ ∅

end Keys

/-! ## The UCC runtime -/

/-- The handles of a runtime. -/
structure RuntimeHandles : Type where
  team : ℕ
  context : ℕ
  lib : ℕ
  oob : ℕ
  deriving DecidableEq, Repr

/-- In the order of the fields of `Runtime`. -/
def RuntimeHandles.resources (r : RuntimeHandles) : List Resource :=
  [⟨r.team, [r.context, r.oob]⟩, ⟨r.context, [r.lib]⟩, ⟨r.lib, []⟩, ⟨r.oob, []⟩]

def Runtime.newOwned (client : PmixClient) (rank size : ℕ) :
    OwnedFn (Runtime × RuntimeHandles) := do
  let size ← .done (.okOr (tryFrom 32 size) (.usage "job size exceeds UCC limits"))
  let oob ← make []
  let started ← OwnedFn.ucc .libInit
  orDrop started Error.mapUcc [oob]
  let lib ← make []
  let created ← OwnedFn.ucc .contextNew
  orDrop created Error.mapUcc [lib, oob]
  let context ← make [lib]
  let created ← OwnedFn.ucc (.teamWithParams rank size)
  let uccTeam ← orDrop created Error.mapUcc [context, lib, oob]
  let team ← make [context, oob]
  let runtime : Runtime := { team := uccTeam, oob := { client, rank, size } }
  return (runtime, ⟨team, context, lib, oob⟩)

/-! ## The state -/

section State

variable (keyNeedsEp : Bool)

/-- The handles that `init` stores first. -/
structure StateHandles : Type where
  peers : TableHandles
  heap : HeapHandles
  transport : TransportHandles

/-- In the order of the fields of `ShmemState`: the peers first, then the heap, and then
the transport that owns their worker and context. -/
def StateHandles.resources (h : StateHandles) : List Resource :=
  h.peers.resources keyNeedsEp h.transport.worker ++
    (h.heap.resources h.transport.context ++ h.transport.resources)

/-- The state between `init` and `finalize`, with its handles and those of the
collectives. -/
abbrev OwnedState : Type := ShmemState × StateHandles × Option RuntimeHandles

/-- The field of the collectives is behind the others. -/
def OwnedState.resources (p : OwnedState) : List Resource :=
  p.2.1.resources keyNeedsEp ++ p.2.2.elim [] RuntimeHandles.resources

/-- The mutex over the state and its handles. -/
structure OwnedLock : Type where
  poisoned : Bool
  state : Option OwnedState

namespace OwnedLock

def initial : OwnedLock := ⟨false, none⟩

/-- The lock without the handles. -/
def forget (l : OwnedLock) : Lock := ⟨l.poisoned, l.state.map Prod.fst⟩

/-- The handles of what is stored. -/
def resources (l : OwnedLock) : List Resource := l.state.elim [] (OwnedState.resources keyNeedsEp)

/-- The lock after a call that found `l`, stored `state` and ended with `o`. -/
def release {α : Type} (l : OwnedLock) (state : Option OwnedState) (o : Outcome Error α) :
    OwnedLock :=
  ⟨l.poisoned || o matches .panic, state⟩

/-- The handles stay with the state that a call leaves. -/
def keep (l : OwnedLock) (left : Lock) : OwnedLock :=
  ⟨left.poisoned, left.state.bind fun state => l.state.map fun p => (state, p.2)⟩

/-- `lock_state`. -/
def lockState (l : OwnedLock) : Outcome Error (Option OwnedState) :=
  if l.poisoned then .err (.internal "lifecycle state lock poisoned") else .ok l.state

end OwnedLock

/-! ## Starting up and shutting down -/

/-- A step of `init` where `locals` are in scope: on an error the session is closed, and
then they are dropped. -/
def closingOwned {α : Type} (client : PmixClient) (locals : List Resource) (m : OwnedFn α) :
    OwnedFn α :=
  m.reify >>= fun
    | .ok a => return a
    | .err e => do
      let _ ← OwnedFn.pmix (.disconnect client)
      dropAll (locals.map Resource.id)
      .done (.err e)
    | .panic => do
      dropAll (locals.map Resource.id)
      .done .panic
    | .pending => .done .pending

/-- What `init` does with the open session, up to storing the state. -/
def bringUpOwned (client : PmixClient) : OwnedFn (ShmemState × StateHandles) := do
  match ← OwnedFn.pmix (.requireRank client) with
  | none => .done .panic
  | some rank =>
    let (transport, t) ← closingOwned client [] (UcxTransport.newOwned 1)
    let (heap, h) ← closingOwned client t.resources (SymHeap.newOwned t.context)
    let locals := h.resources t.context ++ t.resources
    let reported ← embed jobSize
    let size ← closingOwned client locals (.done (.okOr reported
      (.internal "PMIx job size unavailable and PMIX_SIZE is not set to a valid value")))
    let (bootstrap, table) ←
      closingOwned client locals (handshakeOwned keyNeedsEp t.worker transport heap size)
    let state : ShmemState := {
      peers := bootstrap.peers
      heap := heap
      transport := transport
      collectives := none
      client := client
      rank := rank.toNat
      size := size
      peerRkeys := bootstrap.peerRkeys }
    return (state, ⟨table, h, t⟩)

/-- `init` up to storing the state. -/
def connectOwned : OwnedFn (ShmemState × StateHandles) := do
  let connected ← OwnedFn.pmix .connectNew
  let client ← orDrop connected Error.ofPmixError []
  bringUpOwned keyNeedsEp client

/-- The last block of `init`. -/
def installCollectivesOwned (state : ShmemState) (handles : StateHandles) :
    OwnedFn (Outcome Error Unit × Option OwnedState) := do
  match ← ((Runtime.newOwned state.client state.rank state.size).reify :
      OwnedFn (Outcome Error (Runtime × RuntimeHandles))) with
  | .ok (runtime, r) =>
    return (.ok (), some ({ state with collectives := some runtime }, handles, some r))
  | .err e =>
    let _ ← OwnedFn.pmix (.disconnect state.client)
    -- `failed_state` goes out of scope
    dropAll ((handles.resources keyNeedsEp).map Resource.id)
    return (.err e, none)
  | .panic => return (.panic, some (state, handles, none))
  | .pending => return (.pending, some (state, handles, none))

/-- `init`: the result and the lock it leaves. -/
def initOwned (collectives : Bool) (l : OwnedLock) : OwnedFn (Outcome Error Unit × OwnedLock) :=
  match l.lockState with
  | .ok none => do
    match ← ((connectOwned keyNeedsEp).reify :
        OwnedFn (Outcome Error (ShmemState × StateHandles))) with
    | .ok (state, handles) =>
      if collectives then
        let (o, stored) ← installCollectivesOwned keyNeedsEp state handles
        return (o, l.release stored o)
      else
        let o : Outcome Error Unit := .ok ()
        return (o, l.release (some (state, handles, none)) o)
    | .err e =>
      let o : Outcome Error Unit := .err e
      return (o, l.release none o)
    | .panic =>
      let o : Outcome Error Unit := .panic
      return (o, l.release none o)
    | .pending =>
      let o : Outcome Error Unit := .pending
      return (o, l.release none o)
  | .ok (some _) => return (.err .alreadyInitialized, l)
  | .err e => return (.err e, l)
  | .panic => return (.panic, l)
  | .pending => return (.pending, l)

/-- `finalize`: the state that was taken is dropped at its end, also when the disconnect
fails. -/
def finalizeOwned (l : OwnedLock) : OwnedFn (Outcome Error Unit × OwnedLock) :=
  match l.lockState with
  | .ok none => return (.ok (), l)
  | .ok (some p) => do
    let answer ← OwnedFn.pmix (.disconnect p.1.client)
    dropAll ((p.resources keyNeedsEp).map Resource.id)
    let o : Outcome Error Unit := .mapErr answer Error.pmixError
    return (o, l.release none o)
  | .err e => return (.err e, l)
  | .panic => return (.panic, l)
  | .pending => return (.pending, l)

end State

end OpenShmem
