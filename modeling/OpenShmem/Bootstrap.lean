import OpenShmem.SymHeap
import OpenShmem.Transport

/-!
# Bootstrap

`src/bootstrap.rs`: publish the worker address, the heap key and the heap base,
fence, then look up those of every PE and connect to it.
-/

namespace OpenShmem

/-- What one PE holds to reach another. -/
structure PeerConnection : Type where
  endpoint : Ep
  rkey : RemoteKey
  heapBase : ℕ
  deriving DecidableEq, Repr

/-- The connections, by PE number. -/
abbrev Peers : Type := Std.ExtTreeMap ℕ PeerConnection

/-- What `handshake` returns. -/
structure Bootstrap : Type where
  peerRkeys : PeerRkeys
  peers : Peers

/-- Stage a byte value under a key. -/
def putBytes (key : PmixKey) (bytes : List UInt8) : Fn Unit := do
  let object ← Fn.pmix (.byteObject bytes)
  Fn.orErr object fun _ => .usage "bootstrap byte value must not be empty"
  let built ← Fn.pmix (.build (.byteObject bytes))
  Fn.orErr built fun _ => .usage "failed to build bootstrap byte value"
  let staged ← Fn.pmix (.putValue key (.byteObject bytes))
  Fn.orErr staged Error.pmixError

/-- `pmix::fence(&wildcard, None)`. -/
def pmixFence : Fn (Except PmixStatus Unit) := do
  let _ ← Fn.pmix .fenceEnter
  Fn.pmix .fenceLeave

/-- One round of the peer loop: look up what a PE published and connect to it. -/
def connectPeer (pe : ℕ) (b : Bootstrap) : Fn Bootstrap := do
  let peerProc ← Fn.pmix (.procWithNspace pe)
  Fn.orErr peerProc Error.ofPmixError
  let addressValue ← Fn.pmix (.getBytesCopy pe .workerAddr)
  let address ← Fn.orErr addressValue Error.ofPmixError
  let rkeyValue ← Fn.pmix (.getBytesCopy pe .heapRkey)
  let rkeyBytes ← Fn.orErr rkeyValue Error.ofPmixError
  let baseValue ← Fn.pmix (.getUint64 pe .heapBase)
  let heapBase ← Fn.orErr baseValue Error.ofPmixError
  if address.isEmpty || rkeyBytes.length < 4 || heapBase == 0 then
    Fn.fail (.internal "peer published incomplete bootstrap metadata")
  else
    let endpoint ← UcxTransport.createEndpoint address
    let unpacked ← Fn.ucx (.rkeyUnpack endpoint rkeyBytes)
    Fn.orErr unpacked Error.ofStatus
    return {
      peerRkeys := b.peerRkeys.insert pe heapBase rkeyBytes
      peers := b.peers.insert pe ⟨endpoint, ⟨endpoint, rkeyBytes⟩, heapBase⟩ }

/-- The peer loop. -/
def connectPeers : List ℕ → Bootstrap → Fn Bootstrap
  | [], b => return b
  | pe :: pes, b => do
    let b ← connectPeer pe b
    connectPeers pes b

/-- The staged values: worker address, heap key, heap base. -/
def publish (transport : UcxTransport) (heap : SymHeap) : Fn Unit := do
  putBytes .workerAddr transport.packedAddress
  putBytes .heapRkey heap.packedRkey
  let base ← Fn.pmix (.build (.uint64 heap.localBase))
  Fn.orErr base fun _ => .usage "failed to build heap base value"
  let staged ← Fn.pmix (.putValue .heapBase (.uint64 heap.localBase))
  Fn.orErr staged Error.pmixError
  let committed ← Fn.pmix .commit
  Fn.orErr committed Error.pmixError

/-- Publish metadata, fence, then create an endpoint and unpacked rkey per PE.
`size as u32` drops the high bits of a larger job size. -/
def handshake (transport : UcxTransport) (heap : SymHeap) (size : ℕ) : Fn Bootstrap := do
  if size = 0 then Fn.fail (.usage "bootstrap job size must be nonzero")
  else
    publish transport heap
    let wildcard ← Fn.pmix .procWildcard
    Fn.orErr wildcard Error.ofPmixError
    let fenced ← pmixFence
    Fn.orErr fenced Error.pmixError
    connectPeers (List.range (size % 2 ^ 32)) ⟨∅, ∅⟩

end OpenShmem
