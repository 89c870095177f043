import OpenShmem.Pod
import OpenShmem.State

/-!
# Remote memory access

`src/rma.rs` below the transport: raw and typed put and get, atomics, `fence`
and `quiet`. Each goes through `with_state`; the puts, gets and atomics share
one validator, `peerAndAddress`. `fuel` is the poll budget of a wait.
-/

namespace OpenShmem

/-! ## Addressing -/

/-- `peer_and_address`. -/
def peerAndAddress (state : ShmemState) (pe offset len : ℕ) :
    Outcome Error (PeerConnection × ℕ) := do
  let pe ← .okOr (tryFrom 32 pe) (.usage "PE number is out of range")
  let peer ← .okOr state.peers[pe]? (.usage "PE number is not in the job")
  let offset ← .okOr (tryFrom 64 offset) (.usage "RMA offset is out of range")
  let address ← .okOr (checkedAdd 64 peer.heapBase offset) (.usage "RMA address overflow")
  let len ← .okOr (tryFrom 64 len) (.usage "RMA length is out of range")
  let _ ← .okOr (checkedAdd 64 offset len) (.usage "RMA range overflow")
  return (peer, address)

/-- `complete_request`, which `putmem` and `getmem` write out. -/
def completeRequest (fuel : ℕ) : Option Request → Fn Unit
  | some request => UcxTransport.waitRequest request fuel
  | none => return ()

/-! ## Put and get -/

/-- Put raw bytes in the destination PE's symmetric heap. -/
def putmem (fuel : ℕ) (l : Lock) (dstPe : ℕ) (bytes : List UInt8) (dstOffset : ℕ) : Fn Unit :=
  withState l fun state => do
    let (peer, address) ← Fn.lift (peerAndAddress state dstPe dstOffset bytes.length)
    if bytes.isEmpty then return ()
    else
      let issued ← Fn.ucx (.rmaPut peer.endpoint bytes address peer.rkey)
      let request ← Fn.orErr issued Error.ofStatus
      completeRequest fuel request

/-- Get raw bytes. `vec![0_u8; len]` panics beyond `isize::MAX`. -/
def getmem (fuel : ℕ) (l : Lock) (srcPe srcOffset len : ℕ) : Fn (List UInt8) :=
  withState l fun state => do
    let (peer, address) ← Fn.lift (peerAndAddress state srcPe srcOffset len)
    if len ≤ isizeMax then
      if len = 0 then return []
      else
        let issued ← Fn.ucx (.rmaGet peer.endpoint len address peer.rkey)
        let (request, bytes) ← Fn.orErr issued Error.ofStatus
        completeRequest fuel request
        return bytes.toList
    else Fn.panic

section Typed

variable (ne : Endian) (fuel : ℕ) (l : Lock) (T : Pod)

/-- Put typed values in native-endian representation. -/
def put (dstPe : ℕ) (src : List T.Value) (dstOffset : ℕ) : Fn Unit := do
  let bytes ← Fn.lift (T.podAsBytes ne src)
  putmem fuel l dstPe bytes dstOffset

/-- Get typed values. -/
def get (srcPe srcOffset lenElems : ℕ) : Fn (List T.Value) := do
  let len ← Fn.okOr (checkedMul 64 lenElems T.size) (.usage "typed RMA length overflow")
  let bytes ← getmem fuel l srcPe srcOffset len
  Fn.lift (Outcome.collect ((chunksExact T.size bytes).map (T.decode ne)))

end Typed

/-! ## Atomics -/

/-- The types `T: AtomicValue`. -/
inductive AtomicValue : Type where
  | u32 | i32 | u64 | i64
  deriving DecidableEq, Repr

namespace AtomicValue

/-- The type itself. -/
def Val : AtomicValue → Type
  | u32 => UInt32
  | i32 => Int32
  | u64 => UInt64
  | i64 => Int64

/-- The number of bits of `T::Bits`. -/
def width : AtomicValue → ℕ
  | u32 | i32 => 32
  | u64 | i64 => 64

/-- `T::SIZE`. -/
def size : AtomicValue → ℕ
  | u32 | i32 => 4
  | u64 | i64 => 8

/-- `T::bits`. -/
def bits : (T : AtomicValue) → T.Val → BitVec T.width
  | u32 => UInt32.toBitVec
  | i32 => Int32.toBitVec
  | u64 => UInt64.toBitVec
  | i64 => Int64.toBitVec

/-- `T::from_bits`. -/
def fromBits : (T : AtomicValue) → BitVec T.width → T.Val
  | u32 => UInt32.ofBitVec
  | i32 => Int32.ofBitVec
  | u64 => UInt64.ofBitVec
  | i64 => Int64.ofBitVec

end AtomicValue

/-- `complete_fetch`. -/
def completeFetch (request : Request) : ℕ → Fn Unit
  | 0 => .done .pending
  | fuel + 1 => do
    let polled ← Fn.ucx (.checkFinished request)
    let finished ← Fn.orErr polled Error.ofStatus
    if finished then return ()
    else
      let _ ← Fn.ucx .progress
      completeFetch request fuel

section Atomics

variable (fuel : ℕ) (l : Lock) (T : AtomicValue)

/-- An atomic operation that returns nothing. -/
def atomicOp (pe offset : ℕ) (op : Amo T.width) : Fn Unit :=
  withState l fun state => do
    let (peer, address) ← Fn.lift (peerAndAddress state pe offset T.size)
    let issued ← Fn.ucx (.amo T.width op peer.endpoint address peer.rkey)
    let request ← Fn.orErr issued Error.ofStatus
    completeRequest fuel request

def atomicAdd (pe offset : ℕ) (value : T.Val) : Fn Unit :=
  atomicOp fuel l T pe offset (.add (T.bits value))

def atomicXor (pe offset : ℕ) (value : T.Val) : Fn Unit :=
  atomicOp fuel l T pe offset (.xor (T.bits value))

def atomicSwap (pe offset : ℕ) (value : T.Val) : Fn Unit :=
  atomicOp fuel l T pe offset (.swap (T.bits value))

def atomicAnd (pe offset : ℕ) (value : T.Val) : Fn Unit :=
  atomicOp fuel l T pe offset (.and (T.bits value))

def atomicOr (pe offset : ℕ) (value : T.Val) : Fn Unit :=
  atomicOp fuel l T pe offset (.or (T.bits value))

def atomicCswap (pe offset : ℕ) (expected replacement : T.Val) : Fn Unit :=
  atomicOp fuel l T pe offset (.cswap (T.bits expected) (T.bits replacement))

/-- An atomic operation that returns what the cell held. -/
def atomicFetch (pe offset : ℕ) (op : FetchAmo T.width) : Fn T.Val :=
  withState l fun state => do
    let (peer, address) ← Fn.lift (peerAndAddress state pe offset T.size)
    let issued ← Fn.ucx (.fetchAmo T.width op peer.endpoint address peer.rkey)
    let (request, reply) ← Fn.orErr issued Error.ofStatus
    completeFetch request fuel
    return T.fromBits reply

def atomicFadd (pe offset : ℕ) (operand : T.Val) : Fn T.Val :=
  atomicFetch fuel l T pe offset (.fadd (T.bits operand))

def atomicFxor (pe offset : ℕ) (operand : T.Val) : Fn T.Val :=
  atomicFetch fuel l T pe offset (.fxor (T.bits operand))

def atomicFswap (pe offset : ℕ) (operand : T.Val) : Fn T.Val :=
  atomicFetch fuel l T pe offset (.fswap (T.bits operand))

def atomicFcswap (pe offset : ℕ) (expected replacement : T.Val) : Fn T.Val :=
  atomicFetch fuel l T pe offset (.fcswap (T.bits expected) (T.bits replacement))

end Atomics

/-! ## Ordering and completion -/

/-- Order the operations issued before the call before those issued after. -/
def fence (l : Lock) : Fn Unit := withState l fun _ => UcxTransport.fence

/-- Flush one endpoint and wait for the flush. -/
def flushPeer (fuel : ℕ) (peer : PeerConnection) : Fn Unit := do
  let issued ← Fn.ucx (.flush peer.endpoint)
  let request ← Fn.orErr issued Error.ofStatus
  completeRequest fuel request

/-- The loop of `quiet`. -/
def flushPeers (fuel : ℕ) : List PeerConnection → Fn Unit
  | [] => return ()
  | peer :: peers => do
    flushPeer fuel peer
    flushPeers fuel peers

/-- Complete all outstanding operations on every connected PE. -/
def quiet (fuel : ℕ) (l : Lock) : Fn Unit :=
  withState l fun state => flushPeers fuel state.peers.values

/-- Complete the outstanding operations for one PE. -/
def quietPe (fuel : ℕ) (l : Lock) (pe : ℕ) : Fn Unit :=
  withState l fun state => do
    let pe ← Fn.okOr (tryFrom 32 pe) (.usage "PE number is out of range")
    let peer ← Fn.okOr state.peers[pe]? (.usage "PE number is not in the job")
    flushPeer fuel peer

/-- `quiet_all`. -/
def quietAll (fuel : ℕ) (l : Lock) : Fn Unit := quiet fuel l

/-! ## What the validator accepts -/

theorem peerAndAddress_eq_ok {state : ShmemState} {pe offset len address : ℕ}
    {peer : PeerConnection} :
    peerAndAddress state pe offset len = .ok (peer, address) ↔
      pe < 2 ^ 32 ∧ state.peers[pe]? = some peer ∧ address = peer.heapBase + offset ∧
        address < 2 ^ 64 ∧ offset + len < 2 ^ 64 := by
  constructor
  · intro h
    obtain ⟨pe', hpe', h⟩ := Outcome.bind_eq_ok h
    obtain ⟨hpe, rfl⟩ := tryFrom_eq_some.mp (Outcome.okOr_eq_ok.mp hpe')
    obtain ⟨peer', hpeer, h⟩ := Outcome.bind_eq_ok h
    obtain ⟨offset', hoffset, h⟩ := Outcome.bind_eq_ok h
    obtain ⟨-, rfl⟩ := tryFrom_eq_some.mp (Outcome.okOr_eq_ok.mp hoffset)
    obtain ⟨address', haddress, h⟩ := Outcome.bind_eq_ok h
    obtain ⟨hfits, rfl⟩ := checkedAdd_eq_some.mp (Outcome.okOr_eq_ok.mp haddress)
    obtain ⟨len', hlen, h⟩ := Outcome.bind_eq_ok h
    obtain ⟨-, rfl⟩ := tryFrom_eq_some.mp (Outcome.okOr_eq_ok.mp hlen)
    obtain ⟨stop, hstop, h⟩ := Outcome.bind_eq_ok h
    obtain ⟨hrange, -⟩ := checkedAdd_eq_some.mp (Outcome.okOr_eq_ok.mp hstop)
    cases h
    exact ⟨hpe, Outcome.okOr_eq_ok.mp hpeer, rfl, hfits, hrange⟩
  · rintro ⟨hpe, hpeer, rfl, hfits, hrange⟩
    have hoffset : tryFrom 64 offset = some offset := tryFrom_eq_some.mpr ⟨by omega, rfl⟩
    have hlen : tryFrom 64 len = some len := tryFrom_eq_some.mpr ⟨by omega, rfl⟩
    have hpe : tryFrom 32 pe = some pe := tryFrom_eq_some.mpr ⟨hpe, rfl⟩
    have hadd : checkedAdd 64 peer.heapBase offset = some (peer.heapBase + offset) :=
      checkedAdd_eq_some.mpr ⟨hfits, rfl⟩
    have hstop : checkedAdd 64 offset len = some (offset + len) :=
      checkedAdd_eq_some.mpr ⟨hrange, rfl⟩
    simp only [peerAndAddress, hpe, hpeer, hoffset, hadd, hlen, hstop, Outcome.okOr_some,
      Outcome.ok_bind, Outcome.pure_eq]

/-- The validator returns. -/
theorem peerAndAddress_cases (state : ShmemState) (pe offset len : ℕ) :
    (∃ peer address, peerAndAddress state pe offset len = .ok (peer, address)) ∨
      ∃ m, peerAndAddress state pe offset len = .err (.usage m) := by
  let Accepted : Outcome Error (PeerConnection × ℕ) → Prop := fun o =>
    (∃ peer address, o = .ok (peer, address)) ∨ ∃ m, o = .err (.usage m)
  have hrefused : ∀ m, Accepted (.err (.usage m)) := fun m => Or.inr ⟨m, rfl⟩
  have hchecks : Accepted (peerAndAddress state pe offset len) := by
    refine Outcome.okOr_bind_rule (fun pe => ?_) (hrefused _)
    refine Outcome.okOr_bind_rule (fun peer => ?_) (hrefused _)
    refine Outcome.okOr_bind_rule (fun offset => ?_) (hrefused _)
    refine Outcome.okOr_bind_rule (fun address => ?_) (hrefused _)
    refine Outcome.okOr_bind_rule (fun len => ?_) (hrefused _)
    exact Outcome.okOr_bind_rule (fun _ => Or.inl ⟨peer, address, rfl⟩) (hrefused _)
  exact hchecks

end OpenShmem
