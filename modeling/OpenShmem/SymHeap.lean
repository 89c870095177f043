import Mathlib.Data.List.Sort
import Std.Data.ExtTreeMap
import OpenShmem.Ext
import OpenShmem.Span

/-!
# The symmetric heap

`src/symheap.rs`: a registered region with a free-list allocator over it. The
free list holds offsets, the allocation map is keyed by absolute addresses, and
both are kept by hand: `malloc` takes the first block that is long enough and
cuts the request off its front; `free` pushes the block back, sorts, and merges
neighbours. `&mut self` is explicit: a call returns its outcome together with
the heap it leaves, also when it fails, since `free` removes the map entry
before it checks anything.
-/

namespace OpenShmem

/-- `ALIGNMENT`. -/
abbrev alignment : ℕ := 8

/-- `DEFAULT_HEAP_SIZE`. -/
def defaultHeapSize : ℕ := 64 * 1024 * 1024

/-! ## Symmetric pointers -/

/-- An address in the symmetric heap; application code cannot dereference it. -/
structure SymPtr : Type where
  /-- the address -/
  addr : ℕ
  deriving DecidableEq, Repr

namespace SymPtr

/-- This allocation's byte offset from a symmetric heap base. -/
def offsetFrom (p : SymPtr) (localBase : ℕ) : Outcome Error ℕ :=
  .okOr (checkedSub p.addr localBase) (.usage "pointer is below symmetric heap base")

theorem offsetFrom_eq_ok {p : SymPtr} {base o : ℕ} :
    p.offsetFrom base = .ok o ↔ base ≤ p.addr ∧ p.addr - base = o := by
  rw [offsetFrom, Outcome.okOr_eq_ok, checkedSub_eq_some]

/-- `offset_from_u64`: `usize` is 64 bits wide. -/
def offsetFromU64 (p : SymPtr) (localBase : ℕ) : Outcome Error ℕ := p.offsetFrom localBase

/-- This allocation's offset, at a target PE's heap address. -/
def toRemoteAddr (p : SymPtr) (localBase peerBase : ℕ) : Outcome Error ℕ := do
  let offset ← p.offsetFromU64 localBase
  .okOr (checkedAdd 64 peerBase offset) (.usage "remote symmetric address overflow")

theorem toRemoteAddr_eq_ok {p : SymPtr} {localBase peerBase r : ℕ} :
    p.toRemoteAddr localBase peerBase = .ok r ↔
      localBase ≤ p.addr ∧ peerBase + (p.addr - localBase) = r ∧ r < 2 ^ 64 := by
  constructor
  · intro h
    obtain ⟨o, ho, h⟩ := Outcome.bind_eq_ok h
    obtain ⟨hle, rfl⟩ := offsetFrom_eq_ok.mp ho
    obtain ⟨hlt, rfl⟩ := checkedAdd_eq_some.mp (Outcome.okOr_eq_ok.mp h)
    exact ⟨hle, rfl, hlt⟩
  · rintro ⟨hle, rfl, hlt⟩
    have ho : p.offsetFromU64 localBase = .ok (p.addr - localBase) :=
      offsetFrom_eq_ok.mpr ⟨hle, rfl⟩
    rw [toRemoteAddr, ho, Outcome.ok_bind, Outcome.okOr_eq_ok, checkedAdd_eq_some]
    exact ⟨hlt, rfl⟩

theorem offsetFrom_add (base o : ℕ) : (⟨base + o⟩ : SymPtr).offsetFrom base = .ok o := by
  rw [offsetFrom_eq_ok]
  simp

end SymPtr

/-! ## Peer metadata -/

/-- A free block, offsets relative to the heap base. -/
abbrev Block : Type := Span

/-- Heap base and packed rkey advertised by one PE. -/
structure PeerRkey : Type where
  heapBase : ℕ
  rkey : List UInt8
  deriving DecidableEq, Repr

/-- Per-PE heap metadata, populated by the PMIx exchange. -/
abbrev PeerRkeys : Type := Std.ExtTreeMap ℕ PeerRkey

/-- `PeerRkeys::insert`. -/
def PeerRkeys.insert (keys : PeerRkeys) (pe heapBase : ℕ) (rkey : List UInt8) : PeerRkeys :=
  Std.ExtTreeMap.insert keys pe ⟨heapBase, rkey⟩

/-- `PeerRkeys::get`. -/
def PeerRkeys.get (keys : PeerRkeys) (pe : ℕ) : Option PeerRkey := keys[pe]?

/-! ## The heap -/

/-- A contiguous UCX-registered symmetric heap and its free-list allocator. -/
structure SymHeap : Type where
  /-- `region.len()` -/
  words : ℕ
  /-- the memory of `region` -/
  region : Region words
  /-- the field `free` -/
  freeList : List Block
  /-- the live allocations: address to length -/
  allocations : Std.ExtTreeMap ℕ ℕ
  packedRkey : List UInt8

namespace SymHeap

/-- `local_base`, which the source also keeps in a field of its own. -/
def localBase (h : SymHeap) : ℕ := h.region.base

/-- `capacity`. -/
def capacity (h : SymHeap) : ℕ := h.words * 8

/-- The heap right after registration: one free block, nothing allocated. -/
def fresh (words : ℕ) (region : Region words) (packedRkey : List UInt8) : SymHeap where
  words := words
  region := region
  freeList := [⟨0, words * 8⟩]
  allocations := ∅
  packedRkey := packedRkey

/-- Create a heap of exactly `size` bytes. `vec![0_u64; words]` panics when its
byte size exceeds `isize::MAX`. -/
def withSize (size : ℕ) : Fn SymHeap := do
  if size < alignment then
    Fn.fail (.usage "symmetric heap is too small")
  else
    let padded ← Fn.okOr (checkedAdd 64 size (8 - 1)) (.usage "symmetric heap size overflow")
    let words := padded / 8
    if small : words * 8 ≤ isizeMax then
      let region ← Fn.sys (.allocWords words small)
      let mapped ← Fn.ucx (.memMap region.base (words * 8))
      Fn.orErr mapped Error.ofStatus
      let packed ← Fn.ucx .packRkey
      let packedRkey ← Fn.orErr packed Error.ofStatus
      return fresh words region packedRkey
    else Fn.panic

/-- Create, register, and rkey-pack a heap of the configured size. -/
def new : Fn SymHeap := do
  let var ← Fn.sys (.envVar "SHMEM_SYMMETRIC_SIZE")
  withSize ((var.bind parseUsize).getD defaultHeapSize)

/-- `size` rounded up to the alignment. -/
def requestedSize (size : ℕ) : Outcome Error ℕ := do
  let padded ← .okOr (checkedAdd 64 size (alignment - 1))
    (.usage "symmetric allocation size overflow")
  return padded &&& complement 64 (alignment - 1)

/-- The free list after `requested` bytes were taken from its block `index`. -/
def takeFrom (freeList : List Block) (index requested : ℕ) (block : Block) :
    Outcome Error (List Block) :=
  if block.len = requested then return freeList.eraseIdx index
  else do
    let start ← addOrPanic 64 block.start requested
    return freeList.set index (⟨start, block.len - requested⟩ : Block)

/-- Everything `malloc` computes before it changes the heap: the pointer, the
rounded size and the new free list. -/
def place (h : SymHeap) (size : ℕ) : Outcome Error (SymPtr × ℕ × List Block) := do
  if size = 0 then .err (.usage "symmetric allocation size must be nonzero")
  else
    let requested ← requestedSize size
    let index ← .okOr (h.freeList.findIdx? fun b => requested ≤ b.len)
      (.usage "symmetric heap exhausted")
    match h.freeList[index]? with
    | none => .panic
    | some block =>
      let addr ← addOrPanic 64 h.localBase block.start
      let freeList ← takeFrom h.freeList index requested block
      return (SymPtr.mk addr, requested, freeList)

/-- Allocate at least `size` bytes, aligned to eight bytes. -/
def malloc (h : SymHeap) (size : ℕ) : Outcome Error SymPtr × SymHeap :=
  match h.place size with
  | .ok (ptr, requested, freeList) =>
    (.ok ptr, { h with freeList, allocations := h.allocations.insert ptr.addr requested })
  | .err e => (.err e, h)
  | .panic => (.panic, h)
  | .pending => (.pending, h)

/-- One round of the merging loop of `free`. -/
def mergeStep (merged : List Block) (block : Block) : Outcome Error (List Block) :=
  match merged.getLast? with
  | some last => do
    let stop ← addOrPanic 64 last.start last.len
    if stop = block.start then
      let len ← addOrPanic 64 last.len block.len
      return merged.dropLast ++ [(⟨last.start, len⟩ : Block)]
    else return merged ++ [block]
  | none => return merged ++ [block]

/-- The merging loop of `free`. -/
def mergeAll (blocks : List Block) : Outcome Error (List Block) :=
  blocks.foldlM mergeStep []

/-- `start.checked_add(len).filter(|&end| end <= capacity).is_none()
|| start % ALIGNMENT != 0`. -/
def rejects (words start len : ℕ) : Bool :=
  ((checkedAdd 64 start len).filter fun stop => stop ≤ words * 8).isNone || start % alignment != 0

/-- Return an allocation to the free list; double/foreign frees are errors. -/
def free (h : SymHeap) (ptr : SymPtr) : Outcome Error Unit × SymHeap :=
  match h.allocations[ptr.addr]? with
  | none => (.err (.usage "invalid symmetric pointer"), h)
  | some len =>
    let h := { h with allocations := h.allocations.erase ptr.addr }
    match checkedSub ptr.addr h.localBase with
    | none => (.err (.usage "invalid symmetric pointer"), h)
    | some start =>
      if rejects h.words start len then (.err (.usage "invalid symmetric pointer"), h)
      else
        let sorted := (h.freeList ++ [Span.mk start len]).insertionSort fun a b => a.start ≤ b.start
        match mergeAll sorted with
        | .ok merged => (.ok (), { h with freeList := merged })
        | .err e => (.err e, { h with freeList := [] })
        | .panic => (.panic, { h with freeList := [] })
        | .pending => (.pending, { h with freeList := [] })

end SymHeap

end OpenShmem
