import OpenShmem.Bootstrap

/-!
# The UCC runtime and its out-of-band allgather

The first half of `src/coll.rs`. UCC builds its team with an allgather that the
library supplies over PMIx: `allgather` publishes this PE's bytes under one
constant key, fences, and copies what each PE published into the destination.
-/

namespace OpenShmem

/-- What the allgather callback is handed through `coll_info`. -/
structure OobState : Type where
  client : PmixClient
  rank : ℕ
  size : ℕ
  deriving DecidableEq, Repr

/-- The request the callback leaves for `req_test`. -/
structure OobRequest : Type where
  status : Int
  deriving DecidableEq, Repr

/-- `copy_nonoverlapping(bytes, dst.add(at), bytes.len())`. -/
def copyAt (dst : List UInt8) (pos : ℕ) (bytes : List UInt8) : List UInt8 :=
  dst.take pos ++ bytes ++ dst.drop (pos + bytes.length)

/-- What the closure of `allgather` leaves: its value, and the destination as
far as it was filled. -/
abbrev Gathered : Type := Option Int × List UInt8

/-- The peer loop of `allgather`. Each `?` ends it with the destination as it
is. -/
def gatherPeers (len : ℕ) : List ℕ → List UInt8 → Fn Gathered
  | [], dst => return (some 0, dst)
  | peer :: peers, dst => do
    match ← Fn.pmix (.procWithNspace peer) with
    | .error _ => return (none, dst)
    | .ok () =>
      match ← Fn.pmix (.getBytesCopy peer .oob) with
      | .error _ => return (none, dst)
      | .ok peerBytes =>
        if peerBytes.length ≠ len then return (none, dst)
        else gatherPeers len peers (copyAt dst (peer * len) peerBytes)

/-- The closure of `allgather` up to the fence: `None` where one of its steps
failed. -/
def contribute (bytes : List UInt8) : Fn (Option Unit) := do
  match ← Fn.pmix (.byteObject bytes) with
  | .error _ => return none
  | .ok () =>
    match ← Fn.pmix (.build (.byteObject bytes)) with
    | .error _ => return none
    | .ok () =>
      match ← Fn.pmix (.putValue .oob (.byteObject bytes)) with
      | .error _ => return none
      | .ok () =>
        match ← Fn.pmix .commit with
        | .error _ => return none
        | .ok () =>
          match ← Fn.pmix .procWildcard with
          | .error _ => return none
          | .ok () =>
            match ← pmixFence with
            | .error _ => return none
            | .ok () => return some ()

/-- The closure of `allgather`. -/
def gatherRound (size : ℕ) (bytes : List UInt8) (len : ℕ) (dst : List UInt8) : Fn Gathered := do
  match ← contribute bytes with
  | none => return (none, dst)
  | some () => gatherPeers len (List.range size) dst

/-- What a callback hands back to UCC: the status it returns, the destination
buffer, and the request if it stored one. -/
structure CallbackResult : Type where
  status : Int
  dst : Option (List UInt8)
  request : Option OobRequest
  deriving DecidableEq, Repr

/-- `allgather`. A null pointer is `none`; `src` is the `len` bytes behind the
source pointer and `dst` the bytes behind the destination pointer. -/
def allgather (src dst : Option (List UInt8)) (len : ℕ) (info : Option OobState)
    (requestNull : Bool) : Fn CallbackResult :=
  match src, dst, info with
  | some bytes, some dst, some state =>
    if requestNull || len == 0 then return ⟨-27, some dst, none⟩
    else do
      let gathered ← gatherRound state.size bytes len dst
      let result := gathered.1.getD (-1)
      return ⟨result, some gathered.2, some ⟨result⟩⟩
  | _, dst, _ => return ⟨-27, dst, none⟩

/-- `req_test`. -/
def reqTest : Option OobRequest → Int
  | none => -27
  | some request => request.status

/-- `req_free`. -/
def reqFree : Option OobRequest → Int
  | none => -27
  | some _ => 0

/-- The UCC team of the process. -/
structure Runtime : Type where
  team : UccTeam
  oob : OobState
  deriving DecidableEq, Repr

/-- `Runtime::new`. -/
def Runtime.new (client : PmixClient) (rank size : ℕ) : Fn Runtime := do
  let size ← Fn.okOr (tryFrom 32 size) (.usage "job size exceeds UCC limits")
  let lib ← Fn.ucc .libInit
  Fn.orErr lib Error.mapUcc
  let context ← Fn.ucc .contextNew
  Fn.orErr context Error.mapUcc
  let created ← Fn.ucc (.teamWithParams rank size)
  let team ← Fn.orErr created Error.mapUcc
  return { team := team, oob := { client, rank, size } }

end OpenShmem
