import OpenShmem.Pod
import OpenShmem.State

/-!
# Collectives

The second half of `src/coll.rs`: the codec over whole slices, the blocking
collectives, and the non-blocking ones with their `CollectiveRequest`. Each
pair is written out twice, as in the source.

UCC writes an operation's output buffer while the operation runs, so a status
reading brings the buffer with it. A caller's slice is passed in and handed
back: a function that has `&mut [T]` returns it next to its result. `fuel`
bounds the readings of a wait.
-/

namespace OpenShmem

/-! ## Status codes -/

/-- `ucc_status_t_UCC_OK`. -/
def uccOk : Int := 0

/-- `UCC_INPROGRESS`, which the source does not mention. -/
def uccInprogress : Int := 1

/-- `ucc_status_t_UCC_ERR_NO_MESSAGE`, a constant of the binding: one of the
failures, which are the negative codes. -/
structure NoMessage : Type where
  code : Int
  negative : code < 0

/-! ## Codec over slices -/

section Codec

variable (ne : Endian) (T : Pod)

/-- `encode`. `Vec::with_capacity` panics beyond `isize::MAX`. -/
def encode (values : List T.Value) : Outcome Error (List UInt8) := do
  let capacity ← .okOr (checkedMul 64 values.length T.size)
    (.usage "collective buffer size overflow")
  if capacity ≤ isizeMax then return values.foldl (fun bytes v => T.encode ne v bytes) []
  else .panic

/-- The loop of `decode`: a chunk that fails leaves the rest of the slice as it
was. -/
def decodeEach : List T.Value → List (List UInt8) → Outcome Error Unit × List T.Value
  | v :: vs, c :: cs =>
    match T.decode ne c with
    | .ok v' =>
      let p := decodeEach vs cs
      (p.1, v' :: p.2)
    | .err e => (.err e, v :: vs)
    | .panic => (.panic, v :: vs)
    | .pending => (.pending, v :: vs)
  | vs, _ => (.ok (), vs)

/-- `decode`, into the slice `values`. -/
def decode (bytes : List UInt8) (values : List T.Value) : Outcome Error Unit × List T.Value :=
  match checkedMul 64 values.length T.size with
  | none => (.err (.usage "collective buffer size overflow"), values)
  | some len =>
    if bytes.length ≠ len then
      (.err (.usage "collective buffer has an invalid byte length"), values)
    else decodeEach ne T values (chunksExact T.size bytes)

end Codec

/-! ## Operations -/

/-- `state.collectives.as_ref().ok_or(..)?` -/
def runtimeOf (state : ShmemState) : Outcome Error Runtime :=
  .okOr state.collectives (.internal "collectives are not initialized")

/-- `CollectiveBuilder::init`. -/
def CollectiveBuilder.init (args : CollectiveBuilder) (team : UccTeam) : Fn UccCollective := do
  let answer ← Fn.ucc (.init team args)
  let id ← Fn.orErr answer Error.mapUcc
  return ⟨id, args⟩

/-- `UccTeam::size`. -/
def UccTeam.size (team : UccTeam) : Fn ℕ := do
  let answer ← Fn.ucc (.teamSize team)
  let size ← Fn.orErr answer Error.mapUcc
  return size.toNat

namespace UccCollective

/-- `UccCollective::post`. -/
def post (op : UccCollective) : Fn Unit := do
  let posted ← Fn.ucc (.post op)
  Fn.orErr posted Error.mapUcc

/-- `UccCollective::finalize`. -/
def finalize (op : UccCollective) : Fn Unit := do
  let finalized ← Fn.ucc (.finalize op)
  Fn.orErr finalized Error.mapUcc

end UccCollective

/-- `wait`: the output buffer of the completed operation. -/
def wait (nm : NoMessage) (op : UccCollective) : ℕ → Fn (List UInt8)
  | 0 => .done .pending
  | fuel + 1 => do
    let (status, out) ← Fn.ucc (.status op)
    if status = uccOk then
      op.finalize
      return out.toList
    else if status ≠ nm.code then Fn.fail (.mapUcc ⟨status⟩)
    else
      let _ ← Fn.ucc .progress
      wait nm op fuel

/-- A result next to the caller's slice: the slice is changed by `write` if
`m` returns, and left alone otherwise. -/
def withSlice {α β : Type} (m : Fn α) (slice : β) (write : α → Outcome Error Unit × β) :
    Fn (Outcome Error Unit × β) := do
  match ← (m.reify : Fn (Outcome Error α)) with
  | .ok a => return write a
  | .err e => return (.err e, slice)
  | .panic => return (.panic, slice)
  | .pending => return (.pending, slice)

/-! ## Blocking collectives -/

section Blocking

variable (ne : Endian) (nm : NoMessage) (fuel : ℕ) (l : Lock)

/-- Synchronize all PEs in the process-global UCC team. -/
def barrier : Fn Unit :=
  withState l fun state => do
    let runtime ← Fn.lift (runtimeOf state)
    let op ← ((CollectiveBuilder.new .barrier).withInplace [0]
      |>.withCount 1).init runtime.team
    op.post
    let _ ← wait nm op fuel
    return ()

variable (T : Pod)

/-- Broadcast a typed buffer from `root`. -/
def broadcast (root : ℕ) (values : List T.Value) : Fn (Outcome Error Unit × List T.Value) :=
  if values.isEmpty then
    return (.err (.usage "collective buffer must be non-empty"), values)
  else
    withSlice (do
      let bytes ← Fn.lift (encode ne T values)
      withState l fun state => do
        let runtime ← Fn.lift (runtimeOf state)
        let size ← runtime.team.size
        if root ≥ size then Fn.fail (.usage "broadcast root is outside the UCC team")
        else
          let op ← ((CollectiveBuilder.new .broadcast).withInplace bytes
            |>.withCount values.length
            |>.withDtype T.uccDatatype
            |>.withRoot root).init runtime.team
          op.post
          wait nm op fuel)
      values (decode ne T · values)

/-- Gather equal-sized typed contributions in rank order. `vec![0u8; len]`
panics beyond `isize::MAX`. -/
def collect (values : List T.Value) : Fn (List T.Value) :=
  if values.isEmpty then Fn.fail (.usage "collective contribution must be non-empty")
  else
    withState l fun state => do
      let runtime ← Fn.lift (runtimeOf state)
      let send ← Fn.lift (encode ne T values)
      let ranks ← runtime.team.size
      let len ← Fn.okOr (checkedMul 64 send.length ranks)
        (.usage "collective receive buffer overflow")
      if len ≤ isizeMax then
        let op ← ((CollectiveBuilder.new .allgather).withSrc send
          |>.withDst len
          |>.withCount values.length
          |>.withDtype T.uccDatatype).init runtime.team
        op.post
        let recv ← wait nm op fuel
        let parts ← Fn.lift (Outcome.collect ((chunksExact send.length recv).map fun chunk =>
          Outcome.collect ((chunksExact T.size chunk).map (T.decode ne))))
        return parts.flatten
      else Fn.panic

/-- Allreduce in place. -/
def reduce (reduction : UccReductionOp) (values : List T.Value) :
    Fn (Outcome Error Unit × List T.Value) :=
  if !T.reductionSupported reduction then
    return (.err (.usage "reduction operation is not supported for this POD type"), values)
  else
    withSlice (do
      let bytes ← Fn.lift (encode ne T values)
      withState l fun state => do
        let runtime ← Fn.lift (runtimeOf state)
        let op ← ((CollectiveBuilder.new .allreduce).withInplace bytes
          |>.withCount values.length
          |>.withDtype T.uccDatatype
          |>.withReductionOp reduction).init runtime.team
        op.post
        wait nm op fuel)
      values (decode ne T · values)

end Blocking

/-! ## Requests -/

/-- A caller's slice, as `Destination` keeps it: where it is, how long it is,
and through the type of its `decode_to` how to fill it. -/
structure Destination : Type where
  T : Pod
  values : List T.Value

/-- A posted collective request. -/
structure CollectiveRequest : Type where
  op : Option UccCollective
  buffers : List (List UInt8)
  destination : Option Destination
  resultIndex : Option ℕ

namespace CollectiveRequest

/-- `CollectiveRequest::new`. -/
def new (op : UccCollective) (buffers : List (List UInt8)) (destination : Option Destination)
    (resultIndex : Option ℕ) : CollectiveRequest :=
  { op := some op, buffers, destination, resultIndex }

/-- UCC has written the output buffer, which is the last one. -/
def filled (req : CollectiveRequest) (out : List UInt8) : CollectiveRequest :=
  match req.buffers with
  | [] => req
  | _ :: _ => { req with buffers := req.buffers.dropLast ++ [out] }

/-- The copy-back of `test`, after the operation was finalized. -/
def copyBack (ne : Endian) (req : CollectiveRequest) : Outcome Error Bool × CollectiveRequest :=
  match req.destination with
  | none => (.ok true, req)
  | some d =>
    match req.buffers.getLast? with
    | none => (.err (.internal "missing collective buffer"), req)
    | some buffer =>
      let p := decode ne d.T buffer d.values
      (p.1 >>= fun _ => .ok true, { req with destination := some ⟨d.T, p.2⟩ })

/-- Poll without blocking: the answer and the request it leaves. -/
def test (ne : Endian) (nm : NoMessage) (req : CollectiveRequest) :
    Fn (Outcome Error Bool × CollectiveRequest) :=
  match req.op with
  | none => return (.ok true, req)
  | some op => do
    let (status, out) ← Fn.ucc (.status op)
    let req := req.filled out.toList
    if status = nm.code then
      let _ ← Fn.ucc .progress
      return (.ok false, req)
    else if status ≠ uccOk then return (.err (.mapUcc ⟨status⟩), req)
    else
      let req := { req with op := none }
      match ← (op.finalize.reify : Fn (Outcome Error Unit)) with
      | .ok () => return req.copyBack ne
      | .err e => return (.err e, req)
      | .panic => return (.panic, req)
      | .pending => return (.pending, req)

/-- Drive UCC progress until completion. -/
def wait (ne : Endian) (nm : NoMessage) :
    ℕ → CollectiveRequest → Fn (Outcome Error Unit × CollectiveRequest)
  | 0, req => return (.pending, req)
  | fuel + 1, req => do
    match ← req.test ne nm with
    | (.ok true, req) => return (.ok (), req)
    | (.ok false, req) => wait ne nm fuel req
    | (.err e, req) => return (.err e, req)
    | (.panic, req) => return (.panic, req)
    | (.pending, req) => return (.pending, req)

/-- Read a completed `collect_nb` result. -/
def result (ne : Endian) (T : Pod) (req : CollectiveRequest) : Outcome Error (List T.Value) :=
  if req.op.isSome then .err (.usage "collective request is not complete")
  else do
    let index ← .okOr req.resultIndex (.usage "request has no collected result")
    match req.buffers[index]? with
    | none => .panic
    | some buffer => Outcome.collect ((chunksExact T.size buffer).map (T.decode ne))

end CollectiveRequest

/-! ## Non-blocking collectives -/

section NonBlocking

variable (ne : Endian) (l : Lock)

/-- Post a barrier without waiting for completion. -/
def barrierNb : Fn CollectiveRequest :=
  withState l fun state => do
    let runtime ← Fn.lift (runtimeOf state)
    let stub := [0]
    let op ← ((CollectiveBuilder.new .barrier).withInplace stub
      |>.withCount 1).init runtime.team
    op.post
    return .new op [stub] none none

variable (T : Pod)

/-- Post a typed broadcast without waiting for completion. -/
def broadcastNb (root : ℕ) (values : List T.Value) : Fn CollectiveRequest :=
  if values.isEmpty then Fn.fail (.usage "collective buffer must be non-empty")
  else do
    let bytes ← Fn.lift (encode ne T values)
    let destination := Destination.mk T values
    withState l fun state => do
      let runtime ← Fn.lift (runtimeOf state)
      let size ← runtime.team.size
      if root ≥ size then Fn.fail (.usage "broadcast root is outside the UCC team")
      else
        let buffer := bytes
        let op ← ((CollectiveBuilder.new .broadcast).withInplace buffer
          |>.withCount values.length
          |>.withDtype T.uccDatatype
          |>.withRoot root).init runtime.team
        op.post
        return .new op [buffer] (some destination) none

/-- Post an equal-sized typed allgather without waiting for completion. -/
def collectNb (values : List T.Value) : Fn CollectiveRequest :=
  if values.isEmpty then Fn.fail (.usage "collective contribution must be non-empty")
  else
    withState l fun state => do
      let runtime ← Fn.lift (runtimeOf state)
      let send ← Fn.lift (encode ne T values)
      let ranks ← runtime.team.size
      let recvLen ← Fn.okOr (checkedMul 64 send.length ranks)
        (.usage "collective receive buffer overflow")
      if recvLen ≤ isizeMax then
        let recv := List.replicate recvLen 0
        let op ← ((CollectiveBuilder.new .allgather).withSrc send
          |>.withDst recv.length
          |>.withCount values.length
          |>.withDtype T.uccDatatype).init runtime.team
        op.post
        return .new op [send, recv] none (some 1)
      else Fn.panic

/-- Post a typed allreduce without waiting for completion. -/
def reduceNb (reduction : UccReductionOp) (values : List T.Value) : Fn CollectiveRequest :=
  if values.isEmpty then Fn.fail (.usage "collective buffer must be non-empty")
  else if !T.reductionSupported reduction then
    Fn.fail (.usage "reduction operation is not supported for this POD type")
  else do
    let bytes ← Fn.lift (encode ne T values)
    let destination := Destination.mk T values
    withState l fun state => do
      let runtime ← Fn.lift (runtimeOf state)
      let op ← ((CollectiveBuilder.new .allreduce).withInplace bytes
        |>.withCount values.length
        |>.withDtype T.uccDatatype
        |>.withReductionOp reduction).init runtime.team
      op.post
      return .new op [bytes] (some destination) none

end NonBlocking

/-! ## The codec is exact -/

section CodecLemmas

variable (ne : Endian) {T : Pod}

theorem foldl_encode (values : List T.Value) (bytes : List UInt8) :
    values.foldl (fun bytes v => T.encode ne v bytes) bytes =
      bytes ++ values.flatMap (T.toNeBytes ne) := by
  induction values generalizing bytes with
  | nil => simp
  | cons v vs ih => rw [List.foldl_cons, ih, List.flatMap_cons, Pod.encode, List.append_assoc]

/-- What `encode` ends with. -/
theorem encode_eq_ok {values : List T.Value} {bytes : List UInt8}
    (h : encode ne T values = .ok bytes) :
    bytes = values.flatMap (T.toNeBytes ne) ∧ bytes.length = values.length * T.size ∧
      bytes.length ≤ isizeMax := by
  obtain ⟨capacity, hmul, h⟩ := Outcome.bind_eq_ok h
  obtain ⟨-, rfl⟩ := checkedMul_eq_some.mp (Outcome.okOr_eq_ok.mp hmul)
  split at h
  · next hsmall =>
    cases h
    rw [foldl_encode, List.nil_append, Pod.length_flatMap_toNeBytes]
    exact ⟨rfl, rfl, hsmall⟩
  · cases h

/-- Chunks of the right length, as many as there are values, replace them all. -/
theorem decodeEach_eq :
    ∀ (values : List T.Value) (chunks : List (List UInt8)), chunks.length = values.length →
      (∀ c ∈ chunks, c.length = T.size) →
      decodeEach ne T values chunks = (.ok (), chunks.map (T.fromNeBytes ne)) := by
  intro values
  induction values with
  | nil =>
    intro chunks hlen _
    obtain rfl := List.length_eq_zero_iff.mp hlen
    rfl
  | cons v vs ih =>
    intro chunks hlen hsize
    cases chunks with
    | nil => cases hlen
    | cons c cs =>
      obtain ⟨hc, hcs⟩ := List.forall_mem_cons.mp hsize
      have hdecode : T.decode ne c = .ok (T.fromNeBytes ne c) := if_pos hc
      rw [decodeEach, hdecode, ih cs (Nat.succ.inj hlen) hcs]
      rfl

/-- A buffer of the slice's byte length replaces the whole slice. -/
theorem decode_eq {bytes : List UInt8} {values : List T.Value}
    (hlen : bytes.length = values.length * T.size) (hsmall : bytes.length ≤ isizeMax) :
    decode ne T bytes values =
      (.ok (), (chunksExact T.size bytes).map (T.fromNeBytes ne)) := by
  have hlt : values.length * T.size < 2 ^ 64 := by
    have : bytes.length ≤ 2 ^ 63 - 1 := hsmall
    omega
  have hmul : checkedMul 64 values.length T.size = some (values.length * T.size) :=
    checkedMul_eq_some.mpr ⟨hlt, rfl⟩
  have hcount : (chunksExact T.size bytes).length = values.length := by
    rw [chunksExact, List.length_map, List.length_range, hlen, Nat.mul_div_cancel _ T.size_pos]
  rw [decode, hmul]
  dsimp only
  rw [if_neg (not_not_intro hlen)]
  exact decodeEach_eq ne values _ hcount fun c hc => length_of_mem_chunksExact hc

end CodecLemmas

/-! ## Completion of a request -/

/-- The slice after a buffer was decoded into it. -/
def Destination.fill (ne : Endian) (d : Destination) (out : List UInt8) : Destination :=
  ⟨d.T, (chunksExact d.T.size out).map (d.T.fromNeBytes ne)⟩

/-- The slice a request copies back to has as many bytes as its buffer. -/
def Destination.Fits (len : ℕ) (d : Destination) : Prop :=
  d.values.length * d.T.size = len ∧ len ≤ isizeMax

namespace CollectiveRequest

@[simp] theorem filled_concat (op : Option UccCollective) (front : List (List UInt8))
    (last out : List UInt8) (d : Option Destination) (i : Option ℕ) :
    filled ⟨op, front ++ [last], d, i⟩ out = ⟨op, front ++ [out], d, i⟩ := by
  cases front with
  | nil => rfl
  | cons a front =>
    rw [filled, List.cons_append]
    simp only
    rw [← List.cons_append, List.dropLast_concat, List.cons_append]

/-- The copy-back of a buffer that fits fills the slice and reports success. -/
theorem copyBack_eq (ne : Endian) (op : Option UccCollective) (front : List (List UInt8))
    (out : List UInt8) (d : Option Destination) (i : Option ℕ)
    (hd : ∀ dest ∈ d, dest.Fits out.length) :
    copyBack ne ⟨op, front ++ [out], d, i⟩ =
      (.ok true, ⟨op, front ++ [out], d.map fun dest => dest.fill ne out, i⟩) := by
  cases d with
  | none => rfl
  | some dest =>
    obtain ⟨hlen, hsmall⟩ := hd dest rfl
    rw [copyBack]
    simp only [List.getLast?_concat]
    rw [decode_eq ne hlen.symm hsmall]
    rfl

end CollectiveRequest

/-! ## What is known of a posted operation -/

section Posted

theorem init_yields (args : CollectiveBuilder) (team : UccTeam) :
    (args.init team).Yields fun op => op.args = args := by
  refine Prog.Yields.call fun answer => ?_
  cases answer with
  | ok id => exact Prog.Yields.pure rfl
  | error e => exact Prog.Yields.of_ne_ok fun _ h => by cases h

theorem withState_yields {α : Type} {R : α → Prop} {operation : ShmemState → Fn α}
    (h : ∀ state, (operation state).Yields R) : (withState l operation).Yields R :=
  Prog.Yields.bind_any fun state => h state

theorem lift_yields {α : Type} (o : Outcome Error α) : (Fn.lift o).Yields fun a => o = .ok a :=
  fun _ h => h

/-- Initializing and posting an operation yields it with its builder. -/
theorem post_yields {R : UccCollective → Prop} {args : CollectiveBuilder} {team : UccTeam}
    (h : ∀ op : UccCollective, op.args = args → R op) :
    (args.init team >>= fun op => op.post >>= fun _ => pure op : Fn UccCollective).Yields R :=
  Prog.Yields.bind (init_yields args team) fun op hop =>
    Prog.Yields.bind_any fun _ => Prog.Yields.pure (h op hop)

end Posted

end OpenShmem
