import OpenShmem.Codec
import OpenShmem.CollRequest
import OpenShmem.Delivery

/-!
# What `result` makes of a gather

The element type is chosen again when a gathered buffer is read, and `result`
cuts the buffer with `chunks_exact`, which drops what is left over. `decode`, the
other reader of such buffers, refuses one that does not fit.
-/

namespace OpenShmem

/-! ## Reading a buffer -/

section Reading

variable (ne : Endian) {U : Pod}

/-- The values read back encode to all that fits into whole elements. -/
theorem flatMap_toNeBytes_valuesOf (bytes : List UInt8) :
    (U.valuesOf ne bytes).flatMap (U.toNeBytes ne) =
      bytes.take (bytes.length / U.size * U.size) := by
  have hwhole : U.size ∣ (bytes.take (bytes.length / U.size * U.size)).length := by
    rw [List.length_take, Nat.min_eq_left (Nat.div_mul_le_self _ _)]
    exact Nat.dvd_mul_left _ _
  rw [Pod.valuesOf, ← chunksExact_take U.size_pos, Pod.flatMap_toNeBytes_chunks ne hwhole]

theorem encode_valuesOf {bytes : List UInt8} (hsmall : bytes.length ≤ isizeMax) :
    encode ne U (U.valuesOf ne bytes) = .ok (bytes.take (bytes.length / U.size * U.size)) := by
  have hfits : (U.valuesOf ne bytes).length * U.size ≤ isizeMax := by
    rw [Pod.length_valuesOf]
    exact (Nat.div_mul_le_self _ _).trans hsmall
  rw [encode_eq ne hfits, flatMap_toNeBytes_valuesOf]

/-- The remainder is empty exactly when the element size divides the length. -/
theorem take_whole_iff {bytes : List UInt8} {k : ℕ} :
    bytes.take (bytes.length / k * k) = bytes ↔ k ∣ bytes.length := by
  rw [List.take_eq_self_iff]
  constructor
  · intro h
    exact ⟨bytes.length / k, by rw [Nat.mul_comm]; exact le_antisymm h (Nat.div_mul_le_self _ _)⟩
  · intro h
    exact (Nat.div_mul_cancel h).ge

end Reading

/-! ## A completed gather -/

/-- What the operation of `req` left in its output buffer at the last reading. -/
def received (S : UccScript) (req : CollectiveRequest) (r : RequestRun) : List UInt8 :=
  match req.op with
  | some op => (S.buffer (r.readings - 1) op).toList
  | none => []

/-- `result::<U>()` of `req` is an error, or all of `out`; and a `U` that does not
fit is an error. -/
def KeepsData (ne : Endian) (U : Pod) (req : CollectiveRequest) (out : List UInt8) : Prop :=
  ((∃ e, req.result ne U = .err e) ∨
      ∃ xs, req.result ne U = .ok xs ∧ encode ne U xs = .ok out) ∧
    (¬ U.size ∣ out.length → ∃ e, req.result ne U = .err e)

/-- Asking for the size of a team is the whole exchange. -/
theorem size_exchange (team : UccTeam) :
    (team.size).Records collNote fun size t => t = [.sized size] := by
  refine Prog.Records.call fun answer => ?_
  cases answer with
  | error e => exact Prog.Records.of_ne_ok fun _ h => by cases h
  | ok size => exact Prog.Records.pure rfl

/-- Initializing and posting an operation. -/
theorem post_exchange {α : Type} {R : α → List CollEvent → Prop} {args : CollectiveBuilder}
    (team : UccTeam) {f : UccCollective → α} (h : ∀ id, R (f ⟨id, args⟩) [.posted ⟨id, args⟩]) :
    (args.init team >>= fun op => op.post >>= fun _ => pure (f op) : Fn α).Records collNote R := by
  refine Prog.Records.call fun answer => ?_
  cases answer with
  | error e => exact Prog.Records.of_ne_ok fun _ h => by cases h
  | ok id =>
    refine Prog.Records.call fun posted => ?_
    cases posted with
    | error e => exact Prog.Records.of_ne_ok fun _ h => by cases h
    | ok u => exact Prog.Records.pure (h id)

/-- A gather as it is posted: the contribution, an empty receive buffer for all
ranks, and the exchange with UCC that led to it. -/
theorem collectNb_records (ne : Endian) (l : Lock) (T : Pod) (values : List T.Value) :
    (collectNb ne l T values).Records collNote fun req t => ∃ op send ranks,
      req = openRequest op [send] none (some 1)
        (List.replicate (ranks * (values.length * T.size)) 0) ∧
      op.args.outLen = ranks * (values.length * T.size) ∧ op.args.outLen ≤ isizeMax ∧
      t = [.sized ranks, .posted op] := by
  rw [collectNb]
  split
  · exact Prog.Records.of_ne_ok fun _ h => by cases h
  refine withState_records fun state => Prog.Records.done_bind fun runtime _ => ?_
  refine Prog.Records.done_bind fun send hsend => ?_
  obtain ⟨-, hlen, -⟩ := encode_eq_ok ne hsend
  refine Prog.Records.bind (size_exchange _) ?_
  rintro ranks t rfl
  refine Prog.Records.done_bind fun len hmul => ?_
  obtain ⟨-, rfl⟩ := checkedMul_eq_some.mp (Outcome.okOr_eq_ok.mp hmul)
  have hrecv : send.length * ranks = ranks * (values.length * T.size) := by
    rw [hlen, Nat.mul_comm]
  rw [hrecv]
  split
  · next hsmall =>
    refine post_exchange _ fun id => ⟨_, send, ranks, rfl, ?_, ?_, rfl⟩
    · exact List.length_replicate
    · exact List.length_replicate.trans_le hsmall
  · exact Prog.Records.of_ne_ok fun _ h => by cases h

section Completed

variable {ne : Endian} {nm : NoMessage} {S : UccScript} {op : UccCollective}
variable {front : List (List UInt8)} {d : Option Destination} {i : Option ℕ} {last : List UInt8}

/-- A completed request holds what was received, in its last buffer. -/
theorem buffers_of_completed {r : RequestRun} (hinv : RequestInv ne S op front d i r)
    (hdone : Completed ne S (openRequest op front d i last) r) :
    r.req.op = none ∧ r.req.resultIndex = i ∧
      r.req.buffers = front ++ [received S (openRequest op front d i last) r] := by
  obtain ⟨op', n, hop, hread, hok, -, hfin, -⟩ := hdone
  cases hinv with
  | still_open last' m log before =>
    have hlt : n < m := by
      have : m = n + 1 := hread
      omega
    exact absurd hok (before n hlt)
  | completed m log hok' hfin' hlog => exact ⟨rfl, rfl, rfl⟩
  | unfinalized m log e hok' hbad =>
    rw [hfin] at hbad
    cases hbad

theorem length_received (r : RequestRun) :
    (received S (openRequest op front d i last) r).length = op.args.outLen :=
  List.Vector.toList_length _

/-- `result` of a completed gather is all of the buffer exactly when its elements
fit. -/
theorem keepsData_iff {req : CollectiveRequest} {out : List UInt8} (U : Pod)
    (hresult : req.result ne U = .ok (U.valuesOf ne out)) (hsmall : out.length ≤ isizeMax) :
    KeepsData ne U req out ↔ U.size ∣ out.length := by
  rw [KeepsData, hresult]
  constructor
  · rintro ⟨⟨e, he⟩ | ⟨xs, hxs, hencode⟩, -⟩
    · cases he
    · cases hxs
      rw [encode_valuesOf ne hsmall] at hencode
      exact take_whole_iff.mp (Outcome.ok.inj hencode)
  · intro hdvd
    refine ⟨Or.inr ⟨_, rfl, ?_⟩, fun hnot => absurd hdvd hnot⟩
    rw [encode_valuesOf ne hsmall, take_whole_iff.mpr hdvd]

/-- And the buffer of a completed gather is as long as was posted. -/
theorem keepsData_completed_iff {send : List UInt8} (calls : List RequestCall) (U : Pod)
    (hsmall : op.args.outLen ≤ isizeMax)
    (hdone : Completed ne S (openRequest op [send] none (some 1) last)
      ((requestMachine ne nm S).final ⟨openRequest op [send] none (some 1) last, 0, []⟩ calls)) :
    KeepsData ne U
        ((requestMachine ne nm S).final ⟨openRequest op [send] none (some 1) last, 0, []⟩ calls).req
        (received S (openRequest op [send] none (some 1) last)
          ((requestMachine ne nm S).final
            ⟨openRequest op [send] none (some 1) last, 0, []⟩ calls)) ↔
      U.size ∣ op.args.outLen := by
  obtain ⟨hop, hindex, hbuffers⟩ :=
    buffers_of_completed (RequestInv.run (fun _ h => by cases h) calls last) hdone
  have hresult := CollectiveRequest.result_eq ne (T := U) hop (by
    rw [hindex, hbuffers]
    rfl)
  rw [keepsData_iff U hresult (by rwa [length_received]), length_received]

end Completed

/-! ## The result -/

/-- **`result` keeps the gathered data exactly when it fits**: for every gather
that was posted and every use of its request after which it has completed,
`result::<U>()` is an error or the whole received buffer, and an error where `U`
does not fit, if and only if `U::SIZE` divides the length of the receive buffer,
`ranks * values.len() * T::SIZE`. -/
theorem result_keeps_data_iff {W : Type} (handler : Prog.Handler Ext W) (w : W) (ne : Endian)
    (nm : NoMessage) (S : UccScript) (l : Lock) (T : Pod) (values : List T.Value)
    {req : CollectiveRequest} {ranks : ℕ}
    (hpost : ((collectNb ne l T values).run (handler.noting collNote) (w, [])).1 = .ok req)
    (hranks : .sized ranks ∈
      ((collectNb ne l T values).run (handler.noting collNote) (w, [])).2.2)
    (calls : List RequestCall)
    (hdone : Completed ne S req ((requestMachine ne nm S).final ⟨req, 0, []⟩ calls)) (U : Pod) :
    KeepsData ne U ((requestMachine ne nm S).final ⟨req, 0, []⟩ calls).req
        (received S req ((requestMachine ne nm S).final ⟨req, 0, []⟩ calls)) ↔
      U.size ∣ ranks * (values.length * T.size) := by
  obtain ⟨op, send, ranks', rfl, hlen, hsmall, ht⟩ := (collectNb_records ne l T values).run hpost
  obtain rfl : ranks = ranks' := by
    rw [ht] at hranks
    simpa using hranks
  rw [keepsData_completed_iff calls U hsmall hdone, hlen]

/-- UCC completes an operation at the first reading and leaves these bytes. -/
def completesWith (bytes : List UInt8) : UccScript :=
  ⟨fun _ => uccOk, fun _ _ => .ofFn fun i => bytes.getD i 0, .ok ()⟩

/-- The request of a gather of three bytes, alone in the team. -/
def threeBytes : CollectiveRequest :=
  openRequest ⟨0, collectArgs .u8 [1, 2, 3] 3 3⟩ [[1, 2, 3]] none (some 1) [0, 0, 0]

theorem threeBytes_completed :
    Completed .little (completesWith [1, 2, 3]) threeBytes
      ((requestMachine .little noMessageMinusSix (completesWith [1, 2, 3])).final
        ⟨threeBytes, 0, []⟩ [.wait 1]) :=
  ⟨_, 0, rfl, rfl, rfl, List.mem_append_right _ (List.mem_singleton.mpr rfl), rfl, rfl⟩

theorem result_keeps_data_iff_instance :
    KeepsData .little .u8
        ((requestMachine .little noMessageMinusSix (completesWith [1, 2, 3])).final
          ⟨threeBytes, 0, []⟩ [.wait 1]).req
        (received (completesWith [1, 2, 3]) threeBytes
          ((requestMachine .little noMessageMinusSix (completesWith [1, 2, 3])).final
            ⟨threeBytes, 0, []⟩ [.wait 1])) := by
  have hposted : ((collectNb .little (.holding loneState) .u8 [1, 2, 3]).run
      ((accommodating 4096).noting collNote) ((), [])).1 = .ok threeBytes := rfl
  have hranks : CollEvent.sized 1 ∈ ((collectNb .little (.holding loneState) .u8 [1, 2, 3]).run
      ((accommodating 4096).noting collNote) ((), [])).2.2 := List.mem_cons_self
  exact (result_keeps_data_iff (accommodating 4096) () .little noMessageMinusSix _
    (.holding loneState) .u8 [1, 2, 3] hposted hranks [.wait 1] threeBytes_completed .u8).mpr
    (by decide)

/-- Three gathered bytes read as `u16` are one value. -/
theorem result_drops_remainder :
    ¬ ∀ (ne : Endian) (nm : NoMessage) (S : UccScript) (l : Lock) (T : Pod)
        (values : List T.Value) (req : CollectiveRequest) (calls : List RequestCall) (U : Pod),
      ((collectNb ne l T values).run (accommodating 4096) ()).1 = .ok req →
      Completed ne S req ((requestMachine ne nm S).final ⟨req, 0, []⟩ calls) →
      KeepsData ne U ((requestMachine ne nm S).final ⟨req, 0, []⟩ calls).req
        (received S req ((requestMachine ne nm S).final ⟨req, 0, []⟩ calls)) := by
  intro h
  have hkeeps := h .little noMessageMinusSix (completesWith [1, 2, 3]) (.holding loneState) .u8
    [1, 2, 3] threeBytes [.wait 1] .u16 rfl threeBytes_completed
  obtain ⟨e, he⟩ := hkeeps.2 (by decide)
  cases he

end OpenShmem
