import OpenShmem.Coll
import OpenShmem.Rma

/-!
# One wire format

Typed values are turned into bytes at three places: `encode` of the collectives
appends value by value, `pod_as_bytes` reads a slice as it lies in memory, and
`decode`, `get` and `result` each cut bytes into chunks. `Pod.wire` is what all
of them compute, a bijection between the slices of `n` values and the byte
strings of length `n * T::SIZE`.
-/

namespace OpenShmem

/-! ## The format -/

section Wire

variable (ne : Endian) {T : Pod}

/-- The values of a byte string, chunk by chunk. -/
def Pod.valuesOf (T : Pod) (bytes : List UInt8) : List T.Value :=
  (chunksExact T.size bytes).map (T.fromNeBytes ne)

theorem Pod.length_valuesOf (bytes : List UInt8) :
    (T.valuesOf ne bytes).length = bytes.length / T.size := by
  rw [valuesOf, List.length_map, chunksExact, List.length_map, List.length_range]

/-- The wire format of `n` values: their bytes in the order of the machine, one
value after the other. -/
def Pod.wire (T : Pod) (n : ℕ) : List.Vector T.Value n ≃ List.Vector UInt8 (n * T.size) where
  toFun xs := ⟨xs.toList.flatMap (T.toNeBytes ne), by
    rw [length_flatMap_toNeBytes, xs.toList_length]⟩
  invFun bs := ⟨T.valuesOf ne bs.toList, by
    rw [length_valuesOf, bs.toList_length, Nat.mul_div_cancel _ T.size_pos]⟩
  left_inv xs := List.Vector.eq _ _ (map_fromNeBytes_chunks ne xs.toList)
  right_inv bs := List.Vector.eq _ _ (flatMap_toNeBytes_chunks ne ⟨n, by
    rw [bs.toList_length, Nat.mul_comm]⟩)

end Wire

/-! ## Slices -/

/-- A slice `&[T]`: no allocation is larger than `isize::MAX` bytes. -/
structure Slice (T : Pod) : Type where
  /-- its elements -/
  values : List T.Value
  /-- its size in bytes -/
  small : values.length * T.size ≤ isizeMax

/-- A slice `&[u8]`. -/
structure ByteSlice : Type where
  /-- its bytes -/
  bytes : List UInt8
  /-- their number -/
  small : bytes.length ≤ isizeMax

/-- The bytes of a slice on the wire. -/
def Slice.bytes (ne : Endian) {T : Pod} (xs : Slice T) : List UInt8 :=
  (T.wire ne xs.values.length ⟨xs.values, rfl⟩).toList

/-- Every path between `xs` and the bytes `bytes`, both ways. -/
structure Wired (ne : Endian) {T : Pod} (xs : List T.Value) (bytes : List UInt8) : Prop where
  /-- the number of bytes -/
  length : bytes.length = xs.length * T.size
  /-- what the collectives send -/
  encoded : encode ne T xs = .ok bytes
  /-- the object representation -/
  represented : T.podAsBytes ne xs = .ok bytes
  /-- what `put` sends -/
  sent : ∀ fuel l pe offset, put ne fuel l T pe xs offset = putmem fuel l pe bytes offset
  /-- what the collectives write into a slice of that length -/
  decoded : ∀ dst : List T.Value, dst.length = xs.length → decode ne T bytes dst = (.ok (), xs)
  /-- the pipeline of `get` and `result` -/
  chunked : Outcome.collect ((chunksExact T.size bytes).map (T.decode ne)) = .ok xs
  /-- what `get` returns when these bytes come in -/
  got : ∀ {W : Type} (h : Prog.Handler Ext W) (w w' : W) fuel l pe offset,
    (getmem fuel l pe offset bytes.length).run h w = (.ok bytes, w') →
      (get ne fuel l T pe offset xs.length).run h w = (.ok xs, w')
  /-- what `result` returns when these bytes were gathered -/
  gathered : ∀ req : CollectiveRequest, req.op = none →
    (req.resultIndex.bind fun index => req.buffers[index]?) = some bytes →
      req.result ne T = .ok xs

section Paths

variable (ne : Endian) {T : Pod}

/-- The encoder of the collectives computes the wire format. -/
theorem encode_eq {xs : List T.Value} (hsmall : xs.length * T.size ≤ isizeMax) :
    encode ne T xs = .ok (xs.flatMap (T.toNeBytes ne)) := by
  have hlt : xs.length * T.size < 2 ^ 64 := by
    have : xs.length * T.size ≤ 2 ^ 63 - 1 := hsmall
    omega
  have hmul : checkedMul 64 xs.length T.size = some (xs.length * T.size) :=
    checkedMul_eq_some.mpr ⟨hlt, rfl⟩
  rw [encode, hmul, Outcome.okOr_some, Outcome.ok_bind, if_pos hsmall, foldl_encode,
    List.nil_append]
  rfl

/-- `put` of a slice is `putmem` of its bytes. -/
theorem put_eq {xs : List T.Value} {bytes : List UInt8} (h : T.podAsBytes ne xs = .ok bytes)
    (fuel : ℕ) (l : Lock) (pe offset : ℕ) :
    put ne fuel l T pe xs offset = putmem fuel l pe bytes offset := by
  rw [put, h, Fn.lift_ok_bind]

/-- `get` cuts what `getmem` brings in. -/
theorem get_eq {n : ℕ} (h : n * T.size < 2 ^ 64) (fuel : ℕ) (l : Lock) (pe offset : ℕ) :
    get ne fuel l T pe offset n =
      getmem fuel l pe offset (n * T.size) >>= fun bytes =>
        Fn.lift (Outcome.collect ((chunksExact T.size bytes).map (T.decode ne))) := by
  have hmul : checkedMul 64 n T.size = some (n * T.size) := checkedMul_eq_some.mpr ⟨h, rfl⟩
  rw [get, hmul, Fn.okOr_some_bind]

/-- `result` cuts the gathered buffer. -/
theorem CollectiveRequest.result_eq {req : CollectiveRequest} {buffer : List UInt8}
    (hop : req.op = none)
    (hbuffer : (req.resultIndex.bind fun index => req.buffers[index]?) = some buffer) :
    req.result ne T = .ok (T.valuesOf ne buffer) := by
  obtain ⟨index, hindex, hget⟩ := Option.bind_eq_some_iff.mp hbuffer
  rw [result, hop, hindex]
  simp only [Option.isSome_none, Bool.false_eq_true, if_false, Outcome.okOr_some,
    Outcome.ok_bind, hget]
  exact Pod.collect_decode_chunks ne buffer

/-- Every path of a slice goes through its wire format. -/
theorem Slice.wired (xs : Slice T) : Wired ne xs.values (xs.bytes ne) := by
  have hlen : (xs.bytes ne).length = xs.values.length * T.size := List.Vector.toList_length _
  have hsmall : xs.values.length * T.size ≤ 2 ^ 63 - 1 := xs.small
  have hlt : xs.values.length * T.size < 2 ^ 64 := by omega
  have hback : T.valuesOf ne (xs.bytes ne) = xs.values := Pod.map_fromNeBytes_chunks ne xs.values
  have hrep : T.podAsBytes ne xs.values = .ok (xs.bytes ne) := Pod.podAsBytes_eq_ok ne hlt
  have hchunked : Outcome.collect ((chunksExact T.size (xs.bytes ne)).map (T.decode ne)) =
      .ok xs.values := by
    rw [Pod.collect_decode_chunks]
    exact congrArg Outcome.ok hback
  refine ⟨hlen, encode_eq ne xs.small, hrep, put_eq ne hrep, ?_, hchunked, ?_, ?_⟩
  · intro dst hdst
    have hfits : (xs.bytes ne).length = dst.length * T.size := by rw [hlen, hdst]
    rw [decode_eq ne hfits (by rw [hlen]; exact xs.small)]
    exact congrArg (Prod.mk _) hback
  · intro W h w w' fuel l pe offset hget
    rw [hlen] at hget
    rw [get_eq ne hlt, Prog.run_bind_of_ok hget, hchunked]
    rfl
  · intro req hop hbuffer
    rw [CollectiveRequest.result_eq ne hop hbuffer, hback]

/-- A buffer of another length is refused, and the slice is left as it was. -/
theorem decode_refuses {bytes : List UInt8} {dst : List T.Value}
    (h : bytes.length ≠ dst.length * T.size) : ∃ e, decode ne T bytes dst = (.err e, dst) := by
  rw [decode]
  cases hmul : checkedMul 64 dst.length T.size with
  | none => exact ⟨_, rfl⟩
  | some len =>
    obtain ⟨-, rfl⟩ := checkedMul_eq_some.mp hmul
    dsimp only
    rw [if_pos h]
    exact ⟨_, rfl⟩

/-- A byte string of the slice's byte length comes back from the values it is
decoded to. -/
theorem encode_decode (bs : ByteSlice) {dst : List T.Value}
    (h : bs.bytes.length = dst.length * T.size) :
    ∃ ys : List T.Value, ys.length = dst.length ∧ decode ne T bs.bytes dst = (.ok (), ys) ∧
      encode ne T ys = .ok bs.bytes := by
  have hlen : (T.valuesOf ne bs.bytes).length = dst.length := by
    rw [Pod.length_valuesOf, h, Nat.mul_div_cancel _ T.size_pos]
  have hdvd : T.size ∣ bs.bytes.length := ⟨dst.length, by rw [h, Nat.mul_comm]⟩
  have hsmall : (T.valuesOf ne bs.bytes).length * T.size ≤ isizeMax := by
    rw [hlen, ← h]
    exact bs.small
  refine ⟨T.valuesOf ne bs.bytes, hlen, decode_eq ne h bs.small, ?_⟩
  rw [encode_eq ne hsmall]
  exact congrArg Outcome.ok (Pod.flatMap_toNeBytes_chunks ne hdvd)

end Paths

/-! ## The result -/

/-- **The typed codecs are one wire format**, for every type and byte order:
every path of a slice goes through the same bytes, as many as its elements take,
and gives the slice back; every byte string that fits a slice comes back from
the values it is decoded to; every other one is refused, and the slice is left
as it was. -/
theorem codecs_inverse (ne : Endian) (T : Pod) :
    (∀ xs : Slice T, Wired ne xs.values (xs.bytes ne)) ∧
      (∀ (bs : ByteSlice) (dst : List T.Value), bs.bytes.length = dst.length * T.size →
        ∃ ys : List T.Value, ys.length = dst.length ∧ decode ne T bs.bytes dst = (.ok (), ys) ∧
          encode ne T ys = .ok bs.bytes) ∧
      ∀ (bs : ByteSlice) (dst : List T.Value), bs.bytes.length ≠ dst.length * T.size →
        ∃ e, decode ne T bs.bytes dst = (.err e, dst) :=
  ⟨Slice.wired ne, fun bs _ h => encode_decode ne bs h, fun _ _ h => decode_refuses ne h⟩

example : encode .little .i16 [-2#16, 3#16] = .ok [0xfe, 0xff, 3, 0] := by decide

end OpenShmem
