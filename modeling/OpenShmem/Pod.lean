import OpenShmem.Bytes
import OpenShmem.Ext

/-!
# The typed interface of RMA

`Pod` in `src/rma.rs`: ten scalar types with a byte codec. The trait is sealed,
so it is an enumeration here. A value is its bit pattern, floats included, and
the byte order of the machine is a parameter.
-/

namespace OpenShmem

/-- The byte order of the machine. -/
inductive Endian : Type where
  | little | big
  deriving DecidableEq, Repr

/-- From least significant first to the order of the machine, and back. -/
def Endian.order : Endian → List UInt8 → List UInt8
  | little, bytes => bytes
  | big, bytes => bytes.reverse

@[simp] theorem Endian.length_order (ne : Endian) (bytes : List UInt8) :
    (ne.order bytes).length = bytes.length := by
  cases ne with
  | little => rfl
  | big => exact List.length_reverse

@[simp] theorem Endian.order_order (ne : Endian) (bytes : List UInt8) :
    ne.order (ne.order bytes) = bytes := by
  cases ne with
  | little => rfl
  | big => exact List.reverse_reverse bytes

/-- The types `T: Pod`. -/
inductive Pod : Type where
  | u8 | i8 | u16 | i16 | u32 | i32 | u64 | i64 | f32 | f64
  deriving DecidableEq, Repr

namespace Pod

/-- `T::SIZE`. -/
def size : Pod → ℕ
  | u8 | i8 => 1
  | u16 | i16 => 2
  | u32 | i32 | f32 => 4
  | u64 | i64 | f64 => 8

/-- `std::mem::size_of::<T>()`. -/
def sizeOf : Pod → ℕ
  | u8 => 1
  | i8 => 1
  | u16 => 2
  | i16 => 2
  | u32 => 4
  | i32 => 4
  | u64 => 8
  | i64 => 8
  | f32 => 4
  | f64 => 8

/-- A value of the type, as its bits. -/
abbrev Value (T : Pod) : Type := BitVec (8 * T.size)

/-- `T::ucc_datatype`. -/
def uccDatatype : Pod → DataType
  | u8 => .uint8
  | i8 => .int8
  | u16 => .uint16
  | i16 => .int16
  | u32 => .uint32
  | i32 => .int32
  | u64 => .uint64
  | i64 => .int64
  | f32 => .float32
  | f64 => .float64

/-- `T::reduction_supported`. -/
def reductionSupported : Pod → UccReductionOp → Bool
  | f32, op | f64, op => (op matches .sum | .min | .max)
  | _, op => (op matches .sum | .min | .max | .band | .bor | .bxor)

variable (ne : Endian) (T : Pod)

/-- `to_ne_bytes`. -/
def toNeBytes (v : T.Value) : List UInt8 := ne.order (leBytes T.size v.toNat)

/-- `from_ne_bytes`. -/
def fromNeBytes (bytes : List UInt8) : T.Value := BitVec.ofNat _ (ofLeBytes (ne.order bytes))

/-- `T::encode`, appending to `dst`. -/
def encode (v : T.Value) (dst : List UInt8) : List UInt8 := dst ++ T.toNeBytes ne v

/-- `T::decode`. -/
def decode (src : List UInt8) : Outcome Error T.Value :=
  if src.length = T.size then .ok (T.fromNeBytes ne src)
  else .err (.internal "invalid typed RMA byte count")

/-- `pod_as_bytes`: the object representation of a slice. -/
def podAsBytes (src : List T.Value) : Outcome Error (List UInt8) :=
  if T.size ≠ T.sizeOf then .err (.internal "Pod SIZE does not match size_of")
  else do
    let _ ← .okOr (checkedMul 64 src.length T.size) (.usage "typed RMA length overflow")
    return src.flatMap (T.toNeBytes ne)

variable {T}

theorem size_pos (T : Pod) : 0 < T.size := by
  cases T <;> decide

theorem size_eq_sizeOf (T : Pod) : T.size = T.sizeOf := by
  cases T <;> rfl

@[simp] theorem length_toNeBytes (v : T.Value) : (T.toNeBytes ne v).length = T.size := by
  rw [toNeBytes, Endian.length_order, length_leBytes]

/-- A value comes back from its bytes. -/
theorem fromNeBytes_toNeBytes (v : T.Value) : T.fromNeBytes ne (T.toNeBytes ne v) = v := by
  have hfits : v.toNat < 256 ^ T.size := by
    have := v.isLt
    rwa [pow_mul] at this
  rw [fromNeBytes, toNeBytes, Endian.order_order, ofLeBytes_leBytes, Nat.mod_eq_of_lt hfits,
    BitVec.ofNat_toNat, BitVec.setWidth_eq]

/-- Bytes of the right number come back from their value. -/
theorem toNeBytes_fromNeBytes {bytes : List UInt8} (h : bytes.length = T.size) :
    T.toNeBytes ne (T.fromNeBytes ne bytes) = bytes := by
  have hlen : (ne.order bytes).length = T.size := by rw [Endian.length_order, h]
  have hfits : ofLeBytes (ne.order bytes) < 2 ^ (8 * T.size) := by
    rw [pow_mul, ← hlen]
    exact ofLeBytes_lt _
  rw [toNeBytes, fromNeBytes, BitVec.toNat_ofNat, Nat.mod_eq_of_lt hfits, ← hlen,
    leBytes_ofLeBytes, Endian.order_order]

theorem length_flatMap_toNeBytes (xs : List T.Value) :
    (xs.flatMap (T.toNeBytes ne)).length = xs.length * T.size := by
  induction xs with
  | nil => simp
  | cons x xs ih =>
    rw [List.flatMap_cons, List.length_append, length_toNeBytes, ih, List.length_cons,
      Nat.add_one_mul, Nat.add_comm]

/-- The bytes of a slice are sent as they are, unless their number overflows. -/
theorem podAsBytes_eq_ok {xs : List T.Value} (h : xs.length * T.size < 2 ^ 64) :
    T.podAsBytes ne xs = .ok (xs.flatMap (T.toNeBytes ne)) := by
  have hmul : checkedMul 64 xs.length T.size = some (xs.length * T.size) :=
    checkedMul_eq_some.mpr ⟨h, rfl⟩
  rw [podAsBytes, if_neg (not_not_intro T.size_eq_sizeOf), hmul]
  rfl

/-- Cutting a byte string into chunks of the type's size and decoding each never
fails. -/
theorem collect_decode_chunks (bytes : List UInt8) :
    Outcome.collect ((chunksExact T.size bytes).map (T.decode ne)) =
      .ok ((chunksExact T.size bytes).map (T.fromNeBytes ne)) := by
  have hdecode : (chunksExact T.size bytes).map (T.decode ne) =
      (chunksExact T.size bytes).map fun c => .ok (T.fromNeBytes ne c) := by
    apply List.map_congr_left
    intro c hc
    exact if_pos (length_of_mem_chunksExact hc)
  rw [hdecode, Outcome.collect_map_ok]

/-- Decoding the bytes of a slice gives the slice back. -/
theorem map_fromNeBytes_chunks (xs : List T.Value) :
    (chunksExact T.size (xs.flatMap (T.toNeBytes ne))).map (T.fromNeBytes ne) = xs := by
  have hlen : ∀ c ∈ xs.map (T.toNeBytes ne), c.length = T.size := by
    intro c hc
    obtain ⟨x, -, rfl⟩ := List.mem_map.mp hc
    exact length_toNeBytes ne x
  rw [List.flatMap_def, chunksExact_flatten T.size_pos hlen, List.map_map]
  have hid : T.fromNeBytes ne ∘ T.toNeBytes ne = id := funext (fromNeBytes_toNeBytes ne)
  rw [hid, List.map_id]

/-- The bytes of a decoded byte string are that byte string. -/
theorem flatMap_toNeBytes_chunks {bytes : List UInt8} (h : T.size ∣ bytes.length) :
    ((chunksExact T.size bytes).map (T.fromNeBytes ne)).flatMap (T.toNeBytes ne) = bytes := by
  have hback : (chunksExact T.size bytes).map (T.toNeBytes ne ∘ T.fromNeBytes ne) =
      (chunksExact T.size bytes).map id := by
    apply List.map_congr_left
    intro c hc
    exact toNeBytes_fromNeBytes ne (length_of_mem_chunksExact hc)
  rw [List.flatMap_def, List.map_map, hback, List.map_id, flatten_chunksExact T.size_pos h]

example : toNeBytes .big u16 0x1234#16 = [0x12, 0x34] := by decide

end Pod

end OpenShmem
