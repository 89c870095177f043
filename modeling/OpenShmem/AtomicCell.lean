import Mathlib.Data.Int.Bitwise

/-!
# Atomic operations on one cell

A library. An `AtomicOp` is a read-modify-write operation on one cell; what it
does is given by the arithmetic of the cell's values, a `CellArith`. There are
three: the one of words of `w` bits (`word`), and those of the numbers that such
words stand for, without a sign (`unsigned`) and in two's complement (`signed`).

A `CellArith.Hom` is a reading of values as other values that is faithful to the
operations. Reading the words as numbers is one, with and without a sign; so a
history of a cell of words, read as numbers, is a history of a cell of numbers
(`Replays.map`).
-/

namespace OpenShmem

/-- The arithmetic of a cell's values. -/
structure CellArith (α : Type) : Type where
  add : α → α → α
  xor : α → α → α
  and : α → α → α
  or : α → α → α

/-- A read-modify-write operation; the last four also say what they found. -/
inductive AtomicOp (α : Type) : Type where
  | add (v : α)
  | xor (v : α)
  | swap (v : α)
  | and (v : α)
  | or (v : α)
  | cswap (expected replacement : α)
  | fadd (v : α)
  | fxor (v : α)
  | fswap (v : α)
  | fcswap (expected replacement : α)
  deriving DecidableEq, Repr

namespace AtomicOp

variable {α β : Type}

/-- What the cell holds after the operation. -/
def next [DecidableEq α] (A : CellArith α) : AtomicOp α → α → α
  | add v, x => A.add x v
  | xor v, x => A.xor x v
  | swap v, _ => v
  | and v, x => A.and x v
  | or v, x => A.or x v
  | cswap expected replacement, x => if x = expected then replacement else x
  | fadd v, x => A.add x v
  | fxor v, x => A.xor x v
  | fswap v, _ => v
  | fcswap expected replacement, x => if x = expected then replacement else x

/-- What the operation answers: nothing, or what the cell held. -/
def fetched : AtomicOp α → α → Option α
  | add _, _ | xor _, _ | swap _, _ | and _, _ | or _, _ | cswap _ _, _ => none
  | fadd _, x | fxor _, x | fswap _, x | fcswap _ _, x => some x

/-- The operation with other operands. -/
def map (f : α → β) : AtomicOp α → AtomicOp β
  | add v => add (f v)
  | xor v => xor (f v)
  | swap v => swap (f v)
  | and v => and (f v)
  | or v => or (f v)
  | cswap expected replacement => cswap (f expected) (f replacement)
  | fadd v => fadd (f v)
  | fxor v => fxor (f v)
  | fswap v => fswap (f v)
  | fcswap expected replacement => fcswap (f expected) (f replacement)

theorem map_map {γ : Type} (f : α → β) (g : β → γ) (op : AtomicOp α) :
    (op.map f).map g = op.map fun v => g (f v) := by
  cases op <;> rfl

theorem fetched_map (f : α → β) (op : AtomicOp α) (x : α) :
    (op.map f).fetched (f x) = (op.fetched x).map f := by
  cases op <;> rfl

end AtomicOp

/-! ## Histories -/

/-- What has been done to a cell, oldest first: by whom, which operation, and
what it answered. -/
abbrev History (ι α : Type) : Type := List (ι × AtomicOp α × Option α)

/-- The history leads from the one value to the other, and every answer in it is
the right one. -/
def Replays {ι α : Type} [DecidableEq α] (A : CellArith α) : α → History ι α → α → Prop
  | x, [], y => x = y
  | x, (_, op, answer) :: rest, y => answer = op.fetched x ∧ Replays A (op.next A x) rest y

/-- A reading of values that is faithful to the operations. -/
structure CellArith.Hom {α β : Type} (A : CellArith α) (B : CellArith β) (f : α → β) : Prop where
  injective : Function.Injective f
  add : ∀ x y, f (A.add x y) = B.add (f x) (f y)
  xor : ∀ x y, f (A.xor x y) = B.xor (f x) (f y)
  and : ∀ x y, f (A.and x y) = B.and (f x) (f y)
  or : ∀ x y, f (A.or x y) = B.or (f x) (f y)

section Reading

variable {ι α β : Type} [DecidableEq α] [DecidableEq β] {A : CellArith α} {B : CellArith β}
  {f : α → β}

theorem AtomicOp.next_map (hf : A.Hom B f) (op : AtomicOp α) (x : α) :
    (op.map f).next B (f x) = f (op.next A x) := by
  have hif : ∀ e r, (if f x = f e then f r else f x) = f (if x = e then r else x) := by
    intro e r
    simp only [hf.injective.eq_iff]
    split <;> rfl
  cases op with
  | add v => exact (hf.add x v).symm
  | xor v => exact (hf.xor x v).symm
  | swap v => rfl
  | and v => exact (hf.and x v).symm
  | or v => exact (hf.or x v).symm
  | cswap e r => exact hif e r
  | fadd v => exact (hf.add x v).symm
  | fxor v => exact (hf.xor x v).symm
  | fswap v => rfl
  | fcswap e r => exact hif e r

/-- The history of a cell, read as other values. -/
def History.read (f : α → β) (h : History ι α) : History ι β :=
  h.map (Prod.map id (Prod.map (AtomicOp.map f) (Option.map f)))

/-- **Histories can be read as other values.** -/
theorem Replays.map (hf : A.Hom B f) {x y : α} {h : History ι α} (hh : Replays A x h y) :
    Replays B (f x) (h.read f) (f y) := by
  induction h generalizing x with
  | nil => exact congrArg f hh
  | cons e rest ih =>
    obtain ⟨i, op, answer⟩ := e
    obtain ⟨rfl, hrest⟩ := hh
    refine ⟨(op.fetched_map f x).symm, ?_⟩
    rw [AtomicOp.next_map hf]
    exact ih hrest

/-- One more operation. -/
theorem Replays.snoc {x y : α} {h : History ι α} (hh : Replays A x h y) (i : ι)
    (op : AtomicOp α) : Replays A x (h ++ [(i, op, op.fetched y)]) (op.next A y) := by
  induction h generalizing x with
  | nil =>
    obtain rfl : x = y := hh
    exact ⟨rfl, rfl⟩
  | cons e rest ih =>
    obtain ⟨j, op', answer⟩ := e
    exact ⟨hh.1, ih hh.2⟩

end Reading

/-! ## Words and the numbers they stand for -/

/-- Numbers are the same if all their bits are. -/
theorem int_eq_of_testBit {m n : ℤ} (h : ∀ i, m.testBit i = n.testBit i) : m = n := by
  -- beyond both magnitudes the bits show the sign
  have hsign : ∀ a b : ℕ, ¬ ∀ i, (Int.ofNat a).testBit i = (Int.negSucc b).testBit i := by
    intro a b hab
    have hlarge := hab (a + b)
    have ha : a < 2 ^ (a + b) := Nat.lt_of_le_of_lt (Nat.le_add_right a b) Nat.lt_two_pow_self
    have hb : b < 2 ^ (a + b) := Nat.lt_of_le_of_lt (Nat.le_add_left b a) Nat.lt_two_pow_self
    simp [Int.testBit, Nat.testBit_lt_two_pow ha, Nat.testBit_lt_two_pow hb] at hlarge
  cases m with
  | ofNat m =>
    cases n with
    | ofNat n => exact congrArg Int.ofNat (Nat.eq_of_testBit_eq h)
    | negSucc n => exact absurd h (hsign m n)
  | negSucc m =>
    cases n with
    | ofNat n => exact absurd (fun i => (h i).symm) (hsign n m)
    | negSucc n =>
      refine congrArg Int.negSucc (Nat.eq_of_testBit_eq fun i => ?_)
      simpa [Int.testBit] using h i

section Words

variable {w : ℕ}

/-- The bits of a word with the sign, which goes on for ever. -/
theorem testBit_toInt (x : BitVec w) (i : ℕ) :
    x.toInt.testBit i = if i < w then x.getLsbD i else x.msb := by
  have hx := x.isLt
  rw [BitVec.toInt_eq_msb_cond]
  cases hmsb : x.msb with
  | false =>
    show x.toNat.testBit i = _
    split
    · rfl
    · next hi => exact BitVec.getLsbD_of_ge x i (Nat.le_of_not_lt hi)
  | true =>
    -- a negative number is the complement of one less than its magnitude
    have hneg : (x.toNat : ℤ) - ((2 ^ w : ℕ) : ℤ) = Int.negSucc (2 ^ w - (x.toNat + 1)) := by omega
    rw [if_pos rfl, hneg]
    show (!(2 ^ w - (x.toNat + 1)).testBit i) = _
    rw [Nat.testBit_two_pow_sub_succ hx]
    by_cases hi : i < w <;> simp [hi, BitVec.getLsbD]

theorem toInt_and_eq (x y : BitVec w) : (x &&& y).toInt = Int.land x.toInt y.toInt := by
  refine int_eq_of_testBit fun i => ?_
  rw [Int.testBit_land]
  simp only [testBit_toInt]
  split <;> simp

theorem toInt_or_eq (x y : BitVec w) : (x ||| y).toInt = Int.lor x.toInt y.toInt := by
  refine int_eq_of_testBit fun i => ?_
  rw [Int.testBit_lor]
  simp only [testBit_toInt]
  split <;> simp

theorem toInt_xor_eq (x y : BitVec w) : (x ^^^ y).toInt = Int.xor x.toInt y.toInt := by
  refine int_eq_of_testBit fun i => ?_
  rw [Int.testBit_lxor]
  simp only [testBit_toInt]
  split <;> simp

end Words

namespace CellArith

/-- Words of `w` bits: addition modulo `2 ^ w`, and bit by bit. -/
def word (w : ℕ) : CellArith (BitVec w) where
  add := (· + ·)
  xor := (· ^^^ ·)
  and := (· &&& ·)
  or := (· ||| ·)

/-- Numbers of `w` bits without a sign: addition wraps around at `2 ^ w`. -/
def unsigned (w : ℕ) : CellArith ℤ where
  add x y := (x + y) % 2 ^ w
  xor := Int.xor
  and := Int.land
  or := Int.lor

/-- Numbers of `w` bits in two's complement: addition wraps around at
`2 ^ (w - 1)`, and the sign is the bit that goes on for ever. -/
def signed (w : ℕ) : CellArith ℤ where
  add x y := (x + y).bmod (2 ^ w)
  xor := Int.xor
  and := Int.land
  or := Int.lor

variable (w : ℕ)

/-- Words stand for numbers without a sign. -/
theorem word_hom_unsigned : (word w).Hom (unsigned w) fun x => (x.toNat : ℤ) where
  injective x y h := BitVec.eq_of_toNat_eq (Int.ofNat_inj.mp h)
  add x y := by
    show ((x + y).toNat : ℤ) = (x.toNat + y.toNat : ℤ) % 2 ^ w
    rw [BitVec.toNat_add]
    push_cast
    rfl
  xor _ _ := rfl
  and _ _ := rfl
  or _ _ := rfl

/-- Words stand for numbers in two's complement. -/
theorem word_hom_signed : (word w).Hom (signed w) BitVec.toInt where
  injective _ _ h := BitVec.eq_of_toInt_eq h
  add := BitVec.toInt_add
  xor := toInt_xor_eq
  and := toInt_and_eq
  or := toInt_or_eq

end CellArith

example : (AtomicOp.fadd (-5 : ℤ)).next (.signed 32) 3 = -2 := by decide

example : (AtomicOp.xor (-1 : ℤ)).next (.signed 32) 5 = -6 := by decide

example : (AtomicOp.add (1 : ℤ)).next (.signed 32) 2147483647 = -2147483648 := by decide

end OpenShmem
