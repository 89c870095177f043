import OpenShmem.SymHeap

/-!
# The layout of a heap

The abstract allocator: everything about a symmetric heap that is the same on
every PE. A `Layout` has offsets only. It knows no base address, no machine
words and no region, so it cannot overflow and it has no check that could fail
on one PE and pass on another. The heap of a PE is this layout placed at the
PE's own base (`HeapInv.malloc_cases`, `HeapInv.free_cases`, `Symmetry`).
-/

namespace OpenShmem

/-- Take `r` bytes off the first block that has them: the offset, and the list
that is left. -/
def firstFit (r : ℕ) : List Block → Option (ℕ × List Block)
  | [] => none
  | b :: l =>
    if r ≤ b.len then some (b.start, carve r b ++ l)
    else (firstFit r l).map fun p => (p.1, b :: p.2)

theorem firstFit_append {r : ℕ} {b : Block} (post : List Block) (hb : r ≤ b.len) :
    ∀ {pre : List Block}, (∀ a ∈ pre, a.len < r) →
      firstFit r (pre ++ b :: post) = some (b.start, pre ++ carve r b ++ post) := by
  intro pre
  induction pre with
  | nil =>
    intro _
    simp [firstFit, hb]
  | cons a pre ih =>
    intro hshort
    have ha : ¬ r ≤ a.len := Nat.not_le_of_lt (hshort a List.mem_cons_self)
    rw [List.cons_append, firstFit, if_neg ha, ih fun t ht => hshort t (List.mem_cons_of_mem _ ht)]
    rfl

/-- Nothing is taken exactly when every block is too short. -/
theorem firstFit_eq_none {r : ℕ} {l : List Block} :
    firstFit r l = none ↔ ∀ a ∈ l, a.len < r := by
  induction l with
  | nil => simp [firstFit]
  | cons a l ih =>
    rw [firstFit, List.forall_mem_cons]
    split
    · next ha => simp [Nat.not_lt_of_le ha]
    · next ha => rw [Option.map_eq_none_iff, ih, and_iff_right (Nat.lt_of_not_le ha)]

/-- The free list after a block is given back: sorted, then coalesced. -/
def release (freeList : List Block) (s : Block) : List Block :=
  ((freeList ++ [s]).insertionSort fun a b => a.start ≤ b.start).foldl push []

/-- Free blocks and live allocations, by offset. -/
@[ext] structure Layout : Type where
  /-- the free blocks -/
  freeList : List Block
  /-- the length of the allocation at an offset, if one is live there -/
  live : ℕ → Option ℕ

namespace Layout

/-- Where a request goes: its offset, its rounded size and the new free list. -/
def place (freeList : List Block) (size : ℕ) : Except Error (ℕ × ℕ × List Block) :=
  if size = 0 then .error (.usage "symmetric allocation size must be nonzero")
  else if 2 ^ 64 ≤ size + 7 then .error (.usage "symmetric allocation size overflow")
  else
    match firstFit ((size + 7) / 8 * 8) freeList with
    | none => .error (.usage "symmetric heap exhausted")
    | some (o, rest) => .ok (o, (size + 7) / 8 * 8, rest)

/-- Allocate: the offset of the new allocation. -/
def malloc (l : Layout) (size : ℕ) : Except Error ℕ × Layout :=
  match place l.freeList size with
  | .error e => (.error e, l)
  | .ok (o, r, rest) => (.ok o, ⟨rest, Function.update l.live o (some r)⟩)

/-- Free the allocation at an offset. -/
def free (l : Layout) (o : ℕ) : Except Error Unit × Layout :=
  match l.live o with
  | none => (.error (.usage "invalid symmetric pointer"), l)
  | some len => (.ok (), ⟨release l.freeList ⟨o, len⟩, Function.update l.live o none⟩)

end Layout

end OpenShmem
