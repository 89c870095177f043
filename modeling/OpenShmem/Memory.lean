import OpenShmem.Prog
import OpenShmem.Span

/-!
# The memories of a job

A library. `Memories κ` is what every processing element holds at every
address, with cells of any type; `write` and `read` move a list of cells, and
the two laws are read-over-write and the frame rule.

A `Network` says what the memories of a world are, now and once the writes in
flight have landed. Its two readings agree in a `Quiet` world.
-/

namespace OpenShmem

/-- The cell at an address of a PE. -/
abbrev Memories (κ : Type) : Type := ℕ → ℕ → κ

namespace Memories

variable {κ : Type}

/-- Overwrite the cells of PE `k` from `addr` on. -/
def write (m : Memories κ) (k addr : ℕ) (cells : List κ) : Memories κ := fun j a =>
  if j = k ∧ addr ≤ a then cells[a - addr]?.getD (m j a) else m j a

/-- `len` cells of PE `k` from `addr` on. -/
def read (m : Memories κ) (k addr len : ℕ) : List κ :=
  (List.range len).map fun i => m k (addr + i)

/-- What was written is read. -/
theorem read_write (m : Memories κ) (k addr : ℕ) (cells : List κ) :
    (m.write k addr cells).read k addr cells.length = cells := by
  apply List.ext_getElem
  · rw [read, List.length_map, List.length_range]
  · intro i _ hi
    simp only [read, List.getElem_map, List.getElem_range]
    rw [write, if_pos ⟨rfl, Nat.le_add_right _ _⟩, Nat.add_sub_cancel_left,
      List.getElem?_eq_getElem hi]
    rfl

/-- **Frame**: everything outside the written span is as it was. -/
theorem write_of_outside (m : Memories κ) {k addr j a : ℕ} {cells : List κ}
    (h : ¬ (j = k ∧ a ∈ (⟨addr, cells.length⟩ : Span))) : m.write k addr cells j a = m j a := by
  rw [write]
  split
  · next hin =>
    have hpast : cells.length ≤ a - addr := by
      by_contra hlt
      refine h ⟨hin.1, Span.mem_mk.mpr ⟨hin.2, ?_⟩⟩
      omega
    rw [List.getElem?_eq_none hpast]
    rfl
  · rfl

@[simp] theorem write_nil (m : Memories κ) (k addr : ℕ) : m.write k addr [] = m := by
  funext j a
  refine m.write_of_outside ?_
  rintro ⟨-, hle, hlt⟩
  exact absurd hlt (Nat.not_lt.mpr hle)

end Memories

/-- What the memories are in a world. -/
structure Network (W κ : Type) : Type where
  /-- what a read sees now -/
  mem : W → Memories κ
  /-- what a read sees once every write in flight has landed -/
  settled : W → Memories κ

namespace Network

variable {W κ : Type} (N : Network W κ)

/-- No write is in flight. -/
def Quiet (w : W) : Prop := N.mem w = N.settled w

/-- `w'` is a world after `w` in which the writes in flight at `w` have landed
and no other was made. -/
def Landed (w w' : W) : Prop := N.settled w' = N.settled w ∧ N.Quiet w'

/-- Nothing was written between `w` and `w'`; writes in flight may have landed. -/
def Unwritten (w w' : W) : Prop := N.settled w' = N.settled w ∧ (N.Quiet w → N.Quiet w')

variable {N}

theorem Unwritten.trans {w₁ w₂ w₃ : W} (h : N.Unwritten w₁ w₂) (h' : N.Unwritten w₂ w₃) :
    N.Unwritten w₁ w₃ :=
  ⟨h'.1.trans h.1, fun hq => h'.2 (h.2 hq)⟩

/-- Reading a quiet world is reading what was settled before. -/
theorem Landed.mem_eq {w w' : W} (h : N.Landed w w') : N.mem w' = N.settled w :=
  h.2.trans h.1

end Network

end OpenShmem
