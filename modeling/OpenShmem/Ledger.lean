import Mathlib.Data.Nat.Find
import Mathlib.Logic.Function.Basic
import OpenShmem.Span

/-!
# The ledger of an allocator

What an allocator is for, without a word about how it finds free space: a
ledger says which spans are live, and how many numbers there are in all. There
is `Room` for a request wherever it fits between the live spans, `lowest` is
the least such place, and the two moves are to `enter` a span and to `strike`
one. Nothing here is computed from a free list, so an implementation that
refines a ledger cannot lose space to fragmentation of its own making, and
cannot remember in which order its spans came and went.
-/

namespace OpenShmem

/-- Which spans are live, by their start, below a capacity. -/
@[ext] structure Ledger : Type where
  capacity : ℕ
  /-- the length of the live span that starts here, if there is one -/
  live : ℕ → Option ℕ

namespace Ledger

variable {L : Ledger} {r s o : ℕ}

/-- `t` is a live span. -/
def Live (L : Ledger) (t : Span) : Prop := L.live t.start = some t.len

/-- `r` numbers from `s` on are below the capacity and in no live span. -/
def Room (L : Ledger) (r s : ℕ) : Prop :=
  s + r ≤ L.capacity ∧ ∀ t, L.Live t → (⟨s, r⟩ : Span).Disjoint t

open Classical in
/-- The lowest place with room. -/
noncomputable def lowest (L : Ledger) (r : ℕ) : Option ℕ :=
  if h : ∃ s, L.Room r s then some (Nat.find h) else none

theorem lowest_eq_some : L.lowest r = some s ↔ IsLeast {s | L.Room r s} s := by
  classical
  rw [lowest]
  split
  · next h =>
    have hleast : IsLeast {s | L.Room r s} (Nat.find h) :=
      ⟨Nat.find_spec h, fun _ hs => Nat.find_min' h hs⟩
    rw [Option.some.injEq]
    constructor
    · rintro rfl
      exact hleast
    · exact fun hs => hleast.unique hs
  · next h =>
    constructor
    · intro hs
      cases hs
    · exact fun hs => absurd ⟨s, hs.1⟩ h

theorem lowest_eq_none : L.lowest r = none ↔ ¬ ∃ s, L.Room r s := by
  rw [lowest]
  split
  · next h => simp [h]
  · next h => simp only [h, not_false_eq_true]

/-- `⟨s, r⟩` becomes live. -/
def enter (L : Ledger) (s r : ℕ) : Ledger := { L with live := Function.update L.live s (some r) }

/-- The span that starts at `o` is live no more. -/
def strike (L : Ledger) (o : ℕ) : Ledger := { L with live := Function.update L.live o none }

/-- Striking what was entered at an unused place leads back. -/
theorem strike_enter (h : L.live s = none) : (L.enter s r).strike s = L := by
  ext1
  · rfl
  · show Function.update (Function.update L.live s (some r)) s none = L.live
    rw [Function.update_idem, ← h, Function.update_eq_self]

/-- Striking where nothing starts does nothing. -/
theorem strike_of_none (h : L.live o = none) : L.strike o = L := by
  ext1
  · rfl
  · show Function.update L.live o none = L.live
    rw [← h, Function.update_eq_self]

/-- Strikes commute. -/
theorem strike_comm (L : Ledger) (o o' : ℕ) : (L.strike o).strike o' = (L.strike o').strike o := by
  rcases eq_or_ne o o' with rfl | hne
  · rfl
  · ext1
    · rfl
    · exact Function.update_comm hne _ _ _

/-- Where there is room for a nonempty span, no nonempty live span starts. -/
theorem Room.live_eq_none (h : L.Room r s) (hr : 0 < r) (hpos : ∀ t, L.Live t → 0 < t.len) :
    L.live s = none := by
  rcases hlive : L.live s with _ | n
  · rfl
  · have hn : 0 < n := hpos ⟨s, n⟩ hlive
    refine absurd ⟨le_refl _, ?_⟩ (h.2 ⟨s, n⟩ hlive s ⟨le_refl _, ?_⟩)
    · exact Nat.lt_add_of_pos_right hr
    · exact Nat.lt_add_of_pos_right hn

end Ledger

end OpenShmem
