import OpenShmem.HeapInv

/-!
# Heaps over whole runs

A heap comes from `withSize` and then sees any sequence of `malloc` and `free`
calls, with any sizes and any pointers, successful or failing. `Partitioned`
spells out what such a heap looks like in the terms of the two data structures:
free blocks and map entries are proper, aligned and inside the region, together
they tile it, and the free list is sorted and coalesced.
-/

namespace OpenShmem

/-- A call on a heap. -/
inductive HeapCall : Type where
  | malloc (size : ℕ)
  | free (ptr : SymPtr)
  deriving DecidableEq, Repr

/-- The heap a call leaves, whether it succeeds or fails. -/
def HeapCall.apply (h : SymHeap) : HeapCall → SymHeap
  | .malloc size => (h.malloc size).2
  | .free ptr => (h.free ptr).2

namespace SymHeap

/-- The heap after a sequence of calls. -/
def exec (h : SymHeap) (calls : List HeapCall) : SymHeap := calls.foldl HeapCall.apply h

/-- What a map entry of `h` covers, as offsets. -/
def entrySpan (h : SymHeap) (a len : ℕ) : Span := ⟨a - h.localBase, len⟩

/-- Free blocks and map entries tile the region, and the free list is sorted
and coalesced. -/
structure Partitioned (h : SymHeap) : Prop where
  /-- free blocks are proper, aligned and inside the region -/
  blocks : ∀ b ∈ h.freeList, 0 < b.len ∧ 8 ∣ b.start ∧ 8 ∣ b.len ∧ b.start + b.len ≤ h.capacity
  /-- map entries are proper, aligned and inside the region -/
  entries : ∀ a len, h.allocations[a]? = some len →
    h.localBase ≤ a ∧ 0 < len ∧ 8 ∣ a - h.localBase ∧ 8 ∣ len ∧ a - h.localBase + len ≤ h.capacity
  /-- free blocks are pairwise disjoint -/
  blocks_disjoint : h.freeList.Pairwise Span.Disjoint
  /-- map entries are pairwise disjoint -/
  entries_disjoint : ∀ a len a' len', h.allocations[a]? = some len →
    h.allocations[a']? = some len' → a ≠ a' → (h.entrySpan a len).Disjoint (h.entrySpan a' len')
  /-- no map entry overlaps a free block -/
  mixed_disjoint : ∀ a len, h.allocations[a]? = some len →
    ∀ b ∈ h.freeList, (h.entrySpan a len).Disjoint b
  /-- every byte of the region is free or allocated -/
  covered : ∀ x, x < h.capacity →
    (∃ b ∈ h.freeList, x ∈ b) ∨ ∃ a len, h.allocations[a]? = some len ∧ x ∈ h.entrySpan a len
  /-- the free list is strictly sorted by start -/
  sorted : h.freeList.Pairwise fun a b => a.start < b.start
  /-- no two free blocks are adjacent -/
  coalesced : h.freeList.Pairwise fun a b => a.stop ≠ b.start ∧ b.stop ≠ a.start
  /-- with nothing allocated the whole region is one free block -/
  whole : h.allocations = ∅ → h.freeList = [⟨0, h.capacity⟩]

theorem live_of_entry {h : SymHeap} (hI : HeapInv h) {a len : ℕ}
    (ha : h.allocations[a]? = some len) : h.Live (h.entrySpan a len) := by
  have hle := hI.keyed a len ha
  rw [Live, live, entrySpan, show h.localBase + (a - h.localBase) = a by omega]
  exact ha

end SymHeap

namespace HeapInv

open SymHeap

variable {h : SymHeap}

/-- With nothing allocated, the free list is one block. -/
theorem freeList_of_empty (hI : HeapInv h) (hpos : 0 < h.capacity) (hempty : h.allocations = ∅) :
    h.freeList = [⟨0, h.capacity⟩] := by
  have hnone : ∀ s, ¬ h.Live s := by
    intro s hs
    rw [Live, live, hempty, Std.ExtTreeMap.getElem?_empty] at hs
    cases hs
  refine hI.tidy.ext (tidy_singleton hpos ⟨Nat.dvd_zero _, Nat.dvd_mul_left _ _⟩) fun x => ?_
  rw [hI.partition x, mem_cover_cons, Span.mem_mk]
  simp [hnone]

/-- The inductive invariant says the heap is partitioned. -/
theorem partitioned (hI : HeapInv h) (hpos : 0 < h.capacity) : h.Partitioned where
  blocks := fun b hb => ⟨hI.tidy.proper b hb, (hI.tidy.grain b hb).1, (hI.tidy.grain b hb).2,
    hI.stop_le hb⟩
  entries := by
    intro a len ha
    obtain ⟨hlen, ⟨hstart, hdvd⟩, hstop⟩ := hI.sound _ (live_of_entry hI ha)
    exact ⟨hI.keyed a len ha, hlen, hstart, hdvd, hstop⟩
  blocks_disjoint := by
    refine hI.tidy.apart.imp ?_
    intro a b hab x hxa hxb
    rw [Span.mem_def] at hxa hxb
    omega
  entries_disjoint := by
    intro a len a' len' ha ha' hne
    have hle := hI.keyed a len ha
    have hle' := hI.keyed a' len' ha'
    refine hI.apart _ _ (live_of_entry hI ha) (live_of_entry hI ha') ?_
    simp only [entrySpan]
    omega
  mixed_disjoint := fun a len ha b hb => hI.live_disjoint_free (live_of_entry hI ha) hb
  covered := by
    intro x hx
    by_cases hfree : x ∈ cover h.freeList
    · exact Or.inl hfree
    · right
      rw [hI.partition x] at hfree
      push Not at hfree
      obtain ⟨s, hs, hxs⟩ := hfree hx
      refine ⟨h.localBase + s.start, s.len, hs, ?_⟩
      rw [entrySpan, Nat.add_sub_cancel_left]
      exact hxs
  sorted := by
    refine hI.tidy.apart.imp ?_
    intro a b hab
    exact lt_of_le_of_lt (Nat.le_add_right _ _) hab
  coalesced := by
    refine hI.tidy.apart.imp ?_
    intro a b hab
    simp only [Span.stop] at hab ⊢
    omega
  whole := hI.freeList_of_empty hpos

end HeapInv

namespace SymHeap

/-! ## Runs -/

/-- What `withSize` returns when it accepts a size. -/
theorem withSize_sat (size : ℕ) :
    (withSize size).Sat (fun _ => True) fun o => ∀ h, o = .ok h →
      ∃ region rkey, alignment ≤ size ∧ h = fresh ((size + 7) / 8) region rkey := by
  unfold withSize
  split
  · intro h hh
    cases hh
  · next hsize =>
    refine Prog.Sat.bind ?_
    rcases hpad : checkedAdd 64 size (8 - 1) with _ | padded
    · intro h hh
      cases hh
    · obtain ⟨-, rfl⟩ := checkedAdd_eq_some.mp hpad
      show Prog.Sat _ _ (dite _ _ _)
      split
      · refine ⟨trivial, fun region => ⟨trivial, fun mapped => ?_⟩⟩
        cases mapped with
        | error s =>
          intro h hh
          cases hh
        | ok u =>
          refine ⟨trivial, fun packed => ?_⟩
          cases packed with
          | error s =>
            intro h hh
            cases hh
          | ok rkey =>
            intro h hh
            cases hh
            exact ⟨region, rkey, Nat.le_of_not_lt hsize, rfl⟩
      · intro h hh
        cases hh

/-- A heap that `withSize` returns is fresh and not empty. -/
theorem withSize_ok {W : Type} {handler : Prog.Handler Ext W} {w : W} {size : ℕ} {heap : SymHeap}
    (hnew : ((withSize size).run handler w).1 = .ok heap) :
    ∃ words region rkey, 0 < words ∧ heap = fresh words region rkey := by
  obtain ⟨region, rkey, hsize, rfl⟩ := (withSize_sat size).run handler w heap hnew
  refine ⟨_, region, rkey, ?_, rfl⟩
  have : 8 ≤ size := hsize
  omega

/-- No call changes the region. -/
theorem capacity_apply (h : SymHeap) (c : HeapCall) : (c.apply h).capacity = h.capacity := by
  cases c with
  | malloc size =>
    unfold HeapCall.apply malloc
    dsimp only
    split <;> rfl
  | free ptr =>
    unfold HeapCall.apply free
    dsimp only
    repeat' split
    all_goals rfl

end SymHeap

/-- The invariant after one call. -/
theorem HeapInv.apply {h : SymHeap} (hI : HeapInv h) (c : HeapCall) : HeapInv (c.apply h) := by
  cases c with
  | malloc size => exact hI.malloc size
  | free ptr => exact hI.free ptr

/-- The invariant after any sequence of calls. -/
theorem HeapInv.exec {h : SymHeap} (hI : HeapInv h) (calls : List HeapCall) :
    HeapInv (h.exec calls) :=
  calls.foldlRecOn HeapCall.apply hI fun _ hI c _ => hI.apply c

theorem SymHeap.capacity_exec (h : SymHeap) (calls : List HeapCall) :
    (h.exec calls).capacity = h.capacity :=
  calls.foldlRecOn (motive := fun h' => h'.capacity = h.capacity) HeapCall.apply rfl
    fun h' hh' c _ => (h'.capacity_apply c).trans hh'

/-- **The representation invariant**: every heap that `withSize` accepts is
partitioned after every sequence of calls. -/
theorem heap_partitioned {W : Type} (handler : Prog.Handler Ext W) (w : W) (size : ℕ)
    {heap : SymHeap} (hnew : ((SymHeap.withSize size).run handler w).1 = .ok heap)
    (calls : List HeapCall) : (heap.exec calls).Partitioned := by
  obtain ⟨words, region, rkey, hwords, rfl⟩ := SymHeap.withSize_ok hnew
  refine ((HeapInv.fresh hwords region rkey).exec calls).partitioned ?_
  rw [SymHeap.capacity_exec]
  exact Nat.mul_pos hwords (by decide)

/-- The invariant holds of a heap of 20 bytes (rounded up to 24) in which a
block was allocated, a foreign pointer refused, and the block freed again. -/
theorem heap_partitioned_instance :
    ((SymHeap.fresh 3 ⟨4096, by decide, by decide⟩ [1, 2, 3, 4]).exec
      [.malloc 9, .free ⟨4100⟩, .free ⟨4096⟩]).Partitioned :=
  heap_partitioned (accommodating 4096) () 20 rfl _

end OpenShmem
