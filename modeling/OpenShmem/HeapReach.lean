import OpenShmem.HeapHistory
import OpenShmem.Tiling

/-!
# Which heaps there are

That every heap is partitioned says what the allocator keeps true; here is the other half,
that nothing else is true of its heaps. Any way of laying aligned spans into a region is
one that calls lead to: fill the region up, with the spans that are to stay and with words
where nothing is to be, and free the words.
-/

namespace OpenShmem

namespace SymHeap

theorem exec_append (h : SymHeap) (calls calls' : List HeapCall) :
    h.exec (calls ++ calls') = (h.exec calls).exec calls' :=
  List.foldl_append

/-- Calls change the free list and the map only. -/
theorem exec_frame (h : SymHeap) (calls : List HeapCall) :
    h.exec calls = { h with
      freeList := (h.exec calls).freeList
      allocations := (h.exec calls).allocations } := by
  induction calls generalizing h with
  | nil => rfl
  | cons c calls ih =>
    have hstep : ∃ freeList allocations, c.apply h = { h with freeList, allocations } :=
      ⟨_, _, c.apply_frame h⟩
    obtain ⟨freeList, allocations, hstep⟩ := hstep
    have hexec : h.exec (c :: calls) = (c.apply h).exec calls := rfl
    rw [hexec, hstep]
    exact ih _

theorem roundUp_of_dvd {size : ℕ} (h : 8 ∣ size) : roundUp size = size := by
  unfold roundUp
  omega

theorem ledger_fresh (words : ℕ) (region : Region words) (rkey : List UInt8) :
    (fresh words region rkey).ledger = ⟨words * 8, fun _ => none⟩ := by
  ext1
  · rfl
  · exact funext fun _ => Std.ExtTreeMap.getElem?_empty

end SymHeap

namespace HeapInv

open SymHeap

variable {h : SymHeap} {L : Ledger} {x : ℕ}

theorem ledger_proper (hI : HeapInv h) : h.ledger.Proper 8 where
  step := by decide
  whole := Nat.dvd_mul_left 8 h.words
  sound := hI.sound
  apart := hI.apart

/-- What is partitioned keeps the inductive invariant. -/
theorem of_partitioned (hP : h.Partitioned) : HeapInv h where
  tidy := by
    refine ⟨?_, fun b hb => (hP.blocks b hb).1, fun b hb =>
      ⟨(hP.blocks b hb).2.1, (hP.blocks b hb).2.2.1⟩⟩
    refine ((hP.sorted.and hP.coalesced).and hP.blocks_disjoint).imp_of_mem ?_
    rintro a b - hb ⟨⟨hlt, htouch, -⟩, hdisjoint⟩
    have hpos := (hP.blocks b hb).1
    have hnot : b.start ∉ a := fun hmem => hdisjoint b.start hmem ⟨le_rfl, by
      unfold Span.stop
      omega⟩
    rw [Span.mem_def] at hnot
    omega
  keyed a len ha := (hP.entries a len ha).1
  sound s hs := by
    obtain ⟨-, hpos, hstart, hlen, hstop⟩ := hP.entries _ _ hs
    rw [Nat.add_sub_cancel_left] at hstart hstop
    exact ⟨hpos, ⟨hstart, hlen⟩, hstop⟩
  apart s t hs ht hne := by
    have hdisjoint := hP.entries_disjoint _ _ _ _ hs ht fun heq => hne (Nat.add_left_cancel heq)
    rw [entrySpan, entrySpan, Nat.add_sub_cancel_left, Nat.add_sub_cancel_left] at hdisjoint
    exact hdisjoint
  partition x := by
    constructor
    · rintro ⟨b, hb, hx⟩
      refine ⟨lt_of_lt_of_le hx.2 (hP.blocks b hb).2.2.2, fun s hs hxs => ?_⟩
      refine hP.mixed_disjoint _ _ hs b hb x ?_ hx
      rw [entrySpan, Nat.add_sub_cancel_left]
      exact hxs
    · rintro ⟨hlt, hout⟩
      obtain hfree | ⟨a, len, ha, hx⟩ := hP.covered x hlt
      · exact hfree
      · have hle := (hP.entries a len ha).1
        refine absurd hx (hout _ ?_)
        rw [Live, live, entrySpan, Nat.add_sub_cancel' hle]
        exact ha

/-- Tile after tile, up to the end. -/
theorem fill (hL : L.Proper 8) (hI : HeapInv h) (hx : L.Boundary 8 x)
    (hledger : h.ledger = L.tiled 8 0 x) :
    ∃ calls, (h.exec calls).ledger = L.tiled 8 0 L.capacity := by
  induction hk : L.capacity - x using Nat.strong_induction_on generalizing h x with
  | _ k ih =>
    obtain heq | hlt := Nat.eq_or_lt_of_le hx.le
    · exact ⟨[], by rw [← heq]; exact hledger⟩
    · obtain ⟨hpos, hdvd, hnext⟩ := hx.tile hL hlt
      have hround := roundUp_of_dvd hdvd
      have hleast := hx.isLeast hL hlt
      have hsmall : L.tileAt 8 x + 7 < 2 ^ 64 := by
        have hcap : h.capacity = L.capacity := congrArg Ledger.capacity hledger
        have hregion : h.words * 8 ≤ 2 ^ 63 - 1 := h.region.small
        have hfit := hnext.le
        rw [← hcap, SymHeap.capacity] at hfit
        omega
      have hmalloc : (h.malloc (L.tileAt 8 x)).2.ledger = L.tiled 8 0 (x + L.tileAt 8 x) := by
        obtain ⟨e, -, hno⟩ | ⟨s, -, -, hlow, -, hafter⟩ := hI.malloc_ledger (L.tileAt 8 x)
        · rw [hledger, hround] at hno
          exact absurd ⟨Nat.ne_of_gt hpos, hsmall, x, hleast.1⟩ hno
        · rw [hledger, hround, Ledger.lowest_eq_some] at hlow
          rw [hafter, hledger, hround, hlow.unique hleast, hx.enter hL hlt]
      obtain ⟨calls, hcalls⟩ := ih _ (by omega) (hI.malloc _) hnext hmalloc rfl
      exact ⟨.malloc (L.tileAt 8 x) :: calls, hcalls⟩

/-- The filling taken out, up to the end. -/
theorem sweep (hL : L.Proper 8) (hI : HeapInv h) (hledger : h.ledger = L.tiled 8 0 L.capacity)
    (x : ℕ) : ∃ calls, (h.exec calls).ledger = L.tiled 8 x L.capacity := by
  induction x with
  | zero => exact ⟨[], hledger⟩
  | succ x ih =>
    obtain ⟨calls, hcalls⟩ := ih
    by_cases hv : L.Vacant 8 x
    · refine ⟨calls ++ [.free ⟨(h.exec calls).localBase + x⟩], ?_⟩
      have hfree := (hI.exec calls).free_ledger ⟨(h.exec calls).localBase + x⟩
      rw [checkedSub_add_left, Option.elim_some, hcalls, hL.strike_tiled.1 hv] at hfree
      rw [exec_append]
      exact hfree
    · exact ⟨calls, by rw [hcalls, hL.strike_tiled.2 hv]⟩

/-- **Every ledger is reached** that lays aligned spans into the region. -/
theorem reach (hL : L.Proper 8) (hI : HeapInv h) (hempty : h.ledger = ⟨L.capacity, fun _ => none⟩) :
    ∃ calls, (h.exec calls).ledger = L := by
  have hstart : h.ledger = L.tiled 8 0 0 := by rw [hempty, Ledger.tiled_zero]
  obtain ⟨calls, hfilled⟩ := hI.fill hL (.zero 8 L) hstart
  obtain ⟨calls', hswept⟩ := (hI.exec calls).sweep hL hfilled L.capacity
  exact ⟨calls ++ calls', by rw [exec_append, hswept, hL.tiled_capacity]⟩

end HeapInv

/-- **The invariant is exact**: of one region, the heaps that calls lead to are the
partitioned ones. -/
theorem heap_reachable_iff {W : Type} (handler : Prog.Handler Ext W) (w : W) (size : ℕ)
    {heap : SymHeap} (hnew : ((SymHeap.withSize size).run handler w).1 = .ok heap)
    (freeList : List Block) (allocations : Std.ExtTreeMap ℕ ℕ) :
    (∃ calls, heap.exec calls = { heap with freeList, allocations }) ↔
      SymHeap.Partitioned { heap with freeList, allocations } := by
  obtain ⟨words, region, rkey, hwords, rfl⟩ := SymHeap.withSize_ok hnew
  have hfresh : HeapInv (SymHeap.fresh words region rkey) := .fresh hwords region rkey
  constructor
  · rintro ⟨calls, hcalls⟩
    have hI := hfresh.exec calls
    rw [hcalls] at hI
    exact hI.partitioned (Nat.mul_pos hwords (by decide))
  · intro hP
    have hI := HeapInv.of_partitioned hP
    obtain ⟨calls, hledger⟩ :=
      hfresh.reach hI.ledger_proper (SymHeap.ledger_fresh words region rkey)
    exact ⟨calls, (hfresh.exec calls).eq_of_ledger hI (SymHeap.exec_frame _ calls) rfl hledger⟩

/-- A heap with a live word between two free ones is seen; one with two free words side by
side, in two blocks, never is. -/
theorem heap_reachable_iff_instance :
    SymHeap.Partitioned { SymHeap.fresh 3 ⟨4096, by decide, by decide⟩ [1, 2, 3, 4] with
      freeList := [⟨0, 8⟩, ⟨16, 8⟩], allocations := (∅ : Std.ExtTreeMap ℕ ℕ).insert 4104 8 } ∧
    ¬ ∃ calls, (SymHeap.fresh 3 ⟨4096, by decide, by decide⟩ [1, 2, 3, 4]).exec calls =
      { SymHeap.fresh 3 ⟨4096, by decide, by decide⟩ [1, 2, 3, 4] with
        freeList := [⟨0, 8⟩, ⟨8, 8⟩], allocations := (∅ : Std.ExtTreeMap ℕ ℕ).insert 4112 8 } := by
  constructor
  · refine (heap_reachable_iff (accommodating 4096) () 20 rfl _ _).mp
      ⟨[.malloc 8, .malloc 8, .free ⟨4096⟩], ?_⟩
    rfl
  · intro hseen
    have hcoalesced := ((heap_reachable_iff (accommodating 4096) () 20 rfl _ _).mp hseen).coalesced
    exact absurd hcoalesced (by decide)

end OpenShmem
