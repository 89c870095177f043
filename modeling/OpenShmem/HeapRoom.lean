import OpenShmem.HeapReach
import OpenShmem.SpanCount

/-!
# How much room a heap is sure to have

Fragmentation, exactly. Between the live allocations there are at most as many free blocks
as there are allocations, and one; so with enough bytes free one of the blocks is long
enough for a request, wherever the allocations lie. With any fewer they may lie so that none is.
-/

namespace OpenShmem

/-! ## What is live, as a list -/

/-- The live allocations, as spans of offsets. -/
def SymHeap.liveSpans (h : SymHeap) : List Span :=
  h.allocations.toList.map fun e => h.entrySpan e.1 e.2

namespace HeapInv

open SymHeap

variable {h : SymHeap}

theorem length_liveSpans (h : SymHeap) : h.liveSpans.length = h.allocations.size := by
  rw [liveSpans, List.length_map, Std.ExtTreeMap.length_toList]

theorem mem_liveSpans (hI : HeapInv h) {s : Span} : s ∈ h.liveSpans ↔ h.Live s := by
  constructor
  · intro hs
    obtain ⟨⟨a, len⟩, he, rfl⟩ := List.mem_map.mp hs
    exact live_of_entry hI (Std.ExtTreeMap.mem_toList_iff_getElem?_eq_some.mp he)
  · intro hs
    refine List.mem_map.mpr ⟨(h.localBase + s.start, s.len),
      Std.ExtTreeMap.mem_toList_iff_getElem?_eq_some.mpr hs, ?_⟩
    rw [entrySpan, Nat.add_sub_cancel_left]

/-- No two of them start in one place. -/
theorem starts_nodup (hI : HeapInv h) : (h.liveSpans.map Span.start).Nodup := by
  have hkeys : (h.allocations.toList.map Prod.fst).Nodup := by
    rw [List.Nodup, List.pairwise_map]
    exact Std.ExtTreeMap.distinct_keys_toList.imp fun hne heq => hne (compare_eq_iff_eq.mpr heq)
  have hstarts : h.liveSpans.map Span.start =
      (h.allocations.toList.map Prod.fst).map fun a => a - h.localBase := by
    rw [liveSpans, List.map_map, List.map_map]
    rfl
  rw [hstarts]
  refine hkeys.map_on fun a ha b hb heq => ?_
  have hbase : ∀ {a}, a ∈ h.allocations.toList.map Prod.fst → h.localBase ≤ a := by
    intro a ha
    obtain ⟨⟨a', len⟩, he, rfl⟩ := List.mem_map.mp ha
    exact hI.keyed a' len (Std.ExtTreeMap.mem_toList_iff_getElem?_eq_some.mp he)
  have := hbase ha
  have := hbase hb
  omega

theorem liveSpans_disjoint (hI : HeapInv h) : h.liveSpans.Pairwise Span.Disjoint := by
  have hstarts := hI.starts_nodup
  rw [List.Nodup, List.pairwise_map] at hstarts
  exact hstarts.imp_of_mem fun hs ht hne =>
    hI.apart _ _ (hI.mem_liveSpans.mp hs) (hI.mem_liveSpans.mp ht) hne

/-- What is free and what is live make up the region. -/
theorem total_free_live (hI : HeapInv h) : total h.freeList + total h.liveSpans = h.capacity := by
  rw [← total_append]
  refine total_of_cover ?_ fun x => ?_
  · refine List.pairwise_append.mpr ⟨?_, hI.liveSpans_disjoint, fun b hb s hs => ?_⟩
    · refine hI.tidy.apart.imp fun hab x hxa hxb => ?_
      rw [Span.mem_def] at hxa hxb
      omega
    · exact (hI.live_disjoint_free (hI.mem_liveSpans.mp hs) hb).symm
  · rw [mem_cover_append, hI.partition]
    constructor
    · rintro (⟨hlt, -⟩ | ⟨s, hs, hx⟩)
      · exact hlt
      · exact lt_of_lt_of_le hx.2 (hI.sound s (hI.mem_liveSpans.mp hs)).2.2
    · intro hlt
      by_cases hout : ∀ s, h.Live s → x ∉ s
      · exact Or.inl ⟨hlt, hout⟩
      · push Not at hout
        obtain ⟨s, hs, hx⟩ := hout
        exact Or.inr ⟨s, hI.mem_liveSpans.mpr hs, hx⟩

/-- **Few free blocks**: behind each, but for the last, a live allocation starts. -/
theorem length_freeList_le (hI : HeapInv h) : h.freeList.length ≤ h.allocations.size + 1 := by
  have hstarts : (h.liveSpans.map Span.start).toFinset.card = h.allocations.size := by
    rw [List.toFinset_card_of_nodup hI.starts_nodup, List.length_map, length_liveSpans]
  rw [← hstarts]
  refine hI.tidy.length_le (n := h.capacity) fun b hb => ?_
  obtain hlt | heq := Nat.lt_or_eq_of_le (hI.stop_le hb)
  · left
    -- the byte behind the block is live, and the one before it is not
    have hnot : b.stop ∉ cover h.freeList := hI.tidy.stop_not_mem_cover hb
    rw [hI.partition] at hnot
    push Not at hnot
    obtain ⟨s, hs, hx⟩ := hnot hlt
    have hpos := hI.tidy.proper b hb
    have hlast : b.stop - 1 ∈ b := ⟨by unfold Span.stop; omega, by unfold Span.stop; omega⟩
    have hfree : b.stop - 1 ∉ s := fun hmem => hI.live_disjoint_free hs hb _ hmem hlast
    have hstart : s.start = b.stop := by
      rw [Span.mem_def] at hx hfree
      have hstop : 0 < b.stop := by
        unfold Span.stop
        omega
      omega
    rw [List.mem_toFinset, ← hstart]
    exact List.mem_map_of_mem (hI.mem_liveSpans.mpr hs)
  · exact Or.inr heq

/-- A request that fails for want of room found no block long enough. -/
theorem freeList_short (hI : HeapInv h) {size : ℕ} (hsize : size ≠ 0) (hpad : size + 7 < 2 ^ 64)
    (hfails : ∀ p, (h.malloc size).1 ≠ .ok p) : ∀ b ∈ h.freeList, b.len ≤ roundUp size - 8 := by
  intro b hb
  obtain ⟨m, hplace, -⟩ | ⟨pre, b', post, r, -, -, -, -, -, -, hm⟩ := hI.malloc_cases size
  · rw [Layout.place, if_neg hsize, if_neg (Nat.not_le_of_lt hpad)] at hplace
    have hshort : ∀ a ∈ h.freeList, a.len < roundUp size := by
      rw [← firstFit_eq_none]
      rcases hfit : firstFit (roundUp size) h.freeList with _ | ⟨o, rest⟩
      · rfl
      · rw [roundUp] at hfit
        rw [hfit] at hplace
        cases hplace
    have hlt := hshort b hb
    have hgrid := (hI.tidy.grain b hb).2
    unfold roundUp at hlt ⊢
    omega
  · exact absurd (by rw [hm]) (hfails ⟨h.localBase + b'.start⟩)

/-- **With enough bytes free there is room**, wherever the allocations lie. -/
theorem malloc_of_free (hI : HeapInv h) {size : ℕ} (hsize : size ≠ 0) (hpad : size + 7 < 2 ^ 64)
    (hfree : (h.allocations.size + 1) * (roundUp size - 8) < total h.freeList) :
    ∃ p, (h.malloc size).1 = .ok p := by
  by_contra hnone
  push Not at hnone
  have hshort := total_le (hI.freeList_short hsize hpad hnone)
  have hfew := Nat.mul_le_mul_right (roundUp size - 8) hI.length_freeList_le
  omega

end HeapInv

/-! ## The worst case -/

namespace Ledger

/-- The ledger whose live spans are these. -/
def ofSpans (capacity : ℕ) (l : List Span) : Ledger :=
  ⟨capacity, fun o => (l.find? fun s => s.start = o).map Span.len⟩

theorem live_ofSpans {capacity : ℕ} {l : List Span} (h : (l.map Span.start).Nodup) {t : Span} :
    (ofSpans capacity l).Live t ↔ t ∈ l := by
  show (l.find? fun s => s.start = t.start).map Span.len = some t.len ↔ t ∈ l
  constructor
  · intro hlive
    obtain ⟨s, hs, hlen⟩ := Option.map_eq_some_iff.mp hlive
    have hstart : s.start = t.start := by simpa using List.find?_some hs
    have hst : s = t := by
      cases s
      cases t
      simp only [Span.mk.injEq]
      exact ⟨hstart, hlen⟩
    exact hst ▸ List.mem_of_find?_eq_some hs
  · intro ht
    have hfound : (l.find? fun s => s.start = t.start).isSome :=
      List.find?_isSome.mpr ⟨t, ht, decide_eq_true rfl⟩
    obtain ⟨s, hs⟩ := Option.isSome_iff_exists.mp hfound
    have hstart : s.start = t.start := by simpa using List.find?_some hs
    rw [hs, List.inj_on_of_nodup_map h (List.mem_of_find?_eq_some hs) ht hstart]
    rfl

end Ledger

/-- Live spans between gaps of at most `gap`, `free` in all. -/
structure Spread : Type where
  capacity : ℕ
  /-- how many spans are live -/
  count : ℕ
  gap : ℕ
  free : ℕ
  grain : 8 ∣ capacity ∧ 8 ∣ gap ∧ 8 ∣ free
  fits : count = 0 ∧ free = capacity ∨ 0 < count ∧ free + 8 * count ≤ capacity
  /-- the gaps take what is to be free -/
  holds : free ≤ (count + 1) * gap

namespace Spread

variable (S : Spread) {i j : ℕ}

/-- Where span number `i` starts: gaps that are filled as far as there is something to fill
them with, and words between them. -/
def start (i : ℕ) : ℕ := min S.free ((i + 1) * S.gap) + 8 * i

/-- The last span takes what is left. -/
def len (i : ℕ) : ℕ := if i + 1 < S.count then 8 else S.capacity - S.free - 8 * i

def span (i : ℕ) : Span := ⟨S.start i, S.len i⟩

def spans : List Span := (List.range S.count).map S.span

def ledger : Ledger := .ofSpans S.capacity S.spans

/-- One span ends where the gap to the next begins. -/
theorem stop_eq (hi : i + 1 < S.count) : (S.span i).stop + S.gap ≥ S.start (i + 1) ∧
    (S.span i).stop ≤ S.start (i + 1) := by
  have hlen : S.len i = 8 := if_pos hi
  have hmul : (i + 1 + 1) * S.gap = (i + 1) * S.gap + S.gap := Nat.succ_mul _ _
  show S.start i + S.len i + S.gap ≥ S.start (i + 1) ∧ S.start i + S.len i ≤ S.start (i + 1)
  rw [hlen, start, start, hmul]
  omega

/-- The last span ends a gap before the end. -/
theorem stop_last (hi : i + 1 = S.count) : (S.span i).stop + S.gap ≥ S.capacity ∧
    (S.span i).stop ≤ S.capacity := by
  have hlen : S.len i = S.capacity - S.free - 8 * i := if_neg (by omega)
  have hholds := S.holds
  have hmul : (i + 1 + 1) * S.gap = (i + 1) * S.gap + S.gap := Nat.succ_mul _ _
  rw [← hi, hmul] at hholds
  have hfits := S.fits
  show S.start i + S.len i + S.gap ≥ S.capacity ∧ S.start i + S.len i ≤ S.capacity
  rw [hlen, start]
  omega

theorem start_mono : Monotone S.start := by
  intro i j hij
  have hmul : (i + 1) * S.gap ≤ (j + 1) * S.gap := Nat.mul_le_mul_right _ (by omega)
  unfold start
  omega

/-- A span takes a word at least. -/
theorem word_le_len (hi : i < S.count) : 8 ≤ S.len i := by
  have hfits := S.fits
  unfold len
  split <;> omega

theorem stop_le_start (hij : i < j) (hj : j < S.count) : (S.span i).stop ≤ S.start j :=
  (S.stop_eq (by omega)).2.trans (S.start_mono hij)

theorem start_lt (hij : i < j) (hj : j < S.count) : S.start i < S.start j := by
  have hstop := S.stop_le_start hij hj
  have hlen := S.word_le_len (hij.trans hj)
  have hsum : (S.span i).stop = S.start i + S.len i := rfl
  omega

theorem starts_nodup : (S.spans.map Span.start).Nodup := by
  rw [spans, List.map_map, List.Nodup, List.pairwise_map]
  refine List.pairwise_lt_range.imp_of_mem fun {i j} _ hj hij => ?_
  exact Nat.ne_of_lt (S.start_lt hij (List.mem_range.mp hj))

theorem live_iff {t : Span} : S.ledger.Live t ↔ ∃ i < S.count, S.span i = t := by
  rw [ledger, Ledger.live_ofSpans S.starts_nodup, spans, List.mem_map]
  simp only [List.mem_range]

theorem span_stop_le (hi : i < S.count) : (S.span i).stop ≤ S.capacity := by
  obtain hnext | hlast := Nat.lt_or_eq_of_le (Nat.succ_le_of_lt hi)
  · have hend := S.stop_last (i := S.count - 1) (by omega)
    have hstop := S.stop_le_start (i := i) (j := S.count - 1) (by omega) (by omega)
    have hsum : (S.span (S.count - 1)).stop = S.start (S.count - 1) + S.len (S.count - 1) := rfl
    omega
  · exact (S.stop_last hlast).2

/-- The spans lie on the grid, in the region, and apart. -/
theorem proper : S.ledger.Proper 8 where
  step := by decide
  whole := S.grain.1
  sound := by
    intro t ht
    obtain ⟨i, hi, rfl⟩ := S.live_iff.mp ht
    have hlen := S.word_le_len hi
    obtain ⟨hcapacity, hgap, hfree⟩ := S.grain
    have hgaps : 8 ∣ (i + 1) * S.gap := Dvd.dvd.mul_left hgap _
    refine ⟨by show 0 < S.len i; omega, ⟨?_, ?_⟩, S.span_stop_le hi⟩
    · show 8 ∣ min S.free ((i + 1) * S.gap) + 8 * i
      omega
    · show 8 ∣ S.len i
      unfold len
      split <;> omega
  apart := by
    intro s t hs ht hne x hxs hxt
    obtain ⟨i, hi, rfl⟩ := S.live_iff.mp hs
    obtain ⟨j, hj, rfl⟩ := S.live_iff.mp ht
    obtain hij | rfl | hji := Nat.lt_trichotomy i j
    · exact absurd (lt_of_lt_of_le hxs.2 (S.stop_le_start hij hj)) (Nat.not_lt_of_le hxt.1)
    · exact hne rfl
    · exact absurd (lt_of_lt_of_le hxt.2 (S.stop_le_start hji hi)) (Nat.not_lt_of_le hxs.1)

/-- All that is not to be free is live. -/
theorem total_spans : total S.spans = S.capacity - S.free := by
  have hwords : ∀ n < S.count, total ((List.range n).map S.span) = 8 * n := by
    intro n hn
    induction n with
    | zero => rfl
    | succ n ih =>
      have hlen : (S.span n).len = 8 := if_pos hn
      rw [List.range_succ, List.map_append, total_append, ih (by omega), List.map_singleton,
        total_cons, total_nil, hlen]
      omega
  have hfits := S.fits
  rcases hcount : S.count with _ | c
  · rw [spans, hcount, List.range_zero, List.map_nil, total_nil]
    omega
  · have hlen : (S.span c).len = S.capacity - S.free - 8 * c := if_neg (by omega)
    rw [spans, hcount, List.range_succ, List.map_append, total_append, hwords c (by omega),
      List.map_singleton, total_cons, total_nil, hlen]
    omega

/-- **There is no room for more than a gap.** -/
theorem not_room {r s : ℕ} (hr : S.gap < r) : ¬ S.ledger.Room r s := by
  rintro ⟨hin, hapart⟩
  have hin : s + r ≤ S.capacity := hin
  have hbeside : ∀ i < S.count, s + r ≤ S.start i ∨ (S.span i).stop ≤ s := by
    intro i hi
    have hlen : 0 < (S.span i).len := lt_of_lt_of_le (by decide) (S.word_le_len hi)
    have hrpos : 0 < (⟨s, r⟩ : Span).len := Nat.zero_lt_of_lt hr
    have hdisjoint : (⟨s, r⟩ : Span).Disjoint (S.span i) := hapart _ (S.live_iff.mpr ⟨i, hi, rfl⟩)
    exact hdisjoint.le_or_le hrpos hlen
  -- so it is behind every span, one after the other
  have hbehind : ∀ i < S.count, (S.span i).stop ≤ s := by
    intro i hi
    induction i with
    | zero =>
      obtain hbefore | hafter := hbeside 0 hi
      · have hstart : S.start 0 = min S.free ((0 + 1) * S.gap) + 8 * 0 := rfl
        omega
      · exact hafter
    | succ i ih =>
      have hprevious := ih (by omega)
      obtain hbefore | hafter := hbeside (i + 1) hi
      · have hnear := (S.stop_eq hi).1
        omega
      · exact hafter
  have hholds := S.holds
  obtain ⟨hnone, hall⟩ | ⟨hpos, -⟩ := S.fits
  · rw [hnone, Nat.zero_add, Nat.one_mul] at hholds
    omega
  · have hlast := hbehind (S.count - 1) (by omega)
    have hnear := (S.stop_last (i := S.count - 1) (by omega)).1
    omega

end Spread

/-! ## The threshold -/

/-- **Room is assured from here on, and from nowhere before**: the free blocks are never
more than the live allocations and one; and of the heaps of a region with `count`
allocations live and `free` bytes free, all have room for a request exactly when these are
more than the gaps can hold that are each a word too short for it. -/
theorem malloc_assured_iff {W : Type} (handler : Prog.Handler Ext W) (w : W) (bytes : ℕ)
    {heap : SymHeap} (hnew : ((SymHeap.withSize bytes).run handler w).1 = .ok heap) :
    (∀ calls, (heap.exec calls).freeList.length ≤ (heap.exec calls).allocations.size + 1) ∧
      ∀ count free size, size ≠ 0 → size + 7 < 2 ^ 64 → 8 ∣ free →
        (count = 0 ∧ free = heap.capacity ∨ 0 < count ∧ free + 8 * count ≤ heap.capacity) →
          ((∀ calls, (heap.exec calls).allocations.size = count →
              total (heap.exec calls).freeList = free →
                ∃ p, ((heap.exec calls).malloc size).1 = .ok p) ↔
            (count + 1) * (SymHeap.roundUp size - 8) < free) := by
  refine ⟨fun calls => (SymHeap.inv_exec hnew calls).length_freeList_le, ?_⟩
  intro count free size hsize hpad hgrain hfits
  constructor
  · intro hassured
    by_contra hnot
    have hround : 0 < SymHeap.roundUp size ∧ 8 ∣ SymHeap.roundUp size :=
      ⟨HeapInv.roundUp_pos hsize, Nat.dvd_mul_left 8 _⟩
    -- the allocations as far apart as they can be
    let S : Spread := {
      capacity := heap.capacity
      count := count
      gap := SymHeap.roundUp size - 8
      free := free
      grain := ⟨Nat.dvd_mul_left 8 heap.words, Nat.dvd_sub hround.2 (Nat.dvd_refl 8), hgrain⟩
      fits := hfits
      holds := Nat.le_of_not_lt hnot }
    obtain ⟨words, region, rkey, hwords, rfl⟩ := SymHeap.withSize_ok hnew
    have hfresh : HeapInv (SymHeap.fresh words region rkey) := .fresh hwords region rkey
    obtain ⟨calls, hledger⟩ := hfresh.reach S.proper (SymHeap.ledger_fresh words region rkey)
    have hI := hfresh.exec calls
    have hspans : ((SymHeap.fresh words region rkey).exec calls).liveSpans.Perm S.spans := by
      refine (List.perm_ext_iff_of_nodup (List.Nodup.of_map _ hI.starts_nodup)
        (List.Nodup.of_map _ S.starts_nodup)).mpr fun t => ?_
      rw [hI.mem_liveSpans, ← Ledger.live_ofSpans S.starts_nodup]
      exact iff_of_eq (congrArg (Ledger.Live · t) hledger)
    have hcount : ((SymHeap.fresh words region rkey).exec calls).allocations.size = count := by
      rw [← HeapInv.length_liveSpans, hspans.length_eq, Spread.spans, List.length_map,
        List.length_range]
    have hfree : total ((SymHeap.fresh words region rkey).exec calls).freeList = free := by
      have hall := hI.total_free_live
      have hlive : total ((SymHeap.fresh words region rkey).exec calls).liveSpans =
          S.capacity - S.free := by
        rw [← S.total_spans, total, (hspans.map _).sum_eq]
        rfl
      rw [hlive, SymHeap.capacity_exec] at hall
      have hcapacity : S.capacity = (SymHeap.fresh words region rkey).capacity := rfl
      have hall' : total _ + (S.capacity - free) = S.capacity := hall
      omega
    obtain ⟨p, hp⟩ := hassured calls hcount hfree
    obtain ⟨e, hfails, -⟩ | ⟨s, -, -, hlow, -, -⟩ := hI.malloc_ledger size
    · rw [hfails] at hp
      cases hp
    · rw [hledger] at hlow
      have hgap : S.gap < SymHeap.roundUp size := Nat.sub_lt hround.1 (by decide)
      exact S.not_room hgap (Ledger.lowest_eq_some.mp hlow).1
  · intro hmore calls hcount hfree
    refine (SymHeap.inv_exec hnew calls).malloc_of_free hsize hpad ?_
    rw [hcount, hfree]
    exact hmore

/-- In a region of five words, with 24 bytes free: next to one allocation there is room for
16 bytes, next to two there need not be. -/
theorem malloc_assured_iff_instance :
    (∀ calls, ((SymHeap.fresh 5 ⟨4096, by decide, by decide⟩ [1, 2, 3, 4]).exec
        calls).allocations.size = 1 →
      total ((SymHeap.fresh 5 ⟨4096, by decide, by decide⟩ [1, 2, 3, 4]).exec
        calls).freeList = 24 →
      ∃ p, (((SymHeap.fresh 5 ⟨4096, by decide, by decide⟩ [1, 2, 3, 4]).exec
        calls).malloc 16).1 = .ok p) ∧
    ¬ ∀ calls, ((SymHeap.fresh 5 ⟨4096, by decide, by decide⟩ [1, 2, 3, 4]).exec
        calls).allocations.size = 2 →
      total ((SymHeap.fresh 5 ⟨4096, by decide, by decide⟩ [1, 2, 3, 4]).exec
        calls).freeList = 24 →
      ∃ p, (((SymHeap.fresh 5 ⟨4096, by decide, by decide⟩ [1, 2, 3, 4]).exec
        calls).malloc 16).1 = .ok p := by
  obtain ⟨-, hassured⟩ := malloc_assured_iff (accommodating 4096) () 40 rfl
  constructor
  · exact (hassured 1 24 16 (by decide) (by decide) (by decide) (by decide)).mpr (by decide)
  · exact fun hall => absurd
      ((hassured 2 24 16 (by decide) (by decide) (by decide) (by decide)).mp hall) (by decide)

end OpenShmem
