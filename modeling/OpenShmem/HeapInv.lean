import OpenShmem.Layout

/-!
# The heap representation invariant

What `malloc` and `free` keep true, over any sequence of calls. `HeapInv` is
the inductive form: the free list is tidy, every map entry is a proper aligned
span inside the region, and the free list covers exactly the bytes that no
entry holds. Each function has one lemma that says all it can do from such a
heap (`malloc_cases`, `free_cases`); preservation, and everything said about
the allocator elsewhere, is read off those two.
-/

namespace OpenShmem

namespace SymHeap

/-! ## The arithmetic of `malloc` -/

/-- Masking the low three bits rounds down to a multiple of eight. -/
theorem and_complement_seven {x : ℕ} (hx : x < 2 ^ 64) :
    x &&& complement 64 (alignment - 1) = x / 8 * 8 := by
  have hmask : complement 64 (alignment - 1) = (2 ^ 61 - 1) * 2 ^ 3 := by decide
  rw [hmask, show (8 : ℕ) = 2 ^ 3 by rfl]
  apply Nat.eq_of_testBit_eq
  intro i
  rw [Nat.testBit_and, Nat.testBit_mul_two_pow, Nat.testBit_mul_two_pow, Nat.testBit_div_two_pow,
    Nat.testBit_two_pow_sub_one]
  by_cases hi : 3 ≤ i
  · have hi' : i - 3 + 3 = i := by omega
    by_cases h64 : i < 64
    · have : i - 3 < 61 := by omega
      simp [hi, hi', this]
    · have : x.testBit i = false :=
        Nat.testBit_lt_two_pow (lt_of_lt_of_le hx (Nat.pow_le_pow_right (by decide) (by omega)))
      simp [hi', this]
  · simp [hi]

theorem requestedSize_eq (size : ℕ) :
    requestedSize size =
      if size + 7 < 2 ^ 64 then .ok ((size + 7) / 8 * 8)
      else .err (.usage "symmetric allocation size overflow") := by
  by_cases h : size + 7 < 2 ^ 64
  · have hpad : checkedAdd 64 size (alignment - 1) = some (size + 7) :=
      checkedAdd_eq_some.mpr ⟨h, rfl⟩
    rw [if_pos h, requestedSize, hpad, Outcome.okOr_some, Outcome.ok_bind, and_complement_seven h,
      Outcome.pure_eq]
  · have hpad : checkedAdd 64 size (alignment - 1) = none :=
      checkedAdd_eq_none.mpr (Nat.le_of_not_lt h)
    rw [if_neg h, requestedSize, hpad, Outcome.okOr_none, Outcome.err_bind]

theorem requestedSize_eq_ok {size r : ℕ} :
    requestedSize size = .ok r ↔ size + 7 < 2 ^ 64 ∧ (size + 7) / 8 * 8 = r := by
  rw [requestedSize_eq]
  split
  · next h => simp only [Outcome.ok.injEq, h, true_and]
  · next h => simp only [reduceCtorEq, h, false_and]

/-! ## The merging loop of `free` -/

/-- One round of the loop is `push`, while the sums stay below `2 ^ 64`. -/
theorem mergeStep_eq_push {merged : List Block} {block : Block}
    (hbefore : ∀ t ∈ merged, t.stop ≤ block.start) (hsmall : block.stop < 2 ^ 64) :
    mergeStep merged block = .ok (push merged block) := by
  obtain rfl | ⟨m, last, rfl⟩ := List.eq_nil_or_concat' merged
  · rfl
  · have hlast : last.stop ≤ block.start := hbefore last (by simp)
    have hstop : last.start + last.len < 2 ^ 64 := by
      simp only [Span.stop] at hlast hsmall
      omega
    rw [push_concat]
    simp only [mergeStep, List.getLast?_concat, List.dropLast_concat]
    rw [addOrPanic_ok hstop, Outcome.ok_bind]
    by_cases htouch : last.start + last.len = block.start
    · have hlen : last.len + block.len < 2 ^ 64 := by
        simp only [Span.stop] at hsmall
        omega
      rw [if_pos htouch, if_pos (show last.stop = block.start from htouch), addOrPanic_ok hlen]
      rfl
    · rw [if_neg htouch, if_neg (show ¬ last.stop = block.start from htouch)]
      rfl

/-- The loop on an ordered list is `foldl push`, and never overflows. -/
theorem foldlM_mergeStep :
    ∀ (rest merged : List Block), rest.Pairwise (fun a b => a.stop ≤ b.start) →
      (∀ s ∈ rest, s.stop < 2 ^ 64) → (∀ t ∈ merged, ∀ s ∈ rest, t.stop ≤ s.start) →
      rest.foldlM mergeStep merged = .ok (rest.foldl push merged) := by
  intro rest
  induction rest with
  | nil =>
    intro merged _ _ _
    rfl
  | cons s rest ih =>
    intro merged hord hsmall hbefore
    rw [List.pairwise_cons] at hord
    have hs : ∀ t ∈ merged, t.stop ≤ s.start := fun t ht => hbefore t ht s List.mem_cons_self
    rw [List.foldlM_cons, mergeStep_eq_push hs (hsmall s List.mem_cons_self), Outcome.ok_bind,
      List.foldl_cons]
    refine ih _ hord.2 (fun t ht => hsmall t (List.mem_cons_of_mem _ ht)) ?_
    intro t ht u hu
    exact le_trans (stop_le_of_mem_push hs ht) (hord.1 u hu)

/-! ## The live allocations by offset -/

/-- The length of the allocation at an offset, if one is live there. -/
def live (h : SymHeap) (o : ℕ) : Option ℕ := h.allocations[h.localBase + o]?

/-- `s` is a live allocation, as a span of offsets. -/
def Live (h : SymHeap) (s : Span) : Prop := h.live s.start = some s.len

theorem Live.eq_of_start_eq {h : SymHeap} {s t : Span} (hs : h.Live s) (ht : h.Live t)
    (hst : s.start = t.start) : s = t := by
  unfold Live at hs ht
  rw [hst, ht] at hs
  cases s
  cases t
  simp only [Span.mk.injEq]
  exact ⟨hst, (Option.some.inj hs).symm⟩

/-- Entering a block at offset `o` in the map. -/
theorem live_insert (h : SymHeap) (freeList : List Block) (o len o' : ℕ) :
    live { h with freeList, allocations := h.allocations.insert (h.localBase + o) len } o' =
      if o' = o then some len else h.live o' := by
  simp only [live, localBase, Std.ExtTreeMap.getElem?_insert, compare_eq_iff_eq]
  split <;> split <;> first | rfl | omega

/-- Removing the entry at offset `o`. -/
theorem live_erase (h : SymHeap) (freeList : List Block) (o o' : ℕ) :
    live { h with freeList, allocations := h.allocations.erase (h.localBase + o) } o' =
      if o' = o then none else h.live o' := by
  simp only [live, localBase, Std.ExtTreeMap.getElem?_erase, compare_eq_iff_eq]
  split <;> split <;> first | rfl | omega

end SymHeap

/-! ## The invariant -/

/-- The inductive heap invariant. -/
structure HeapInv (h : SymHeap) : Prop where
  /-- the free list is sorted, coalesced, aligned and without empty blocks -/
  tidy : Tidy 8 h.freeList
  /-- the map has no key below the heap base -/
  keyed : ∀ a len, h.allocations[a]? = some len → h.localBase ≤ a
  /-- live allocations are proper, aligned and inside the region -/
  sound : ∀ s, h.Live s → 0 < s.len ∧ (8 ∣ s.start ∧ 8 ∣ s.len) ∧ s.stop ≤ h.capacity
  /-- different live allocations share no byte -/
  apart : ∀ s t, h.Live s → h.Live t → s.start ≠ t.start → s.Disjoint t
  /-- the free bytes are exactly the bytes of the region in no live allocation -/
  partition : ∀ x, x ∈ cover h.freeList ↔ x < h.capacity ∧ ∀ s, h.Live s → x ∉ s

namespace HeapInv

open SymHeap

variable {h : SymHeap}

theorem capacity_lt (h : SymHeap) : h.capacity < 2 ^ 64 := by
  have hsmall : h.words * 8 ≤ 2 ^ 63 - 1 := h.region.small
  unfold capacity
  omega

theorem base_add_capacity (h : SymHeap) : h.localBase + h.capacity ≤ 2 ^ 64 := h.region.fits

/-- A free block lies inside the region. -/
theorem stop_le (hI : HeapInv h) {b : Block} (hb : b ∈ h.freeList) : b.stop ≤ h.capacity :=
  (Span.bounds_of_subset (hI.tidy.proper b hb)
    fun x hx => ⟨Nat.zero_le x, ((hI.partition x).mp ⟨b, hb, hx⟩).1⟩).2

/-- No live allocation shares a byte with a free block. -/
theorem live_disjoint_free (hI : HeapInv h) {s b : Span} (hs : h.Live s) (hb : b ∈ h.freeList) :
    s.Disjoint b :=
  fun x hxs hxb => ((hI.partition x).mp ⟨b, hb, hxb⟩).2 s hs hxs

/-- A freshly registered heap satisfies the invariant. -/
theorem fresh {words : ℕ} (hw : 0 < words) (region : Region words) (rkey : List UInt8) :
    HeapInv (SymHeap.fresh words region rkey) where
  tidy := tidy_singleton (Nat.mul_pos hw (by decide)) ⟨Nat.dvd_zero _, Nat.dvd_mul_left _ _⟩
  keyed := by
    intro a len ha
    simp [SymHeap.fresh] at ha
  sound := by
    intro s hs
    simp [Live, live, SymHeap.fresh] at hs
  apart := by
    intro s t hs
    simp [Live, live, SymHeap.fresh] at hs
  partition := by
    intro x
    simp [SymHeap.fresh, Live, live, Span.mem_def, Span.stop, capacity]

/-! ### What `malloc` can do -/

/-- Taking `r` bytes off block `index` is carving it; the sum does not
overflow because the block lies inside the region. -/
theorem takeFrom_eq (hI : HeapInv h) {index r : ℕ} (hlt : index < h.freeList.length)
    (hr : r ≤ h.freeList[index].len) :
    takeFrom h.freeList index r h.freeList[index] =
      .ok (h.freeList.take index ++ carve r h.freeList[index] ++ h.freeList.drop (index + 1)) := by
  have hstop := hI.stop_le (List.getElem_mem hlt)
  have hcap := capacity_lt h
  unfold Span.stop at hstop
  have hstart : h.freeList[index].start + r < 2 ^ 64 := by omega
  unfold takeFrom carve
  split
  · rw [List.append_nil, List.eraseIdx_eq_take_drop_succ]
    rfl
  · rw [addOrPanic_ok hstart, Outcome.ok_bind, List.set_eq_take_append_cons_drop, if_pos hlt,
      List.append_assoc]
    rfl

/-- Everything `malloc` can do: fail and leave the heap alone, or cut the
rounded size off the first block that has it. Either way it is what the layout
does, placed at the base. -/
theorem malloc_cases (hI : HeapInv h) (size : ℕ) :
    (∃ message, Layout.place h.freeList size = .error (.usage message) ∧
      h.malloc size = (.err (.usage message), h)) ∨
    (∃ pre b post r, size ≠ 0 ∧ requestedSize size = .ok r ∧
      h.freeList = pre ++ b :: post ∧ (∀ a ∈ pre, a.len < r) ∧ r ≤ b.len ∧
      Layout.place h.freeList size = .ok (b.start, r, pre ++ carve r b ++ post) ∧
      h.malloc size = (.ok ⟨h.localBase + b.start⟩,
        { h with
          freeList := pre ++ carve r b ++ post
          allocations := h.allocations.insert (h.localBase + b.start) r })) := by
  by_cases hsize : size = 0
  · left
    rw [malloc, place, Layout.place, if_pos hsize, if_pos hsize]
    exact ⟨_, rfl, rfl⟩
  by_cases hpad : size + 7 < 2 ^ 64
  swap
  · left
    rw [malloc, place, Layout.place, if_neg hsize, if_neg hsize, requestedSize_eq, if_neg hpad,
      if_pos (Nat.le_of_not_lt hpad)]
    exact ⟨_, rfl, rfl⟩
  have hreq : requestedSize size = .ok ((size + 7) / 8 * 8) := requestedSize_eq_ok.mpr ⟨hpad, rfl⟩
  rw [Layout.place, if_neg hsize, if_neg (Nat.not_le_of_lt hpad)]
  generalize (size + 7) / 8 * 8 = r at hreq
  rcases hfind : h.freeList.findIdx? (fun b => decide (r ≤ b.len)) with _ | index
  · left
    -- no block is long enough
    have hshort : ∀ a ∈ h.freeList, a.len < r := by
      simpa using List.findIdx?_eq_none_iff.mp hfind
    rw [malloc, place, if_neg hsize, hreq, Outcome.ok_bind, hfind, firstFit_eq_none.mpr hshort]
    exact ⟨_, rfl, rfl⟩
  · right
    obtain ⟨hlt, hfits, hfirst⟩ := List.findIdx?_eq_some_iff_getElem.mp hfind
    have hmem : h.freeList[index] ∈ h.freeList := List.getElem_mem hlt
    have hrb : r ≤ h.freeList[index].len := of_decide_eq_true hfits
    -- `position` stops at the first one that is
    have hsplit : h.freeList =
        h.freeList.take index ++ h.freeList[index] :: h.freeList.drop (index + 1) := by
      rw [List.getElem_cons_drop, List.take_append_drop]
    have hshort : ∀ a ∈ h.freeList.take index, a.len < r := by
      intro a ha
      obtain ⟨j, hj, rfl⟩ := List.getElem_of_mem ha
      rw [List.length_take] at hj
      have hshort := hfirst j (by omega)
      rw [List.getElem_take]
      simpa using hshort
    -- the address of a block of the heap cannot wrap around
    have haddr : h.localBase + h.freeList[index].start < 2 ^ 64 := by
      have hstop := hI.stop_le hmem
      have hbpos := hI.tidy.proper _ hmem
      have hfit := base_add_capacity h
      unfold Span.stop at hstop
      omega
    refine ⟨h.freeList.take index, h.freeList[index], h.freeList.drop (index + 1), r, hsize, hreq,
      hsplit, hshort, hrb, ?_, ?_⟩
    · have hfit := firstFit_append (h.freeList.drop (index + 1)) hrb hshort
      rw [← hsplit] at hfit
      simp only [hfit]
    · rw [malloc, place, if_neg hsize, hreq, Outcome.ok_bind, hfind, Outcome.okOr_some,
        Outcome.ok_bind, List.getElem?_eq_getElem hlt]
      simp only [addOrPanic_ok haddr, hI.takeFrom_eq hlt hrb, Outcome.ok_bind, Outcome.pure_eq]

/-! ### What `free` can do -/

/-- A free list with one more disjoint block, once sorted, is ordered end to
start. -/
theorem sorted_ordered (hI : HeapInv h) {s : Span} (hs : h.Live s) :
    ((h.freeList ++ [s]).insertionSort fun a b => a.start ≤ b.start).Pairwise
      fun a b => a.stop ≤ b.start := by
  have hperm := List.perm_insertionSort (fun a b : Block => a.start ≤ b.start) (h.freeList ++ [s])
  refine ordered_of_sorted ?_ ?_ ?_
  · have : Std.Total fun a b : Block => a.start ≤ b.start := ⟨fun a b => le_total _ _⟩
    have : IsTrans Block fun a b => a.start ≤ b.start := ⟨fun a b c => le_trans⟩
    exact List.pairwise_insertionSort _ _
  · refine (hperm.pairwise_iff fun hab => hab.symm).mpr ?_
    refine List.pairwise_append.mpr ⟨?_, List.pairwise_singleton _ _, ?_⟩
    · refine hI.tidy.apart.imp ?_
      intro a b hab x hxa hxb
      rw [Span.mem_def] at hxa hxb
      omega
    · intro b hb t ht
      rw [List.mem_singleton.mp ht]
      exact (hI.live_disjoint_free hs hb).symm
  · intro t ht
    rcases List.mem_append.mp (hperm.mem_iff.mp ht) with ht | ht
    · exact hI.tidy.proper t ht
    · rw [List.mem_singleton.mp ht]
      exact (hI.sound s hs).1

/-- Giving a live block back leaves a tidy list that covers it as well. -/
theorem release_spec (hI : HeapInv h) {s : Span} (hs : h.Live s) :
    Tidy 8 (release h.freeList s) ∧
      ∀ x, x ∈ cover (release h.freeList s) ↔ x ∈ cover h.freeList ∨ x ∈ s := by
  have hperm := List.perm_insertionSort (fun a b : Block => a.start ≤ b.start) (h.freeList ++ [s])
  have hin : ∀ t ∈ (h.freeList ++ [s]).insertionSort fun a b => a.start ≤ b.start,
      0 < t.len ∧ 8 ∣ t.start ∧ 8 ∣ t.len := by
    intro t ht
    rcases List.mem_append.mp (hperm.mem_iff.mp ht) with ht | ht
    · exact ⟨hI.tidy.proper t ht, hI.tidy.grain t ht⟩
    · rw [List.mem_singleton.mp ht]
      exact ⟨(hI.sound s hs).1, (hI.sound s hs).2.1⟩
  obtain ⟨htidy, hcover⟩ := foldl_push_tidy _ [] tidy_nil (hI.sorted_ordered hs)
    (fun t ht => (hin t ht).1) (fun t ht => (hin t ht).2) (fun t ht => absurd ht List.not_mem_nil)
  refine ⟨htidy, fun x => ?_⟩
  rw [release, hcover, mem_cover_perm hperm]
  simp

/-- The merging loop of `free` on a live block never overflows. -/
theorem mergeAll_eq (hI : HeapInv h) {s : Span} (hs : h.Live s) :
    mergeAll ((h.freeList ++ [s]).insertionSort fun a b => a.start ≤ b.start) =
      .ok (release h.freeList s) := by
  have hperm := List.perm_insertionSort (fun a b : Block => a.start ≤ b.start) (h.freeList ++ [s])
  refine foldlM_mergeStep _ [] (hI.sorted_ordered hs) ?_ (fun t ht => absurd ht List.not_mem_nil)
  intro t ht
  refine lt_of_le_of_lt ?_ (capacity_lt h)
  rcases List.mem_append.mp (hperm.mem_iff.mp ht) with ht | ht
  · exact hI.stop_le ht
  · rw [List.mem_singleton.mp ht]
    exact (hI.sound s hs).2.2

/-- A live allocation passes the range and alignment checks of `free`. -/
theorem not_rejects (hI : HeapInv h) {s : Span} (hs : h.Live s) :
    rejects h.words s.start s.len = false := by
  obtain ⟨-, ⟨hstart, -⟩, hstop⟩ := hI.sound s hs
  have hsum : s.start + s.len ≤ h.words * 8 := hstop
  have hlt := capacity_lt h
  have hadd : checkedAdd 64 s.start s.len = some (s.start + s.len) :=
    checkedAdd_eq_some.mpr ⟨lt_of_le_of_lt hsum hlt, rfl⟩
  have hmod : s.start % alignment = 0 := Nat.mod_eq_zero_of_dvd hstart
  simp [rejects, hadd, hsum, hmod]

/-- `free` of a live allocation gives its block back. -/
theorem free_live (hI : HeapInv h) {s : Span} (hs : h.Live s) :
    h.free ⟨h.localBase + s.start⟩ = (.ok (),
      { h with
        freeList := release h.freeList s
        allocations := h.allocations.erase (h.localBase + s.start) }) := by
  have hget : h.allocations[h.localBase + s.start]? = some s.len := hs
  have hsub := checkedSub_add_left h.localBase s.start
  have hrej := hI.not_rejects hs
  have hmerge := hI.mergeAll_eq hs
  unfold SymHeap.free
  simp only [localBase] at hget hsub ⊢
  simp only [hget, hsub, hrej, hmerge, Bool.false_eq_true, if_false]

/-- Everything `free` can do: refuse an address that is not in the map and
leave the heap alone, or give the block back. The two later error returns are
not among the cases. -/
theorem free_cases (hI : HeapInv h) (ptr : SymPtr) :
    (h.allocations[ptr.addr]? = none ∧
      h.free ptr = (.err (.usage "invalid symmetric pointer"), h)) ∨
    (∃ s, ptr = ⟨h.localBase + s.start⟩ ∧ h.Live s ∧
      h.free ptr = (.ok (),
        { h with
          freeList := release h.freeList s
          allocations := h.allocations.erase (h.localBase + s.start) })) := by
  rcases hget : h.allocations[ptr.addr]? with _ | len
  · left
    refine ⟨rfl, ?_⟩
    rw [SymHeap.free, hget]
  · right
    have hle := hI.keyed _ _ hget
    have haddr : h.localBase + (ptr.addr - h.localBase) = ptr.addr := by omega
    have hptr : ptr = ⟨h.localBase + (ptr.addr - h.localBase)⟩ := by rw [haddr]
    have hs : h.Live ⟨ptr.addr - h.localBase, len⟩ := by
      rw [Live, live, haddr]
      exact hget
    refine ⟨⟨ptr.addr - h.localBase, len⟩, hptr, hs, ?_⟩
    conv_lhs => rw [hptr]
    exact hI.free_live hs

/-! ### Preservation -/

/-- The only live block a `malloc` adds is the carved one. -/
theorem live_carved {b s : Span} {r : ℕ} {freeList : List Block} :
    Live { h with freeList, allocations := h.allocations.insert (h.localBase + b.start) r } s ↔
      s = ⟨b.start, r⟩ ∨ s.start ≠ b.start ∧ h.Live s := by
  rw [Live, live_insert]
  by_cases hs : s.start = b.start
  · rw [if_pos hs]
    cases s
    simp only [Span.mk.injEq, Option.some.injEq] at hs ⊢
    constructor
    · intro hr
      exact Or.inl ⟨hs, hr.symm⟩
    · rintro (⟨-, hr⟩ | ⟨hne, -⟩)
      · exact hr.symm
      · exact absurd hs hne
  · rw [if_neg hs]
    constructor
    · exact fun hl => Or.inr ⟨hs, hl⟩
    · rintro (rfl | ⟨-, hl⟩)
      · exact absurd rfl hs
      · exact hl

/-- The only live block a `free` removes is the released one. -/
theorem live_released {s t : Span} {freeList : List Block} :
    Live { h with freeList, allocations := h.allocations.erase (h.localBase + s.start) } t ↔
      t.start ≠ s.start ∧ h.Live t := by
  rw [Live, live_erase]
  by_cases hs : t.start = s.start
  · simp [hs]
  · simp [hs, Live]

/-- Cutting a rounded request off a free block keeps the invariant. -/
theorem carved (hI : HeapInv h) {pre post : List Block} {b : Block} {r : ℕ}
    (hsplit : h.freeList = pre ++ b :: post) (hr : 0 < r) (hd : 8 ∣ r) (hrb : r ≤ b.len) :
    HeapInv { h with
      freeList := pre ++ carve r b ++ post
      allocations := h.allocations.insert (h.localBase + b.start) r } := by
  have htidy : Tidy 8 (pre ++ b :: post) := hsplit ▸ hI.tidy
  have hb : b ∈ h.freeList := by simp [hsplit]
  have hsub : ∀ x, x ∈ (⟨b.start, r⟩ : Span) → x ∈ b := by
    intro x hx
    rw [Span.mem_mk] at hx
    exact ⟨hx.1, by unfold Span.stop; omega⟩
  have hdis : ∀ s, h.Live s → s.Disjoint ⟨b.start, r⟩ :=
    fun s hs x hxs hx => hI.live_disjoint_free hs hb x hxs (hsub x hx)
  refine ⟨htidy.carve hrb hd, ?_, ?_, ?_, ?_⟩
  · intro a len ha
    rw [Std.ExtTreeMap.getElem?_insert] at ha
    split at ha
    · next hcmp =>
      rw [compare_eq_iff_eq] at hcmp
      exact hcmp ▸ Nat.le_add_right _ _
    · exact hI.keyed a len ha
  · intro s hs
    obtain rfl | ⟨-, hs⟩ := live_carved.mp hs
    · refine ⟨hr, ⟨(hI.tidy.grain b hb).1, hd⟩, le_trans ?_ (hI.stop_le hb)⟩
      unfold Span.stop
      exact Nat.add_le_add_left hrb _
    · exact hI.sound s hs
  · intro s t hs ht hne
    obtain rfl | ⟨-, hs⟩ := live_carved.mp hs
    · obtain rfl | ⟨-, ht⟩ := live_carved.mp ht
      · exact absurd rfl hne
      · exact (hdis t ht).symm
    · obtain rfl | ⟨-, ht⟩ := live_carved.mp ht
      · exact hdis s hs
      · exact hI.apart s t hs ht hne
  · intro x
    rw [mem_cover_carved htidy hrb, ← hsplit, hI.partition x]
    constructor
    · rintro ⟨⟨hx, hall⟩, hnew⟩
      refine ⟨hx, fun s hs => ?_⟩
      obtain rfl | ⟨-, hs⟩ := live_carved.mp hs
      · exact hnew
      · exact hall s hs
    · rintro ⟨hx, hall⟩
      have hnew := hall ⟨b.start, r⟩ (live_carved.mpr (Or.inl rfl))
      refine ⟨⟨hx, fun s hs hxs => ?_⟩, hnew⟩
      -- a live block at the carved offset would share its first byte with `b`
      by_cases hst : s.start = b.start
      · refine hI.live_disjoint_free hs hb s.start ⟨le_refl _, ?_⟩ ⟨hst.ge, ?_⟩
        · have := (hI.sound s hs).1
          unfold Span.stop
          omega
        · have := hI.tidy.proper b hb
          unfold Span.stop
          omega
      · exact hall s (live_carved.mpr (Or.inr ⟨hst, hs⟩)) hxs

/-- Giving a live block back keeps the invariant. -/
theorem released (hI : HeapInv h) {s : Span} (hs : h.Live s) :
    HeapInv { h with
      freeList := release h.freeList s
      allocations := h.allocations.erase (h.localBase + s.start) } := by
  obtain ⟨htidy, hcover⟩ := hI.release_spec hs
  refine ⟨htidy, ?_, ?_, ?_, ?_⟩
  · intro a len ha
    rw [Std.ExtTreeMap.getElem?_erase] at ha
    split at ha
    · cases ha
    · exact hI.keyed a len ha
  · intro t ht
    exact hI.sound t (live_released.mp ht).2
  · intro t u ht hu hne
    exact hI.apart t u (live_released.mp ht).2 (live_released.mp hu).2 hne
  · intro x
    rw [hcover, hI.partition x]
    constructor
    · rintro (⟨hx, hall⟩ | hxs)
      · exact ⟨hx, fun t ht => hall t (live_released.mp ht).2⟩
      · refine ⟨lt_of_lt_of_le hxs.2 (hI.sound s hs).2.2, fun t ht => ?_⟩
        obtain ⟨hne, ht⟩ := live_released.mp ht
        exact hI.apart s t hs ht (Ne.symm hne) x hxs
    · rintro ⟨hx, hall⟩
      by_cases hxs : x ∈ s
      · exact Or.inr hxs
      · refine Or.inl ⟨hx, fun t ht => ?_⟩
        by_cases hst : t.start = s.start
        · rw [ht.eq_of_start_eq hs hst]
          exact hxs
        · exact hall t (live_released.mpr ⟨hst, ht⟩)

/-- The rounded size is a positive multiple of eight. -/
theorem requested_pos {size r : ℕ} (hsize : size ≠ 0) (hr : requestedSize size = .ok r) :
    0 < r ∧ 8 ∣ r := by
  obtain ⟨-, rfl⟩ := requestedSize_eq_ok.mp hr
  exact ⟨by omega, Nat.dvd_mul_left _ _⟩

/-- **`malloc` keeps the invariant.** -/
theorem malloc (hI : HeapInv h) (size : ℕ) : HeapInv (h.malloc size).2 := by
  rcases hI.malloc_cases size with
    ⟨m, -, hm⟩ | ⟨pre, b, post, r, hsize, hreq, hsplit, -, hrb, -, hm⟩
  · rw [hm]
    exact hI
  · rw [hm]
    obtain ⟨hr, hd⟩ := requested_pos hsize hreq
    exact hI.carved hsplit hr hd hrb

/-- **`free` keeps the invariant.** -/
theorem free (hI : HeapInv h) (ptr : SymPtr) : HeapInv (h.free ptr).2 := by
  obtain ⟨-, hf⟩ | ⟨s, -, hs, hf⟩ := hI.free_cases ptr
  · rw [hf]
    exact hI
  · rw [hf]
    exact hI.released hs

end HeapInv

end OpenShmem
