import Mathlib.Order.Bounds.Defs
import OpenShmem.Alu
import OpenShmem.HeapRuns

/-!
# The arithmetic of the heap

`with_size`, `malloc` and `free` once more, with every `+`, `-` and `*` that the
source leaves unchecked as an operation of the machine. (Constant expressions,
`/`, `%` and `&` cannot overflow and stay as they are.) On every heap that
`with_size` and any calls lead to, no operation wraps around, so that a release
build and a dev build both do what `SymHeap` says.
-/

namespace OpenShmem

/-- A function of the library down to its machine arithmetic. -/
abbrev Act (α : Type) : Type := Prog Ext.withAlu Error α

/-- A computation without calls and without unchecked arithmetic. -/
def Act.lift {α : Type} (o : Outcome Error α) : Act α := .done o

open Prog (alu ext Computes)

namespace SymHeap

/-! ## The functions -/

/-- `SymHeap::with_size`. -/
def withSizeOn (size : ℕ) : Act SymHeap := do
  if size < alignment then Act.lift (.err (.usage "symmetric heap is too small"))
  else
    let padded ← Act.lift (.okOr (checkedAdd 64 size (8 - 1))
      (.usage "symmetric heap size overflow"))
    let words := padded / 8
    let capacity ← alu (.mul words 8)
    if small : words * 8 ≤ isizeMax then
      let region : Region words ← ext (E := Ext) (.sys (.allocWords words small))
      let mapped : Except Status Unit ← ext (E := Ext) (.ucx (.memMap region.base capacity))
      Act.lift (.mapErr mapped Error.ofStatus)
      let packed : Except Status (List UInt8) ← ext (E := Ext) (.ucx .packRkey)
      let packedRkey ← Act.lift (.mapErr packed Error.ofStatus)
      return { fresh words region packedRkey with freeList := [⟨0, capacity⟩] }
    else Act.lift .panic

/-- Taking `requested` bytes off a free block. -/
def takeFromOn (freeList : List Block) (index requested : ℕ) (block : Block) :
    Act (List Block) :=
  if block.len = requested then return freeList.eraseIdx index
  else do
    let start ← alu (.add block.start requested)
    let len ← alu (.sub block.len requested)
    return freeList.set index (⟨start, len⟩ : Block)

/-- `malloc` up to the point where it changes the heap. -/
def placeOn (h : SymHeap) (size : ℕ) : Act (SymPtr × ℕ × List Block) := do
  if size = 0 then Act.lift (.err (.usage "symmetric allocation size must be nonzero"))
  else
    let requested ← Act.lift (requestedSize size)
    let index ← Act.lift (.okOr (h.freeList.findIdx? fun b => requested ≤ b.len)
      (.usage "symmetric heap exhausted"))
    match h.freeList[index]? with
    | none => Act.lift .panic
    | some block =>
      let addr ← alu (.add h.localBase block.start)
      let freeList ← takeFromOn h.freeList index requested block
      return (SymPtr.mk addr, requested, freeList)

/-- `malloc`. -/
def mallocOn (h : SymHeap) (size : ℕ) : Act (Outcome Error SymPtr × SymHeap) := do
  match ← ((h.placeOn size).reify : Act (Outcome Error (SymPtr × ℕ × List Block))) with
  | .ok (ptr, requested, freeList) =>
    return (.ok ptr, { h with freeList, allocations := h.allocations.insert ptr.addr requested })
  | .err e => return (.err e, h)
  | .panic => return (.panic, h)
  | .pending => return (.pending, h)

/-- One round of the merging loop of `free`. -/
def mergeStepOn (merged : List Block) (block : Block) : Act (List Block) :=
  match merged.getLast? with
  | some last => do
    let stop ← alu (.add last.start last.len)
    if stop = block.start then
      let len ← alu (.add last.len block.len)
      return merged.dropLast ++ [(⟨last.start, len⟩ : Block)]
    else return merged ++ [block]
  | none => return merged ++ [block]

/-- The merging loop of `free`. -/
def mergeAllOn (blocks : List Block) : Act (List Block) := blocks.foldlM mergeStepOn []

/-- The range and alignment check of `free`. -/
def rejectsOn (words start len : ℕ) : Act Bool :=
  match checkedAdd 64 start len with
  | none => return true
  | some stop => do
    let capacity ← alu (.mul words 8)
    return !decide (stop ≤ capacity) || start % alignment != 0

/-- `free`. -/
def freeOn (h : SymHeap) (ptr : SymPtr) : Act (Outcome Error Unit × SymHeap) :=
  match h.allocations[ptr.addr]? with
  | none => return (.err (.usage "invalid symmetric pointer"), h)
  | some len =>
    let h := { h with allocations := h.allocations.erase ptr.addr }
    match checkedSub ptr.addr h.localBase with
    | none => return (.err (.usage "invalid symmetric pointer"), h)
    | some start => do
      if ← rejectsOn h.words start len then
        return (.err (.usage "invalid symmetric pointer"), h)
      else
        let sorted := (h.freeList ++ [Span.mk start len]).insertionSort fun a b => a.start ≤ b.start
        match ← ((mergeAllOn sorted).reify : Act (Outcome Error (List Block))) with
        | .ok merged => return (.ok (), { h with freeList := merged })
        | .err e => return (.err e, { h with freeList := [] })
        | .panic => return (.panic, { h with freeList := [] })
        | .pending => return (.pending, { h with freeList := [] })

/-! ## Nothing wraps around -/

/-- The size of the region does not overflow, whatever the size asked for. -/
theorem withSizeOn_computes (size : ℕ) : Computes 64 (withSizeOn size) (withSize size) := by
  rw [withSizeOn, withSize]
  split
  · exact .done _
  cases hpad : checkedAdd 64 size (8 - 1) with
  | none => exact .done _
  | some padded =>
    obtain ⟨hlt, rfl⟩ := checkedAdd_eq_some.mp hpad
    have hwords : (size + (8 - 1)) / 8 * 8 < 2 ^ 64 :=
      lt_of_le_of_lt (Nat.div_mul_le_self _ _) hlt
    refine Computes.mul hwords ?_
    show Computes _ (dite _ _ _) (dite _ _ _)
    split
    · refine .ext fun region => .ext fun mapped => ?_
      cases mapped with
      | error s => exact .done _
      | ok u =>
        refine .ext fun packed => ?_
        cases packed with
        | error s => exact .done _
        | ok rkey => exact .done _
    · exact .done _

/-- A round that the whole-number model gets through. -/
theorem mergeStepOn_computes {merged merged' : List Block} {block : Block}
    (h : mergeStep merged block = .ok merged') :
    Computes 64 (mergeStepOn merged block) (.done (.ok merged')) := by
  rw [mergeStep] at h
  rw [mergeStepOn]
  cases hlast : merged.getLast? with
  | none =>
    rw [hlast] at h
    cases h
    exact .done _
  | some last =>
    rw [hlast] at h
    obtain ⟨stop, hstop, h⟩ := Outcome.bind_eq_ok h
    obtain ⟨hlt, rfl⟩ := addOrPanic_eq_ok.mp hstop
    refine Computes.add hlt ?_
    split at h
    · next htouch =>
      obtain ⟨len, hlen, h⟩ := Outcome.bind_eq_ok h
      obtain ⟨hlt', rfl⟩ := addOrPanic_eq_ok.mp hlen
      cases h
      rw [if_pos htouch]
      exact Computes.add hlt' (.done _)
    · next hgap =>
      cases h
      rw [if_neg hgap]
      exact .done _

/-- And so the loop: by induction over the blocks still to merge. -/
theorem foldlM_mergeStepOn {blocks : List Block} :
    ∀ {merged merged' : List Block}, blocks.foldlM mergeStep merged = .ok merged' →
      Computes 64 (blocks.foldlM mergeStepOn merged) (.done (.ok merged')) := by
  induction blocks with
  | nil =>
    rintro merged _ ⟨⟩
    exact .done _
  | cons b bs ih =>
    intro merged merged' h
    rw [List.foldlM_cons] at h ⊢
    obtain ⟨next, hnext, h⟩ := Outcome.bind_eq_ok h
    exact (mergeStepOn_computes hnext).bind_ok (ih h)

end SymHeap

namespace HeapInv

open SymHeap

variable {h : SymHeap}

/-- What is left of a free block: it lies inside the region, and is long enough. -/
theorem takeFromOn_computes (hI : HeapInv h) {index r : ℕ} (hlt : index < h.freeList.length)
    (hr : r ≤ h.freeList[index].len) {freeList : List Block}
    (htake : takeFrom h.freeList index r h.freeList[index] = .ok freeList) :
    Computes 64 (takeFromOn h.freeList index r h.freeList[index]) (.done (.ok freeList)) := by
  have hstop := hI.stop_le (List.getElem_mem hlt)
  have hcap := capacity_lt h
  rw [takeFrom] at htake
  rw [takeFromOn]
  split at htake
  · next hall =>
    cases htake
    rw [if_pos hall]
    exact .done _
  · next hmore =>
    obtain ⟨start, hstart, htake⟩ := Outcome.bind_eq_ok htake
    obtain ⟨hadd, rfl⟩ := addOrPanic_eq_ok.mp hstart
    cases htake
    rw [if_neg hmore]
    have hlen : h.freeList[index].len < 2 ^ 64 := by
      rw [Span.stop] at hstop
      omega
    exact Computes.add hadd (Computes.sub hr hlen (.done _))

/-- Looking for a block and cutting it. -/
theorem placeOn_computes (hI : HeapInv h) (size : ℕ) :
    Computes 64 (h.placeOn size) (.done (h.place size)) := by
  rw [placeOn, place]
  split
  · exact .done _
  refine .done_bind fun r _ => .done_bind fun index hindex => ?_
  obtain ⟨hlt, hfits, -⟩ := List.findIdx?_eq_some_iff_getElem.mp (Outcome.okOr_eq_ok.mp hindex)
  have hr : r ≤ h.freeList[index].len := of_decide_eq_true hfits
  have hstop := hI.stop_le (List.getElem_mem hlt)
  have hpos := hI.tidy.proper _ (List.getElem_mem hlt)
  have haddr : h.localBase + h.freeList[index].start < 2 ^ 64 := by
    have hfit := base_add_capacity h
    rw [Span.stop] at hstop
    omega
  have htake := hI.takeFrom_eq hlt hr
  rw [List.getElem?_eq_getElem hlt]
  dsimp only
  rw [addOrPanic_ok haddr, Outcome.ok_bind, htake, Outcome.ok_bind]
  exact Computes.add haddr ((hI.takeFromOn_computes hlt hr htake).bind_ok (.done _))

/-- **`malloc` never overflows**: on the machine it is `malloc`. -/
theorem mallocOn_computes (hI : HeapInv h) (size : ℕ) :
    Computes 64 (h.mallocOn size) (.done (.ok (h.malloc size))) := by
  refine (hI.placeOn_computes size).reify_bind ?_
  rw [SymHeap.malloc]
  obtain ⟨ptr, requested, freeList⟩ | e | _ | _ := h.place size
  · exact .done _
  · exact .done _
  · exact .done _
  · exact .done _

theorem rejectsOn_computes (h : SymHeap) (start len : ℕ) :
    Computes 64 (rejectsOn h.words start len) (.done (.ok (rejects h.words start len))) := by
  have hcap : h.words * 8 < 2 ^ 64 := capacity_lt h
  rw [rejectsOn, rejects]
  cases checkedAdd 64 start len with
  | none => exact .done _
  | some stop =>
    refine Computes.mul hcap ?_
    by_cases hstop : stop ≤ h.words * 8
    · simpa [hstop] using Computes.done _
    · simpa [hstop] using Computes.done _

/-- The merging loop on a live block. -/
theorem mergeAllOn_computes (hI : HeapInv h) {s : Span} (hs : h.Live s) :
    Computes 64 (mergeAllOn ((h.freeList ++ [s]).insertionSort fun a b => a.start ≤ b.start))
      (.done (.ok (release h.freeList s))) :=
  foldlM_mergeStepOn (hI.mergeAll_eq hs)

/-- **`free` never overflows**: on the machine it is `free`. -/
theorem freeOn_computes (hI : HeapInv h) (ptr : SymPtr) :
    Computes 64 (h.freeOn ptr) (.done (.ok (h.free ptr))) := by
  rw [freeOn]
  obtain ⟨hget, hfree⟩ | ⟨s, rfl, hs, hfree⟩ := hI.free_cases ptr
  · rw [hget, hfree]
    exact .done _
  · have hget : h.allocations[h.localBase + s.start]? = some s.len := hs
    have hsub : checkedSub (h.localBase + s.start) h.localBase = some s.start :=
      checkedSub_add_left _ _
    rw [hget, hfree]
    dsimp only [localBase] at hsub ⊢
    rw [hsub]
    refine (rejectsOn_computes h s.start s.len).bind_ok ?_
    rw [hI.not_rejects hs]
    exact (hI.mergeAllOn_computes hs).reify_bind (.done _)

/-- Rounding up is the least multiple of eight that is long enough. -/
theorem requestedSize_isLeast {size r : ℕ} (hr : requestedSize size = .ok r) :
    IsLeast {m | 8 ∣ m ∧ size ≤ m} r := by
  obtain ⟨-, rfl⟩ := requestedSize_eq_ok.mp hr
  refine ⟨⟨Nat.dvd_mul_left _ _, by omega⟩, ?_⟩
  rintro _ ⟨⟨k, rfl⟩, hk⟩
  omega

end HeapInv

/-! ## The result -/

/-- **The allocator's unchecked arithmetic never wraps around**: not in
`with_size`, whatever the size; not in `malloc` and `free` with any argument, on
the heap that an accepted size and any calls lead to. There the machine does
what `malloc` and `free` say. And a size is rounded up to the least multiple of
eight that holds it. -/
theorem heap_arithmetic_exact {W : Type} (handler : Prog.Handler Ext W) (w : W) (size : ℕ)
    {heap : SymHeap} (hnew : ((SymHeap.withSize size).run handler w).1 = .ok heap)
    (calls : List HeapCall) :
    Computes 64 (SymHeap.withSizeOn size) (SymHeap.withSize size) ∧
      (∀ n, Computes 64 ((heap.exec calls).mallocOn n) (.done (.ok ((heap.exec calls).malloc n)))) ∧
      (∀ ptr, Computes 64 ((heap.exec calls).freeOn ptr)
        (.done (.ok ((heap.exec calls).free ptr)))) ∧
      ∀ n r, n ≠ 0 → SymHeap.requestedSize n = .ok r → IsLeast {m | 8 ∣ m ∧ n ≤ m} r := by
  have hI : HeapInv (heap.exec calls) := by
    obtain ⟨words, region, rkey, hwords, rfl⟩ := SymHeap.withSize_ok hnew
    exact (HeapInv.fresh hwords region rkey).exec calls
  exact ⟨SymHeap.withSizeOn_computes size, hI.mallocOn_computes, hI.freeOn_computes,
    fun _ _ _ hr => HeapInv.requestedSize_isLeast hr⟩

/-- After two allocations and a free, a third allocation and a free of the first
block execute no operation that wraps around. -/
theorem heap_arithmetic_exact_instance :
    let h := (SymHeap.fresh 3 ⟨4096, by decide, by decide⟩ [1, 2, 3, 4]).exec
      [.malloc 9, .malloc 1, .free ⟨4112⟩]
    (h.mallocOn 24).Exactly 64 ∧ (h.freeOn ⟨4096⟩).Exactly 64 := by
  obtain ⟨-, hmalloc, hfree, -⟩ := heap_arithmetic_exact (accommodating 4096) () 20 rfl
    [.malloc 9, .malloc 1, .free ⟨4112⟩]
  exact ⟨(hmalloc 24).exactly, (hfree ⟨4096⟩).exactly⟩

end OpenShmem
