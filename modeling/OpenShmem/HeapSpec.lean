import OpenShmem.Ledger
import OpenShmem.Symmetry

/-!
# The heap refines its ledger

`src/symheap.rs` against what an allocator is for. The live allocations of a
heap are its `ledger`; the free list is an implementation detail, and because
it is tidy it is one that can be recomputed from the ledger. So `malloc` is a
lowest-fit `enter`, `free` is a `strike` of exactly the spans handed out, and
two heaps with the same ledger are the same heap.
-/

namespace OpenShmem

namespace SymHeap

/-- The live allocations of a heap, by offset. -/
def ledger (h : SymHeap) : Ledger := ⟨h.capacity, h.live⟩

/-- A size rounded up to a multiple of the alignment. -/
def roundUp (size : ℕ) : ℕ := (size + 7) / 8 * 8

/-- The entries of a map after one was made at an unused key. -/
theorem entry_insert {m : Std.ExtTreeMap ℕ ℕ} {k v a n : ℕ} (hk : m[k]? = none) :
    (m.insert k v)[a]? = some n ↔ a = k ∧ n = v ∨ m[a]? = some n := by
  simp only [Std.ExtTreeMap.getElem?_insert, compare_eq_iff_eq]
  split
  · next h =>
    rw [← h, hk]
    simp [eq_comm]
  · next h => simp [Ne.symm h]

/-- The entries of a map after one was removed. -/
theorem entry_erase {m : Std.ExtTreeMap ℕ ℕ} {k a n : ℕ} :
    (m.erase k)[a]? = some n ↔ a ≠ k ∧ m[a]? = some n := by
  simp only [Std.ExtTreeMap.getElem?_erase, compare_eq_iff_eq]
  split
  · next h => simp [h]
  · next h => simp [Ne.symm h]

end SymHeap

namespace HeapInv

open SymHeap

variable {h : SymHeap} {size r : ℕ}

/-! ## Room between the live allocations is covered by the free list -/

theorem room_iff (hI : HeapInv h) (hr : 0 < r) {s : ℕ} :
    h.ledger.Room r s ↔ ∀ x, x ∈ (⟨s, r⟩ : Span) → x ∈ cover h.freeList := by
  constructor
  · rintro ⟨hin, hapart⟩ x hx
    refine (hI.partition x).mpr ⟨lt_of_lt_of_le hx.2 hin, fun t ht hxt => ?_⟩
    exact hapart t ht x hx hxt
  · intro hcov
    have hlast : s + r - 1 ∈ (⟨s, r⟩ : Span) := by
      rw [Span.mem_mk]
      omega
    have hlt : s + r - 1 < h.capacity := ((hI.partition _).mp (hcov _ hlast)).1
    refine ⟨?_, fun t ht x hx hxt => ((hI.partition x).mp (hcov x hx)).2 t ht hxt⟩
    show s + r ≤ h.capacity
    omega

/-- The first free block that is long enough starts at the lowest room. -/
theorem lowest_eq_start (hI : HeapInv h) (hr : 0 < r) {pre post : List Block} {b : Block}
    (hsplit : h.freeList = pre ++ b :: post) (hpre : ∀ a ∈ pre, a.len < r) (hb : r ≤ b.len) :
    h.ledger.lowest r = some b.start := by
  rw [Ledger.lowest_eq_some]
  have hleast := (hsplit ▸ hI.tidy).isLeast_firstFit hr hpre hb
  have hroom : {s | h.ledger.Room r s} = {o | ∀ x, x ∈ (⟨o, r⟩ : Span) → x ∈ cover h.freeList} :=
    Set.ext fun s => hI.room_iff hr
  rw [hroom, hsplit]
  exact hleast

/-- If no free block is long enough there is no room at all. -/
theorem lowest_eq_none (hI : HeapInv h) (hr : 0 < r) (hshort : ∀ a ∈ h.freeList, a.len < r) :
    h.ledger.lowest r = none := by
  rw [Ledger.lowest_eq_none]
  rintro ⟨s, hs⟩
  exact hI.tidy.no_fit hr hshort s ((hI.room_iff hr).mp hs)

theorem roundUp_pos (hsize : size ≠ 0) : 0 < roundUp size := by
  unfold roundUp
  omega

/-! ## `malloc` enters the lowest room -/

/-- `malloc` against the ledger: it fails exactly on a zero size, on a size
that cannot be rounded and for want of room, and otherwise enters the lowest
room. -/
theorem malloc_ledger (hI : HeapInv h) (size : ℕ) :
    (∃ e, h.malloc size = (.err e, h) ∧
      ¬ (size ≠ 0 ∧ size + 7 < 2 ^ 64 ∧ ∃ s, h.ledger.Room (roundUp size) s)) ∨
    (∃ s, size ≠ 0 ∧ size + 7 < 2 ^ 64 ∧ h.ledger.lowest (roundUp size) = some s ∧
      (h.malloc size).1 = .ok ⟨h.localBase + s⟩ ∧
      (h.malloc size).2.ledger = h.ledger.enter s (roundUp size)) := by
  rcases hI.malloc_cases size with
    ⟨m, hp, hm⟩ | ⟨pre, b, post, r, hsize, hreq, hsplit, hpre, hrb, -, hm⟩
  · left
    refine ⟨_, hm, ?_⟩
    rintro ⟨hsize, hpad, hroom⟩
    rw [Layout.place, if_neg hsize, if_neg (Nat.not_le_of_lt hpad)] at hp
    have hshort : ∀ a ∈ h.freeList, a.len < roundUp size := by
      rw [← firstFit_eq_none]
      rcases hfit : firstFit (roundUp size) h.freeList with _ | ⟨o, rest⟩
      · rfl
      · rw [roundUp] at hfit
        rw [hfit] at hp
        cases hp
    exact Ledger.lowest_eq_none.mp (hI.lowest_eq_none (roundUp_pos hsize) hshort) hroom
  · right
    obtain ⟨hpad, rfl⟩ := requestedSize_eq_ok.mp hreq
    refine ⟨b.start, hsize, hpad, hI.lowest_eq_start (roundUp_pos hsize) hsplit hpre hrb, ?_, ?_⟩
    · rw [hm]
    · rw [hm]
      ext1
      · rfl
      · funext o
        show live _ o = Function.update h.live b.start (some (roundUp size)) o
        rw [Function.update_apply]
        exact live_insert h _ b.start (roundUp size) o

/-- A `malloc` that succeeds makes one new entry, where there was none. -/
theorem malloc_entry (hI : HeapInv h) {p : SymPtr} (hok : (h.malloc size).1 = .ok p) :
    h.allocations[p.addr]? = none ∧
      (h.malloc size).2.allocations = h.allocations.insert p.addr (roundUp size) := by
  rcases hI.malloc_cases size with
    ⟨m, -, hm⟩ | ⟨pre, b, post, r, hsize, hreq, hsplit, hpre, hrb, -, hm⟩
  · rw [hm] at hok
    cases hok
  · rw [hm] at hok
    obtain rfl := Outcome.ok.inj hok
    obtain ⟨hr, -⟩ := requested_pos hsize hreq
    obtain ⟨-, rfl⟩ := requestedSize_eq_ok.mp hreq
    have hleast := Ledger.lowest_eq_some.mp (hI.lowest_eq_start hr hsplit hpre hrb)
    refine ⟨hleast.1.live_eq_none hr fun t ht => (hI.sound t ht).1, ?_⟩
    rw [hm]
    rfl

/-! ## `free` strikes a live allocation -/

/-- `free` against the ledger: it strikes what starts at the pointer's offset,
if anything does. -/
theorem free_ledger (hI : HeapInv h) (ptr : SymPtr) :
    (h.free ptr).2.ledger = (checkedSub ptr.addr h.localBase).elim h.ledger h.ledger.strike := by
  obtain ⟨hnone, hf⟩ | ⟨s, rfl, -, hf⟩ := hI.free_cases ptr
  · rw [hf]
    rcases hsub : checkedSub ptr.addr h.localBase with _ | o
    · rfl
    · obtain ⟨hle, rfl⟩ := checkedSub_eq_some.mp hsub
      refine (Ledger.strike_of_none ?_).symm
      show h.allocations[h.localBase + (ptr.addr - h.localBase)]? = none
      rw [Nat.add_sub_cancel' hle]
      exact hnone
  · rw [hf, checkedSub_add_left]
    ext1
    · rfl
    · funext o
      show live _ o = Function.update h.live s.start none o
      rw [Function.update_apply]
      exact live_erase h _ s.start o

/-- The answer of `free` depends on the map alone. -/
theorem free_answer (hI : HeapInv h) (ptr : SymPtr) :
    (h.free ptr).1 =
      (h.allocations[ptr.addr]?).elim (.err (.usage "invalid symmetric pointer")) fun _ => .ok () := by
  obtain ⟨hnone, hf⟩ | ⟨s, rfl, hs, hf⟩ := hI.free_cases ptr
  · rw [hf, hnone]
    rfl
  · have hget : h.allocations[h.localBase + s.start]? = some s.len := hs
    rw [hf, hget]
    rfl

/-- What a `free` that succeeds did: the pointer had an entry, which is gone,
and the entry's bytes went to the free list. -/
theorem free_entry (hI : HeapInv h) {ptr : SymPtr} (hok : (h.free ptr).1 = .ok ()) :
    ∃ len, h.allocations[ptr.addr]? = some len ∧
      (h.free ptr).2.allocations = h.allocations.erase ptr.addr ∧
      (h.free ptr).2.freeList = release h.freeList (h.entrySpan ptr.addr len) := by
  obtain ⟨-, hf⟩ | ⟨s, rfl, hs, hf⟩ := hI.free_cases ptr
  · rw [hf] at hok
    cases hok
  · refine ⟨s.len, hs, ?_, ?_⟩
    · rw [hf]
    · rw [hf, entrySpan, Nat.add_sub_cancel_left]

/-! ## The free list is a function of the ledger -/

/-- Two heaps with the same ledger have the same free list. -/
theorem freeList_eq {k : SymHeap} (hI : HeapInv h) (kI : HeapInv k) (hledger : h.ledger = k.ledger) :
    h.freeList = k.freeList := by
  have hcap : h.capacity = k.capacity := congrArg Ledger.capacity hledger
  have hlive : h.live = k.live := congrArg Ledger.live hledger
  refine hI.tidy.ext kI.tidy fun x => ?_
  rw [hI.partition x, kI.partition x, hcap]
  simp only [Live, hlive]

/-- At one base, two heaps with the same ledger have the same map. -/
theorem allocations_eq {k : SymHeap} (hI : HeapInv h) (kI : HeapInv k)
    (hbase : h.localBase = k.localBase) (hledger : h.ledger = k.ledger) :
    h.allocations = k.allocations := by
  have hlive : h.live = k.live := congrArg Ledger.live hledger
  refine Std.ExtTreeMap.ext_getElem? fun a => ?_
  by_cases ha : h.localBase ≤ a
  · have hentry := congrFun hlive (a - h.localBase)
    rw [live, live, ← hbase, Nat.add_sub_cancel' ha] at hentry
    exact hentry
  · -- neither map has a key below its base
    have hnone : ∀ {g : SymHeap}, HeapInv g → g.localBase = h.localBase →
        g.allocations[a]? = none := by
      intro g gI hg
      rcases hget : g.allocations[a]? with _ | len
      · rfl
      · exact absurd (hg ▸ gI.keyed a len hget) ha
    rw [hnone hI rfl, hnone kI hbase.symm]

end HeapInv

/-- The invariant holds of every heap a PE can have. -/
theorem SymHeap.inv_exec {W : Type} {handler : Prog.Handler Ext W} {w : W} {size : ℕ}
    {heap : SymHeap} (hnew : ((SymHeap.withSize size).run handler w).1 = .ok heap)
    (calls : List HeapCall) : HeapInv (heap.exec calls) := by
  obtain ⟨words, region, rkey, hwords, rfl⟩ := SymHeap.withSize_ok hnew
  exact (HeapInv.fresh hwords region rkey).exec calls

/-- **Exact lowest fit**: after every sequence of calls, `malloc` succeeds
exactly when the rounded size fits between the live allocations, hands out the
lowest place where it does, and adds that one entry; when it fails nothing
changes. -/
theorem malloc_lowest_fit {W : Type} (handler : Prog.Handler Ext W) (w : W) (bytes : ℕ)
    {heap : SymHeap} (hnew : ((SymHeap.withSize bytes).run handler w).1 = .ok heap)
    (calls : List HeapCall) (size : ℕ) :
    let h := heap.exec calls
    let requested := SymHeap.roundUp size
    ((∃ p, (h.malloc size).1 = .ok p) ↔
        size ≠ 0 ∧ requested < 2 ^ 64 ∧ ∃ s, h.ledger.Room requested s) ∧
      (∀ p, (h.malloc size).1 = .ok p → ∃ s, IsLeast {s | h.ledger.Room requested s} s ∧
        p = ⟨h.localBase + s⟩ ∧
        ∀ a len, (h.malloc size).2.allocations[a]? = some len ↔
          a = p.addr ∧ len = requested ∨ h.allocations[a]? = some len) ∧
      (h.malloc size).1.Returned ∧
      ∀ e, (h.malloc size).1 = .err e → (h.malloc size).2 = h := by
  intro h requested
  have hI : HeapInv h := SymHeap.inv_exec hnew calls
  have hround : requested < 2 ^ 64 ↔ size + 7 < 2 ^ 64 := by
    show (size + 7) / 8 * 8 < 2 ^ 64 ↔ size + 7 < 2 ^ 64
    omega
  rw [hround]
  obtain ⟨e, hm, hno⟩ | ⟨s, hsize, hpad, hlow, hok, -⟩ := hI.malloc_ledger size
  · rw [hm]
    refine ⟨iff_of_false ?_ hno, ?_, trivial, fun _ _ => rfl⟩
    · rintro ⟨p, hp⟩
      cases hp
    · intro p hp
      cases hp
  · have hleast := Ledger.lowest_eq_some.mp hlow
    refine ⟨iff_of_true ⟨_, hok⟩ ⟨hsize, hpad, s, hleast.1⟩, ?_, ?_, ?_⟩
    · intro p hp
      obtain rfl : _ = p := Outcome.ok.inj (hok.symm.trans hp)
      obtain ⟨hnone, hmap⟩ := hI.malloc_entry hp
      refine ⟨s, hleast, rfl, fun a len => ?_⟩
      rw [hmap]
      exact SymHeap.entry_insert hnone
    · rw [hok]
      trivial
    · intro e he
      rw [hok] at he
      cases he

/-- A hole of eight bytes below a live allocation is found again. -/
theorem malloc_lowest_fit_instance :
    ∃ s, IsLeast {s | (((SymHeap.fresh 3 ⟨4096, by decide, by decide⟩ [1, 2, 3, 4]).exec
        [.malloc 8, .malloc 1, .free ⟨4096⟩]).ledger).Room 8 s} s ∧
      (⟨4096⟩ : SymPtr) = ⟨4096 + s⟩ := by
  obtain ⟨s, hleast, hptr, -⟩ :=
    (malloc_lowest_fit (accommodating 4096) () 20 rfl [.malloc 8, .malloc 1, .free ⟨4096⟩] 5).2.1
      ⟨4096⟩ (by decide)
  exact ⟨s, hleast, hptr⟩

end OpenShmem
