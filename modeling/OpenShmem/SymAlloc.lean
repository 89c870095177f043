import OpenShmem.HeapHistory
import OpenShmem.Monitor

/-!
# A heap that threads share

`SymAlloc`, the last part of `src/symheap.rs`: a heap behind a mutex of its own, which
any thread may call. What a thread is handed out is its own until it, or whoever it
gave the pointer to, frees it: `grants` reads off the history of a run who was handed
out what, and `alloc_shared` says that these areas never overlap, in every
interleaving.
-/

namespace OpenShmem

/-- Thin handle for allocations from a stored symmetric heap: `Mutex<SymHeap>`, not held
by anyone. -/
structure SymAlloc : Type where
  poisoned : Bool
  heap : SymHeap

/-- What a method of `SymAlloc` returns. -/
inductive AllocAnswer : Type where
  | ptr (p : SymPtr)
  | freed
  | base (addr : ℕ)
  deriving DecidableEq, Repr

/-- A method of `SymAlloc`. -/
inductive AllocCall : Type where
  | malloc (size : ℕ)
  | free (ptr : SymPtr)
  | localBase
  deriving DecidableEq, Repr

namespace SymAlloc

/-- `SymAlloc::new`. -/
def new : Fn SymAlloc := do
  let heap ← SymHeap.new
  return ⟨false, heap⟩

/-- `self.0.lock()`, and then `operation` on the guard: a panic while the guard is held
poisons the mutex. -/
def withLock {α : Type} (a : SymAlloc) (operation : SymHeap → Outcome Error α × SymHeap) :
    Outcome Error α × SymAlloc :=
  if a.poisoned then (.err (.internal "symmetric heap lock poisoned"), a)
  else
    let p := operation a.heap
    (p.1, ⟨p.1 matches .panic, p.2⟩)

theorem withLock_eq {α : Type} {a : SymAlloc} {operation : SymHeap → Outcome Error α × SymHeap}
    {o : Outcome Error α} {heap : SymHeap} (ha : a.poisoned = false)
    (hrun : operation a.heap = (o, heap)) (ho : o ≠ .panic) :
    a.withLock operation = (o, ⟨false, heap⟩) := by
  rw [withLock, ha, hrun]
  cases o with
  | panic => exact absurd rfl ho
  | _ => rfl

/-- `SymAlloc::malloc`. -/
def malloc (a : SymAlloc) (size : ℕ) : Outcome Error SymPtr × SymAlloc :=
  a.withLock fun heap => heap.malloc size

/-- `SymAlloc::free`. -/
def free (a : SymAlloc) (ptr : SymPtr) : Outcome Error Unit × SymAlloc :=
  a.withLock fun heap => heap.free ptr

/-- `SymAlloc::local_base`. -/
def localBase (a : SymAlloc) : Outcome Error ℕ × SymAlloc :=
  a.withLock fun heap => (.ok heap.localBase, heap)

/-- Any method, and the handle it leaves. -/
def exec (a : SymAlloc) : AllocCall → Outcome Error AllocAnswer × SymAlloc
  | .malloc size => ((a.malloc size).1 >>= fun p => .ok (.ptr p), (a.malloc size).2)
  | .free ptr => ((a.free ptr).1 >>= fun _ => .ok .freed, (a.free ptr).2)
  | .localBase => (a.localBase.1 >>= fun addr => .ok (.base addr), a.localBase.2)

/-- The methods, which do nothing but take the mutex. -/
def monitor : Monitor Ext Error AllocCall (Outcome Error AllocAnswer) SymAlloc where
  before _ := return none
  inside c a := return a.exec c

end SymAlloc

/-! ## What was handed out -/

/-- An area that a thread was handed out. -/
structure Grant (ι : Type) : Type where
  owner : ι
  ptr : SymPtr
  size : ℕ
  deriving DecidableEq

namespace Grant

variable {ι : Type}

/-- The area itself: `malloc` rounds up to the alignment. -/
def span (g : Grant ι) : Span := ⟨g.ptr.addr, SymHeap.roundUp g.size⟩

/-- A call that has returned: `malloc` hands out, `free` takes back. -/
def step (gs : List (Grant ι)) : ι × Returned AllocCall (Outcome Error AllocAnswer) → List (Grant ι)
  | (i, ⟨.malloc size, .ok (.ptr p), _⟩) => ⟨i, p, size⟩ :: gs
  | (_, ⟨.free p, .ok .freed, _⟩) => gs.filter fun g => g.ptr ≠ p
  | _ => gs

end Grant

/-- Who was handed out what, and has not given it back. -/
def grants {ι : Type} (history : List (ι × Returned AllocCall (Outcome Error AllocAnswer))) :
    List (Grant ι) :=
  history.foldl Grant.step []

/-- What holds of a shared heap and the areas handed out from it. -/
structure Booked {ι : Type} (base capacity : ℕ) (gs : List (Grant ι)) (a : SymAlloc) : Prop where
  inv : HeapInv a.heap
  unpoisoned : a.poisoned = false
  base_eq : a.heap.localBase = base
  capacity_eq : a.heap.capacity = capacity
  /-- the map of the heap is the book of what was handed out -/
  entry_iff : ∀ p len, a.heap.allocations[p]? = some len ↔
    ∃ g ∈ gs, g.ptr.addr = p ∧ SymHeap.roundUp g.size = len
  distinct : gs.Pairwise fun g g' => g.ptr ≠ g'.ptr
  proper : ∀ g ∈ gs, g.size ≠ 0

/-- In a heap at `base` there is room for `r` bytes at offset `o`, between the areas
handed out. -/
def Fits {ι : Type} (base capacity : ℕ) (gs : List (Grant ι)) (r o : ℕ) : Prop :=
  o + r ≤ capacity ∧ ∀ g ∈ gs, (⟨base + o, r⟩ : Span).Disjoint g.span

/-- What a call answers, by the areas handed out before it. -/
def Answered {ι : Type} (base capacity : ℕ) (gs : List (Grant ι)) (o : Outcome Error AllocAnswer) :
    AllocCall → Prop
  | .malloc size =>
    (∃ s, size ≠ 0 ∧ size + 7 < 2 ^ 64 ∧
      IsLeast {s | Fits base capacity gs (SymHeap.roundUp size) s} s ∧
      o = .ok (.ptr ⟨base + s⟩)) ∨
    ((∃ text, o = .err (.usage text)) ∧
      ¬ (size ≠ 0 ∧ size + 7 < 2 ^ 64 ∧ ∃ s, Fits base capacity gs (SymHeap.roundUp size) s))
  | .free p =>
    (o = .ok .freed ∧ ∃ g ∈ gs, g.ptr = p) ∨
    (o = .err (.usage "invalid symmetric pointer") ∧ ∀ g ∈ gs, g.ptr ≠ p)
  | .localBase => o = .ok (.base base)

namespace Booked

variable {ι : Type} {base capacity : ℕ} {gs : List (Grant ι)} {a : SymAlloc}

/-- Every area handed out is an entry of the heap. -/
theorem entry (h : Booked base capacity gs a) {g : Grant ι} (hg : g ∈ gs) :
    a.heap.allocations[g.ptr.addr]? = some (SymHeap.roundUp g.size) :=
  (h.entry_iff _ _).mpr ⟨g, hg, rfl, rfl⟩

/-- What is live in the heap is what was handed out. -/
theorem live_iff (h : Booked base capacity gs a) (t : Span) :
    a.heap.Live t ↔ ∃ g ∈ gs, g.span = ⟨base + t.start, t.len⟩ := by
  rw [SymHeap.Live, SymHeap.live, h.base_eq, h.entry_iff]
  simp [Grant.span]

/-- There is room in the heap where there is room between the areas. -/
theorem room_iff (h : Booked base capacity gs a) (r s : ℕ) :
    a.heap.ledger.Room r s ↔ Fits base capacity gs r s := by
  rw [Ledger.Room, Fits, show a.heap.ledger.capacity = capacity from h.capacity_eq]
  refine and_congr_right fun _ => ?_
  constructor
  · intro hroom g hg x hx hxg
    obtain ⟨hlow, -⟩ := Span.mem_mk.mp hx
    have hlive : a.heap.Live ⟨g.ptr.addr - base, SymHeap.roundUp g.size⟩ := by
      have hle := h.inv.keyed _ _ (h.entry hg)
      rw [h.base_eq] at hle
      exact (h.live_iff _).mpr ⟨g, hg, by simp [Grant.span, Nat.add_sub_cancel' hle]⟩
    have hle := h.inv.keyed _ _ (h.entry hg)
    rw [h.base_eq] at hle
    refine hroom _ hlive (x - base) ?_ ?_
    · rw [Span.mem_mk] at hx ⊢
      omega
    · rw [Grant.span, Span.mem_mk] at hxg
      rw [Span.mem_mk]
      omega
  · intro hfits t ht x hx hxt
    obtain ⟨g, hg, hspan⟩ := (h.live_iff t).mp ht
    refine hfits g hg (base + x) ?_ ?_
    · rw [Span.mem_mk] at hx ⊢
      omega
    · rw [hspan, Span.mem_mk]
      rw [Span.mem_def, Span.stop] at hxt
      omega

/-- Areas handed out at different places do not overlap. -/
theorem disjoint (h : Booked base capacity gs a) {g g' : Grant ι} (hg : g ∈ gs) (hg' : g' ∈ gs)
    (hne : g.ptr ≠ g'.ptr) : g.span.Disjoint g'.span := by
  have hle := h.inv.keyed _ _ (h.entry hg)
  have hle' := h.inv.keyed _ _ (h.entry hg')
  have hlive := SymHeap.live_of_entry h.inv (h.entry hg)
  have hlive' := SymHeap.live_of_entry h.inv (h.entry hg')
  have hstart : g.ptr.addr - a.heap.localBase ≠ g'.ptr.addr - a.heap.localBase := by
    intro heq
    have haddr : g.ptr.addr = g'.ptr.addr := by omega
    exact hne (congrArg SymPtr.mk haddr)
  intro x hx hx'
  rw [Grant.span, Span.mem_mk] at hx hx'
  refine h.inv.apart _ _ hlive hlive' hstart (x - a.heap.localBase) ?_ ?_
  · rw [SymHeap.entrySpan, Span.mem_mk]
    omega
  · rw [SymHeap.entrySpan, Span.mem_mk]
    omega

/-- A call that changes nothing. -/
theorem of_same {o : Outcome Error AllocAnswer} (h : Booked base capacity gs a) {c : AllocCall}
    (ho : a.exec c = (o, ⟨false, a.heap⟩)) {i : ι} (hstep : Grant.step gs (i, ⟨c, o, true⟩) = gs) :
    Booked base capacity (Grant.step gs (i, ⟨c, (a.exec c).1, true⟩)) (a.exec c).2 := by
  rw [ho, hstep]
  exact ⟨h.inv, rfl, h.base_eq, h.capacity_eq, h.entry_iff, h.distinct, h.proper⟩

theorem malloc (h : Booked base capacity gs a) (size : ℕ) (i : ι) :
    Answered base capacity gs (a.exec (.malloc size)).1 (.malloc size) ∧
      Booked base capacity (Grant.step gs (i, ⟨.malloc size, (a.exec (.malloc size)).1, true⟩))
        (a.exec (.malloc size)).2 := by
  obtain ⟨e, hm, hno⟩ | ⟨s, hsize, hpad, hlow, hok, -⟩ := h.inv.malloc_ledger size
  · have hex : a.exec (.malloc size) = (.err e, ⟨false, a.heap⟩) := by
      rw [SymAlloc.exec, SymAlloc.malloc, SymAlloc.withLock_eq h.unpoisoned hm (by simp)]
      rfl
    refine ⟨Or.inr ⟨?_, ?_⟩, h.of_same hex rfl⟩
    · obtain ⟨text, -, hm'⟩ | ⟨pre, b, post, r, -, -, -, -, -, -, hm'⟩ := h.inv.malloc_cases size
      · rw [hex]
        exact ⟨text, congrArg (fun p => p.1 >>= fun p => .ok (.ptr p)) (hm.symm.trans hm')⟩
      · cases hm.symm.trans hm'
    · simpa only [h.room_iff] using hno
  · have hex : a.exec (.malloc size) =
        (.ok (.ptr ⟨base + s⟩), ⟨false, (a.heap.malloc size).2⟩) := by
      rw [h.base_eq] at hok
      have hm : a.heap.malloc size = (.ok ⟨base + s⟩, (a.heap.malloc size).2) := Prod.ext hok rfl
      rw [SymAlloc.exec, SymAlloc.malloc, SymAlloc.withLock_eq h.unpoisoned hm (by simp)]
      rfl
    obtain ⟨hnone, hmap⟩ := h.inv.malloc_entry hok
    rw [h.base_eq] at hnone hmap
    have hleast := Ledger.lowest_eq_some.mp hlow
    simp only [h.room_iff] at hleast
    rw [hex]
    refine ⟨Or.inl ⟨s, hsize, hpad, hleast, rfl⟩, ?_⟩
    refine ⟨h.inv.malloc size, rfl, ?_, ?_, ?_, ?_, ?_⟩
    · rw [← h.base_eq]
      exact SymHeap.localBase_malloc _ _
    · rw [← h.capacity_eq]
      exact a.heap.capacity_apply (.malloc size)
    · intro p len
      rw [show (⟨false, (a.heap.malloc size).2⟩ : SymAlloc).heap.allocations = _ from hmap,
        SymHeap.entry_insert hnone, h.entry_iff]
      simp [Grant.step, eq_comm]
    · refine List.pairwise_cons.mpr ⟨fun g hg heq => ?_, h.distinct⟩
      have hentry := h.entry hg
      rw [← heq, hnone] at hentry
      cases hentry
    · exact List.forall_mem_cons.mpr ⟨hsize, h.proper⟩

theorem free (h : Booked base capacity gs a) (p : SymPtr) (i : ι) :
    Answered base capacity gs (a.exec (.free p)).1 (.free p) ∧
      Booked base capacity (Grant.step gs (i, ⟨.free p, (a.exec (.free p)).1, true⟩))
        (a.exec (.free p)).2 := by
  have hgranted : (∃ g ∈ gs, g.ptr = p) ↔ ∃ len, a.heap.allocations[p.addr]? = some len := by
    constructor
    · rintro ⟨g, hg, rfl⟩
      exact ⟨_, h.entry hg⟩
    · rintro ⟨len, hlen⟩
      obtain ⟨g, hg, hp, -⟩ := (h.entry_iff _ _).mp hlen
      exact ⟨g, hg, congrArg SymPtr.mk hp⟩
  obtain ⟨hnone, hf⟩ | ⟨s, hptr, hs, hf⟩ := h.inv.free_cases p
  · have hex : a.exec (.free p) =
        (.err (.usage "invalid symmetric pointer"), ⟨false, a.heap⟩) := by
      rw [SymAlloc.exec, SymAlloc.free, SymAlloc.withLock_eq h.unpoisoned hf (by simp)]
      rfl
    refine ⟨Or.inr ⟨congrArg Prod.fst hex, fun g hg hp => ?_⟩, h.of_same hex rfl⟩
    obtain ⟨len, hlen⟩ := hgranted.mp ⟨g, hg, hp⟩
    cases hnone.symm.trans hlen
  · have hok : (a.heap.free p).1 = .ok () := by rw [hf]
    have hex : a.exec (.free p) = (.ok .freed, ⟨false, (a.heap.free p).2⟩) := by
      have hf' : a.heap.free p = (.ok (), (a.heap.free p).2) := Prod.ext hok rfl
      rw [SymAlloc.exec, SymAlloc.free, SymAlloc.withLock_eq h.unpoisoned hf' (by simp)]
      rfl
    obtain ⟨len, hlen, hmap, -⟩ := h.inv.free_entry hok
    rw [hex]
    refine ⟨Or.inl ⟨rfl, hgranted.mpr ⟨len, hlen⟩⟩, h.inv.free p, rfl, ?_, ?_, ?_, ?_, ?_⟩
    · rw [← h.base_eq]
      exact SymHeap.localBase_free _ _
    · rw [← h.capacity_eq]
      exact a.heap.capacity_apply (.free p)
    · intro q n
      rw [show (⟨false, (a.heap.free p).2⟩ : SymAlloc).heap.allocations = _ from hmap,
        SymHeap.entry_erase, h.entry_iff]
      constructor
      · rintro ⟨hne, g, hg, rfl, rfl⟩
        refine ⟨g, List.mem_filter.mpr ⟨hg, decide_eq_true fun heq => ?_⟩, rfl, rfl⟩
        exact hne (congrArg SymPtr.addr heq)
      · rintro ⟨g, hg, rfl, rfl⟩
        obtain ⟨hg, hne⟩ := List.mem_filter.mp hg
        exact ⟨fun heq => of_decide_eq_true hne (congrArg SymPtr.mk heq), g, hg, rfl, rfl⟩
    · exact h.distinct.filter _
    · exact fun g hg => h.proper g (List.mem_of_mem_filter hg)

/-- **One call**: it is answered by the areas handed out before it, and the book is kept. -/
theorem exec (h : Booked base capacity gs a) (c : AllocCall) (i : ι) :
    Answered base capacity gs (a.exec c).1 c ∧
      Booked base capacity (Grant.step gs (i, ⟨c, (a.exec c).1, true⟩)) (a.exec c).2 := by
  cases c with
  | malloc size => exact h.malloc size i
  | free p => exact h.free p i
  | localBase =>
    have hlock : a.localBase = (.ok base, ⟨false, a.heap⟩) :=
      SymAlloc.withLock_eq h.unpoisoned (by rw [h.base_eq]) (by simp)
    have hex : a.exec .localBase = (.ok (.base base), ⟨false, a.heap⟩) := by
      rw [SymAlloc.exec, hlock]
      rfl
    exact ⟨congrArg Prod.fst hex, h.of_same hex rfl⟩

end Booked

/-! ## Threads -/

section Threads

variable {ι : Type}

/-- Before anything is handed out. -/
theorem Booked.fresh {words : ℕ} (hw : 0 < words) (region : Region words) (rkey : List UInt8) :
    Booked region.base (words * 8) ([] : List (Grant ι))
      ⟨false, SymHeap.fresh words region rkey⟩ where
  inv := .fresh hw region rkey
  unpoisoned := rfl
  base_eq := rfl
  capacity_eq := rfl
  entry_iff p len := by simp [SymHeap.fresh]
  distinct := .nil
  proper _ hg := by cases hg

theorem SymAlloc.new_ok {W : Type} {handler : Prog.Handler Ext W} {w : W} {a : SymAlloc}
    (hnew : (SymAlloc.new.run handler w).1 = .ok a) :
    0 < a.heap.capacity ∧ Booked a.heap.localBase a.heap.capacity ([] : List (Grant ι)) a := by
  obtain ⟨heap, w', hheap, hpure⟩ := Prog.run_bind_eq_ok hnew
  obtain rfl := Outcome.ok.inj hpure
  obtain ⟨var, w'', -, hsize⟩ := Prog.run_bind_eq_ok (congrArg Prod.fst hheap)
  obtain ⟨words, region, rkey, hwords, rfl⟩ := SymHeap.withSize_ok hsize
  exact ⟨Nat.mul_pos hwords (by decide), .fresh hwords region rkey⟩

/-- A whole history keeps the book, and each of its calls was answered by what was handed
out before it. -/
theorem Booked.serial {base capacity : ℕ} {a a' : SymAlloc}
    {h : List (ι × Returned AllocCall (Outcome Error AllocAnswer))} {t : List (ι × Ext.Event)}
    (hserial : SymAlloc.monitor.Serial a h t a')
    (ha : Booked base capacity ([] : List (Grant ι)) a) :
    Booked base capacity (grants h) a' ∧ ∀ front e back, h = front ++ e :: back →
      Answered base capacity (grants front) e.2.result e.2.call := by
  induction hserial with
  | nil => exact ⟨ha, fun front e back h => by simp at h⟩
  | @snoc h t b b' i c r u _ hcall ih =>
    obtain ⟨hb, hanswers⟩ := ih
    -- a method makes no external call
    obtain ⟨-, hend⟩ := hcall.of_done
    obtain ⟨rfl, rfl⟩ : r = (b.exec c).1 ∧ b' = (b.exec c).2 := by
      have heq : (r, b') = b.exec c := Outcome.ok.inj (Prog.done.inj hend)
      exact ⟨congrArg Prod.fst heq, congrArg Prod.snd heq⟩
    obtain ⟨hanswer, hnext⟩ := hb.exec c i
    refine ⟨?_, fun front e back hsplit => ?_⟩
    · rw [grants, List.foldl_append]
      exact hnext
    · rcases List.eq_nil_or_concat back with rfl | ⟨back, last, rfl⟩
      · obtain ⟨rfl, he⟩ := List.append_inj' hsplit rfl
        obtain rfl := (List.cons.inj he).1
        exact hanswer
      · rw [List.concat_eq_append, ← List.cons_append, ← List.append_assoc] at hsplit
        exact hanswers front e back (List.append_inj' hsplit rfl).1

variable [DecidableEq ι] {s : Threads ι Ext Error AllocCall (Outcome Error AllocAnswer) SymAlloc}

/-- Every call that has returned had the mutex. -/
theorem SymAlloc.locked_eq {todo : ι → List AllocCall} {a : SymAlloc}
    (hrun : SymAlloc.monitor.Run (.start todo a) s) : s.locked = s.history := by
  refine List.filter_eq_self.mpr fun e he => ?_
  obtain ⟨t, ht⟩ := hrun.orderly.returned e he
  by_contra hno
  rw [if_neg hno] at ht
  cases ht

/-- **A shared heap.** Whatever threads call on a handle, in any interleaving: each method
is answered by the areas that were handed out, and not freed, by all threads before it:
`malloc` finds the lowest gap between them, and fails exactly when there is none; `free`
takes exactly their pointers, so that of several threads that free one pointer only one
succeeds; nobody finds the mutex poisoned. And the areas handed out at any time are
aligned, inside the heap, and do not overlap. -/
theorem alloc_shared {W : Type} (handler : Prog.Handler Ext W) (w : W) {a : SymAlloc}
    (hnew : (SymAlloc.new.run handler w).1 = .ok a) (todo : ι → List AllocCall)
    (hrun : SymAlloc.monitor.Run (.start todo a) s) :
    let base := a.heap.localBase
    let capacity := a.heap.capacity
    (∀ i, Monitor.callsOf s i = todo i) ∧
    (∀ front e back, s.history = front ++ e :: back →
      Answered base capacity (grants front) e.2.result e.2.call) ∧
    s.value.poisoned = false ∧ s.value.heap.Partitioned ∧
    (grants s.history).Pairwise (fun g g' => g.span.Disjoint g'.span) ∧
    ∀ g ∈ grants s.history, g.size ≠ 0 ∧ 8 ∣ g.ptr.addr - base ∧ base ≤ g.ptr.addr ∧
      g.span.stop ≤ base + capacity := by
  obtain ⟨t, u, hserial, -, -⟩ := hrun.orderly.serial
  rw [SymAlloc.locked_eq hrun] at hserial
  obtain ⟨hpos, hstart⟩ := SymAlloc.new_ok (ι := ι) hnew
  obtain ⟨hbooked, hanswers⟩ := Booked.serial hserial hstart
  refine ⟨fun i => hrun.callsOf_eq i, hanswers, hbooked.unpoisoned, ?_, ?_, fun g hg => ?_⟩
  · refine hbooked.inv.partitioned ?_
    rw [hbooked.capacity_eq]
    exact hpos
  · exact hbooked.distinct.imp_of_mem fun hg hg' hne => hbooked.disjoint hg hg' hne
  · have hentry := hbooked.entry hg
    have hle := hbooked.inv.keyed _ _ hentry
    obtain ⟨-, ⟨hdvd, -⟩, hstop⟩ := hbooked.inv.sound _ (SymHeap.live_of_entry hbooked.inv hentry)
    rw [SymHeap.entrySpan, hbooked.base_eq] at hstop hdvd
    rw [hbooked.base_eq] at hle
    rw [hbooked.capacity_eq] at hstop
    have hend : g.ptr.addr - a.heap.localBase + SymHeap.roundUp g.size ≤ a.heap.capacity := hstop
    refine ⟨hbooked.proper g hg, hdvd, hle, ?_⟩
    show g.ptr.addr + SymHeap.roundUp g.size ≤ _
    omega

/-- Two threads that free one pointer. -/
def freeing : Bool → List AllocCall
  | false => [.malloc 8, .free ⟨4096⟩]
  | true => [.free ⟨4096⟩, .malloc 1]

/-- The second one to come is refused, and what was freed is handed out again. -/
theorem alloc_shared_instance : ∃ (a : SymAlloc)
    (s : Threads Bool Ext Error AllocCall (Outcome Error AllocAnswer) SymAlloc),
    (SymAlloc.new.run (accommodating 4096) ()).1 = .ok a ∧
    s.history.map (fun e => (e.1, e.2.result)) =
      [(false, .ok (.ptr ⟨4096⟩)), (true, .ok .freed),
        (false, .err (.usage "invalid symmetric pointer")), (true, .ok (.ptr ⟨4096⟩))] ∧
    (grants s.history).Pairwise (fun g g' => g.span.Disjoint g'.span) := by
  let a : SymAlloc := ⟨false, SymHeap.fresh 8388608 ⟨4096, by decide, by decide⟩ [1, 2, 3, 4]⟩
  have hnew : (SymAlloc.new.run (accommodating 4096) ()).1 = .ok a := rfl
  have hplay : ∃ s, SymAlloc.monitor.play (fun c => (accommodating 4096 c ()).1)
      [false, false, false, false, true, true, true, false, false, true, true, true]
      (.start freeing a) = some s ∧ s.history.map (fun e => (e.1, e.2.result)) =
      [(false, .ok (.ptr ⟨4096⟩)), (true, .ok .freed),
        (false, .err (.usage "invalid symmetric pointer")), (true, .ok (.ptr ⟨4096⟩))] := by
    refine ⟨_, (Option.some_get (?_ : Option.isSome _ = true)).symm, ?_⟩ <;> decide
  obtain ⟨s, hs, hhistory⟩ := hplay
  exact ⟨a, s, hnew, hhistory, (alloc_shared (accommodating 4096) () hnew freeing
    (Monitor.run_of_play hs)).2.2.2.2.1⟩

end Threads

end OpenShmem
