import OpenShmem.HeapSpec

/-!
# Heaps and their histories

Two questions about whole histories of calls. Which pointers does `free` take?
Exactly those that the history handed out and has not taken back, which
`Custody` records without looking into the heap. What does a heap remember of
its history? Nothing but its live allocations: histories that leave the same
allocations leave the same free list, so everything that follows is the same.
-/

namespace OpenShmem

/-! ## Pointers handed out -/

/-- A heap and the pointers its callers hold. -/
structure Custody : Type where
  heap : SymHeap
  held : List SymPtr

/-- A pointer is held from the `malloc` that returns it to the `free` that
takes it. -/
def Custody.apply (c : Custody) : HeapCall → Custody
  | .malloc size =>
    match c.heap.malloc size with
    | (.ok ptr, heap) => ⟨heap, ptr :: c.held⟩
    | (_, heap) => ⟨heap, c.held⟩
  | .free ptr =>
    match c.heap.free ptr with
    | (.ok _, heap) => ⟨heap, c.held.filter (· ≠ ptr)⟩
    | (_, heap) => ⟨heap, c.held⟩

/-- The pointers that a sequence of calls returned and has not freed since. -/
def SymHeap.heldAfter (heap : SymHeap) (calls : List HeapCall) : List SymPtr :=
  (calls.foldl Custody.apply ⟨heap, []⟩).held

/-- What is held is what the map has an entry for. -/
structure Custody.Sound (c : Custody) : Prop where
  inv : HeapInv c.heap
  held_iff : ∀ p, p ∈ c.held ↔ ∃ len, c.heap.allocations[p.addr]? = some len

namespace Custody

variable {c : Custody}

/-- The heap of a custody is the heap the call leaves. -/
theorem heap_apply (c : Custody) (call : HeapCall) : (c.apply call).heap = call.apply c.heap := by
  cases call with
  | malloc size =>
    rw [apply, HeapCall.apply]
    split <;> next h => rw [h]
  | free ptr =>
    rw [apply, HeapCall.apply]
    split <;> next h => rw [h]

theorem heap_foldl (calls : List HeapCall) (c : Custody) :
    (calls.foldl apply c).heap = c.heap.exec calls := by
  induction calls generalizing c with
  | nil => rfl
  | cons call calls ih =>
    rw [List.foldl_cons, ih, heap_apply]
    rfl

/-- One call keeps the book straight. -/
theorem Sound.apply (hc : c.Sound) (call : HeapCall) : (c.apply call).Sound := by
  obtain ⟨hI, hheld⟩ := hc
  refine ⟨?_, fun p => ?_⟩
  · rw [heap_apply]
    exact hI.apply call
  rw [heap_apply]
  cases call with
  | malloc size =>
    obtain ⟨e, hm, -⟩ | ⟨s, -, -, -, hok, -⟩ := hI.malloc_ledger size
    · rw [Custody.apply, HeapCall.apply, hm]
      exact hheld p
    · obtain ⟨hnone, hmap⟩ := hI.malloc_entry hok
      have hcons : (c.apply (.malloc size)).held = ⟨c.heap.localBase + s⟩ :: c.held := by
        rw [Custody.apply, show c.heap.malloc size = (_, _) from Prod.ext hok rfl]
      rw [hcons, HeapCall.apply, hmap, List.mem_cons, hheld p]
      simp only [SymHeap.entry_insert hnone, exists_or, exists_and_left, exists_eq, and_true]
      rw [← SymPtr.mk.injEq]
  | free ptr =>
    obtain ⟨-, hf⟩ | ⟨s, -, -, hf⟩ := hI.free_cases ptr
    · rw [Custody.apply, HeapCall.apply, hf]
      exact hheld p
    · have hok : (c.heap.free ptr).1 = .ok () := by rw [hf]
      obtain ⟨len, -, hmap, -⟩ := hI.free_entry hok
      have hfilter : (c.apply (.free ptr)).held = c.held.filter (· ≠ ptr) := by
        rw [Custody.apply, show c.heap.free ptr = (_, _) from Prod.ext hok rfl]
      rw [hfilter, HeapCall.apply, hmap, List.mem_filter, hheld p]
      simp only [SymHeap.entry_erase, exists_and_left, decide_eq_true_eq]
      rw [and_comm, ne_eq, ne_eq, ← SymPtr.mk.injEq]

/-- A whole history keeps the book straight. -/
theorem Sound.foldl (hc : c.Sound) (calls : List HeapCall) : (calls.foldl Custody.apply c).Sound :=
  calls.foldlRecOn Custody.apply hc fun _ hc call _ => hc.apply call

end Custody

namespace SymHeap

variable {W : Type} {handler : Prog.Handler Ext W} {w : W} {bytes : ℕ} {heap : SymHeap}

/-- After any history, the pointers held are the keys of the map. -/
theorem mem_heldAfter (hnew : ((withSize bytes).run handler w).1 = .ok heap)
    (calls : List HeapCall) (p : SymPtr) :
    p ∈ heap.heldAfter calls ↔ ∃ len, (heap.exec calls).allocations[p.addr]? = some len := by
  have hstart : Custody.Sound ⟨heap, []⟩ := by
    refine ⟨inv_exec hnew [], fun p => ?_⟩
    obtain ⟨words, region, rkey, -, rfl⟩ := withSize_ok hnew
    simp [fresh]
  have hend := (hstart.foldl calls).held_iff p
  rw [Custody.heap_foldl] at hend
  exact hend

end SymHeap

/-- **Exact `free`**: after every history, `free` takes exactly the pointers
that are held. When it does, that one entry and nothing else leaves the map,
and exactly its bytes become free; when it does not, the heap is as before. The
checks after the entry's removal never fail. -/
theorem free_exact {W : Type} (handler : Prog.Handler Ext W) (w : W) (bytes : ℕ)
    {heap : SymHeap} (hnew : ((SymHeap.withSize bytes).run handler w).1 = .ok heap)
    (calls : List HeapCall) (p : SymPtr) :
    let h := heap.exec calls
    ((h.free p).1 = .ok () ↔ p ∈ heap.heldAfter calls) ∧
      ((h.free p).1 = .ok () → ∃ len, h.allocations[p.addr]? = some len ∧
        (∀ a n, (h.free p).2.allocations[a]? = some n ↔
          a ≠ p.addr ∧ h.allocations[a]? = some n) ∧
        (∀ b ∈ h.freeList, (h.entrySpan p.addr len).Disjoint b) ∧
        ∀ x, x ∈ cover (h.free p).2.freeList ↔
          x ∈ cover h.freeList ∨ x ∈ h.entrySpan p.addr len) ∧
      (h.free p).1.Returned ∧
      (∀ e, (h.free p).1 = .err e → (h.free p).2 = h) ∧
      ∀ len, h.allocations[p.addr]? = some len → ∃ start,
        checkedSub p.addr h.localBase = some start ∧ SymHeap.rejects h.words start len = false := by
  intro h
  have hI : HeapInv h := SymHeap.inv_exec hnew calls
  have hdead : ∀ len, h.allocations[p.addr]? = some len → ∃ start,
      checkedSub p.addr h.localBase = some start ∧
        SymHeap.rejects h.words start len = false := by
    intro len hget
    exact ⟨_, checkedSub_eq_some.mpr ⟨hI.keyed _ _ hget, rfl⟩,
      hI.not_rejects (SymHeap.live_of_entry hI hget)⟩
  -- held is having an entry, and `free` looks at nothing else
  rw [SymHeap.mem_heldAfter hnew]
  obtain ⟨hnone, hf⟩ | ⟨s, hptr, hs, hf⟩ := hI.free_cases p
  · have herr : (h.free p).1 ≠ .ok () := by
      rw [hf]
      exact fun h => by cases h
    refine ⟨iff_of_false herr ?_, fun hok => absurd hok herr, ?_, fun _ _ => ?_, hdead⟩
    · rintro ⟨len, hget⟩
      exact absurd (hnone.symm.trans hget) (fun h => by cases h)
    · rw [hf]
      trivial
    · rw [hf]
  · have hok : (h.free p).1 = .ok () := by rw [hf]
    obtain ⟨len, hget, hmap, hlist⟩ := hI.free_entry hok
    have hlive := SymHeap.live_of_entry hI hget
    refine ⟨iff_of_true hok ⟨len, hget⟩, fun _ => ⟨len, hget, ?_, ?_, ?_⟩, ?_, ?_, hdead⟩
    · intro a n
      rw [hmap]
      exact SymHeap.entry_erase
    · exact fun b hb => hI.live_disjoint_free hlive hb
    · intro x
      rw [hlist]
      exact (hI.release_spec hlive).2 x
    · rw [hok]
      trivial
    · intro e he
      rw [hok] at he
      cases he

/-- Of two pointers handed out, the one that was freed is refused a second
time and the other one is taken. -/
theorem free_exact_instance :
    (⟨4104⟩ : SymPtr) ∈ (SymHeap.fresh 3 ⟨4096, by decide, by decide⟩ [1, 2, 3, 4]).heldAfter
      [.malloc 8, .malloc 1, .free ⟨4096⟩, .free ⟨4096⟩] :=
  (free_exact (accommodating 4096) () 20 rfl
    [.malloc 8, .malloc 1, .free ⟨4096⟩, .free ⟨4096⟩] ⟨4104⟩).1.mp (by decide)

/-! ## The heap forgets its history -/

/-- The calls on a heap and their answers. -/
def heapMachine : Machine SymHeap HeapCall (Outcome Error (Option SymPtr)) where
  step h
    | .malloc size =>
      let p := h.malloc size
      (p.1 >>= fun ptr => .ok (some ptr), p.2)
    | .free ptr =>
      let p := h.free ptr
      (p.1 >>= fun _ => .ok none, p.2)

/-- Two heaps at one base with the same ledger. -/
structure SymHeap.Alike (h k : SymHeap) : Prop where
  left : HeapInv h
  right : HeapInv k
  base_eq : h.localBase = k.localBase
  ledger_eq : h.ledger = k.ledger

namespace SymHeap.Alike

variable {h k : SymHeap}

theorem layout_eq (hk : h.Alike k) : h.layout = k.layout := by
  obtain ⟨hI, kI, -, hledger⟩ := hk
  ext1
  · exact hI.freeList_eq kI hledger
  · exact congrArg Ledger.live hledger

/-- Alike heaps answer alike and stay alike: `malloc` and `free` are functions
of the layout and the base, and the layout is a function of the ledger. -/
theorem step (hk : h.Alike k) (c : HeapCall) :
    (heapMachine.step h c).1 = (heapMachine.step k c).1 ∧
      (heapMachine.step h c).2.Alike (heapMachine.step k c).2 := by
  have hlayout := hk.layout_eq
  obtain ⟨hI, kI, hbase, hledger⟩ := hk
  have hcap : h.capacity = k.capacity := congrArg Ledger.capacity hledger
  cases c with
  | malloc size =>
    obtain ⟨hans, hnext⟩ := hI.layout_malloc size
    obtain ⟨kans, knext⟩ := kI.layout_malloc size
    rw [hlayout] at hans hnext
    refine ⟨?_, ⟨hI.malloc size, kI.malloc size, ?_, ?_⟩⟩
    · show ((h.malloc size).1 >>= _) = ((k.malloc size).1 >>= _)
      rw [hans, kans, hbase]
    · exact (h.localBase_malloc size).trans (hbase.trans (k.localBase_malloc size).symm)
    · ext1
      · exact (h.capacity_apply (.malloc size)).trans
          (hcap.trans (k.capacity_apply (.malloc size)).symm)
      · exact congrArg Layout.live (hnext.trans knext.symm)
  | free ptr =>
    have hans : (h.free ptr).1 = (k.free ptr).1 := by
      rw [hI.free_answer, kI.free_answer, hI.allocations_eq kI hbase hledger]
    refine ⟨?_, ⟨hI.free ptr, kI.free ptr, ?_, ?_⟩⟩
    · show ((h.free ptr).1 >>= _) = ((k.free ptr).1 >>= _)
      rw [hans]
    · exact (h.localBase_free ptr).trans (hbase.trans (k.localBase_free ptr).symm)
    · show (h.free ptr).2.ledger = (k.free ptr).2.ledger
      rw [hI.free_ledger, kI.free_ledger, hbase, hledger]

/-- Whole continuations answer alike. -/
theorem outputs_eq (hk : h.Alike k) (later : List HeapCall) :
    heapMachine.outputs h later = heapMachine.outputs k later :=
  List.forall₂_eq_eq_eq ▸ (Machine.lockstep (A := Eq) (fun _ _ c hk => hk.step c) later h k hk).1

end SymHeap.Alike

/-- A call changes the free list and the map, and nothing else. -/
theorem HeapCall.apply_frame (h : SymHeap) (c : HeapCall) :
    c.apply h = { h with
      freeList := (c.apply h).freeList
      allocations := (c.apply h).allocations } := by
  cases c with
  | malloc size =>
    rw [HeapCall.apply, SymHeap.malloc]
    split <;> rfl
  | free ptr =>
    rw [HeapCall.apply, SymHeap.free]
    dsimp only
    repeat' split
    all_goals rfl

/-- No history moves a heap. -/
theorem SymHeap.localBase_exec (h : SymHeap) (calls : List HeapCall) :
    (h.exec calls).localBase = h.localBase := by
  refine calls.foldlRecOn (motive := fun h' => h'.localBase = h.localBase) HeapCall.apply rfl ?_
  intro h' hh' c _
  cases c with
  | malloc size => exact (h'.localBase_malloc size).trans hh'
  | free ptr => exact (h'.localBase_free ptr).trans hh'

namespace HeapInv

open SymHeap

variable {h : SymHeap}

/-- Heaps that came from one heap and have the same ledger are the same. -/
theorem eq_of_ledger {j k : SymHeap} (hj : HeapInv j) (hk : HeapInv k)
    (jframe : j = { h with freeList := j.freeList, allocations := j.allocations })
    (kframe : k = { h with freeList := k.freeList, allocations := k.allocations })
    (hledger : j.ledger = k.ledger) : j = k := by
  have hbase : j.localBase = k.localBase := by rw [jframe, kframe]; rfl
  rw [jframe, kframe, hj.freeList_eq hk hledger, hj.allocations_eq hk hbase hledger]

/-- Two frees in either order. -/
theorem free_comm (hI : HeapInv h) (p q : SymPtr) :
    ((h.free p).2.free q).2 = ((h.free q).2.free p).2 := by
  have hframe : ∀ p q : SymPtr, ((h.free p).2.free q).2 =
      { h with
        freeList := ((h.free p).2.free q).2.freeList
        allocations := ((h.free p).2.free q).2.allocations } := by
    intro p q
    have hp := HeapCall.apply_frame h (.free p)
    have hq := HeapCall.apply_frame (h.free p).2 (.free q)
    simp only [HeapCall.apply] at hp hq
    rw [hq, hp]
  refine eq_of_ledger ((hI.free p).free q) ((hI.free q).free p) (hframe p q) (hframe q p) ?_
  rw [(hI.free p).free_ledger, (hI.free q).free_ledger, hI.free_ledger, hI.free_ledger,
    localBase_free, localBase_free]
  rcases checkedSub p.addr h.localBase with _ | o
  · rfl
  · rcases checkedSub q.addr h.localBase with _ | o'
    · rfl
    · exact Ledger.strike_comm _ _ _

/-- A list of frees in any order. -/
theorem exec_free_perm {ps qs : List SymPtr} (hperm : ps.Perm qs) {h : SymHeap} (hI : HeapInv h) :
    h.exec (ps.map .free) = h.exec (qs.map .free) := by
  induction hperm generalizing h with
  | nil => rfl
  | cons p _ ih => exact ih (hI.free p)
  | swap p q l => exact congrArg (fun k : SymHeap => k.exec (l.map .free)) (hI.free_comm q p)
  | trans _ _ ih ih' => exact (ih hI).trans (ih' hI)

/-- A `malloc` taken back. -/
theorem free_malloc (hI : HeapInv h) {size : ℕ} {p : SymPtr} (hok : (h.malloc size).1 = .ok p) :
    ((h.malloc size).2.free p).1 = .ok () ∧ ((h.malloc size).2.free p).2 = h := by
  have hmI := hI.malloc size
  obtain ⟨e, hm, -⟩ | ⟨s, hsize, -, hlow, hok', hledger⟩ := hI.malloc_ledger size
  · rw [hm] at hok
    cases hok
  obtain rfl : _ = p := Outcome.ok.inj (hok'.symm.trans hok)
  obtain ⟨-, hmap⟩ := hI.malloc_entry hok
  constructor
  · rw [hmI.free_answer, hmap, Std.ExtTreeMap.getElem?_insert_self]
    rfl
  · refine eq_of_ledger (hmI.free _) hI ?_ rfl ?_
    · have hp := HeapCall.apply_frame h (.malloc size)
      have hq := HeapCall.apply_frame (h.malloc size).2 (.free ⟨h.localBase + s⟩)
      simp only [HeapCall.apply] at hp hq
      rw [hq, hp]
    · have hroom := (Ledger.lowest_eq_some.mp hlow).1
      rw [hmI.free_ledger, localBase_malloc, checkedSub_add_left, hledger]
      exact Ledger.strike_enter
        (hroom.live_eq_none (roundUp_pos hsize) fun t ht => (hI.sound t ht).1)

end HeapInv

/-- **History independence**: two histories on heaps with one base and one
capacity that leave the same map leave the same free list, and every later
sequence of calls has the same answers. So the order in which pointers are freed
does not matter, and a `malloc` that is taken back leaves no trace. -/
theorem heap_history_independent {W W' : Type} (handlerA : Prog.Handler Ext W)
    (handlerB : Prog.Handler Ext W') (wa : W) (wb : W') (sizeA sizeB : ℕ) {a b : SymHeap}
    (ha : ((SymHeap.withSize sizeA).run handlerA wa).1 = .ok a)
    (hb : ((SymHeap.withSize sizeB).run handlerB wb).1 = .ok b)
    (hbase : a.localBase = b.localBase) (hcap : a.capacity = b.capacity)
    (callsA callsB : List HeapCall) :
    let h := a.exec callsA
    let k := b.exec callsB
    ((∀ p : ℕ, h.allocations[p]? = k.allocations[p]?) →
        h.freeList = k.freeList ∧
          ∀ later, heapMachine.outputs h later = heapMachine.outputs k later) ∧
      (∀ ps qs : List SymPtr, ps.Perm qs → h.exec (ps.map .free) = h.exec (qs.map .free)) ∧
      ∀ size p, (h.malloc size).1 = .ok p →
        ((h.malloc size).2.free p).1 = .ok () ∧
          ((h.malloc size).2.free p).2.freeList = h.freeList ∧
          ((h.malloc size).2.free p).2.allocations = h.allocations := by
  intro h k
  have hI : HeapInv h := SymHeap.inv_exec ha callsA
  have kI : HeapInv k := SymHeap.inv_exec hb callsB
  refine ⟨fun hmap => ?_, fun ps qs hperm => hI.exec_free_perm hperm, fun size p hok => ?_⟩
  · have hbase' : h.localBase = k.localBase :=
      (a.localBase_exec callsA).trans (hbase.trans (b.localBase_exec callsB).symm)
    have hledger : h.ledger = k.ledger := by
      ext1
      · exact (a.capacity_exec callsA).trans (hcap.trans (b.capacity_exec callsB).symm)
      · funext o
        show h.allocations[h.localBase + o]? = k.allocations[k.localBase + o]?
        rw [hmap, hbase']
    have hk : h.Alike k := ⟨hI, kI, hbase', hledger⟩
    exact ⟨hI.freeList_eq kI hledger, hk.outputs_eq⟩
  · obtain ⟨hfree, hsame⟩ := hI.free_malloc hok
    rw [hsame]
    exact ⟨hfree, rfl, rfl⟩

/-- A heap on which a block came and went, against one that saw no call at all:
the next two blocks are the same, and can be freed in either order. -/
theorem heap_history_independent_instance :
    ((SymHeap.fresh 3 ⟨4096, by decide, by decide⟩ [1, 2, 3, 4]).exec
        [.malloc 8, .free ⟨4096⟩]).freeList = [⟨0, 24⟩] ∧
      ((SymHeap.fresh 3 ⟨4096, by decide, by decide⟩ [1, 2, 3, 4]).exec
          [.malloc 8, .malloc 8]).exec ([⟨4096⟩, ⟨4104⟩].map .free) =
        ((SymHeap.fresh 3 ⟨4096, by decide, by decide⟩ [1, 2, 3, 4]).exec
          [.malloc 8, .malloc 8]).exec ([⟨4104⟩, ⟨4096⟩].map .free) := by
  have hmap : ((SymHeap.fresh 3 ⟨4096, by decide, by decide⟩ [1, 2, 3, 4]).exec
      [.malloc 8, .free ⟨4096⟩]).allocations =
        ((∅ : Std.ExtTreeMap ℕ ℕ).insert 4096 8).erase 4096 := rfl
  refine ⟨((heap_history_independent (accommodating 4096) (accommodating 4096) () () 20 24
    (a := SymHeap.fresh 3 ⟨4096, by decide, by decide⟩ [1, 2, 3, 4])
    (b := SymHeap.fresh 3 ⟨4096, by decide, by decide⟩ [1, 2, 3, 4]) rfl rfl rfl rfl
    [.malloc 8, .free ⟨4096⟩] []).1 fun p => ?_).1, ?_⟩
  · rw [hmap]
    simp [SymHeap.exec, SymHeap.fresh]
  · exact (heap_history_independent (accommodating 4096) (accommodating 4096) () () 20 24
      (a := SymHeap.fresh 3 ⟨4096, by decide, by decide⟩ [1, 2, 3, 4])
      (b := SymHeap.fresh 3 ⟨4096, by decide, by decide⟩ [1, 2, 3, 4]) rfl rfl rfl rfl
      [.malloc 8, .malloc 8] []).2.1 [⟨4096⟩, ⟨4104⟩] [⟨4104⟩, ⟨4096⟩] (List.Perm.swap _ _ _)

end OpenShmem
