import OpenShmem.HeapRuns
import OpenShmem.Machine

/-!
# Symmetry of the heap across PEs

A heap is a layout placed at its PE's base: `malloc` and `free` on the heap are
`malloc` and `free` on the layout, with every offset `o` turned into the address
`base + o`. Two PEs that make the same calls run the same layout machine, so
whatever their bases are they succeed and fail together and hand out the same
offsets.
-/

namespace OpenShmem

namespace SymHeap

/-- What is the same on every PE. -/
def layout (h : SymHeap) : Layout := ⟨h.freeList, h.live⟩

theorem localBase_malloc (h : SymHeap) (size : ℕ) : (h.malloc size).2.localBase = h.localBase := by
  unfold malloc
  split <;> rfl

theorem localBase_free (h : SymHeap) (ptr : SymPtr) : (h.free ptr).2.localBase = h.localBase := by
  unfold free
  dsimp only
  repeat' split
  all_goals rfl

end SymHeap

/-! ## A heap refines its layout -/

/-- An answer of the layout, at a PE with this base. -/
def placeMalloc (base : ℕ) : Except Error ℕ → Outcome Error SymPtr
  | .ok o => .ok ⟨base + o⟩
  | .error e => .err e

/-- An answer of the layout that carries no offset. -/
def placeFree : Except Error Unit → Outcome Error Unit
  | .ok u => .ok u
  | .error e => .err e

namespace HeapInv

open SymHeap

variable {h : SymHeap}

/-- `malloc` on a heap is `malloc` on its layout. -/
theorem layout_malloc (hI : HeapInv h) (size : ℕ) :
    (h.malloc size).1 = placeMalloc h.localBase (h.layout.malloc size).1 ∧
      (h.malloc size).2.layout = (h.layout.malloc size).2 := by
  rcases hI.malloc_cases size with
    ⟨m, hp, hm⟩ | ⟨pre, b, post, r, -, -, -, -, -, hp, hm⟩
  · rw [hm, Layout.malloc, show h.layout.freeList = h.freeList from rfl, hp]
    exact ⟨rfl, rfl⟩
  · rw [hm, Layout.malloc, show h.layout.freeList = h.freeList from rfl, hp]
    refine ⟨rfl, ?_⟩
    ext1
    · rfl
    · funext o
      show live _ o = Function.update h.layout.live b.start (some r) o
      rw [Function.update_apply]
      exact live_insert h _ b.start r o

/-- `free` of a placed offset is `free` on the layout. -/
theorem layout_free (hI : HeapInv h) (o : ℕ) :
    (h.free ⟨h.localBase + o⟩).1 = placeFree (h.layout.free o).1 ∧
      (h.free ⟨h.localBase + o⟩).2.layout = (h.layout.free o).2 := by
  obtain ⟨hnone, hf⟩ | ⟨s, hptr, hs, hf⟩ := hI.free_cases ⟨h.localBase + o⟩
  · have hlive : h.layout.live o = none := hnone
    rw [hf, Layout.free, hlive]
    exact ⟨rfl, rfl⟩
  · obtain rfl : o = s.start := Nat.add_left_cancel (SymPtr.mk.inj hptr)
    have hlive : h.layout.live s.start = some s.len := hs
    rw [hf, Layout.free, hlive]
    refine ⟨rfl, ?_⟩
    ext1
    · rfl
    · funext o
      show live _ o = Function.update h.layout.live s.start none o
      rw [Function.update_apply]
      exact live_erase h _ s.start o

end HeapInv

/-! ## Runs that name pointers by the call that returned them -/

/-- A call of a PE's program. The pointer to free is named by the number of the
`malloc` call that returned it. -/
inductive HeapOp : Type where
  | malloc (size : ℕ)
  | free (which : ℕ)
  deriving DecidableEq, Repr

/-- A heap and what each `malloc` so far returned on it. -/
structure PeRun : Type where
  heap : SymHeap
  returned : List (Option SymPtr)

/-- A layout and the offset each `malloc` so far returned. -/
structure LayoutRun : Type where
  layout : Layout
  returned : List (Option ℕ)

/-- The pointer in a successful answer. -/
def Outcome.toOption {ε α : Type} : Outcome ε α → Option α
  | .ok a => some a
  | _ => none

/-- The calls of a PE. A `free` that names a `malloc` that failed or was never
made is no call, and is answered `none`. -/
def peMachine : Machine PeRun HeapOp (Option (Outcome Error (Option SymPtr))) where
  step r
    | .malloc size =>
      let p := r.heap.malloc size
      (some (p.1 >>= fun ptr => .ok (some ptr)), ⟨p.2, r.returned ++ [p.1.toOption]⟩)
    | .free which =>
      match r.returned[which]? with
      | some (some ptr) =>
        let p := r.heap.free ptr
        (some (p.1 >>= fun _ => .ok none), ⟨p.2, r.returned⟩)
      | _ => (none, r)

/-- The same calls on a layout. -/
def layoutMachine : Machine LayoutRun HeapOp (Option (Except Error (Option ℕ))) where
  step l
    | .malloc size =>
      let p := l.layout.malloc size
      (some (p.1.map some), ⟨p.2, l.returned ++ [p.1.toOption]⟩)
    | .free which =>
      match l.returned[which]? with
      | some (some o) =>
        let p := l.layout.free o
        (some (p.1.map fun _ => none), ⟨p.2, l.returned⟩)
      | _ => (none, l)

/-- An answer of the layout machine, at a PE with this base. -/
def placeAnswer (base : ℕ) :
    Option (Except Error (Option ℕ)) → Option (Outcome Error (Option SymPtr))
  | none => none
  | some (.ok none) => some (.ok none)
  | some (.ok (some o)) => some (.ok (some ⟨base + o⟩))
  | some (.error e) => some (.err e)

/-- A PE's run is a run of the layout, placed at the PE's base. -/
structure PlacedAt (base : ℕ) (r : PeRun) (l : LayoutRun) : Prop where
  inv : HeapInv r.heap
  base_eq : r.heap.localBase = base
  layout_eq : r.heap.layout = l.layout
  returned_eq : r.returned = l.returned.map (Option.map fun o => ⟨base + o⟩)

namespace PlacedAt

variable {base : ℕ} {r : PeRun} {l : LayoutRun}

/-- One call: the PE answers what the layout answers, and stays placed. -/
theorem step (h : PlacedAt base r l) (op : HeapOp) :
    (peMachine.step r op).1 = placeAnswer base (layoutMachine.step l op).1 ∧
      PlacedAt base (peMachine.step r op).2 (layoutMachine.step l op).2 := by
  obtain ⟨hI, rfl, hlay, hret⟩ := h
  cases op with
  | malloc size =>
    obtain ⟨hans, hnext⟩ := hI.layout_malloc size
    rw [hlay] at hans hnext
    simp only [peMachine, layoutMachine]
    refine ⟨?_, ⟨hI.malloc size, r.heap.localBase_malloc size, hnext, ?_⟩⟩
    · rw [hans]
      rcases (l.layout.malloc size).1 with e | o <;> rfl
    · rw [hans, hret, List.map_append]
      rcases (l.layout.malloc size).1 with e | o <;> rfl
  | free which =>
    have hnamed : r.returned[which]? =
        (l.returned[which]?).map (Option.map fun o => ⟨r.heap.localBase + o⟩) := by
      rw [hret, List.getElem?_map]
    simp only [peMachine, layoutMachine]
    rcases hw : l.returned[which]? with _ | _ | o
    · rw [hw] at hnamed
      rw [hnamed]
      exact ⟨rfl, ⟨hI, rfl, hlay, hret⟩⟩
    · rw [hw] at hnamed
      rw [hnamed]
      exact ⟨rfl, ⟨hI, rfl, hlay, hret⟩⟩
    · rw [hw] at hnamed
      obtain ⟨hans, hnext⟩ := hI.layout_free o
      rw [hlay] at hans hnext
      rw [hnamed]
      simp only [Option.map_some]
      refine ⟨?_, ⟨hI.free _, r.heap.localBase_free _, hnext, hret⟩⟩
      rw [hans]
      rcases (l.layout.free o).1 with e | u <;> rfl

/-- A whole run: the PE's run is the layout's run, placed at its base. -/
theorem run (h : PlacedAt base r l) (ops : List HeapOp) :
    List.Forall₂ (fun a c => a = placeAnswer base c)
        (peMachine.outputs r ops) (layoutMachine.outputs l ops) ∧
      PlacedAt base (peMachine.final r ops) (layoutMachine.final l ops) := by
  have hstep : ∀ r l op, PlacedAt base r l →
      (peMachine.step r op).1 = placeAnswer base (layoutMachine.step l op).1 ∧
        PlacedAt base (peMachine.step r op).2 (layoutMachine.step l op).2 :=
    fun _ _ op h => h.step op
  exact Machine.lockstep hstep ops r l h

end PlacedAt

/-- No run changes the size of a heap. -/
theorem capacity_final (r : PeRun) (ops : List HeapOp) :
    (peMachine.final r ops).heap.capacity = r.heap.capacity := by
  refine Machine.invariant (I := fun r' => r'.heap.capacity = r.heap.capacity) ?_ ops r rfl
  intro r' op h
  cases op with
  | malloc size => exact (r'.heap.capacity_apply (.malloc size)).trans h
  | free which =>
    simp only [peMachine]
    split
    · next ptr _ => exact (r'.heap.capacity_apply (.free ptr)).trans h
    · exact h

/-! ## Two PEs -/

/-- Two answers agree: both are pointers at the same offset of their own heap,
or both are `Ok(())`, or both are the same error, or both are no call. -/
def Agree (baseA baseB : ℕ) :
    Option (Outcome Error (Option SymPtr)) → Option (Outcome Error (Option SymPtr)) → Prop
  | some (.ok (some p)), some (.ok (some q)) =>
    ∃ o, p.offsetFrom baseA = .ok o ∧ q.offsetFrom baseB = .ok o
  | some (.ok none), some (.ok none) => True
  | some (.err e), some (.err e') => e = e'
  | none, none => True
  | _, _ => False

theorem agree_of_placeAnswer {baseA baseB : ℕ} {a b : Option (Outcome Error (Option SymPtr))}
    {c : Option (Except Error (Option ℕ))} (ha : a = placeAnswer baseA c)
    (hb : b = placeAnswer baseB c) : Agree baseA baseB a b := by
  subst ha
  subst hb
  rcases c with _ | e | _ | o
  · exact trivial
  · exact rfl
  · exact trivial
  · exact ⟨o, SymPtr.offsetFrom_add baseA o, SymPtr.offsetFrom_add baseB o⟩

/-- A fresh heap starts as the fresh layout at its base. -/
theorem PlacedAt.fresh {words : ℕ} (hw : 0 < words) (region : Region words) (rkey : List UInt8) :
    PlacedAt region.base ⟨SymHeap.fresh words region rkey, []⟩
      ⟨(SymHeap.fresh words region rkey).layout, []⟩ :=
  ⟨HeapInv.fresh hw region rkey, rfl, rfl, rfl⟩

/-- The layout of a fresh heap depends on its size only. -/
theorem layout_fresh {words : ℕ} (ra rb : Region words) (ka kb : List UInt8) :
    (SymHeap.fresh words ra ka).layout = (SymHeap.fresh words rb kb).layout := by
  ext1
  · rfl
  · funext o
    simp [SymHeap.layout, SymHeap.live, SymHeap.fresh]

/-- **Symmetry**: two heaps of the same capacity, registered by two PEs at any
bases, answer the same sequence of calls alike, and end with the same free
blocks and the same allocation lengths at every offset. -/
theorem heaps_symmetric {W W' : Type} (handlerA : Prog.Handler Ext W)
    (handlerB : Prog.Handler Ext W') (wa : W) (wb : W') (sizeA sizeB : ℕ) {a b : SymHeap}
    (ha : ((SymHeap.withSize sizeA).run handlerA wa).1 = .ok a)
    (hb : ((SymHeap.withSize sizeB).run handlerB wb).1 = .ok b)
    (hcap : a.capacity = b.capacity) (ops : List HeapOp) :
    List.Forall₂ (Agree a.localBase b.localBase)
        (peMachine.outputs ⟨a, []⟩ ops) (peMachine.outputs ⟨b, []⟩ ops) ∧
      (peMachine.final ⟨a, []⟩ ops).heap.layout = (peMachine.final ⟨b, []⟩ ops).heap.layout := by
  obtain ⟨wordsA, ra, ka, hwa, rfl⟩ := SymHeap.withSize_ok ha
  obtain ⟨wordsB, rb, kb, hwb, rfl⟩ := SymHeap.withSize_ok hb
  obtain rfl : wordsA = wordsB := by
    have : wordsA * 8 = wordsB * 8 := hcap
    omega
  have hplaceB := PlacedAt.fresh hwb rb kb
  rw [← layout_fresh ra rb ka kb] at hplaceB
  obtain ⟨houtA, hfinA⟩ := (PlacedAt.fresh hwa ra ka).run ops
  obtain ⟨houtB, hfinB⟩ := hplaceB.run ops
  have hagree : ∀ x y c, x = placeAnswer ra.base c → y = placeAnswer rb.base c →
      Agree ra.base rb.base x y := fun _ _ _ => agree_of_placeAnswer
  refine ⟨forall₂_of_common hagree houtA houtB, ?_⟩
  rw [hfinA.layout_eq, hfinB.layout_eq]

/-- Two PEs at bases 4096 and 8192 that allocate, free, and free again. -/
theorem heaps_symmetric_instance :
    List.Forall₂ (Agree 4096 8192)
        (peMachine.outputs ⟨SymHeap.fresh 3 ⟨4096, by decide, by decide⟩ [1, 2, 3, 4], []⟩
          [.malloc 9, .free 0, .free 0])
        (peMachine.outputs ⟨SymHeap.fresh 3 ⟨8192, by decide, by decide⟩ [1, 2, 3, 4], []⟩
          [.malloc 9, .free 0, .free 0]) :=
  (heaps_symmetric (accommodating 4096) (accommodating 8192) () () 20 24 rfl rfl rfl _).1

end OpenShmem
