import OpenShmem.HeapSpec
import OpenShmem.Init
import OpenShmem.ObjectStore
import OpenShmem.RmaCorrect

/-!
# The partitioned global address space

What the library is for: collective `malloc` and `free` and typed `put` and `get` of any
PEs, in any order, are calls on distributed objects. A client names an object by the
number of the `malloc` that made it; each PE keeps its own pointer, and turns it into an
offset with `offset_from` for every transfer. Behind that, free memory is reused, and
objects come to lie where others were.

`pgas_refines` says that a client that keeps inside its objects, and gets only when no
put is in flight, sees nothing but the objects.
-/

namespace OpenShmem

/-! ## The job and its client -/

/-- A job between two calls. -/
structure Pgas (n : ℕ) (W : Type) : Type where
  /-- what each PE has stored -/
  state : Fin n → ShmemState
  /-- what each `malloc` so far returned, on each PE -/
  handles : Fin n → List (Option SymPtr)
  world : W
  /-- what the client knows -/
  client : Inventory

/-- A call of the client. Transfers are made by PE `me`. -/
inductive PgasCall (n : ℕ) : Type where
  | malloc (size : ℕ)
  | free (which : ℕ)
  | put (me target : Fin n) (which start : ℕ) (T : Pod) (xs : List T.Value)
  | get (me target : Fin n) (which start : ℕ) (T : Pod) (len : ℕ)
  /-- the client waits until what was put has landed -/
  | settle

/-- Its answer; that of a collective call is one for each PE. -/
inductive PgasAnswer (n : ℕ) : Type where
  | pointers (o : Fin n → Outcome Error SymPtr)
  | freed (o : Fin n → Outcome Error Unit)
  | put (o : Outcome Error Unit)
  | values (T : Pod) (o : Outcome Error (List T.Value))
  | settled

/-- The call, on objects. -/
def PgasCall.toObject (ne : Endian) {n : ℕ} : PgasCall n → ObjectCall UInt8
  | malloc size => .create size
  | free which => .destroy which
  | put _ target which start T xs => .write which target start (xs.flatMap (T.toNeBytes ne))
  | get _ target which start T len => .read which target start (len * T.size)
  | settle => .settle

/-- With enough polls the call ends with `o` and leaves `w'`. -/
def Finishes {W α : Type} (handler : Prog.Handler Ext W) (f : ℕ → Fn α) (w : W)
    (o : Outcome Error α) (w' : W) : Prop :=
  ∃ enough, ∀ fuel, enough ≤ fuel → (f fuel).run handler w = (o, w')

/-- It does so in one way. -/
theorem Finishes.unique {W α : Type} {handler : Prog.Handler Ext W} {f : ℕ → Fn α} {w w₁ w₂ : W}
    {o₁ o₂ : Outcome Error α} (h₁ : Finishes handler f w o₁ w₁)
    (h₂ : Finishes handler f w o₂ w₂) : o₁ = o₂ ∧ w₁ = w₂ := by
  obtain ⟨enough₁, h₁⟩ := h₁
  obtain ⟨enough₂, h₂⟩ := h₂
  have heq := (h₁ _ (Nat.le_max_left enough₁ enough₂)).symm.trans
    (h₂ _ (Nat.le_max_right enough₁ enough₂))
  exact ⟨congrArg Prod.fst heq, congrArg Prod.snd heq⟩

namespace Pgas

variable {W : Type} (ne : Endian) (handler : Prog.Handler Ext W) (N : Network W UInt8) {n : ℕ}

/-- A call of a client that keeps inside its objects. -/
inductive Step (s : Pgas n W) : PgasCall n → PgasAnswer n → Pgas n W → Prop where
  | malloc {size : ℕ} {o : Fin n → Outcome Error SymPtr} {state : Fin n → ShmemState}
    (hcall : ∀ j, OpenShmem.malloc (.holding (s.state j)) size = (o j, .holding (state j))) :
    Step s (.malloc size) (.pointers o)
      { s with
        state
        handles := fun j => s.handles j ++ [(o j).toOption]
        client := s.client.add (if ∀ j, (o j).toOption.isSome then some size else none) }
  | free {which : ℕ} {p : Fin n → SymPtr} {o : Fin n → Outcome Error Unit}
    {state : Fin n → ShmemState}
    (hallow : s.client.Allows ((PgasCall.free which : PgasCall n).toObject ne))
    (hptr : ∀ j, (s.handles j)[which]? = some (some (p j)))
    (hcall : ∀ j, OpenShmem.free (.holding (s.state j)) (p j) = (o j, .holding (state j))) :
    Step s (.free which) (.freed o) { s with state, client := s.client.remove which }
  | put {me target : Fin n} {which start : ℕ} {T : Pod} {xs : List T.Value} {p : SymPtr}
    {offset : ℕ} {o : Outcome Error Unit} {w : W}
    (hallow : s.client.Allows ((PgasCall.put me target which start T xs).toObject ne))
    (hptr : (s.handles me)[which]? = some (some p))
    (hoffset : p.offsetFrom (s.state me).heap.localBase = .ok offset)
    (hcall : Finishes handler
      (fun fuel => OpenShmem.put ne fuel (.holding (s.state me)) T target xs (offset + start))
      s.world o w) :
    Step s (.put me target which start T xs) (.put o)
      { s with world := w, client := { s.client with settled := false } }
  | get {me target : Fin n} {which start len : ℕ} {T : Pod} {p : SymPtr} {offset : ℕ}
    {o : Outcome Error (List T.Value)} {w : W}
    (hallow : s.client.Allows ((PgasCall.get me target which start T len).toObject ne))
    (hptr : (s.handles me)[which]? = some (some p))
    (hoffset : p.offsetFrom (s.state me).heap.localBase = .ok offset)
    (hcall : Finishes handler
      (fun fuel => OpenShmem.get ne fuel (.holding (s.state me)) T target (offset + start) len)
      s.world o w) :
    Step s (.get me target which start T len) (.values T o) { s with world := w }
  | settle {w : W} (hlanded : N.Landed s.world w) :
    Step s .settle .settled { s with world := w, client := { s.client with settled := true } }

/-- Many calls, with their answers. -/
inductive Run (s : Pgas n W) : List (PgasCall n × PgasAnswer n) → Pgas n W → Prop where
  | nil : Run s [] s
  | snoc {h : List (PgasCall n × PgasAnswer n)} {s' s'' : Pgas n W} {c : PgasCall n}
    {a : PgasAnswer n} (hist : Run s h s') (hstep : Step ne handler N s' c a s'') :
    Run s (h ++ [(c, a)]) s''

/-- The client has not begun. -/
def start (J : Job) (w : W) : Pgas J.n W := ⟨J.state, fun _ => [], w, .empty⟩

end Pgas

/-- An answer of the job is that of the objects, on every PE; `base` is where its heap
lies. -/
inductive Matches (ne : Endian) {n : ℕ} (base : Fin n → ℕ) :
    PgasAnswer n → ObjectAnswer UInt8 → Prop where
  | pointers (offset : ℕ) : Matches ne base (.pointers fun j => .ok ⟨base j + offset⟩) .done
  | exhausted (e : Error) : Matches ne base (.pointers fun _ => .err e) .refused
  | freed : Matches ne base (.freed fun _ => .ok ()) .done
  | put : Matches ne base (.put (.ok ())) .done
  | values (T : Pod) (bytes : List UInt8) :
    Matches ne base (.values T (.ok ((chunksExact T.size bytes).map (T.fromNeBytes ne))))
      (.cells bytes)
  | settled : Matches ne base .settled .done

/-! ## Typed transfers -/

section Transfers

variable {W : Type} {handler : Prog.Handler Ext W} {N : Network W UInt8} {state : ShmemState}
  {c : PeerConnection} {k offset address : ℕ} {heap : Span} (ne : Endian)

/-- A typed put into a region that is reached writes the bytes of its slice there. -/
theorem put_finishes (hreach : Reaches handler N c k heap) (T : Pod) (xs : List T.Value)
    (haddr : peerAndAddress state k offset (xs.length * T.size) = .ok (c, address))
    (hsmall : xs.length * T.size < 2 ^ 64) (hlow : heap.start ≤ address)
    (hhigh : address + xs.length * T.size ≤ heap.stop) (w : W) :
    ∃ w', Finishes handler (fun fuel => put ne fuel (.holding state) T k xs offset) w (.ok ()) w' ∧
      N.settled w' = (N.settled w).write k address (xs.flatMap (T.toNeBytes ne)) := by
  have hbytes := Pod.length_flatMap_toNeBytes ne xs
  rw [← hbytes] at haddr hhigh
  obtain ⟨w', ⟨enough, hput⟩, hwritten⟩ := putmem_run hreach haddr hlow hhigh w
  refine ⟨w', ⟨enough, fun fuel hfuel => ?_⟩, hwritten⟩
  show (put ne fuel (.holding state) T k xs offset).run handler w = _
  rw [put, Pod.podAsBytes_eq_ok ne hsmall]
  exact hput fuel hfuel

/-- A typed get from a region that is reached decodes the bytes there. -/
theorem get_finishes (hreach : Reaches handler N c k heap) (T : Pod) (len : ℕ)
    (haddr : peerAndAddress state k offset (len * T.size) = .ok (c, address))
    (hsmall : len * T.size ≤ isizeMax) (hlow : heap.start ≤ address)
    (hhigh : address + len * T.size ≤ heap.stop) {w : W} (hq : N.Quiet w) :
    ∃ w', Finishes handler (fun fuel => get ne fuel (.holding state) T k offset len) w
        (.ok ((chunksExact T.size ((N.mem w).read k address (len * T.size))).map
          (T.fromNeBytes ne))) w' ∧ N.Unwritten w w' := by
  obtain ⟨w', ⟨enough, hget⟩, hkeep⟩ := getmem_run hreach haddr hsmall hlow hhigh hq
  refine ⟨w', ⟨enough, fun fuel hfuel => ?_⟩, hkeep⟩
  have hlen : len * T.size < 2 ^ 64 := lt_of_le_of_lt hsmall (by decide)
  have hmul : checkedMul 64 len T.size = some (len * T.size) := checkedMul_eq_some.mpr ⟨hlen, rfl⟩
  show (get ne fuel (.holding state) T k offset len).run handler w = _
  rw [get, hmul, Fn.okOr_some_bind, Prog.run_bind_of_ok (hget fuel hfuel),
    Pod.collect_decode_chunks]
  rfl

end Transfers

/-! ## What the memory of a job stores -/

/-- The memory of the job stores the objects: `l` is the layout that all heaps have. -/
structure Stores (J : Job) {W : Type} (N : Network W UInt8) (l : LayoutRun) (s : Pgas J.n W)
    (o : Objects UInt8) : Prop where
  /-- every PE has made the same heap calls -/
  placed : ∀ j, PlacedAt (J.base j) ⟨(s.state j).heap, s.handles j⟩ l
  capacity : ∀ j, (s.state j).heap.capacity = J.words * 8
  peers : ∀ j, (s.state j).peers = (J.state j).peers
  client : s.client = o.toInventory
  count : l.returned.length = o.sizes.length
  /-- an object lies in an allocation -/
  object : ∀ which n, o.size which = some n → ∃ off, l.returned[which]? = some (some off) ∧
    l.layout.live off = some (SymHeap.roundUp n)
  /-- of its own -/
  apart : ∀ which which' off, (o.size which).isSome → (o.size which').isSome →
    l.returned[which]? = some (some off) → l.returned[which']? = some (some off) → which = which'
  cells : ∀ which n off, o.size which = some n → l.returned[which]? = some (some off) →
    ∀ (j : Fin J.n) (b : ℕ), b < n → o.cell which j b = N.settled s.world j (J.base j + (off + b))
  quiet : o.settled = true → N.Quiet s.world

namespace Stores

variable {J : Job} {W : Type} {N : Network W UInt8} {l : LayoutRun} {s : Pgas J.n W}
  {o : Objects UInt8}

/-- Nothing is stored at the start. -/
theorem start (J : Job) (j₀ : Fin J.n) (w : W) (cell : ℕ → Memories UInt8) :
    Stores J N ⟨J.layout j₀, []⟩ (.start J w) ⟨.empty, cell⟩ where
  placed j := by
    obtain ⟨hI, hbase, hlayout⟩ := Job.placed j₀ j
    exact ⟨hI, hbase, hlayout, rfl⟩
  capacity j := by
    show (J.state j).heap.capacity = _
    rw [J.heap_eq j, capacity_final]
    rfl
  peers _ := rfl
  client := rfl
  count := rfl
  object which n h := by simp [Inventory.size, Inventory.empty] at h
  apart which which' off h := by simp [Inventory.size, Inventory.empty] at h
  cells which n off h := by simp [Inventory.size, Inventory.empty] at h
  quiet h := by cases h

/-- The allocation of an object, on any PE. -/
theorem live (h : Stores J N l s o) (j : Fin J.n) {off len : ℕ}
    (hlive : l.layout.live off = some len) : (s.state j).heap.Live ⟨off, len⟩ := by
  rw [← (h.placed j).layout_eq] at hlive
  exact hlive

/-- It is inside the heap. -/
theorem stop_le (h : Stores J N l s o) (j : Fin J.n) {off len : ℕ}
    (hlive : l.layout.live off = some len) : off + len ≤ J.words * 8 := by
  have hstop := ((h.placed j).inv.sound _ (h.live j hlive)).2.2
  rw [h.capacity j] at hstop
  exact hstop

/-- The pointer a PE holds of an object. -/
theorem handle (h : Stores J N l s o) (j : Fin J.n) {which off : ℕ}
    (hret : l.returned[which]? = some (some off)) :
    (s.handles j)[which]? = some (some ⟨J.base j + off⟩) := by
  have hreturned : s.handles j = l.returned.map (Option.map fun o => ⟨J.base j + o⟩) :=
    (h.placed j).returned_eq
  rw [hreturned, List.getElem?_map, hret]
  rfl

/-- Different objects share no byte. -/
theorem disjoint (h : Stores J N l s o) (j : Fin J.n) {which which' n n' off off' : ℕ}
    (hsize : o.size which = some n) (hsize' : o.size which' = some n')
    (hret : l.returned[which]? = some (some off)) (hret' : l.returned[which']? = some (some off'))
    (hne : which ≠ which') : (⟨off, n⟩ : Span).Disjoint ⟨off', n'⟩ := by
  obtain ⟨a, ha, hlive⟩ := h.object which n hsize
  obtain ⟨a', ha', hlive'⟩ := h.object which' n' hsize'
  obtain rfl : a = off := by simpa [hret] using ha.symm
  obtain rfl : a' = off' := by simpa [hret'] using ha'.symm
  have hoff : a ≠ a' := by
    rintro rfl
    exact hne (h.apart _ _ a (by simp [hsize]) (by simp [hsize']) hret hret')
  intro x hx hx'
  have hround : ∀ m, m ≤ SymHeap.roundUp m := fun m => by
    rw [SymHeap.roundUp]
    omega
  have := hround n
  have := hround n'
  rw [Span.mem_mk] at hx hx'
  refine (h.placed j).inv.apart _ _ (h.live j hlive) (h.live j hlive') hoff x ?_ ?_
  · rw [Span.mem_mk]
    omega
  · rw [Span.mem_mk]
    omega

/-! ### Collective calls -/

theorem release_holding {α : Type} {state state' : ShmemState} {o : Outcome Error α}
    (ho : o ≠ .panic) : (Lock.holding state).release (some state') o = .holding state' := by
  cases o with
  | panic => exact absurd rfl ho
  | _ => rfl

/-- `malloc` on a PE whose heap is placed: its answer is that of the layout. -/
theorem malloc_placed {base : ℕ} {state : ShmemState} {hs : List (Option SymPtr)}
    (h : PlacedAt base ⟨state.heap, hs⟩ l) (size : ℕ) :
    OpenShmem.malloc (.holding state) size = (placeMalloc base (l.layout.malloc size).1,
      .holding { state with heap := (state.heap.malloc size).2 }) := by
  obtain ⟨hans, -⟩ := h.inv.layout_malloc size
  have hbase : state.heap.localBase = base := h.base_eq
  have hlayout : state.heap.layout = l.layout := h.layout_eq
  rw [hbase, hlayout] at hans
  have hcalm : (state.heap.malloc size).1 ≠ .panic := by
    rw [hans]
    cases (l.layout.malloc size).1 <;> simp [placeMalloc]
  rw [← hans]
  exact Prod.ext rfl (release_holding hcalm)

/-- `free` on a PE whose heap is placed. -/
theorem free_placed {base off : ℕ} {state : ShmemState} {hs : List (Option SymPtr)}
    (h : PlacedAt base ⟨state.heap, hs⟩ l) :
    OpenShmem.free (.holding state) ⟨base + off⟩ = (placeFree (l.layout.free off).1,
      .holding { state with heap := (state.heap.free ⟨base + off⟩).2 }) := by
  obtain ⟨hans, -⟩ := h.inv.layout_free off
  have hbase : state.heap.localBase = base := h.base_eq
  have hlayout : state.heap.layout = l.layout := h.layout_eq
  rw [hbase, hlayout] at hans
  have hcalm : (state.heap.free ⟨base + off⟩).1 ≠ .panic := by
    rw [hans]
    cases (l.layout.free off).1 <;> simp [placeFree]
  rw [← hans]
  exact Prod.ext rfl (release_holding hcalm)

/-- Where a `malloc` that succeeds puts the new object. -/
theorem layout_malloc_ok (h : Stores J N l s o) (j₀ : Fin J.n) {size off : ℕ}
    (hok : (l.layout.malloc size).1 = .ok off) :
    l.layout.live off = none ∧
      (l.layout.malloc size).2.live =
        Function.update l.layout.live off (some (SymHeap.roundUp size)) := by
  have hplaced := h.placed j₀
  have hlayout : (s.state j₀).heap.layout = l.layout := hplaced.layout_eq
  obtain ⟨hans, -⟩ := hplaced.inv.layout_malloc size
  rw [hlayout, hok] at hans
  obtain ⟨hnone, -⟩ := hplaced.inv.malloc_entry hans
  refine ⟨?_, ?_⟩
  · rw [← hlayout]
    exact hnone
  · rw [Layout.malloc] at hok ⊢
    cases hp : Layout.place l.layout.freeList size with
    | error e =>
      rw [hp] at hok
      cases hok
    | ok r =>
      obtain ⟨o, r, rest⟩ := r
      rw [hp] at hok
      obtain rfl : o = off := Except.ok.inj hok
      rw [Layout.place] at hp
      split at hp
      · cases hp
      · split at hp
        · cases hp
        · split at hp
          · cases hp
          · cases hp
            rfl

/-- What is known of the job after a `malloc`, whether it succeeded or not. -/
theorem after_malloc (h : Stores J N l s o) (size : ℕ) (j : Fin J.n) :
    PlacedAt (J.base j) ⟨((s.state j).heap.malloc size).2,
        s.handles j ++ [(placeMalloc (J.base j) (l.layout.malloc size).1).toOption]⟩
      (layoutMachine.step l (.malloc size)).2 ∧
    ((s.state j).heap.malloc size).2.capacity = J.words * 8 := by
  obtain ⟨-, hnext⟩ := (h.placed j).step (.malloc size)
  obtain ⟨hans, -⟩ := (h.placed j).inv.layout_malloc size
  have hbase : (s.state j).heap.localBase = J.base j := (h.placed j).base_eq
  have hlayout : (s.state j).heap.layout = l.layout := (h.placed j).layout_eq
  rw [hbase, hlayout] at hans
  refine ⟨?_, ((s.state j).heap.capacity_apply (.malloc size)).trans (h.capacity j)⟩
  rw [← hans]
  exact hnext

theorem layout_malloc_error {size : ℕ} {e : Error} (herr : (l.layout.malloc size).1 = .error e) :
    (l.layout.malloc size).2 = l.layout := by
  rw [Layout.malloc] at herr ⊢
  cases hp : Layout.place l.layout.freeList size with
  | error e => rfl
  | ok r =>
    rw [hp] at herr
    cases herr

/-- An object that was there before one more `malloc` returned. -/
theorem returned_append (h : Stores J N l s o) {which n : ℕ} (hsize : o.size which = some n)
    (x : Option ℕ) : (l.returned ++ [x])[which]? = l.returned[which]? := by
  have hlt := Inventory.size_lt hsize
  rw [List.getElem?_append_left (by rw [h.count]; exact hlt)]

/-- What is known of the job after a `free`. -/
theorem layout_free_next (h : Stores J N l s o) (j : Fin J.n) (off : ℕ) :
    ((s.state j).heap.free ⟨J.base j + off⟩).1 = placeFree (l.layout.free off).1 ∧
    PlacedAt (J.base j) ⟨((s.state j).heap.free ⟨J.base j + off⟩).2, s.handles j⟩
      ⟨(l.layout.free off).2, l.returned⟩ := by
  obtain ⟨hI, hbase, hlayout, hret⟩ := h.placed j
  obtain ⟨hans, hnext⟩ := hI.layout_free off
  dsimp only at hI hbase hlayout hret hans hnext
  rw [hbase, hlayout] at hans hnext
  exact ⟨hans, hI.free _, ((s.state j).heap.localBase_free _).trans hbase, hnext, hret⟩

/-- What was live is live after one more `malloc`. -/
theorem live_malloc (h : Stores J N l s o) (j₀ : Fin J.n) (size : ℕ) {off len : ℕ}
    (hlive : l.layout.live off = some len) : (l.layout.malloc size).2.live off = some len := by
  cases hok : (l.layout.malloc size).1 with
  | error e =>
    rw [layout_malloc_error hok]
    exact hlive
  | ok new =>
    obtain ⟨hnone, hnew⟩ := h.layout_malloc_ok j₀ hok
    have hne : off ≠ new := by
      rintro rfl
      cases hnone.symm.trans hlive
    rw [hnew, Function.update_of_ne hne]
    exact hlive

/-- `malloc` does not put a new object where one is. -/
theorem not_fresh (h : Stores J N l s o) (j₀ : Fin J.n) {which n off size : ℕ}
    (hsize : o.size which = some n) (hret : l.returned[which]? = some (some off)) :
    (l.layout.malloc size).1 ≠ .ok off := by
  intro hok
  obtain ⟨off', hret', hlive⟩ := h.object which n hsize
  obtain rfl : off' = off := by simpa using hret'.symm.trans hret
  obtain ⟨hnone, -⟩ := h.layout_malloc_ok j₀ hok
  cases hnone.symm.trans hlive

/-- One object more, where `malloc` put it, or none. -/
theorem add (h : Stores J N l s o) (j₀ : Fin J.n) (size : ℕ) {x : Option ℕ}
    {cell : ℕ → Memories UInt8}
    (hcell : ∀ which, which ≠ o.sizes.length → cell which = o.cell which)
    (hnew : ∀ n, x = some n → n = size ∧ ∃ off, (l.layout.malloc size).1 = .ok off ∧
      ∀ (j : Fin J.n) b, cell o.sizes.length j b = N.settled s.world j (J.base j + (off + b))) :
    Stores J N (layoutMachine.step l (.malloc size)).2
      { s with
        state := fun j => { s.state j with heap := ((s.state j).heap.malloc size).2 }
        handles := fun j =>
          s.handles j ++ [(placeMalloc (J.base j) (l.layout.malloc size).1).toOption]
        client := s.client.add x }
      ⟨o.add x, cell⟩ := by
  have hlast : (l.returned ++ [(l.layout.malloc size).1.toOption])[o.sizes.length]? =
      some (l.layout.malloc size).1.toOption := by
    rw [← h.count]
    simp
  -- the object is an old one, or the new one
  have hcases : ∀ {which n}, (o.add x).size which = some n →
      (o.size which = some n ∧
        (l.returned ++ [(l.layout.malloc size).1.toOption])[which]? = l.returned[which]?) ∨
      (which = o.sizes.length ∧ n = size ∧ ∃ off, (l.layout.malloc size).1 = .ok off ∧
        (l.returned ++ [(l.layout.malloc size).1.toOption])[which]? = some (some off) ∧
        ∀ (j : Fin J.n) b, cell which j b = N.settled s.world j (J.base j + (off + b))) := by
    intro which n hsize
    obtain hold | ⟨rfl, hx⟩ := Inventory.size_add_eq_some.mp hsize
    · exact Or.inl ⟨hold, h.returned_append hold _⟩
    · obtain ⟨hn, off, hok, hcells⟩ := hnew n hx
      refine Or.inr ⟨rfl, hn, off, hok, ?_, hcells⟩
      rw [hlast, hok]
      rfl
  refine ⟨fun j => (h.after_malloc size j).1, fun j => (h.after_malloc size j).2, h.peers, ?_, ?_,
    ?_, ?_, ?_, h.quiet⟩
  · rw [h.client]
  · simpa [layoutMachine, Inventory.add] using h.count
  · intro which n hsize
    obtain ⟨hold, hret⟩ | ⟨-, rfl, off, hok, hret, -⟩ := hcases hsize
    · obtain ⟨off, hoff, hlive⟩ := h.object which n hold
      exact ⟨off, hret.trans hoff, h.live_malloc j₀ size hlive⟩
    · refine ⟨off, hret, ?_⟩
      show (l.layout.malloc n).2.live off = _
      rw [(h.layout_malloc_ok j₀ hok).2, Function.update_self]
  · intro which which' off hsome hsome' hoff hoff'
    obtain ⟨n, hsize⟩ := Option.isSome_iff_exists.mp hsome
    obtain ⟨n', hsize'⟩ := Option.isSome_iff_exists.mp hsome'
    obtain ⟨hold, hret⟩ | ⟨rfl, -, a, hok, hret, -⟩ := hcases hsize
    · obtain ⟨hold', hret'⟩ | ⟨rfl, -, a', hok', hret', -⟩ := hcases hsize'
      · exact h.apart which which' off (by rw [hold]; rfl) (by rw [hold']; rfl)
          (hret.symm.trans hoff) (hret'.symm.trans hoff')
      · obtain rfl : a' = off := by simpa using hret'.symm.trans hoff'
        exact (h.not_fresh j₀ hold (hret.symm.trans hoff) hok').elim
    · obtain ⟨hold', hret'⟩ | ⟨rfl, -, a', hok', hret', -⟩ := hcases hsize'
      · obtain rfl : a = off := by simpa using hret.symm.trans hoff
        exact (h.not_fresh j₀ hold' (hret'.symm.trans hoff') hok).elim
      · rfl
  · intro which n off hsize hoff j b hb
    obtain ⟨hold, hret⟩ | ⟨-, rfl, off', hok, hret, hcells⟩ := hcases hsize
    · show cell which j b = _
      rw [hcell which (Inventory.size_lt hold).ne]
      exact h.cells which n off hold (hret.symm.trans hoff) j b hb
    · obtain rfl : off' = off := by simpa using (hret.symm.trans hoff)
      exact hcells j b

/-- A collective `malloc` creates an object, or is refused on every PE. -/
theorem malloc (ne : Endian) {handler : Prog.Handler Ext W} (h : Stores J N l s o) (j₀ : Fin J.n)
    {size : ℕ} {a : PgasAnswer J.n} {s' : Pgas J.n W}
    (hstep : Pgas.Step ne handler N s (.malloc size) a s') :
    ∃ b o' l', o.Step (.create size) b o' ∧ Matches ne J.base a b ∧ Stores J N l' s' o' := by
  cases hstep with
  | @malloc _ ans state hcall =>
    have hboth : ∀ j, ans j = placeMalloc (J.base j) (l.layout.malloc size).1 ∧
        state j = { s.state j with heap := ((s.state j).heap.malloc size).2 } := by
      intro j
      have heq := (hcall j).symm.trans (malloc_placed (h.placed j) size)
      exact ⟨congrArg Prod.fst heq, Option.some.inj (congrArg (fun p => p.2.state) heq)⟩
    obtain rfl : ans = _ := funext fun j => (hboth j).1
    obtain rfl : state = _ := funext fun j => (hboth j).2
    have hends : (∃ e, (l.layout.malloc size).1 = .error e) ∨
        ∃ off, (l.layout.malloc size).1 = .ok off := by
      cases (l.layout.malloc size).1 <;> simp
    obtain ⟨e, hok⟩ | ⟨off, hok⟩ := hends
    · have hno : ¬ ∀ j : Fin J.n,
          ((placeMalloc (J.base j) (l.layout.malloc size).1).toOption).isSome := by
        intro hall
        have h₀ := hall j₀
        rw [hok] at h₀
        cases h₀
      rw [if_neg hno]
      refine ⟨.refused, _, _, .refuse o size, ?_, h.add j₀ size (fun _ _ => rfl) (by simp)⟩
      simp only [hok]
      exact .exhausted e
    · have hyes : ∀ j : Fin J.n,
          ((placeMalloc (J.base j) (l.layout.malloc size).1).toOption).isSome := by
        intro j
        rw [hok]
        rfl
      rw [if_pos hyes]
      -- what is in the new object is what is there in memory
      let fresh : Memories UInt8 := fun k b =>
        if hk : k < J.n then N.settled s.world k (J.base ⟨k, hk⟩ + (off + b)) else 0
      refine ⟨.done, _, _, .create o size fresh, ?_,
        h.add j₀ size (fun which hne => Function.update_of_ne hne ..) fun n hn => ?_⟩
      · simp only [hok]
        exact .pointers off
      · refine ⟨(Option.some.inj hn).symm, off, hok, fun j b => ?_⟩
        rw [Function.update_self]
        exact dif_pos j.isLt

/-- A collective `free` takes the object on every PE, and leaves the others. -/
theorem free (ne : Endian) {handler : Prog.Handler Ext W} (h : Stores J N l s o)
    {which : ℕ} {a : PgasAnswer J.n} {s' : Pgas J.n W}
    (hstep : Pgas.Step ne handler N s (.free which) a s') :
    ∃ b o' l', o.Step (.destroy which) b o' ∧ Matches ne J.base a b ∧ Stores J N l' s' o' := by
  cases hstep with
  | @free _ p ans state hallow hptr hcall =>
    rw [h.client] at hallow
    obtain ⟨n, hsize⟩ := hallow
    obtain ⟨off, hret, hlive⟩ := h.object which n hsize
    -- every PE frees its own pointer to the object
    have hp : ∀ j, p j = ⟨J.base j + off⟩ := by
      intro j
      simpa using (hptr j).symm.trans (h.handle j hret)
    have hlayout : l.layout.free off = (.ok (), ⟨release l.layout.freeList ⟨off, SymHeap.roundUp n⟩,
        Function.update l.layout.live off none⟩) := by
      rw [Layout.free, hlive]
    have hboth : ∀ j, ans j = .ok () ∧
        state j = { s.state j with heap := ((s.state j).heap.free (p j)).2 } := by
      intro j
      have heq := (hcall j).symm.trans (hp j ▸ free_placed (h.placed j))
      rw [hlayout] at heq
      exact ⟨congrArg Prod.fst heq, Option.some.inj (congrArg (fun p => p.2.state) heq)⟩
    obtain rfl : ans = _ := funext fun j => (hboth j).1
    obtain rfl : state = _ := funext fun j => (hboth j).2
    have hplaced : ∀ j, PlacedAt (J.base j) ⟨((s.state j).heap.free (p j)).2, s.handles j⟩
        ⟨(l.layout.free off).2, l.returned⟩ := by
      intro j
      obtain ⟨-, hnext⟩ := h.layout_free_next j off
      rw [hp j]
      exact hnext
    refine ⟨.done, _, ⟨(l.layout.free off).2, l.returned⟩, .destroy ⟨n, hsize⟩, .freed, hplaced,
      ?_, h.peers, ?_, ?_, ?_, ?_, ?_, h.quiet⟩
    · exact fun j => ((s.state j).heap.capacity_apply (.free (p j))).trans (h.capacity j)
    · rw [h.client]
    · simpa [Inventory.remove] using h.count
    · intro which' n' hsize'
      obtain ⟨hne, hold⟩ := Inventory.size_remove_eq_some.mp hsize'
      obtain ⟨off', hret', hlive'⟩ := h.object which' n' hold
      refine ⟨off', hret', ?_⟩
      have hoff : off' ≠ off := by
        rintro rfl
        exact hne (h.apart _ _ off' (by simp [hold]) (by simp [hsize]) hret' hret)
      rw [hlayout]
      exact (Function.update_of_ne hoff ..).trans hlive'
    · intro which₁ which₂ off' hsome₁ hsome₂
      obtain ⟨n₁, hsize₁⟩ := Option.isSome_iff_exists.mp hsome₁
      obtain ⟨n₂, hsize₂⟩ := Option.isSome_iff_exists.mp hsome₂
      have hold₁ := (Inventory.size_remove_eq_some.mp hsize₁).2
      have hold₂ := (Inventory.size_remove_eq_some.mp hsize₂).2
      exact h.apart _ _ off' (by simp [hold₁]) (by simp [hold₂])
    · intro which' n' off' hsize'
      exact h.cells which' n' off' (Inventory.size_remove_eq_some.mp hsize').2

/-! ### Transfers -/

/-- The way of PE `me` to byte `start` of an object of PE `target`. -/
theorem route {handler : Prog.Handler Ext W} (hconn : J.Connected handler N) (h : Stores J N l s o)
    (me target : Fin J.n) {which n off start len : ℕ} (hsize : o.size which = some n)
    (hret : l.returned[which]? = some (some off)) (hfit : start + len ≤ n) :
    (⟨J.base me + off⟩ : SymPtr).offsetFrom (s.state me).heap.localBase = .ok off ∧
    len ≤ isizeMax ∧
    (J.heapSpan target).start ≤ J.base target + (off + start) ∧
    J.base target + (off + start) + len ≤ (J.heapSpan target).stop ∧
    ∃ c, Reaches handler N c target (J.heapSpan target) ∧
      peerAndAddress (s.state me) target (off + start) len =
        .ok (c, J.base target + (off + start)) := by
  obtain ⟨off', hret', hlive⟩ := h.object which n hsize
  obtain rfl : off' = off := by simpa using hret'.symm.trans hret
  have hround : n ≤ SymHeap.roundUp n := by
    rw [SymHeap.roundUp]
    omega
  have hstop : off' + SymHeap.roundUp n ≤ J.words * 8 := h.stop_le me hlive
  have hsmall : J.words * 8 ≤ 2 ^ 63 - 1 := (J.region target).small
  have hbelow : J.base target + J.words * 8 ≤ 2 ^ 64 - 1 := J.below target
  refine ⟨?_, show len ≤ 2 ^ 63 - 1 by omega, Nat.le_add_right _ _, ?_, ?_⟩
  · rw [show (s.state me).heap.localBase = J.base me from (h.placed me).base_eq]
    exact SymPtr.offsetFrom_add _ _
  · show _ ≤ J.base target + J.words * 8
    omega
  · obtain ⟨c, hpeer, hbase, hreach⟩ := hconn me target
    refine ⟨c, hreach, peerAndAddress_eq_ok.mpr ⟨?_, ?_, by rw [hbase], ?_, ?_⟩⟩
    · exact target.isLt.trans_le J.ranks
    · rw [h.peers me]
      exact hpeer
    · omega
    · omega

/-- Writing into an object is writing into the memory where it lies, and touches no other
object. -/
theorem write (h : Stores J N l s o) (target : Fin J.n) {which n off start : ℕ}
    {bytes : List UInt8} (hsize : o.size which = some n)
    (hret : l.returned[which]? = some (some off)) (hfit : start + bytes.length ≤ n) {w : W}
    (hw : N.settled w = (N.settled s.world).write target (J.base target + (off + start)) bytes) :
    Stores J N l { s with world := w, client := { s.client with settled := false } }
      { o with
        cell := Function.update o.cell which ((o.cell which).write target start bytes)
        settled := false } := by
  refine ⟨h.placed, h.capacity, h.peers, ?_, h.count, h.object, h.apart, ?_,
    fun hno => by cases hno⟩
  · rw [h.client]
  · intro which' n' off' hsize' hret' j b hb
    show Function.update o.cell which _ which' j b = N.settled w j _
    rw [hw]
    by_cases hwhich : which' = which
    · subst hwhich
      obtain rfl : off' = off := by simpa using hret'.symm.trans hret
      rw [Function.update_self, Memories.write, Memories.write,
        h.cells _ n' off' hsize' hret' j b hb]
      have hat : J.base target + (off' + start) ≤ J.base j + (off' + b) ∧ j = target ↔
          start ≤ b ∧ j = target := by
        constructor
        · rintro ⟨hle, rfl⟩
          exact ⟨by omega, rfl⟩
        · rintro ⟨hle, rfl⟩
          exact ⟨by omega, rfl⟩
      by_cases hj : j = target
      · subst hj
        by_cases hb' : start ≤ b
        · rw [if_pos ⟨rfl, hb'⟩, if_pos ⟨rfl, by omega⟩]
          congr 2
          omega
        · rw [if_neg fun hc => hb' hc.2, if_neg fun hc => hb' (by omega)]
      · have hj' : j.val ≠ target.val := fun heq => hj (Fin.ext heq)
        rw [if_neg fun hc => hj' hc.1, if_neg fun hc => hj' hc.1]
    · rw [Function.update_of_ne hwhich, Memories.write_of_outside]
      · exact h.cells which' n' off' hsize' hret' j b hb
      · rintro ⟨hj, hin⟩
        obtain rfl : j = target := Fin.ext hj
        rw [Span.mem_mk] at hin
        refine h.disjoint j hsize' hsize hret' hret hwhich (off' + b) ?_ ?_
        · rw [Span.mem_mk]
          omega
        · rw [Span.mem_mk]
          omega

/-- A world in which nothing more was written stores the same. -/
theorem unwritten (h : Stores J N l s o) {w : W} (hw : N.Unwritten s.world w) :
    Stores J N l { s with world := w } o where
  placed := h.placed
  capacity := h.capacity
  peers := h.peers
  client := h.client
  count := h.count
  object := h.object
  apart := h.apart
  cells which n off hsize hret j b hb := by
    rw [h.cells which n off hsize hret j b hb]
    exact (congrFun (congrFun hw.1 j) _).symm
  quiet hsettled := hw.2 (h.quiet hsettled)

/-- A typed put writes into the object. -/
theorem put (ne : Endian) {handler : Prog.Handler Ext W} (hconn : J.Connected handler N)
    (h : Stores J N l s o) {me target : Fin J.n} {which start : ℕ} {T : Pod} {xs : List T.Value}
    {a : PgasAnswer J.n} {s' : Pgas J.n W}
    (hstep : Pgas.Step ne handler N s (.put me target which start T xs) a s') :
    ∃ b o' l', o.Step ((PgasCall.put me target which start T xs).toObject ne) b o' ∧
      Matches ne J.base a b ∧ Stores J N l' s' o' := by
  cases hstep with
  | @put _ _ _ _ _ _ p offset ans w hallow hptr hoffset hcall =>
    rw [h.client] at hallow
    obtain ⟨n, hsize, hfit⟩ := hallow
    obtain ⟨off, hret, -⟩ := h.object which n hsize
    have hbytes := Pod.length_flatMap_toNeBytes ne xs
    obtain ⟨hoff, hsmall, hlow, hhigh, c, hreach, haddr⟩ :=
      h.route hconn me target hsize hret (hbytes ▸ hfit)
    obtain rfl : p = ⟨J.base me + off⟩ := by simpa using hptr.symm.trans (h.handle me hret)
    obtain rfl : offset = off := Outcome.ok.inj (hoffset.symm.trans hoff)
    obtain ⟨w', hfinish, hw⟩ := put_finishes ne hreach T xs haddr
      (lt_of_le_of_lt hsmall (by decide)) hlow hhigh s.world
    obtain ⟨rfl, rfl⟩ := hcall.unique hfinish
    exact ⟨.done, _, l, .write ⟨n, hsize, hfit⟩, .put, h.write target hsize hret hfit hw⟩

/-- A typed get reads the object. -/
theorem get (ne : Endian) {handler : Prog.Handler Ext W} (hconn : J.Connected handler N)
    (h : Stores J N l s o) {me target : Fin J.n} {which start len : ℕ} {T : Pod}
    {a : PgasAnswer J.n} {s' : Pgas J.n W}
    (hstep : Pgas.Step ne handler N s (.get me target which start T len) a s') :
    ∃ b o' l', o.Step ((PgasCall.get me target which start T len).toObject ne) b o' ∧
      Matches ne J.base a b ∧ Stores J N l' s' o' := by
  cases hstep with
  | @get _ _ _ _ _ _ p offset ans w hallow hptr hoffset hcall =>
    rw [h.client] at hallow
    obtain ⟨n, hsize, hfit, hsettled⟩ := hallow
    obtain ⟨off, hret, -⟩ := h.object which n hsize
    obtain ⟨hoff, hsmall, hlow, hhigh, c, hreach, haddr⟩ :=
      h.route hconn me target hsize hret hfit
    obtain rfl : p = ⟨J.base me + off⟩ := by simpa using hptr.symm.trans (h.handle me hret)
    obtain rfl : offset = off := Outcome.ok.inj (hoffset.symm.trans hoff)
    have hquiet := h.quiet hsettled
    obtain ⟨w', hfinish, hkeep⟩ := get_finishes ne hreach T len haddr hsmall hlow hhigh hquiet
    obtain ⟨rfl, rfl⟩ := hcall.unique hfinish
    -- the bytes that were read are those of the object
    have hread : (N.mem s.world).read target (J.base target + (offset + start)) (len * T.size) =
        (o.cell which).read target start (len * T.size) := by
      refine List.map_congr_left fun i hi => ?_
      have hi' := List.mem_range.mp hi
      rw [hquiet, h.cells which n offset hsize hret target (start + i) (by omega)]
      congr 1
      omega
    rw [hread]
    exact ⟨_, o, l, .read ⟨n, hsize, hfit, hsettled⟩, .values T _, h.unwritten hkeep⟩

/-- Once everything has landed, reads see what was written. -/
theorem settle {w : W} (h : Stores J N l s o) (hw : N.Landed s.world w) :
    Stores J N l { s with world := w, client := { s.client with settled := true } }
      { o with settled := true } where
  placed := h.placed
  capacity := h.capacity
  peers := h.peers
  client := by rw [h.client]
  count := h.count
  object := h.object
  apart := h.apart
  cells which n off hsize hret j b hb := by
    show o.cell which j b = N.settled w j _
    rw [hw.1]
    exact h.cells which n off hsize hret j b hb
  quiet _ := hw.2

/-- **One call** of the client is a call on the objects. -/
theorem step {ne : Endian} {handler : Prog.Handler Ext W} (hconn : J.Connected handler N)
    (j₀ : Fin J.n) (h : Stores J N l s o) {c : PgasCall J.n} {a : PgasAnswer J.n} {s' : Pgas J.n W}
    (hstep : Pgas.Step ne handler N s c a s') :
    ∃ b o' l', o.Step (c.toObject ne) b o' ∧ Matches ne J.base a b ∧ Stores J N l' s' o' := by
  cases c with
  | malloc size => exact h.malloc ne j₀ hstep
  | free which => exact h.free ne hstep
  | put me target which start T xs => exact h.put ne hconn hstep
  | get me target which start T len => exact h.get ne hconn hstep
  | settle =>
    cases hstep with
    | settle hlanded => exact ⟨.done, _, l, .settle o, .settled, h.settle hlanded⟩

/-- **A whole run** of the client is a run of the objects. -/
theorem run {ne : Endian} {handler : Prog.Handler Ext W} (hconn : J.Connected handler N)
    (j₀ : Fin J.n) (h : Stores J N l s o) {calls : List (PgasCall J.n × PgasAnswer J.n)}
    {s' : Pgas J.n W} (hrun : Pgas.Run ne handler N s calls s') :
    ∃ calls' o' l', o.Run calls' o' ∧ Stores J N l' s' o' ∧
      List.Forall₂ (fun e e' => e'.1 = e.1.toObject ne ∧ Matches ne J.base e.2 e'.2)
        calls calls' := by
  induction hrun with
  | nil => exact ⟨[], o, l, .nil, h, .nil⟩
  | snoc _ hstep ih =>
    obtain ⟨calls', o', l', hobjects, hstores, hmatch⟩ := ih
    obtain ⟨b, o'', l'', hnext, hans, hstores'⟩ := hstores.step hconn j₀ hstep
    exact ⟨_, o'', l'', hobjects.snoc hnext, hstores',
      List.rel_append hmatch (.cons ⟨rfl, hans⟩ .nil)⟩

/-- What the client may call returns. -/
theorem progress {ne : Endian} {handler : Prog.Handler Ext W} (hconn : J.Connected handler N)
    (h : Stores J N l s o) {c : PgasCall J.n} (hallow : s.client.Allows (c.toObject ne))
    (hc : c ≠ .settle) : ∃ a s', Pgas.Step ne handler N s c a s' := by
  have hallow' := hallow
  rw [h.client] at hallow'
  cases c with
  | malloc size => exact ⟨_, _, .malloc fun j => malloc_placed (h.placed j) size⟩
  | free which =>
    obtain ⟨n, hsize⟩ := hallow'
    obtain ⟨off, hret, -⟩ := h.object which n hsize
    exact ⟨_, _, .free hallow (fun j => h.handle j hret) fun j => free_placed (h.placed j)⟩
  | put me target which start T xs =>
    obtain ⟨n, hsize, hfit⟩ := hallow'
    obtain ⟨off, hret, -⟩ := h.object which n hsize
    obtain ⟨hoff, hsmall, hlow, hhigh, c, hreach, haddr⟩ :=
      h.route hconn me target hsize hret (Pod.length_flatMap_toNeBytes ne xs ▸ hfit)
    obtain ⟨w', hfinish, -⟩ := put_finishes ne hreach T xs haddr
      (lt_of_le_of_lt hsmall (by decide)) hlow hhigh s.world
    exact ⟨_, _, .put hallow (h.handle me hret) hoff hfinish⟩
  | get me target which start T len =>
    obtain ⟨n, hsize, hfit, hsettled⟩ := hallow'
    obtain ⟨off, hret, -⟩ := h.object which n hsize
    obtain ⟨hoff, hsmall, hlow, hhigh, c, hreach, haddr⟩ :=
      h.route hconn me target hsize hret hfit
    obtain ⟨w', hfinish, -⟩ := get_finishes ne hreach T len haddr hsmall hlow hhigh
      (h.quiet hsettled)
    exact ⟨_, _, .get hallow (h.handle me hret) hoff hfinish⟩
  | settle => exact absurd rfl hc

end Stores

/-! ## The refinement -/

section Refinement

variable {W : Type} {handler : Prog.Handler Ext W} {N : Network W UInt8} {J : Job}

/-- **The global address space is a store of objects.** Whatever a client does that keeps
inside its objects, and gets only after it has waited until what was put has landed: every
answer is one that a store of distributed objects gives, on all PEs alike; the memory of
each PE holds, where its pointer to an object points, the part of the object that belongs
to it; and whatever the client may call next returns. -/
theorem pgas_refines (hconn : J.Connected handler N) (ne : Endian) (j₀ : Fin J.n) (w : W)
    {calls : List (PgasCall J.n × PgasAnswer J.n)} {s : Pgas J.n W}
    (hrun : Pgas.Run ne handler N (.start J w) calls s) :
    (∃ (calls' : List (ObjectCall UInt8 × ObjectAnswer UInt8)) (o : Objects UInt8)
        (off : ℕ → ℕ),
      Objects.Run ⟨.empty, fun _ _ _ => 0⟩ calls' o ∧
      List.Forall₂ (fun e e' => e'.1 = e.1.toObject ne ∧ Matches ne J.base e.2 e'.2) calls calls' ∧
      s.client = o.toInventory ∧
      ∀ which n, o.size which = some n → ∀ j : Fin J.n,
        (s.handles j)[which]? = some (some ⟨J.base j + off which⟩) ∧
        ∀ b < n, o.cell which j b = N.settled s.world j (J.base j + off which + b)) ∧
    ∀ c, s.client.Allows (PgasCall.toObject ne c) → c ≠ .settle →
      ∃ a s', Pgas.Step ne handler N s c a s' := by
  have hstart := Stores.start (N := N) J j₀ w fun _ _ _ => (0 : UInt8)
  obtain ⟨calls', o, l, hobjects, hstores, hmatch⟩ := hstart.run hconn j₀ hrun
  refine ⟨⟨calls', o, fun which => (l.returned[which]?.join).getD 0, hobjects, hmatch,
    hstores.client, fun which n hsize j => ?_⟩, fun c hallow hc =>
    hstores.progress hconn hallow hc⟩
  obtain ⟨off, hret, -⟩ := hstores.object which n hsize
  have hoff : (l.returned[which]?.join).getD 0 = off := by rw [hret]; rfl
  simp only [hoff]
  refine ⟨hstores.handle j hret, fun b hb => ?_⟩
  rw [Nat.add_assoc]
  exact hstores.cells which n off hsize hret j b hb

/-- **What was put last is what is got.** In every run of such a client, which keeps inside
its objects and gets only after it has waited until what was put has landed: a typed slice
that was put into an object on some PE is what any PE gets from there, as long as the object
is there and nothing was put over it. Other objects may meanwhile be made and freed, and
lie where freed ones were; other parts of the object, and its parts on other PEs, may be
put to; and any of them may be got. -/
theorem pgas_last_put (hconn : J.Connected handler N) (ne : Endian) (j₀ : Fin J.n) (w : W)
    {before after : List (PgasCall J.n × PgasAnswer J.n)} {s₁ s₂ s₃ s₄ : Pgas J.n W}
    {writer reader target : Fin J.n} {which start : ℕ} {T : Pod} {xs : List T.Value}
    {put got : PgasAnswer J.n}
    (hbefore : Pgas.Run ne handler N (.start J w) before s₁)
    (hput : Pgas.Step ne handler N s₁ (.put writer target which start T xs) put s₂)
    (hafter : Pgas.Run ne handler N s₂ after s₃)
    (hkept : ∀ e ∈ after, ∀ x ∈ (⟨start, xs.length * T.size⟩ : Span),
      ¬ (e.1.toObject ne).Changes which target x)
    (hget : Pgas.Step ne handler N s₃ (.get reader target which start T xs.length) got s₄) :
    put = .put (.ok ()) ∧ got = .values T (.ok xs) := by
  have hstart := Stores.start (N := N) J j₀ w fun _ _ _ => (0 : UInt8)
  obtain ⟨-, o₁, l₁, -, h₁, -⟩ := hstart.run hconn j₀ hbefore
  obtain ⟨b, o₂, l₂, hwrite, hput', h₂⟩ := h₁.step hconn j₀ hput
  obtain ⟨after', o₃, l₃, hobjects, h₃, hmatch⟩ := h₂.run hconn j₀ hafter
  obtain ⟨b', o₄, l₄, hread, hgot, -⟩ := h₃.step hconn j₀ hget
  have hbytes := Pod.length_flatMap_toNeBytes ne xs
  have hkept' : ∀ e' ∈ after', ∀ x ∈ (⟨start, (xs.flatMap (T.toNeBytes ne)).length⟩ : Span),
      ¬ e'.1.Changes which target x := by
    intro e' he' x hx
    rw [hbytes] at hx
    obtain ⟨e, he, hcall, -⟩ := exists_left_of_forall₂ hmatch he'
    rw [hcall]
    exact hkept e he x hx
  have hlast := hobjects.read_written hwrite hkept'
  rw [hbytes] at hlast
  refine ⟨?_, ?_⟩
  · cases hput
    cases hwrite
    cases hput'
    rfl
  · cases hget
    cases hread
    cases hgot
    rw [hlast, Pod.map_fromNeBytes_chunks]

end Refinement

/-! ## An instance -/

/-- Two PEs with an object of 8 bytes, which lies at offset 16 of their heaps. -/
def oneObject : Pgas twoPes.n (Memories UInt8) where
  state j := { twoPes.state j with heap := ((twoPes.state j).heap.malloc 8).2 }
  handles j := [some ⟨twoPes.base j + 16⟩]
  world := fun _ _ => 0
  client := ⟨[some 8], false⟩

theorem oneObject_step : Pgas.Step .little immediate immediateNetwork
    (.start twoPes fun _ _ => 0) (.malloc 8) (.pointers fun j => .ok ⟨twoPes.base j + 16⟩)
    oneObject := by
  refine .malloc fun j => ?_
  match j with
  | ⟨0, _⟩ => rfl
  | ⟨1, _⟩ => rfl

/-- PE 0 puts to PE 1, it is waited until that has landed, and PE 1 gets. -/
theorem pgas_refines_instance : ∃ put s₂ s₃ got s₄,
    Pgas.Step .little immediate immediateNetwork oneObject
      (.put 0 1 0 4 .u16 [0x1234#16, 7#16]) put s₂ ∧
    Pgas.Step .little immediate immediateNetwork s₂ .settle .settled s₃ ∧
    (∃ (o : Objects UInt8) (off : ℕ), s₃.client = o.toInventory ∧
      ∀ j : Fin twoPes.n, (s₃.handles j)[0]? = some (some ⟨twoPes.base j + off⟩) ∧
        ∀ b < 8, o.cell 0 j b = s₃.world j (twoPes.base j + off + b)) ∧
    Pgas.Step .little immediate immediateNetwork s₃ (.get 1 (1 : Fin twoPes.n) 0 4 .u16 2) got
      s₄ := by
  have hbefore := Pgas.Run.snoc .nil oneObject_step
  obtain ⟨put, s₂, hput⟩ := (pgas_refines twoPes_connected .little 0 (fun _ _ => 0) hbefore).2
    (.put 0 1 0 4 .u16 [0x1234#16, 7#16]) ⟨8, rfl, by decide⟩ (by simp)
  have hsettle : Pgas.Step .little immediate immediateNetwork s₂ .settle .settled
      { s₂ with client := { s₂.client with settled := true } } := .settle ⟨rfl, rfl⟩
  have hsize : s₂.client.size 0 = some 8 := by
    cases hput
    rfl
  obtain ⟨⟨calls', o, off, -, -, hclient, hcells⟩, hnext⟩ :=
    pgas_refines twoPes_connected .little 0 (fun _ _ => 0) ((hbefore.snoc hput).snoc hsettle)
  obtain ⟨got, s₄, hget⟩ := hnext (.get 1 (1 : Fin twoPes.n) 0 4 .u16 2)
    ⟨8, hsize, by decide, rfl⟩ (by simp)
  have hobject : o.size 0 = some 8 := by
    rw [← hclient]
    exact hsize
  exact ⟨put, s₂, _, got, s₄, hput, hsettle, ⟨o, off 0, hclient, hcells 0 8 hobject⟩, hget⟩

/-- PE 0 puts to PE 1, another object is made, and PE 1 gets. -/
theorem pgas_last_put_instance : ∃ put got s₁ s₂ s₃ s₄ after,
    Pgas.Step .little immediate immediateNetwork s₁ (.put 0 1 0 4 .u16 [0x1234#16, 7#16]) put s₂ ∧
    Pgas.Run .little immediate immediateNetwork s₂ after s₃ ∧
    Pgas.Step .little immediate immediateNetwork s₃ (.get 1 (1 : Fin twoPes.n) 0 4 .u16 2) got s₄ ∧
    got = .values .u16 (.ok [0x1234#16, 7#16]) := by
  have hstart := Stores.start (N := immediateNetwork) twoPes 0 (fun _ _ => 0) fun _ _ _ => 0
  have hbefore := Pgas.Run.snoc .nil oneObject_step
  obtain ⟨-, o₁, l₁, -, h₁, -⟩ := hstart.run twoPes_connected 0 hbefore
  obtain ⟨put, s₂, hput⟩ : ∃ a s, Pgas.Step .little immediate immediateNetwork oneObject
      (.put 0 1 0 4 .u16 [0x1234#16, 7#16]) a s :=
    h₁.progress twoPes_connected ⟨8, rfl, by decide⟩ (by simp)
  obtain ⟨-, o₂, l₂, -, -, h₂⟩ := h₁.step twoPes_connected 0 hput
  obtain ⟨a, s, hmalloc⟩ : ∃ a s, Pgas.Step .little immediate immediateNetwork s₂
      (.malloc 8) a s := h₂.progress twoPes_connected trivial (by simp)
  have hsettle : Pgas.Step .little immediate immediateNetwork s .settle .settled
      { s with client := { s.client with settled := true } } := .settle ⟨rfl, rfl⟩
  have hafter := (Pgas.Run.nil.snoc hmalloc).snoc hsettle
  obtain ⟨-, o₃, l₃, -, h₃, -⟩ := h₂.run twoPes_connected 0 hafter
  have hsize : s.client.size 0 = some 8 := by
    cases hput
    cases hmalloc
    rfl
  obtain ⟨got, s₄, hget⟩ : ∃ a s', Pgas.Step .little immediate immediateNetwork
      { s with client := { s.client with settled := true } }
      (.get 1 (1 : Fin twoPes.n) 0 4 .u16 2) a s' :=
    h₃.progress twoPes_connected ⟨8, hsize, by decide, rfl⟩ (by simp)
  refine ⟨put, got, _, s₂, _, s₄, _, hput, hafter, hget, ?_⟩
  refine (pgas_last_put twoPes_connected .little 0 (fun _ _ => 0) hbefore hput hafter ?_ hget).2
  simp [PgasCall.toObject, ObjectCall.Changes]

end OpenShmem
