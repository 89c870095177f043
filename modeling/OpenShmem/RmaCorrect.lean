import OpenShmem.Memory
import OpenShmem.Rma
import OpenShmem.Symmetry

/-!
# A put lands where the allocation is, and nowhere else

The pieces meet here: the offset of an allocation is the same on every PE
(`Symmetry`), allocations share no byte (`HeapInv`), the validator adds the
target's base without overflow (`Rma`), and the typed codec is exact (`Pod`).

UCX is assumed to do what it documents: a transfer into a region that the
target registered moves exactly the given bytes, and its request completes
after finitely many polls.
-/

namespace OpenShmem

/-! ## What is assumed of a connection -/

section Assumptions

variable {W : Type} (handler : Prog.Handler Ext W) (N : Network W UInt8)

/-- The request is reported complete by the poll after `polls` others, and
polling writes nothing. -/
def CompletesAfter (request : Request) : ℕ → W → W → Prop
  | 0, w, w' => handler (.ucx (.waitRequest request)) w = (.ok true, w') ∧ N.Unwritten w w'
  | polls + 1, w, w' => ∃ w₁, handler (.ucx (.waitRequest request)) w = (.ok false, w₁) ∧
      N.Unwritten w w₁ ∧ CompletesAfter request polls w₁ w'

/-- Completion of what a transfer returned: nothing to wait for, or a request
that completes. -/
def Completes (w : W) : Option Request → W → Prop
  | none, w' => w' = w
  | some request, w' => ∃ polls, CompletesAfter handler N request polls w w'

/-- The connection reaches the region `heap` of PE `k`: a put into it writes
exactly the given bytes at the given address, and a get, when no write is in
flight, reads exactly the bytes there. -/
structure Reaches (c : PeerConnection) (k : ℕ) (heap : Span) : Prop where
  put : ∀ w bytes address, heap.start ≤ address → address + bytes.length ≤ heap.stop →
    ∃ request w₁ w₂,
      handler (.ucx (.rmaPut c.endpoint bytes address c.rkey)) w = (.ok request, w₁) ∧
        N.settled w₁ = (N.settled w).write k address bytes ∧
        Completes handler N w₁ request w₂
  get : ∀ w len address, heap.start ≤ address → address + len ≤ heap.stop → N.Quiet w →
    ∃ request bytes w₁ w₂,
      handler (.ucx (.rmaGet c.endpoint len address c.rkey)) w = (.ok (request, bytes), w₁) ∧
        bytes.toList = (N.mem w).read k address len ∧ N.Unwritten w w₁ ∧
        Completes handler N w₁ request w₂

end Assumptions

/-! ## The runs of the transfer functions -/

section Runs

variable {W : Type} {handler : Prog.Handler Ext W} {N : Network W UInt8}

/-- Waiting for a request that completes takes one poll more than it lets pass. -/
theorem waitRequest_run {request : Request} :
    ∀ {polls : ℕ} {w w' : W}, CompletesAfter handler N request polls w w' → ∀ fuel, polls < fuel →
      (UcxTransport.waitRequest request fuel).run handler w = (.ok (), w') ∧ N.Unwritten w w' := by
  intro polls
  induction polls with
  | zero =>
    intro w w' h fuel hfuel
    obtain ⟨hans, hkeep⟩ := h
    obtain ⟨fuel, rfl⟩ := Nat.exists_eq_add_of_lt hfuel
    refine ⟨?_, hkeep⟩
    rw [Nat.zero_add, UcxTransport.waitRequest, Fn.ucx_bind, Prog.run_call, hans]
    rfl
  | succ polls ih =>
    intro w w' h fuel hfuel
    obtain ⟨w₁, hans, hkeep, hrest⟩ := h
    obtain ⟨fuel, rfl⟩ : ∃ f, fuel = f + 1 := ⟨fuel - 1, by omega⟩
    obtain ⟨hrun, hkeep'⟩ := ih hrest fuel (by omega)
    refine ⟨?_, hkeep.trans hkeep'⟩
    rw [UcxTransport.waitRequest, Fn.ucx_bind, Prog.run_call, hans]
    exact hrun

/-- A transfer's request is waited for, with enough polls. -/
theorem completeRequest_run {request : Option Request} {w w' : W}
    (h : Completes handler N w request w') :
    (∃ enough, ∀ fuel, enough ≤ fuel →
      (completeRequest fuel request).run handler w = (.ok (), w')) ∧ N.Unwritten w w' := by
  cases request with
  | none =>
    obtain rfl : w' = w := h
    exact ⟨⟨0, fun fuel _ => rfl⟩, rfl, id⟩
  | some request =>
    obtain ⟨polls, hpolls⟩ := h
    refine ⟨⟨polls + 1, fun fuel hfuel => ?_⟩, ?_⟩
    · exact (waitRequest_run hpolls fuel hfuel).1
    · exact (waitRequest_run hpolls (polls + 1) (Nat.lt_succ_self _)).2

variable {state : ShmemState} {c : PeerConnection} {k offset address : ℕ} {heap : Span}

/-- `putmem` into a region that is reached writes exactly its bytes there. -/
theorem putmem_run (hreach : Reaches handler N c k heap) {bytes : List UInt8}
    (haddr : peerAndAddress state k offset bytes.length = .ok (c, address))
    (hlow : heap.start ≤ address) (hhigh : address + bytes.length ≤ heap.stop) (w : W) :
    ∃ w', (∃ enough, ∀ fuel, enough ≤ fuel →
        (putmem fuel (.holding state) k bytes offset).run handler w = (.ok (), w')) ∧
      N.settled w' = (N.settled w).write k address bytes := by
  cases hempty : bytes.isEmpty with
  | true =>
    obtain rfl := List.isEmpty_iff.mp hempty
    refine ⟨w, ⟨0, fun fuel _ => ?_⟩, by rw [Memories.write_nil]⟩
    simp only [putmem, withState_holding, haddr]
    rfl
  | false =>
    obtain ⟨request, w₁, w₂, hissue, hwrite, hdone⟩ := hreach.put w bytes address hlow hhigh
    obtain ⟨⟨enough, hwait⟩, hkeep⟩ := completeRequest_run hdone
    refine ⟨w₂, ⟨enough, fun fuel hfuel => ?_⟩, hkeep.1.trans hwrite⟩
    simp only [putmem, withState_holding, haddr, Fn.lift_ok_bind, hempty]
    rw [if_neg Bool.false_ne_true, Fn.ucx_bind, Prog.run_call, hissue]
    exact hwait fuel hfuel

/-- `getmem` from a region that is reached reads exactly the bytes there. -/
theorem getmem_run (hreach : Reaches handler N c k heap) {len : ℕ}
    (haddr : peerAndAddress state k offset len = .ok (c, address)) (hsmall : len ≤ isizeMax)
    (hlow : heap.start ≤ address) (hhigh : address + len ≤ heap.stop) {w : W} (hq : N.Quiet w) :
    ∃ w', (∃ enough, ∀ fuel, enough ≤ fuel →
        (getmem fuel (.holding state) k offset len).run handler w =
          (.ok ((N.mem w).read k address len), w')) ∧
      N.Unwritten w w' := by
  by_cases hzero : len = 0
  · subst hzero
    refine ⟨w, ⟨0, fun fuel _ => ?_⟩, rfl, id⟩
    simp only [getmem, withState_holding, haddr, if_pos hsmall]
    rfl
  · obtain ⟨request, bytes, w₁, w₂, hissue, hbytes, hkeep, hdone⟩ :=
      hreach.get w len address hlow hhigh hq
    obtain ⟨⟨enough, hwait⟩, hkeep'⟩ := completeRequest_run hdone
    refine ⟨w₂, ⟨enough, fun fuel hfuel => ?_⟩, hkeep.trans hkeep'⟩
    simp only [getmem, withState_holding, haddr, Fn.lift_ok_bind, if_pos hsmall, if_neg hzero]
    rw [Fn.ucx_bind, Prog.run_call, hissue, ← hbytes]
    exact Prog.run_bind_of_ok (hwait fuel hfuel)

end Runs

/-! ## A job whose PEs made the same calls -/

/-- The PEs of a job. All made the same `malloc` and `free` calls on heaps of
the same size at bases of their own. -/
structure Job : Type where
  n : ℕ
  /-- PE numbers are `u32` -/
  ranks : n ≤ 2 ^ 32
  words : ℕ
  nonempty : 0 < words
  region : Fin n → Region words
  heapKey : Fin n → List UInt8
  /-- `base + size <= usize::MAX`, as for every Rust allocation -/
  below : ∀ j, (region j).base + words * 8 ≤ 2 ^ 64 - 1
  ops : List HeapOp
  state : Fin n → ShmemState
  heap_eq : ∀ j, (state j).heap =
    (peMachine.final ⟨SymHeap.fresh words (region j) (heapKey j), []⟩ ops).heap

namespace Job

variable (J : Job)

/-- The base of a PE's heap. -/
def base (j : Fin J.n) : ℕ := (J.region j).base

/-- The addresses of a PE's heap. -/
def heapSpan (j : Fin J.n) : Span := ⟨J.base j, J.words * 8⟩

/-- The layout that all the heaps have. -/
def layout (j₀ : Fin J.n) : Layout :=
  (layoutMachine.final
    ⟨(SymHeap.fresh J.words (J.region j₀) (J.heapKey j₀)).layout, []⟩ J.ops).layout

/-- Every table entry is true: PE `j` knows the base of PE `k` and reaches its
heap. -/
def Connected {W : Type} (handler : Prog.Handler Ext W) (N : Network W UInt8) : Prop :=
  ∀ j k : Fin J.n, ∃ c, (J.state j).peers[k.val]? = some c ∧ c.heapBase = J.base k ∧
    Reaches handler N c k (J.heapSpan k)

variable {J}

/-- Every heap satisfies the invariant, sits at its base, and has the one
layout. -/
theorem placed (j₀ j : Fin J.n) :
    HeapInv (J.state j).heap ∧ (J.state j).heap.localBase = J.base j ∧
      (J.state j).heap.layout = J.layout j₀ := by
  have hstart := PlacedAt.fresh J.nonempty (J.region j) (J.heapKey j)
  rw [layout_fresh (J.region j) (J.region j₀) (J.heapKey j) (J.heapKey j₀)] at hstart
  obtain ⟨-, hend⟩ := hstart.run J.ops
  rw [J.heap_eq j]
  exact ⟨hend.inv, hend.base_eq, hend.layout_eq⟩

/-- An allocation is live at the same offset and with the same length on every
PE. -/
theorem live_eq (j k : Fin J.n) (o : ℕ) :
    (J.state j).heap.live o = (J.state k).heap.live o := by
  have hlayout : (J.state j).heap.layout = (J.state k).heap.layout :=
    (placed j j).2.2.trans (placed j k).2.2.symm
  exact congrFun (congrArg Layout.live hlayout) o

/-- The pointer a PE holds names the span of the allocation on every PE. -/
theorem live_span {me : Fin J.n} (k : Fin J.n) {p : SymPtr} {len o : ℕ}
    (hlive : (J.state me).heap.allocations[p.addr]? = some len)
    (hoff : p.offsetFrom (J.state me).heap.localBase = .ok o) :
    (J.state k).heap.Live ⟨o, len⟩ := by
  obtain ⟨hle, rfl⟩ := SymPtr.offsetFrom_eq_ok.mp hoff
  rw [SymHeap.Live, ← live_eq me k, SymHeap.live, Nat.add_sub_cancel' hle]
  exact hlive

/-- A live allocation lies in the region of its PE. -/
theorem live_stop_le {k : Fin J.n} {s : Span} (hs : (J.state k).heap.Live s) :
    s.stop ≤ J.words * 8 := by
  have hstop := ((placed k k).1.sound s hs).2.2
  have hcap : (J.state k).heap.capacity = J.words * 8 := by
    rw [J.heap_eq k, capacity_final]
    rfl
  rwa [hcap] at hstop

end Job

/-! ## The theorem -/

/-- What `put` and then `get` do at offset `o + i` of a live allocation, given
that the range fits what was requested. -/
theorem Job.put_get_run {W : Type} {handler : Prog.Handler Ext W} {N : Network W UInt8} {J : Job}
    (hconn : J.Connected handler N) (ne : Endian) (writer reader target : Fin J.n) {s : Span}
    (hs : (J.state target).heap.Live s) (T : Pod) (i : ℕ) (xs : List T.Value)
    (hfit : i + xs.length * T.size ≤ s.len) (w : W) :
    ∃ w₁, (∃ enough, ∀ fuel, enough ≤ fuel →
        (put ne fuel (.holding (J.state writer)) T target xs (s.start + i)).run handler w =
          (.ok (), w₁)) ∧
      N.settled w₁ = (N.settled w).write target (J.base target + (s.start + i))
        (xs.flatMap (T.toNeBytes ne)) ∧
      ∀ w₂, N.Landed w₁ w₂ → ∃ w₃, (∃ enough, ∀ fuel, enough ≤ fuel →
          (get ne fuel (.holding (J.state reader)) T target (s.start + i) xs.length).run handler w₂ =
            (.ok xs, w₃)) ∧
        N.Unwritten w₂ w₃ := by
  have hstop : s.start + s.len ≤ J.words * 8 := Job.live_stop_le hs
  have hsmall : J.words * 8 ≤ 2 ^ 63 - 1 := (J.region target).small
  have hbelow : J.base target + J.words * 8 ≤ 2 ^ 64 - 1 := J.below target
  have hbytes := Pod.length_flatMap_toNeBytes ne xs
  have haddr : ∀ j, ∃ c, Reaches handler N c target (J.heapSpan target) ∧
      peerAndAddress (J.state j) target (s.start + i) (xs.length * T.size) =
        .ok (c, J.base target + (s.start + i)) := by
    intro j
    obtain ⟨c, hpeer, hbase, hreach⟩ := hconn j target
    refine ⟨c, hreach, peerAndAddress_eq_ok.mpr ⟨?_, hpeer, by rw [hbase], ?_, ?_⟩⟩
    · exact target.isLt.trans_le J.ranks
    · omega
    · omega
  have hlow : (J.heapSpan target).start ≤ J.base target + (s.start + i) := Nat.le_add_right _ _
  have hhigh : J.base target + (s.start + i) + xs.length * T.size ≤ (J.heapSpan target).stop := by
    simp only [Job.heapSpan, Span.stop]
    omega
  -- the put: the bytes of the slice go to the target's base plus the offset
  obtain ⟨c, hreach, hc⟩ := haddr writer
  rw [← hbytes] at hc hhigh
  obtain ⟨w₁, ⟨enough, hput⟩, hwritten⟩ := putmem_run hreach hc hlow hhigh w
  refine ⟨w₁, ⟨enough, fun fuel hfuel => ?_⟩, hwritten, ?_⟩
  · rw [put, Pod.podAsBytes_eq_ok ne (by omega)]
    exact hput fuel hfuel
  -- the get: the same bytes are read back and decoded
  intro w₂ hlanded
  obtain ⟨c', hreach', hc'⟩ := haddr reader
  rw [hbytes] at hhigh
  obtain ⟨w₃, ⟨enough', hget⟩, hkeep⟩ :=
    getmem_run hreach' hc' (show xs.length * T.size ≤ 2 ^ 63 - 1 by omega) hlow hhigh hlanded.2
  have hread : (N.mem w₂).read target (J.base target + (s.start + i)) (xs.length * T.size) =
      xs.flatMap (T.toNeBytes ne) := by
    rw [hlanded.mem_eq, hwritten, ← hbytes, Memories.read_write]
  refine ⟨w₃, ⟨enough', fun fuel hfuel => ?_⟩, hkeep⟩
  have hmul : checkedMul 64 xs.length T.size = some (xs.length * T.size) :=
    checkedMul_eq_some.mpr ⟨by omega, rfl⟩
  rw [get, hmul, Fn.okOr_some_bind, Prog.run_bind_of_ok (hget fuel hfuel), hread,
    Pod.collect_decode_chunks, Pod.map_fromNeBytes_chunks]
  rfl

/-- **Put, then get**: for every live allocation of `n` requested bytes, every
target PE and every typed slice that fits at byte `i` of it, the put returns
`Ok`; once it has landed, a get by any PE returns the slice; and no other byte
of any PE has changed, those of the target's other allocations among them. -/
theorem put_get_isolated {W : Type} (handler : Prog.Handler Ext W) (N : Network W UInt8) (J : Job)
    (hconn : J.Connected handler N) (ne : Endian) (me reader target : Fin J.n)
    {p : SymPtr} {n len o : ℕ}
    (hlive : (J.state me).heap.allocations[p.addr]? = some len)
    (hrequested : SymHeap.requestedSize n = .ok len)
    (hoff : p.offsetFrom (J.state me).heap.localBase = .ok o)
    (T : Pod) (i : ℕ) (xs : List T.Value) (hfit : i + xs.length * T.size ≤ n) (w : W) :
    ∃ w₁, (∃ enough, ∀ fuel, enough ≤ fuel →
        (put ne fuel (.holding (J.state me)) T target xs (o + i)).run handler w = (.ok (), w₁)) ∧
      ∀ w₂, N.Landed w₁ w₂ → ∃ w₃, (∃ enough, ∀ fuel, enough ≤ fuel →
          (get ne fuel (.holding (J.state reader)) T target (o + i) xs.length).run handler w₂ =
            (.ok xs, w₃)) ∧
        (∀ j a : ℕ, ¬ (j = target.val ∧
            a ∈ (⟨J.base target + (o + i), xs.length * T.size⟩ : Span)) →
          N.mem w₃ j a = N.settled w j a) ∧
        ∀ q m, (J.state target).heap.allocations[q]? = some m → q ≠ J.base target + o →
          ∀ a ∈ (⟨q, m⟩ : Span), N.mem w₃ target a = N.settled w target a := by
  have hs := Job.live_span target hlive hoff
  have hn : n ≤ len := by
    obtain ⟨-, rfl⟩ := SymHeap.requestedSize_eq_ok.mp hrequested
    omega
  obtain ⟨w₁, hput, hwritten, hrest⟩ :=
    Job.put_get_run hconn ne me reader target hs T i xs (hfit.trans hn) w
  refine ⟨w₁, hput, fun w₂ hlanded => ?_⟩
  obtain ⟨w₃, hget, hkeep⟩ := hrest w₂ hlanded
  have hframe : ∀ j a, ¬ (j = target.val ∧
      a ∈ (⟨J.base target + (o + i), xs.length * T.size⟩ : Span)) →
      N.mem w₃ j a = N.settled w j a := by
    intro j a hout
    rw [hkeep.2 hlanded.2, hkeep.1, hlanded.1, hwritten]
    apply Memories.write_of_outside
    rwa [Pod.length_flatMap_toNeBytes]
  refine ⟨w₃, hget, hframe, fun q m hq hne a ha => hframe target a ?_⟩
  -- another allocation of the target shares no byte with the one written into
  rintro ⟨-, hin⟩
  obtain ⟨hinv, hbase, -⟩ := Job.placed target target
  have hle : J.base target ≤ q := hbase ▸ hinv.keyed q m hq
  have hq' : (J.state target).heap.Live ⟨q - J.base target, m⟩ := by
    rw [SymHeap.Live, SymHeap.live, hbase, Nat.add_sub_cancel' hle]
    exact hq
  refine hinv.apart _ _ hq' hs (by simp only; omega) (a - J.base target) ?_ ?_
  · rw [Span.mem_mk] at ha ⊢
    omega
  · rw [Span.mem_mk] at hin ⊢
    omega

/-! ## An instance -/

/-- A network that delivers at once and reports completion at the first poll.
The first byte of a worker address is the PE it belongs to. -/
def immediate : Prog.Handler Ext (Memories UInt8)
  | .ucx (.rmaPut ep bytes address _), m =>
    (.ok (some ⟨0⟩), m.write (ep.remote.headD 0).toNat address bytes)
  | .ucx (.rmaGet ep len address _), m =>
    (.ok (some ⟨0⟩, ⟨m.read (ep.remote.headD 0).toNat address len, by simp [Memories.read]⟩), m)
  | c, m => ((accommodating 4096 c ()).1, m)

/-- In that network, what is settled is what is there. -/
def immediateNetwork : Network (Memories UInt8) UInt8 := ⟨id, id⟩

theorem immediate_reaches (c : PeerConnection) (heap : Span) :
    Reaches immediate immediateNetwork c (c.endpoint.remote.headD 0).toNat heap where
  put _ _ _ _ _ := ⟨_, _, _, rfl, rfl, 0, rfl, rfl, id⟩
  get _ _ _ _ _ _ := ⟨_, _, _, _, rfl, rfl, ⟨rfl, id⟩, 0, rfl, rfl, id⟩

/-- Two PEs with heaps of 32 bytes at 4096 and 8192, after one allocation of 11
bytes. -/
def twoPes : Job where
  n := 2
  ranks := by decide
  words := 4
  nonempty := by decide
  region j := ⟨4096 + 4096 * j.val, by decide, by omega⟩
  heapKey _ := [1, 2, 3, 4]
  below j := by
    dsimp only
    omega
  ops := [.malloc 11]
  state j := {
    peers := (∅ : Peers).insertMany
      [(0, ⟨⟨[0]⟩, ⟨⟨[0]⟩, [1, 2, 3, 4]⟩, 4096⟩), (1, ⟨⟨[1]⟩, ⟨⟨[1]⟩, [1, 2, 3, 4]⟩, 8192⟩)]
    heap := (peMachine.final ⟨SymHeap.fresh 4 ⟨4096 + 4096 * j.val, by decide, by omega⟩
      [1, 2, 3, 4], []⟩ [.malloc 11]).heap
    transport := ⟨⟨true, true⟩, [0]⟩
    collectives := none
    client := ⟨0⟩
    rank := j.val
    size := 2
    peerRkeys := ∅ }
  heap_eq _ := rfl

instance : NeZero twoPes.n := ⟨by decide⟩

theorem twoPes_connected : twoPes.Connected immediate immediateNetwork := by
  intro j k
  match k with
  | ⟨0, _⟩ => exact ⟨⟨⟨[0]⟩, ⟨⟨[0]⟩, [1, 2, 3, 4]⟩, 4096⟩, rfl, rfl, immediate_reaches _ _⟩
  | ⟨1, _⟩ => exact ⟨⟨⟨[1]⟩, ⟨⟨[1]⟩, [1, 2, 3, 4]⟩, 8192⟩, rfl, rfl, immediate_reaches _ _⟩

/-- PE 0 puts one `u16` at byte 3 of the allocation of 11 bytes on PE 1, and
PE 1 reads it. -/
theorem put_get_isolated_instance :
    ∃ w₁, (∃ enough, ∀ fuel, enough ≤ fuel →
        (put .little fuel (.holding (twoPes.state 0)) .u16 1 [0x1234#16] 3).run immediate
          (fun _ _ => 0) = (.ok (), w₁)) ∧
      ∀ w₂, immediateNetwork.Landed w₁ w₂ → ∃ w₃, ∃ enough, ∀ fuel, enough ≤ fuel →
        (get .little fuel (.holding (twoPes.state 1)) .u16 1 3 1).run immediate w₂ =
          (.ok [0x1234#16], w₃) := by
  obtain ⟨w₁, hput, hrest⟩ :=
    put_get_isolated immediate immediateNetwork twoPes twoPes_connected .little 0 1 1
      (show (twoPes.state 0).heap.allocations[(⟨4096⟩ : SymPtr).addr]? = some 16 from rfl)
      (show SymHeap.requestedSize 11 = .ok 16 from rfl) (SymPtr.offsetFrom_add 4096 0)
      .u16 3 [0x1234#16] (by decide) fun _ _ => 0
  refine ⟨w₁, hput, fun w₂ hlanded => ?_⟩
  obtain ⟨w₃, hget, -⟩ := hrest w₂ hlanded
  exact ⟨w₃, hget⟩

end OpenShmem
