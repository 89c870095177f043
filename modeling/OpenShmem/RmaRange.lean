import OpenShmem.Rma

/-!
# Where remote accesses go

Every data operation of the interface, by one theorem over all of them. What is
issued starts at the target's heap base plus the caller's offset and is as long
as asked for; neither sum wraps. The size of the target's heap is not part of
the peer table, and no operation is checked against it: an access is inside the
heap exactly when the caller's range is.
-/

namespace OpenShmem

/-- A call of the data interface. The six plain and four fetching atomics of
the source are `atomicOp` and `atomicFetch` at their operation. -/
inductive RmaRequest : Type where
  | putmem (pe : ℕ) (bytes : List UInt8) (offset : ℕ)
  | getmem (pe offset len : ℕ)
  | put (T : Pod) (pe : ℕ) (src : List T.Value) (offset : ℕ)
  | get (T : Pod) (pe offset lenElems : ℕ)
  | atomicOp (T : AtomicValue) (pe offset : ℕ) (op : Amo T.width)
  | atomicFetch (T : AtomicValue) (pe offset : ℕ) (op : FetchAmo T.width)

namespace RmaRequest

/-- The PE named by the caller. -/
def pe : RmaRequest → ℕ
  | putmem pe _ _ | getmem pe _ _ | put _ pe _ _ | get _ pe _ _ | atomicOp _ pe _ _
  | atomicFetch _ pe _ _ => pe

/-- The byte offset named by the caller. -/
def offset : RmaRequest → ℕ
  | putmem _ _ offset | getmem _ offset _ | put _ _ _ offset | get _ _ offset _
  | atomicOp _ _ offset _ | atomicFetch _ _ offset _ => offset

/-- The number of bytes asked for. -/
def len : RmaRequest → ℕ
  | putmem _ bytes _ => bytes.length
  | getmem _ _ len => len
  | put T _ src _ => src.length * T.size
  | get T _ _ lenElems => lenElems * T.size
  | atomicOp T _ _ _ | atomicFetch T _ _ _ => T.size

/-- The call, its result dropped. -/
def exec (ne : Endian) (fuel : ℕ) (l : Lock) : RmaRequest → Fn Unit
  | putmem pe bytes offset => OpenShmem.putmem fuel l pe bytes offset
  | getmem pe offset len => do
    let _ ← OpenShmem.getmem fuel l pe offset len
    return ()
  | put T pe src offset => OpenShmem.put ne fuel l T pe src offset
  | get T pe offset lenElems => do
    let _ ← OpenShmem.get ne fuel l T pe offset lenElems
    return ()
  | atomicOp T pe offset op => OpenShmem.atomicOp fuel l T pe offset op
  | atomicFetch T pe offset op => do
    let _ ← OpenShmem.atomicFetch fuel l T pe offset op
    return ()

end RmaRequest

/-- The remote bytes that a call into UCX reads or writes. -/
def remoteRange : ExtCall → Option Span
  | .ucx (.rmaPut _ bytes address _) => some ⟨address, bytes.length⟩
  | .ucx (.rmaGet _ len address _) => some ⟨address, len⟩
  | .ucx (.amo w _ _ address _) => some ⟨address, w / 8⟩
  | .ucx (.fetchAmo w _ _ address _) => some ⟨address, w / 8⟩
  | _ => none

/-- Every byte of `s` is a byte of `t`. -/
def Span.Within (s t : Span) : Prop := ∀ x, x ∈ s → x ∈ t

/-- Every remote access issued on any path of the request lies in the first
`capacity` bytes behind the target's heap base. -/
def StaysInHeap (ne : Endian) (fuel : ℕ) (state : ShmemState) (capacity : ℕ)
    (req : RmaRequest) : Prop :=
  (req.exec ne fuel (.holding state)).Sat
    (fun c => ∀ r, remoteRange c = some r →
      ∃ peer, state.peers[req.pe]? = some peer ∧ r.Within ⟨peer.heapBase, capacity⟩)
    fun _ => True

/-- What is known of every remote access that a request issues. -/
def Addressed (state : ShmemState) (capacity : ℕ) (req : RmaRequest) (c : ExtCall) : Prop :=
  ∀ r, remoteRange c = some r →
    ∃ peer, state.peers[req.pe]? = some peer ∧
      r = ⟨peer.heapBase + req.offset, req.len⟩ ∧
      peer.heapBase + req.offset < 2 ^ 64 ∧ req.offset + req.len < 2 ^ 64 ∧
      (r.Within ⟨peer.heapBase, capacity⟩ ↔ req.offset + req.len ≤ capacity)

/-! ## The calls around an access -/

/-- Waiting issues no access. -/
theorem waitRequest_sat {P : ExtCall → Prop} (hP : ∀ c, remoteRange c = none → P c)
    (request : Request) (fuel : ℕ) :
    (UcxTransport.waitRequest request fuel).Sat P fun _ => True := by
  induction fuel with
  | zero => exact trivial
  | succ fuel ih =>
    refine ⟨hP _ rfl, fun polled => ?_⟩
    refine Fn.sat_orErr_bind (fun finished _ => ?_) fun _ _ => trivial
    cases finished with
    | true => exact trivial
    | false => exact ih

theorem completeRequest_sat {P : ExtCall → Prop} (hP : ∀ c, remoteRange c = none → P c)
    (request : Option Request) (fuel : ℕ) :
    (completeRequest fuel request).Sat P fun _ => True := by
  cases request with
  | none => exact trivial
  | some request => exact waitRequest_sat hP request fuel

/-- What follows an access whose answer is a request or an error. -/
theorem answered_sat {P : ExtCall → Prop} (hP : ∀ c, remoteRange c = none → P c)
    (issued : Except Status (Option Request)) (fuel : ℕ) :
    (Fn.orErr issued Error.ofStatus >>= fun request => completeRequest fuel request).Sat P
      fun _ => True :=
  Fn.sat_orErr_bind (fun request _ => completeRequest_sat hP request fuel) fun _ _ => trivial

theorem completeFetch_sat {P : ExtCall → Prop} (hP : ∀ c, remoteRange c = none → P c)
    (request : Request) (fuel : ℕ) : (completeFetch request fuel).Sat P fun _ => True := by
  induction fuel with
  | zero => exact trivial
  | succ fuel ih =>
    refine ⟨hP _ rfl, fun polled => ?_⟩
    refine Fn.sat_orErr_bind (fun finished _ => ?_) fun _ _ => trivial
    cases finished with
    | true => exact trivial
    | false => exact ⟨hP _ rfl, fun _ => ih⟩

/-! ## The theorem -/

/-- A nonempty range behind the base is inside the heap when it ends in it. -/
theorem within_iff {base offset len capacity : ℕ} (hlen : 0 < len) :
    (⟨base + offset, len⟩ : Span).Within ⟨base, capacity⟩ ↔ offset + len ≤ capacity := by
  constructor
  · intro h
    have hlast := h (base + offset + len - 1) (by rw [Span.mem_mk]; omega)
    rw [Span.mem_mk] at hlast
    omega
  · intro h x hx
    rw [Span.mem_mk] at hx ⊢
    omega

section Issue

variable {state : ShmemState} {capacity : ℕ} {req : RmaRequest} {l : Lock} {c : ExtCall}

/-- One access of `len` bytes at an accepted address. -/
inductive Access (peer : PeerConnection) (address : ℕ) : ℕ → ExtCall → Prop where
  | put (bytes : List UInt8) :
      Access peer address bytes.length (.ucx (.rmaPut peer.endpoint bytes address peer.rkey))
  | get (len : ℕ) : Access peer address len (.ucx (.rmaGet peer.endpoint len address peer.rkey))
  | amo (T : AtomicValue) (op : Amo T.width) :
      Access peer address T.size (.ucx (.amo T.width op peer.endpoint address peer.rkey))
  | fetchAmo (T : AtomicValue) (op : FetchAmo T.width) :
      Access peer address T.size (.ucx (.fetchAmo T.width op peer.endpoint address peer.rkey))

theorem Access.range {peer : PeerConnection} {address len : ℕ} (h : Access peer address len c) :
    remoteRange c = some ⟨address, len⟩ := by
  cases h with
  | put bytes => rfl
  | get len => rfl
  | amo T op => cases T <;> rfl
  | fetchAmo T op => cases T <;> rfl

/-- What a data operation on a range may issue: the access to the range, if the
validator accepts it, and calls that access nothing. -/
inductive Issues (l : Lock) (pe offset len : ℕ) (c : ExtCall) : Prop where
  | access {state : ShmemState} {peer : PeerConnection} {address : ℕ} (hl : l = .holding state)
    (haccept : peerAndAddress state pe offset len = .ok (peer, address)) (hpos : 0 < len)
    (h : Access peer address len c) : Issues l pe offset len c
  | other (h : remoteRange c = none) : Issues l pe offset len c

/-- The rule for what follows the validator: it is only looked at for an accepted
range. -/
theorem validated_sat {α : Type} {P : ExtCall → Prop} {pe offset len : ℕ}
    {f : PeerConnection × ℕ → Fn α}
    (h : ∀ state peer address, l = .holding state →
      peerAndAddress state pe offset len = .ok (peer, address) →
        (f (peer, address)).Sat P fun _ => True) :
    (withState l fun state => Fn.lift (peerAndAddress state pe offset len) >>= f).Sat P
      fun _ => True := by
  refine withState_sat (fun state hl => ?_) trivial trivial
  exact Prog.Sat.done_bind fun p haccept => h state p.1 p.2 hl haccept

variable (fuel : ℕ)

theorem putmem_issues (pe offset : ℕ) (bytes : List UInt8) :
    (putmem fuel l pe bytes offset).Sat (Issues l pe offset bytes.length) fun _ => True := by
  refine validated_sat fun state peer address hl haccept => ?_
  cases hempty : bytes.isEmpty with
  | true => exact trivial
  | false =>
    have hpos : 0 < bytes.length := by
      rw [List.length_pos_iff]
      rintro rfl
      exact Bool.noConfusion hempty
    exact ⟨.access hl haccept hpos (.put bytes), fun issued =>
      answered_sat (fun _ => .other) issued fuel⟩

theorem getmem_issues (pe offset len : ℕ) :
    (getmem fuel l pe offset len).Sat (Issues l pe offset len) fun _ => True := by
  refine validated_sat fun state peer address hl haccept => ?_
  dsimp only
  split
  · split
    · exact trivial
    · next hne =>
      refine ⟨.access hl haccept (Nat.pos_of_ne_zero hne) (.get len), fun issued => ?_⟩
      refine Fn.sat_orErr_bind (fun p _ => ?_) fun _ _ => trivial
      exact (completeRequest_sat (fun _ => .other) p.1 fuel).bind_any fun _ => trivial
  · exact trivial

theorem atomicOp_issues (T : AtomicValue) (pe offset : ℕ) (op : Amo T.width) :
    (atomicOp fuel l T pe offset op).Sat (Issues l pe offset T.size) fun _ => True := by
  refine validated_sat fun state peer address hl haccept => ?_
  have hpos : 0 < T.size := by cases T <;> decide
  exact ⟨.access hl haccept hpos (.amo T op), fun issued =>
    answered_sat (fun _ => .other) issued fuel⟩

theorem atomicFetch_issues (T : AtomicValue) (pe offset : ℕ) (op : FetchAmo T.width) :
    (atomicFetch fuel l T pe offset op).Sat (Issues l pe offset T.size) fun _ => True := by
  refine validated_sat fun state peer address hl haccept => ?_
  have hpos : 0 < T.size := by cases T <;> decide
  refine ⟨.access hl haccept hpos (.fetchAmo T op), fun issued => ?_⟩
  refine Fn.sat_orErr_bind (fun p _ => ?_) fun _ _ => trivial
  exact (completeFetch_sat (fun _ => .other) p.1 fuel).bind_any fun _ => trivial

/-- **What a request issues.** -/
theorem exec_issues (ne : Endian) (req : RmaRequest) :
    (req.exec ne fuel l).Sat (Issues l req.pe req.offset req.len) fun _ => True := by
  cases req with
  | putmem pe bytes offset => exact putmem_issues fuel pe offset bytes
  | getmem pe offset len => exact (getmem_issues fuel pe offset len).bind_any fun _ => trivial
  | put T pe src offset =>
    rw [RmaRequest.exec, put, Pod.podAsBytes, if_neg (not_not_intro T.size_eq_sizeOf)]
    cases checkedMul 64 src.length T.size with
    | none => exact trivial
    | some _ =>
      have hput := putmem_issues fuel (l := l) pe offset (src.flatMap (T.toNeBytes ne))
      rw [Pod.length_flatMap_toNeBytes] at hput
      exact hput
  | get T pe offset lenElems =>
    refine Prog.Sat.bind_any (Fn.sat_okOr_bind (fun len hlen => ?_) fun _ => trivial)
      fun _ => trivial
    obtain ⟨-, rfl⟩ := checkedMul_eq_some.mp hlen
    exact (getmem_issues fuel pe offset _).bind_any fun _ => trivial
  | atomicOp T pe offset op => exact atomicOp_issues fuel T pe offset op
  | atomicFetch T pe offset op =>
    exact (atomicFetch_issues fuel T pe offset op).bind_any fun _ => trivial

/-- What a request issues is addressed as stated. -/
theorem addressed_of_issues (h : Issues (.holding state) req.pe req.offset req.len c) :
    Addressed state capacity req c := by
  intro r hr
  cases h with
  | access hl haccept hpos h =>
    obtain rfl := Option.some.inj (congrArg Lock.state hl)
    obtain ⟨-, hpeer, rfl, hfits, hend⟩ := peerAndAddress_eq_ok.mp haccept
    obtain rfl := Option.some.inj (h.range.symm.trans hr)
    exact ⟨_, hpeer, rfl, hfits, hend, within_iff hpos⟩
  | other h =>
    rw [h] at hr
    cases hr

end Issue

/-! ## Refusals -/

section Refusal

variable {state : ShmemState} {ne : Endian} {fuel pe offset len : ℕ} {e : Error}

theorem putmem_refused {bytes : List UInt8}
    (h : peerAndAddress state pe offset bytes.length = .err e) :
    putmem fuel (.holding state) pe bytes offset = Fn.fail e := by
  rw [putmem, withState_holding, h, Fn.lift_err_bind]

theorem getmem_refused (h : peerAndAddress state pe offset len = .err e) :
    getmem fuel (.holding state) pe offset len = Fn.fail e := by
  rw [getmem, withState_holding, h, Fn.lift_err_bind]

/-- A request that the validator refuses ends in an error at once. -/
theorem refused_without_call {req : RmaRequest}
    (h : peerAndAddress state req.pe req.offset req.len = .err e) :
    ∃ e', req.exec ne fuel (.holding state) = Fn.fail e' := by
  cases req with
  | putmem pe bytes offset => exact ⟨e, putmem_refused h⟩
  | getmem pe offset len =>
    have hrange : peerAndAddress state pe offset len = .err e := h
    refine ⟨e, ?_⟩
    rw [RmaRequest.exec, getmem_refused hrange]
    rfl
  | put T pe src offset =>
    rw [RmaRequest.exec, put, Pod.podAsBytes, if_neg (not_not_intro T.size_eq_sizeOf)]
    cases checkedMul 64 src.length T.size with
    | none => exact ⟨_, rfl⟩
    | some _ =>
      refine ⟨e, putmem_refused ?_⟩
      rw [Pod.length_flatMap_toNeBytes]
      exact h
  | get T pe offset lenElems =>
    rw [RmaRequest.exec, get]
    cases hmul : checkedMul 64 lenElems T.size with
    | none => exact ⟨_, rfl⟩
    | some len =>
      obtain ⟨-, rfl⟩ := checkedMul_eq_some.mp hmul
      have hrange : peerAndAddress state pe offset (lenElems * T.size) = .err e := h
      refine ⟨e, ?_⟩
      rw [Fn.okOr_some_bind, getmem_refused hrange]
      rfl
  | atomicOp T pe offset op =>
    have hrange : peerAndAddress state pe offset T.size = .err e := h
    refine ⟨e, ?_⟩
    rw [RmaRequest.exec, atomicOp, withState_holding, hrange, Fn.lift_err_bind]
  | atomicFetch T pe offset op =>
    have hrange : peerAndAddress state pe offset T.size = .err e := h
    refine ⟨e, ?_⟩
    rw [RmaRequest.exec, atomicFetch, withState_holding, hrange]
    rfl

end Refusal

/-- **Addresses**: whatever UCX answers, every remote access that any data
operation issues starts at the target's base plus the caller's offset, has the
length asked for, wraps nowhere, and is inside the target's heap if and only if
the caller's range is. A request that the validator refuses ends in an error
and issues nothing. -/
theorem remote_access_addressed (ne : Endian) (fuel : ℕ) (state : ShmemState) (capacity : ℕ)
    (req : RmaRequest) :
    (req.exec ne fuel (.holding state)).Sat (Addressed state capacity req) (fun _ => True) ∧
      ∀ e, peerAndAddress state req.pe req.offset req.len = .err e →
        ∃ e', req.exec ne fuel (.holding state) = Fn.fail e' :=
  ⟨(exec_issues fuel ne req).mono (fun _ => addressed_of_issues) fun _ _ => trivial,
    fun _ => refused_without_call⟩

/-- A put of one byte at offset 64 of that heap is issued, one byte past its
end. -/
theorem access_past_end :
    ¬ ∀ (ne : Endian) (fuel : ℕ) (state : ShmemState) (req : RmaRequest),
      StaysInHeap ne fuel state state.heap.capacity req := by
  intro h
  obtain ⟨hput, -⟩ := h .little 1 loneState (.putmem 0 [1] 64)
  obtain ⟨peer, hpeer, hin⟩ := hput ⟨4160, 1⟩ rfl
  obtain rfl : (⟨⟨[0]⟩, ⟨⟨[0]⟩, [1, 2, 3, 4]⟩, 4096⟩ : PeerConnection) = peer :=
    Option.some.inj hpeer
  exact absurd (hin 4160 (by decide)) (by decide)

/-! ## Which ranges the validator accepts -/

/-- `pe` is a key of the peer table, whose keys are 32-bit words. -/
def InTable (state : ShmemState) (pe : ℕ) (peer : PeerConnection) : Prop :=
  pe < 2 ^ 32 ∧ state.peers[pe]? = some peer

/-- A range is accepted when its PE is known and it fits behind the PE's heap
base without wrapping around; everything else is refused before any call. -/
structure ExactRange (ne : Endian) (fuel : ℕ) (state : ShmemState) (pe offset len : ℕ) : Prop where
  /-- what is accepted is addressed right and ends in the address space -/
  accepted : ∀ peer address, peerAndAddress state pe offset len = .ok (peer, address) →
    InTable state pe peer ∧ address = peer.heapBase + offset ∧
      peer.heapBase + offset + len ≤ 2 ^ 64
  /-- what ends below the top of the address space is accepted -/
  accepts : ∀ peer, InTable state pe peer → peer.heapBase + offset + len < 2 ^ 64 →
    peerAndAddress state pe offset len = .ok (peer, peer.heapBase + offset)
  /-- any other request ends in an error and issues nothing -/
  refused : (¬ ∃ peer, InTable state pe peer ∧ peer.heapBase + offset + len ≤ 2 ^ 64) →
    ∀ req : RmaRequest, req.pe = pe → req.offset = offset → req.len = len →
      ∃ e, req.exec ne fuel (.holding state) = Fn.fail e

/-- The base is added to the offset and the offset to the length, each without
overflow, but the three together go past the top of the address space. -/
def WrapsUnseen (state : ShmemState) (pe offset len : ℕ) : Prop :=
  ∃ peer, InTable state pe peer ∧ peer.heapBase + offset < 2 ^ 64 ∧ offset + len < 2 ^ 64 ∧
    2 ^ 64 < peer.heapBase + offset + len

/-- **Exactness**: the acceptance is exact for every request but those whose
two checked sums are small and whose whole sum is not. -/
theorem exact_range_iff (ne : Endian) (fuel : ℕ) (state : ShmemState) (pe offset len : ℕ) :
    ExactRange ne fuel state pe offset len ↔ ¬ WrapsUnseen state pe offset len := by
  constructor
  · rintro ⟨haccepted, -, -⟩ ⟨peer, ⟨hpe, hpeer⟩, hfits, hrange, hwraps⟩
    obtain ⟨-, -, hend⟩ := haccepted peer _
      (peerAndAddress_eq_ok.mpr ⟨hpe, hpeer, rfl, hfits, hrange⟩)
    omega
  · intro hseen
    refine ⟨?_, ?_, ?_⟩
    · intro peer address haccept
      obtain ⟨hpe, hpeer, rfl, hfits, hrange⟩ := peerAndAddress_eq_ok.mp haccept
      refine ⟨⟨hpe, hpeer⟩, rfl, ?_⟩
      by_contra hwraps
      exact hseen ⟨peer, ⟨hpe, hpeer⟩, hfits, hrange, Nat.lt_of_not_le hwraps⟩
    · rintro peer ⟨hpe, hpeer⟩ hend
      exact peerAndAddress_eq_ok.mpr ⟨hpe, hpeer, rfl, by omega, by omega⟩
    · rintro hother req rfl rfl rfl
      -- the validator cannot have accepted, since an accepted range would fit
      rcases peerAndAddress_cases state req.pe req.offset req.len with
        ⟨peer, address, haccept⟩ | ⟨m, hrefuse⟩
      · obtain ⟨hpe, hpeer, rfl, hfits, hrange⟩ := peerAndAddress_eq_ok.mp haccept
        refine absurd ⟨peer, ⟨hpe, hpeer⟩, ?_⟩ hother
        by_contra hwraps
        exact hseen ⟨peer, ⟨hpe, hpeer⟩, hfits, hrange, Nat.lt_of_not_le hwraps⟩
      · exact refused_without_call hrefuse

/-- At a heap base of 4096, a get of two bytes at offset `2 ^ 64 - 4097` is
accepted: it starts at the last address there is and ends one past the top. -/
theorem range_wraps_unseen :
    ¬ ∀ (ne : Endian) (fuel : ℕ) (state : ShmemState) (pe offset len : ℕ),
      ExactRange ne fuel state pe offset len := by
  intro h
  obtain ⟨-, -, hend⟩ := (h .little 1 loneState 0 (2 ^ 64 - 4097) 2).accepted
    ⟨⟨[0]⟩, ⟨⟨[0]⟩, [1, 2, 3, 4]⟩, 4096⟩ (2 ^ 64 - 1) (by rfl)
  exact absurd hend (by decide)

end OpenShmem
