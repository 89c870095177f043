import OpenShmem.AtomicCell
import OpenShmem.Concurrent
import OpenShmem.RmaRange

/-!
# Atomics of many PEs on one cell

The atomics of `src/rma.rs` reach UCX as bit patterns. Here PEs make sequences of
them on one cell, interleaved call by call, in any world whose UCX acts on the
cell as on a word of `w` bits (`CellLaw`). Whatever the order in which UCX carries
them out, it is a history of a variable of the type `T` of the calls: the cell
read as a `T`, and the values the calls return, are those of `T`'s own arithmetic
in that order. What UCX answers is on record, so that a call whose operation is not
in the history, or that returns no answer, says why (`AtomicOp.Ends`).
-/

namespace OpenShmem

/-! ## The calls -/

namespace AtomicValue

instance : (T : AtomicValue) → DecidableEq T.Val
  | u32 => inferInstanceAs (DecidableEq UInt32)
  | i32 => inferInstanceAs (DecidableEq Int32)
  | u64 => inferInstanceAs (DecidableEq UInt64)
  | i64 => inferInstanceAs (DecidableEq Int64)

/-- The number a value is. -/
def toInt : (T : AtomicValue) → T.Val → ℤ
  | u32 => fun v => v.toNat
  | i32 => Int32.toInt
  | u64 => fun v => v.toNat
  | i64 => Int64.toInt

/-- The arithmetic of the type. -/
def native : AtomicValue → CellArith ℤ
  | u32 => .unsigned 32
  | i32 => .signed 32
  | u64 => .unsigned 64
  | i64 => .signed 64

/-- The number that the bits of a cell stand for. -/
def reading (T : AtomicValue) (bits : BitVec T.width) : ℤ := T.toInt (T.fromBits bits)

/-- Reading bits as a value is faithful to the arithmetic of the type. -/
theorem word_hom_native (T : AtomicValue) : (CellArith.word T.width).Hom T.native T.reading :=
  match T with
  | u32 => CellArith.word_hom_unsigned 32
  | i32 => CellArith.word_hom_signed 32
  | u64 => CellArith.word_hom_unsigned 64
  | i64 => CellArith.word_hom_signed 64

/-- `from_bits` undoes `bits`. -/
@[simp] theorem fromBits_bits (T : AtomicValue) (v : T.Val) : T.fromBits (T.bits v) = v := by
  cases T <;> rfl

/-- `bits` undoes `from_bits`. -/
@[simp] theorem bits_fromBits (T : AtomicValue) (x : BitVec T.width) :
    T.bits (T.fromBits x) = x := by
  cases T <;> rfl

@[simp] theorem reading_bits (T : AtomicValue) (v : T.Val) : T.reading (T.bits v) = T.toInt v := by
  rw [reading, fromBits_bits]

end AtomicValue

/-- A call of one of the ten atomics. -/
structure AtomicCall (T : AtomicValue) : Type where
  pe : ℕ
  offset : ℕ
  op : AtomicOp T.Val

/-- What the call returns: the six plain atomics nothing, the four others a value. -/
def AtomicCall.exec {T : AtomicValue} (fuel : ℕ) (l : Lock) (c : AtomicCall T) :
    Fn (Option T.Val) :=
  match c.op with
  | .add value => do
    atomicAdd fuel l T c.pe c.offset value
    return none
  | .xor value => do
    atomicXor fuel l T c.pe c.offset value
    return none
  | .swap value => do
    atomicSwap fuel l T c.pe c.offset value
    return none
  | .and value => do
    atomicAnd fuel l T c.pe c.offset value
    return none
  | .or value => do
    atomicOr fuel l T c.pe c.offset value
    return none
  | .cswap expected replacement => do
    atomicCswap fuel l T c.pe c.offset expected replacement
    return none
  | .fadd operand => do
    let value ← atomicFadd fuel l T c.pe c.offset operand
    return some value
  | .fxor operand => do
    let value ← atomicFxor fuel l T c.pe c.offset operand
    return some value
  | .fswap operand => do
    let value ← atomicFswap fuel l T c.pe c.offset operand
    return some value
  | .fcswap expected replacement => do
    let value ← atomicFcswap fuel l T c.pe c.offset expected replacement
    return some value

/-! ## What UCX is relied on for -/

/-- The operation a plain AMO stands for. -/
def Amo.op {w : ℕ} : Amo w → AtomicOp (BitVec w)
  | add v => .add v
  | xor v => .xor v
  | swap v => .swap v
  | and v => .and v
  | or v => .or v
  | cswap expected replacement => .cswap expected replacement

/-- The operation a fetching AMO stands for. -/
def FetchAmo.op {w : ℕ} : FetchAmo w → AtomicOp (BitVec w)
  | fadd v => .fadd v
  | fxor v => .fxor v
  | fswap v => .fswap v
  | fcswap expected replacement => .fcswap expected replacement

@[simp] theorem Amo.fetched_op {w : ℕ} (op : Amo w) (x : BitVec w) : op.op.fetched x = none := by
  cases op <;> rfl

@[simp] theorem FetchAmo.fetched_op {w : ℕ} (op : FetchAmo w) (x : BitVec w) :
    op.op.fetched x = some x := by
  cases op <;> rfl

/-- What UCX has said of an operation on the cell. -/
inductive CellEvent (α : Type) : Type where
  /-- it is carried out, with this answer -/
  | carried (op : AtomicOp α) (answer : Option α)
  /-- it is refused -/
  | refused (op : AtomicOp α) (status : Status)
  /-- the wait for it has failed -/
  | failed (status : Status)

/-- What has been said, of other values. -/
def CellEvent.map {α β : Type} (f : α → β) : CellEvent α → CellEvent β
  | carried op answer => carried (op.map f) (answer.map f)
  | refused op status => refused (op.map f) status
  | failed status => failed status

/-- The operation, when it is carried out, and its answer. -/
def CellEvent.done {α : Type} : CellEvent α → Option (AtomicOp α × Option α)
  | carried op answer => some (op, answer)
  | refused _ _ | failed _ => none

/-- The history of the cell: the operations that are carried out, in their order. -/
def carriedOut {ι α : Type} (t : List (ι × CellEvent α)) : History ι α :=
  t.filterMap fun e => e.2.done.map fun d => (e.1, d)

@[simp] theorem carriedOut_append {ι α : Type} (t u : List (ι × CellEvent α)) :
    carriedOut (t ++ u) = carriedOut t ++ carriedOut u :=
  List.filterMap_append

/-- Reading what is on record and leaving out what is not carried out commute. -/
theorem carriedOut_map {ι α β : Type} (f : α → β) (t : List (ι × CellEvent α)) :
    carriedOut (t.map (Prod.map id (CellEvent.map f))) = (carriedOut t).read f := by
  rw [carriedOut, carriedOut, History.read, List.filterMap_map, List.map_filterMap]
  congr 1
  funext e
  obtain ⟨i, op | op | status⟩ := e <;> rfl

/-- On record: what UCX answers to an AMO of `w` bits, and a wait that fails. -/
def cellNote (w : ℕ) : Prog.Note Ext (CellEvent (BitVec w))
  | .ucx (.amo v op _ _ _), .ok _ => if h : v = w then [.carried (h ▸ op).op none] else []
  | .ucx (.amo v op _ _ _), .error status =>
    if h : v = w then [.refused (h ▸ op).op status] else []
  | .ucx (.fetchAmo v op _ _ _), .ok (_, reply) =>
    if h : v = w then [.carried (h ▸ op).op (some (h ▸ reply))] else []
  | .ucx (.fetchAmo v op _ _ _), .error status =>
    if h : v = w then [.refused (h ▸ op).op status] else []
  | .ucx (.waitRequest _), .error status => [.failed status]
  | .ucx (.checkFinished _), .error status => [.failed status]
  | _, _ => []

/-- What UCX is relied on for: an AMO it accepts acts at once on the cell at its
endpoint and address, a fetching one answers what the cell held, and nothing else
touches the cell. -/
structure CellLaw {ι σ : Type} {w : ℕ} (S : Shared ι Ext σ (CellEvent (BitVec w)))
    (cell : σ → BitVec w) (OnCell : Ep → ℕ → Prop) : Prop where
  records : S.note = cellNote w
  amo : ∀ {s i op ep address rkey request s'}, OnCell ep address →
    S.Answers s i (.ucx (.amo w op ep address rkey)) (.ok request) s' →
      cell s' = op.op.next (.word w) (cell s)
  amo_refused : ∀ {s i op ep address rkey e s'},
    S.Answers s i (.ucx (.amo w op ep address rkey)) (.error e) s' → cell s' = cell s
  fetchAmo : ∀ {s i op ep address rkey request reply s'}, OnCell ep address →
    S.Answers s i (.ucx (.fetchAmo w op ep address rkey)) (.ok (request, reply)) s' →
      reply = cell s ∧ cell s' = op.op.next (.word w) (cell s)
  fetchAmo_refused : ∀ {s i op ep address rkey e s'},
    S.Answers s i (.ucx (.fetchAmo w op ep address rkey)) (.error e) s' → cell s' = cell s
  /-- a call that accesses nothing remote -/
  other : ∀ {s i c x s'}, remoteRange c = none → S.Answers s i c x s' → cell s' = cell s
  drift : ∀ {s s'}, S.Drift s s' → cell s' = cell s

/-- The call, if it is accepted, is one on the cell. -/
def AtomicCall.On {T : AtomicValue} (l : Lock) (OnCell : Ep → ℕ → Prop) (c : AtomicCall T) : Prop :=
  ∀ state peer address, l = .holding state →
    peerAndAddress state c.pe c.offset T.size = .ok (peer, address) → OnCell peer.endpoint address

/-- Where the call goes, if it is accepted. -/
def AtomicCall.place {T : AtomicValue} (l : Lock) (c : AtomicCall T) :
    Outcome Error (PeerConnection × ℕ) := do
  let state ← lockedState l
  peerAndAddress state c.pe c.offset T.size

/-! ## What one call does -/

/-- How a call with the operation `op` ends, and what it then has on record: either
nothing is issued, because it is not accepted; or its operation is, once, and UCX
decides how the call ends. -/
inductive AtomicOp.Ends {α Place : Type} (place : Outcome Error Place) (op : AtomicOp α) :
    Outcome Error (Option α) → List (CellEvent α) → Prop where
  /-- the call is declined -/
  | declined {e : Error} (h : place = .err e) : Ends place op (.err e) []
  /-- UCX refuses the operation -/
  | refused {p : Place} (h : place = .ok p) (status : Status) :
    Ends place op (.err (.ofStatus status)) [.refused op status]
  /-- the call returns what the operation has answered -/
  | returned {p : Place} (h : place = .ok p) (answer : Option α) :
    Ends place op (.ok answer) [.carried op answer]
  /-- the operation is carried out, but the wait for it fails -/
  | failed {p : Place} (h : place = .ok p) (answer : Option α) (status : Status) :
    Ends place op (.err (.ofStatus status)) [.carried op answer, .failed status]
  /-- the operation is carried out, and is still being waited for -/
  | pending {p : Place} (h : place = .ok p) (answer : Option α) :
    Ends place op .pending [.carried op answer]

/-- A call that ends so ends so when its values are read as others. -/
theorem AtomicOp.Ends.map {α β Place : Type} (f : α → β) {place : Outcome Error Place}
    {op : AtomicOp α} {o : Outcome Error (Option α)} {t : List (CellEvent α)}
    (h : op.Ends place o t) :
    (op.map f).Ends place (Option.map f <$> o) (t.map (CellEvent.map f)) := by
  cases h with
  | declined h => exact .declined h
  | refused h status => exact .refused h status
  | returned h answer => exact .returned h (answer.map f)
  | failed h answer status => exact .failed h (answer.map f) status
  | pending h answer => exact .pending h (answer.map f)

/-- How a wait for a request ends, and what is then on record. -/
inductive Waited {α : Type} : Outcome Error Unit → List (CellEvent α) → Prop where
  | finished : Waited (.ok ()) []
  | failed (status : Status) : Waited (.err (.ofStatus status)) [.failed status]
  | pending : Waited .pending []

section Calls

variable {T : AtomicValue} (fuel : ℕ) (l : Lock)

/-- No operation is carried out by a call that accesses nothing remote. -/
theorem carriedOut_of_no_range {ι : Type} (w : ℕ) {c : ExtCall} (h : remoteRange c = none)
    (x : c.Reply) (i : ι) : carriedOut ((cellNote w c x).map fun n => (i, n)) = [] := by
  obtain c | c | c | c := c
  · rfl
  · cases c with
    | waitRequest request => cases x <;> rfl
    | checkFinished request => cases x <;> rfl
    | rmaPut | rmaGet | amo | fetchAmo => cases h
    | _ => rfl
  · rfl
  · rfl

theorem waitRequest_waited (w : ℕ) (request : Request) :
    (UcxTransport.waitRequest request fuel).Leaves (cellNote w) Waited := by
  induction fuel with
  | zero => exact .pending
  | succ fuel ih =>
    rintro (status | _ | _)
    · exact .failed status
    · exact ih
    · exact .finished

theorem completeRequest_waited (w : ℕ) (request : Option Request) :
    (completeRequest fuel request).Leaves (cellNote w) Waited := by
  cases request with
  | none => exact .finished
  | some request => exact waitRequest_waited fuel w request

theorem completeFetch_waited (w : ℕ) (request : Request) :
    (completeFetch request fuel).Leaves (cellNote w) Waited := by
  induction fuel with
  | zero => exact .pending
  | succ fuel ih =>
    rintro (status | _ | _)
    · exact .failed status
    · exact fun _ => ih
    · exact .finished

/-- The rule for what follows the validator. -/
theorem validated_leaves {α N : Type} {note : Prog.Note Ext N} {pe offset len : ℕ}
    {f : PeerConnection × ℕ → Fn α} {Q : Outcome Error α → List N → Prop}
    (hdeclined : ∀ e, (lockedState l >>= fun state => peerAndAddress state pe offset len) = .err e →
      Q (.err e) [])
    (haccepted : ∀ p, (lockedState l >>= fun state => peerAndAddress state pe offset len) = .ok p →
      (f p).Leaves note Q) :
    (withState l fun state => Fn.lift (peerAndAddress state pe offset len) >>= f).Leaves note
      Q := by
  rw [withState]
  obtain ⟨state, -, hl⟩ | ⟨-, -, hl⟩ | ⟨-, hl⟩ := lockedState_cases l
  · rw [hl, Outcome.ok_bind] at hdeclined haccepted
    rw [hl]
    show (Fn.lift (peerAndAddress state pe offset len) >>= f).Leaves note Q
    obtain ⟨peer, address, hplace⟩ | ⟨m, hplace⟩ := peerAndAddress_cases state pe offset len
    · rw [hplace]
      exact haccepted (peer, address) hplace
    · rw [hplace]
      exact hdeclined _ hplace
  · rw [hl] at hdeclined ⊢
    exact hdeclined _ rfl
  · rw [hl] at hdeclined ⊢
    exact hdeclined _ rfl

/-- What a plain atomic does. -/
theorem atomicOp_leaves (pe offset : ℕ) (op : Amo T.width) :
    (atomicOp fuel l T pe offset op).Leaves (cellNote T.width) fun o t =>
      op.op.Ends (lockedState l >>= fun state => peerAndAddress state pe offset T.size)
        ((fun _ => none) <$> o) t := by
  refine validated_leaves l (fun e h => .declined h) fun p h => ?_
  have hrefused : ∀ status, cellNote T.width (.ucx (.amo T.width op p.1.endpoint p.2 p.1.rkey))
      (.error status) = [.refused op.op status] := fun _ => dif_pos rfl
  have hcarried : ∀ request, cellNote T.width (.ucx (.amo T.width op p.1.endpoint p.2 p.1.rkey))
      (.ok request) = [.carried op.op none] := fun _ => dif_pos rfl
  rintro (status | request)
  · rw [hrefused]
    exact .refused h status
  · rw [hcarried]
    refine (completeRequest_waited fuel T.width request).mono fun o t hwait => ?_
    cases hwait with
    | finished => exact .returned h none
    | failed status => exact .failed h none status
    | pending => exact .pending h none

/-- What a fetching atomic does: it also returns what the cell held. -/
theorem atomicFetch_leaves (pe offset : ℕ) (op : FetchAmo T.width) :
    (atomicFetch fuel l T pe offset op).Leaves (cellNote T.width) fun o t =>
      op.op.Ends (lockedState l >>= fun state => peerAndAddress state pe offset T.size)
        ((fun v => some (T.bits v)) <$> o) t := by
  refine validated_leaves l (fun e h => .declined h) fun p h => ?_
  have hrefused : ∀ status, cellNote T.width
      (.ucx (.fetchAmo T.width op p.1.endpoint p.2 p.1.rkey)) (.error status) =
        [.refused op.op status] := fun _ => dif_pos rfl
  have hcarried : ∀ request reply, cellNote T.width
      (.ucx (.fetchAmo T.width op p.1.endpoint p.2 p.1.rkey)) (.ok (request, reply)) =
        [.carried op.op (some reply)] := fun _ _ => dif_pos rfl
  rintro (status | ⟨request, reply⟩)
  · rw [hrefused]
    exact .refused h status
  · rw [hcarried]
    have hreply : some (T.bits (T.fromBits reply)) = some reply :=
      congrArg some (T.bits_fromBits reply)
    refine Prog.Leaves.bind_pure (f := fun _ => T.fromBits reply)
      ((completeFetch_waited fuel T.width request).mono fun o t hwait => ?_)
    cases hwait with
    | finished =>
      show op.op.Ends _ (.ok (some (T.bits (T.fromBits reply)))) _
      rw [hreply]
      exact .returned h (some reply)
    | failed status => exact .failed h (some reply) status
    | pending => exact .pending h (some reply)

/-- A call is a plain atomic or a fetching one, with its own operation. -/
theorem exec_eq (c : AtomicCall T) :
    (∃ op : Amo T.width, op.op = c.op.map T.bits ∧
      c.exec fuel l = (atomicOp fuel l T c.pe c.offset op >>= fun _ => pure none)) ∨
    ∃ op : FetchAmo T.width, op.op = c.op.map T.bits ∧
      c.exec fuel l = (atomicFetch fuel l T c.pe c.offset op >>= fun a => pure (some a)) := by
  obtain ⟨pe, offset, op⟩ := c
  cases op with
  | add v => exact Or.inl ⟨.add (T.bits v), rfl, rfl⟩
  | xor v => exact Or.inl ⟨.xor (T.bits v), rfl, rfl⟩
  | swap v => exact Or.inl ⟨.swap (T.bits v), rfl, rfl⟩
  | and v => exact Or.inl ⟨.and (T.bits v), rfl, rfl⟩
  | or v => exact Or.inl ⟨.or (T.bits v), rfl, rfl⟩
  | cswap e r => exact Or.inl ⟨.cswap (T.bits e) (T.bits r), rfl, rfl⟩
  | fadd v => exact Or.inr ⟨.fadd (T.bits v), rfl, rfl⟩
  | fxor v => exact Or.inr ⟨.fxor (T.bits v), rfl, rfl⟩
  | fswap v => exact Or.inr ⟨.fswap (T.bits v), rfl, rfl⟩
  | fcswap e r => exact Or.inr ⟨.fcswap (T.bits e) (T.bits r), rfl, rfl⟩

/-- **What one call does**, as the words that reach UCX. -/
theorem exec_leaves (c : AtomicCall T) :
    (c.exec fuel l).Leaves (cellNote T.width) fun o t =>
      (c.op.map T.bits).Ends (c.place l) (Option.map T.bits <$> o) t := by
  obtain ⟨op, hop, hexec⟩ | ⟨op, hop, hexec⟩ := exec_eq fuel l c
  · rw [hexec, ← hop]
    refine Prog.Leaves.bind_pure ((atomicOp_leaves fuel l c.pe c.offset op).mono ?_)
    rintro (_ | e | _ | _) t h <;> exact h
  · rw [hexec, ← hop]
    refine Prog.Leaves.bind_pure ((atomicFetch_leaves fuel l c.pe c.offset op).mono ?_)
    rintro (a | e | _ | _) t h <;> exact h

/-- The calls into UCX that the calls to come may make. -/
inductive CellCall (w : ℕ) (OnCell : Ep → ℕ → Prop) : ExtCall → Prop where
  | amo (op : Amo w) {ep : Ep} {address : ℕ} (rkey : RemoteKey) (h : OnCell ep address) :
      CellCall w OnCell (.ucx (.amo w op ep address rkey))
  | fetchAmo (op : FetchAmo w) {ep : Ep} {address : ℕ} (rkey : RemoteKey) (h : OnCell ep address) :
      CellCall w OnCell (.ucx (.fetchAmo w op ep address rkey))
  | other {c : ExtCall} (h : remoteRange c = none) : CellCall w OnCell c

/-- A call on the cell makes no AMO anywhere else. -/
theorem exec_confined {OnCell : Ep → ℕ → Prop} {c : AtomicCall T} (hc : c.On l OnCell) :
    (c.exec fuel l).Sat (CellCall T.width OnCell) fun _ => True := by
  obtain ⟨op, -, hexec⟩ | ⟨op, -, hexec⟩ := exec_eq fuel l c
  · rw [hexec]
    refine Prog.Sat.bind_any ?_ fun _ => trivial
    refine validated_sat fun state peer address hl haccept => ?_
    exact ⟨.amo op _ (hc state peer address hl haccept), fun issued =>
      answered_sat (fun _ => .other) issued fuel⟩
  · rw [hexec]
    refine Prog.Sat.bind_any ?_ fun _ => trivial
    refine validated_sat fun state peer address hl haccept => ?_
    refine ⟨.fetchAmo op _ (hc state peer address hl haccept), fun issued => ?_⟩
    refine Fn.sat_orErr_bind (fun q _ => ?_) fun _ _ => trivial
    exact (completeFetch_sat (fun _ => .other) q.1 fuel).bind_any fun _ => trivial

end Calls

/-! ## Many PEs -/

/-- The calls of one PE, how those that have ended ended, and what is on record for
it: each call in its turn, as `AtomicOp.Ends` has it. The values are read as the
numbers they are. -/
inductive Explains (T : AtomicValue) (l : Lock) :
    List (AtomicCall T) → List (Outcome Error (Option T.Val)) → List (CellEvent ℤ) → Prop where
  /-- there is nothing left to do -/
  | idle : Explains T l [] [] []
  /-- the next call is on record with what may be the beginning of how it will end -/
  | running (c : AtomicCall T) (calls : List (AtomicCall T)) {o : Outcome Error (Option ℤ)}
    {t t' : List (CellEvent ℤ)} (h : (c.op.map T.toInt).Ends (c.place l) o (t ++ t')) :
    Explains T l (c :: calls) [] t
  /-- a call has ended -/
  | ended (c : AtomicCall T) {calls : List (AtomicCall T)} {o : Outcome Error (Option T.Val)}
    {os : List (Outcome Error (Option T.Val))} {t rest : List (CellEvent ℤ)}
    (h : (c.op.map T.toInt).Ends (c.place l) (Option.map T.toInt <$> o) t)
    (hrest : Explains T l calls os rest) : Explains T l (c :: calls) (o :: os) (t ++ rest)

/-- What is on record, read as said of a variable of type `T`. -/
abbrev AtomicValue.record {ι : Type} (T : AtomicValue)
    (t : List (ι × CellEvent (BitVec T.width))) : List (ι × CellEvent ℤ) :=
  t.map (Prod.map id (CellEvent.map T.reading))

section Runs

variable {T : AtomicValue} {ι σ : Type} [DecidableEq ι]
  {S : Shared ι Ext σ (CellEvent (BitVec T.width))} {cell : σ → BitVec T.width}
  {OnCell : Ep → ℕ → Prop}

/-- What UCX carries out is a history of the cell. -/
theorem cell_replays (law : CellLaw S cell OnCell)
    {s s' : Scene ι Ext Error (Option T.Val) σ (CellEvent (BitVec T.width))} (hrun : S.Run s s')
    (hs : s.Confined fun _ => CellCall T.width OnCell) :
    ∀ ext, s'.trace = s.trace ++ ext →
      Replays (.word T.width) (cell s.world) (carriedOut ext) (cell s'.world) := by
  refine hrun.invariant (I := fun w t => Replays (.word T.width) (cell s.world) (carriedOut t)
    (cell w)) hs rfl ?_ ?_
  · intro w i c x w' t ht hc hx
    rw [law.records, carriedOut_append]
    cases hc with
    -- an AMO that UCX refuses is on record, but is not carried out
    | amo op rkey hon =>
      cases x with
      | error e =>
        rw [law.amo_refused hx]
        simpa [cellNote, carriedOut, CellEvent.done] using ht
      | ok request =>
        rw [law.amo hon hx]
        simpa [cellNote, carriedOut, CellEvent.done] using ht.snoc i op.op
    | fetchAmo op rkey hon =>
      cases x with
      | error e =>
        rw [law.fetchAmo_refused hx]
        simpa [cellNote, carriedOut, CellEvent.done] using ht
      | ok p =>
        obtain ⟨hreply, hcell⟩ := law.fetchAmo hon hx
        rw [hcell]
        simpa [cellNote, carriedOut, CellEvent.done, hreply] using ht.snoc i op.op
    | other h =>
      rw [carriedOut_of_no_range _ h, law.other h hx]
      simpa using ht
  · intro w w' t ht hdrift
    rw [law.drift hdrift]
    exact ht

/-- **What one call does**, as the numbers that its words are. -/
theorem exec_leaves_read (fuel : ℕ) (l : Lock) (c : AtomicCall T) :
    (c.exec fuel l).Leaves (cellNote T.width) fun o t =>
      (c.op.map T.toInt).Ends (c.place l) (Option.map T.toInt <$> o)
        (t.map (CellEvent.map T.reading)) := by
  refine (exec_leaves fuel l c).mono fun o t h => ?_
  have hop : (c.op.map T.bits).map T.reading = c.op.map T.toInt := by
    simp only [AtomicOp.map_map, AtomicValue.reading_bits]
  have ho : Option.map T.reading <$> Option.map T.bits <$> o = Option.map T.toInt <$> o := by
    obtain (_ | a) | e | _ | _ := o
    · rfl
    · exact congrArg (fun x => Outcome.ok (some x)) (T.reading_bits a)
    · rfl
    · rfl
    · rfl
  rw [← hop, ← ho]
  exact h.map T.reading

/-- **One PE.** What is on record for it explains how its calls have ended. -/
theorem explains_of_ran {fuel : ℕ} {l : Lock} {calls : List (AtomicCall T)}
    {t : List (CellEvent (BitVec T.width))} {os : List (Outcome Error (Option T.Val))}
    {qs : List (Fn (Option T.Val))}
    (h : Ran (cellNote T.width) (calls.map (·.exec fuel l)) t os qs) :
    Explains T l calls os (t.map (CellEvent.map T.reading)) := by
  -- by induction on the calls: each leaves its share of the record before the next begins
  induction calls generalizing t os with
  | nil =>
    cases h
    exact .idle
  | cons c calls ih =>
    obtain ⟨rfl, m', rfl, hm'⟩ | ⟨o, os', t₁, t₂, rfl, rfl, ho, hrest⟩ :=
      h.leaves (exec_leaves_read fuel l c)
    · -- whatever the rest of the call is answered, it ends as calls do
      obtain ⟨t', -, hend⟩ := hm'.run (accommodating 0) () []
      rw [List.map_append] at hend
      exact .running c calls hend
    · rw [List.map_append]
      exact .ended c ho (ih hrest)

/-- **Atomics are those of the type.** The variable is read off the cell, with and
without a sign. In the order in which UCX carries the operations out, they are a
history of a variable of type `T`. Every call of every PE has its own operation in
it, once and in its turn, and returns its answer there; a call that fails does so
because it is not accepted, or because of an error of UCX. -/
theorem atomics_simulate_native (law : CellLaw S cell OnCell) (fuel : ℕ) (lock : ι → Lock)
    (calls : ι → List (AtomicCall T)) (hon : ∀ i, ∀ c ∈ calls i, c.On (lock i) OnCell) (w₀ : σ)
    {s : Scene ι Ext Error (Option T.Val) σ (CellEvent (BitVec T.width))}
    (hrun : S.Run (Shared.start (fun i => (calls i).map (·.exec fuel (lock i))) w₀) s) :
    Replays T.native (T.reading (cell w₀)) (carriedOut (T.record s.trace))
        (T.reading (cell s.world)) ∧
      ∀ i, Explains T (lock i) (calls i) (s.results i) (partOf i (T.record s.trace)) := by
  have hconfined : Scene.Confined (N := CellEvent (BitVec T.width))
      (fun _ => CellCall T.width OnCell)
      (Shared.start (fun i => (calls i).map (·.exec fuel (lock i))) w₀) := by
    intro i m hm
    obtain ⟨c, hc, rfl⟩ := List.mem_map.mp hm
    exact exec_confined fuel (lock i) (hon i c hc)
  refine ⟨?_, fun i => ?_⟩
  · -- the cell is a history of words, which is then read as one of numbers
    rw [carriedOut_map]
    exact (cell_replays law hrun hconfined s.trace rfl).map T.word_hom_native
  · obtain ⟨ext, htrace, hran⟩ := hrun.ran
    obtain ⟨os, hos, hran⟩ := hran i
    obtain rfl : s.trace = ext := htrace
    obtain rfl : s.results i = os := hos
    rw [law.records] at hran
    rw [AtomicValue.record, partOf_map]
    exact explains_of_ran hran

end Runs

/-! ## A UCX of one cell -/

/-- A UCX with one cell, wherever it is addressed, and nothing else. -/
def oneCell {w : ℕ} (cell : BitVec w) : (c : ExtCall) → Option (c.Reply × BitVec w)
  | .ucx (.amo v op _ _ _) =>
    if h : v = w then some (.ok none, (h ▸ op : Amo w).op.next (.word w) cell) else none
  | .ucx (.fetchAmo v op _ _ _) =>
    if h : v = w then some (.ok (⟨0⟩, h ▸ cell), (h ▸ op : FetchAmo w).op.next (.word w) cell)
    else none
  | .ucx (.waitRequest _) => some (.ok true, cell)
  | .ucx (.checkFinished _) => some (.ok true, cell)
  | .ucx .progress => some ((), cell)
  | _ => none

/-- PEs that share it. -/
def oneCellWorld (ι : Type) (w : ℕ) : Shared ι Ext (BitVec w) (CellEvent (BitVec w)) where
  Answers cell _ c x cell' := oneCell cell c = some (x, cell')
  Drift _ _ := False
  note := cellNote w

theorem oneCell_law (ι : Type) (w : ℕ) (OnCell : Ep → ℕ → Prop) :
    CellLaw (oneCellWorld ι w) id OnCell where
  records := rfl
  amo _ h := by
    simp only [oneCellWorld, oneCell, dite_true, Option.some.injEq, Prod.mk.injEq] at h
    exact h.2.symm
  amo_refused h := by simp [oneCellWorld, oneCell] at h
  fetchAmo _ h := by
    simp only [oneCellWorld, oneCell, dite_true, Option.some.injEq, Prod.mk.injEq,
      Except.ok.injEq] at h
    exact ⟨h.1.2.symm, h.2.symm⟩
  fetchAmo_refused h := by simp [oneCellWorld, oneCell] at h
  other {s i c x s'} hrange h := by
    obtain c | c | c | c := c
    · cases h
    · cases c <;> first | cases h | cases hrange
      all_goals rfl
    · cases h
    · cases h
  drift h := h.elim

/-- Two PEs on a variable that holds 3: one subtracts 5, complements and subtracts
10, the other looks twice for the result of the first subtraction. -/
def signedCalls : Bool → List (AtomicCall .i32)
  | false => [⟨0, 8, .fadd (-5 : Int32)⟩, ⟨0, 8, .xor (-1 : Int32)⟩,
    ⟨0, 8, .add (-10 : Int32)⟩]
  | true => [⟨0, 8, .fcswap (-2 : Int32) (-7 : Int32)⟩, ⟨0, 8, .fcswap (-2 : Int32) (-7 : Int32)⟩]

/-- All of these calls are on the cell at offset 8 of the heap of PE 0. -/
theorem signedCalls_on (i : Bool) (c : AtomicCall .i32) (hc : c ∈ signedCalls i) :
    c.On (.holding loneState) fun ep address => ep = ⟨[0]⟩ ∧ address = 4104 := by
  have hplace : c.pe = 0 ∧ c.offset = 8 := by
    cases i <;> simp only [signedCalls, List.mem_cons, List.not_mem_nil, or_false] at hc
    · obtain rfl | rfl | rfl := hc <;> exact ⟨rfl, rfl⟩
    · obtain rfl | rfl := hc <;> exact ⟨rfl, rfl⟩
  have haddress : peerAndAddress loneState 0 8 4 =
      .ok (⟨⟨[0]⟩, ⟨⟨[0]⟩, [1, 2, 3, 4]⟩, 4096⟩, 4104) := by rfl
  rintro state peer address ⟨⟩ haccept
  rw [hplace.1, hplace.2] at haccept
  obtain ⟨rfl, rfl⟩ := Prod.mk.inj (Outcome.ok.inj (haddress.symm.trans haccept))
  exact ⟨rfl, rfl⟩

/-- Both begin before either ends, and they take turns after that. -/
def signedSchedule : List (Bool ⊕ Empty) :=
  [.inl true, .inl false, .inl true, .inl false, .inl true, .inl true, .inl false, .inl false,
    .inl true, .inl false, .inl false, .inl true, .inl false]

/-- The two PEs before their first calls. -/
def signedStart :
    Scene Bool Ext Error (Option AtomicValue.i32.Val) (BitVec 32) (CellEvent (BitVec 32)) :=
  Shared.start (fun i => (signedCalls i).map (·.exec 1 (.holding loneState))) 3#32

theorem signed_plays :
    ((oneCellWorld Bool 32).play (fun cell _ => oneCell cell) (fun d _ => d.elim) signedSchedule
      signedStart).any (fun s => s.world = 4294967292#32 ∧
        s.results false = [.ok (some (3 : Int32)), .ok none, .ok none] ∧
        s.results true = [.ok (some (3 : Int32)), .ok (some (-2 : Int32))]) = true := by
  decide

/-- In this run the signed values are those of the variable: 3, then -2, then -7,
then 6, then -4. -/
theorem atomics_simulate_native_instance :
    ∃ s, (oneCellWorld Bool 32).Run signedStart s ∧
      s.results false = [.ok (some (3 : Int32)), .ok none, .ok none] ∧
      s.results true = [.ok (some (3 : Int32)), .ok (some (-2 : Int32))] ∧
      Replays (.signed 32) 3 (carriedOut (AtomicValue.i32.record s.trace)) (-4) ∧
      ∀ i, Explains .i32 (.holding loneState) (signedCalls i) (s.results i)
        (partOf i (AtomicValue.i32.record s.trace)) := by
  obtain ⟨s, hplay, hs⟩ := (Option.any_eq_true _ _).mp signed_plays
  obtain ⟨hworld, hfalse, htrue⟩ := of_decide_eq_true hs
  have hrun : (oneCellWorld Bool 32).Run signedStart s :=
    Shared.run_of_play (fun h => h) (fun {d} => d.elim) hplay
  obtain ⟨hreplays, hexplains⟩ := atomics_simulate_native (T := .i32)
    (oneCell_law Bool 32 fun ep address => ep = ⟨[0]⟩ ∧ address = 4104) 1
    (fun _ => .holding loneState) signedCalls signedCalls_on 3#32 hrun
  rw [id_eq, hworld] at hreplays
  exact ⟨s, hrun, hfalse, htrue, hreplays, hexplains⟩

end OpenShmem
