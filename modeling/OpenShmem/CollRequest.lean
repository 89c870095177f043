import OpenShmem.Machine
import OpenShmem.ReduceAgree

/-!
# The life of a collective request

A `CollectiveRequest` is polled by a caller who may call `test`, `wait` and
`result` in any order, also after an error. A `UccScript` is one behaviour of
UCC: the status and the buffer at every reading, and what `finalize` answers.

A request is open until a reading says `UCC_OK`. Then the operation is taken out
before it is finalized, and from there on the request says it is complete,
whether it was finalized or not.
-/

namespace OpenShmem

/-! ## What UCC does -/

/-- One behaviour of UCC towards one operation. -/
structure UccScript : Type where
  /-- the code of the `n`-th reading -/
  status : ℕ → Int
  /-- the output buffer at the `n`-th reading -/
  buffer : ℕ → (op : UccCollective) → List.Vector UInt8 op.args.outLen
  /-- the answer of `finalize` -/
  finalized : Except UccStatus Unit

/-- Answer from the script. The world is the number of readings so far. -/
def UccScript.handler (S : UccScript) : Prog.Handler Ext ℕ
  | .ucc (.status op), n => ((S.status n, S.buffer n op), n + 1)
  | .ucc (.finalize _), n => (S.finalized, n)
  | c, n => ((accommodating 4096 c ()).1, n)

/-! ## Requests and their callers -/

/-- The four functions that make a request. -/
inductive NbCall : Type where
  | barrier
  | broadcast (T : Pod) (root : ℕ) (values : List T.Value)
  | collect (T : Pod) (values : List T.Value)
  | reduce (T : Pod) (reduction : UccReductionOp) (values : List T.Value)

/-- The function a call names. -/
def NbCall.post (ne : Endian) (l : Lock) : NbCall → Fn CollectiveRequest
  | barrier => barrierNb l
  | broadcast T root values => broadcastNb ne l T root values
  | collect T values => collectNb ne l T values
  | reduce T reduction values => reduceNb ne l T reduction values

/-- A method call on a request. -/
inductive RequestCall : Type where
  | test
  | wait (fuel : ℕ)
  | result (T : Pod)
  deriving DecidableEq, Repr

/-- Its answer. -/
inductive RequestAnswer : Type where
  | tested (o : Outcome Error Bool)
  | waited (o : Outcome Error Unit)
  | resulted (T : Pod) (o : Outcome Error (List T.Value))

/-- The answer says that the operation is complete. -/
def RequestAnswer.Succeeds : RequestAnswer → Prop
  | tested o => o = .ok true
  | waited o => o = .ok ()
  | resulted _ o => ∃ values, o = .ok values

/-- The answer says that the operation has failed. -/
def RequestAnswer.Fails : RequestAnswer → Prop
  | tested o => ∃ e, o = .err e
  | waited o => ∃ e, o = .err e
  | resulted _ _ => False

/-- A request, how often its status was read, and the calls into UCC it made. -/
structure RequestRun : Type where
  req : CollectiveRequest
  readings : ℕ
  log : List ExtCall

/-- What a method leaves. -/
def RequestRun.after {α : Type} (r : RequestRun) :
    Outcome Error (Outcome Error α × CollectiveRequest) × ℕ × List ExtCall →
      Outcome Error α × RequestRun
  | (.ok (o, req), n, log) => (o, ⟨req, n, log⟩)
  | (.err e, n, log) => (.err e, ⟨r.req, n, log⟩)
  | (.panic, n, log) => (.panic, ⟨r.req, n, log⟩)
  | (.pending, n, log) => (.pending, ⟨r.req, n, log⟩)

section Methods

variable (ne : Endian) (nm : NoMessage) (S : UccScript)

/-- `test` against the script. -/
def runTest (r : RequestRun) : Outcome Error Bool × RequestRun :=
  r.after ((r.req.test ne nm).run (Prog.Handler.recorded S.handler) (r.readings, r.log))

/-- `wait` against the script. -/
def runWait (fuel : ℕ) (r : RequestRun) : Outcome Error Unit × RequestRun :=
  r.after ((CollectiveRequest.wait ne nm fuel r.req).run (Prog.Handler.recorded S.handler)
    (r.readings, r.log))

/-- The methods against the script. -/
def requestMachine : Machine RequestRun RequestCall RequestAnswer where
  step r
    | .test => (.tested (runTest ne nm S r).1, (runTest ne nm S r).2)
    | .wait fuel => (.waited (runWait ne nm S fuel r).1, (runWait ne nm S fuel r).2)
    | .result T => (.resulted T (r.req.result ne T), r)

/-- The answer to `c` after `calls`. -/
def answerAfter (req : CollectiveRequest) (calls : List RequestCall) (c : RequestCall) :
    RequestAnswer :=
  ((requestMachine ne nm S).step ((requestMachine ne nm S).final ⟨req, 0, []⟩ calls) c).1

end Methods

/-! ## The laws -/

section Laws

variable (ne : Endian) (nm : NoMessage) (S : UccScript) (req : CollectiveRequest)

/-- The operation of `req` has completed: its last reading was `UCC_OK`, it was
finalized with success, and a slice to copy back to holds the decoded buffer. -/
def Completed (r : RequestRun) : Prop :=
  ∃ op n, req.op = some op ∧ r.readings = n + 1 ∧ S.status n = uccOk ∧
    ExtCall.ucc (.finalize op) ∈ r.log ∧ S.finalized = .ok () ∧
    r.req.destination = req.destination.map fun d => d.fill ne (S.buffer n op).toList

/-- Success is only reported of a completed operation. -/
def NeverFalseSuccess : Prop :=
  ∀ calls c, (answerAfter ne nm S req calls c).Succeeds →
    Completed ne S req ((requestMachine ne nm S).final ⟨req, 0, []⟩ (calls ++ [c]))

/-- Once a call has reported failure, no later call reports success. -/
def NoSuccessAfterFailure : Prop :=
  ∀ calls c calls' c', (answerAfter ne nm S req calls c).Fails →
    ¬ (answerAfter ne nm S req (calls ++ c :: calls') c').Succeeds

end Laws

/-! ## One `test` -/

section Test

variable {ne : Endian} {nm : NoMessage} {S : UccScript}
variable {op : UccCollective} {front : List (List UInt8)} {d : Option Destination} {i : Option ℕ}

/-- An open request: its operation is posted, and its slice untouched. -/
def openRequest (op : UccCollective) (front : List (List UInt8)) (d : Option Destination)
    (i : Option ℕ) (last : List UInt8) : CollectiveRequest := ⟨some op, front ++ [last], d, i⟩

/-- A request whose operation was taken out. -/
def takenRequest (front : List (List UInt8)) (d : Option Destination) (i : Option ℕ)
    (last : List UInt8) : CollectiveRequest := ⟨none, front ++ [last], d, i⟩

theorem runTest_taken {n : ℕ} {log : List ExtCall} {last : List UInt8} :
    runTest ne nm S ⟨takenRequest front d i last, n, log⟩ =
      (.ok true, ⟨takenRequest front d i last, n, log⟩) := rfl

variable {n : ℕ} {log : List ExtCall} {last : List UInt8}

/-- What `test` does with a reading. -/
def onReading (ne : Endian) (nm : NoMessage) (op : UccCollective) (front : List (List UInt8))
    (d : Option Destination) (i : Option ℕ) (status : Int) (out : List UInt8) :
    Fn (Outcome Error Bool × CollectiveRequest) :=
  if status = nm.code then do
    let _ ← Fn.ucc .progress
    return (.ok false, openRequest op front d i out)
  else if status ≠ uccOk then return (.err (.mapUcc ⟨status⟩), openRequest op front d i out)
  else do
    match ← (op.finalize.reify : Fn (Outcome Error Unit)) with
    | .ok () => return (takenRequest front d i out).copyBack ne
    | .err e => return (.err e, takenRequest front d i out)
    | .panic => return (.panic, takenRequest front d i out)
    | .pending => return (.pending, takenRequest front d i out)

theorem test_open :
    (openRequest op front d i last).test ne nm =
      .call (.ucc (.status op)) fun r => onReading ne nm op front d i r.1 r.2.toList := by
  simp only [openRequest, CollectiveRequest.test, Fn.ucc_bind, CollectiveRequest.filled_concat]
  rfl

/-- One `test` of an open request is one reading. -/
theorem runTest_open :
    runTest ne nm S ⟨openRequest op front d i last, n, log⟩ =
      RequestRun.after ⟨openRequest op front d i last, n, log⟩
        ((onReading ne nm op front d i (S.status n) (S.buffer n op).toList).run
          (Prog.Handler.recorded S.handler) (n + 1, log ++ [.ucc (.status op)])) := by
  rw [runTest, test_open]
  rfl

theorem runTest_noMessage (h : S.status n = nm.code) :
    runTest ne nm S ⟨openRequest op front d i last, n, log⟩ =
      (.ok false, ⟨openRequest op front d i (S.buffer n op).toList, n + 1,
        log ++ [.ucc (.status op)] ++ [.ucc .progress]⟩) := by
  rw [runTest_open, onReading, if_pos h]
  rfl

theorem runTest_failed (h : ¬ S.status n = nm.code) (hok : S.status n ≠ uccOk) :
    runTest ne nm S ⟨openRequest op front d i last, n, log⟩ =
      (.err (.mapUcc ⟨S.status n⟩), ⟨openRequest op front d i (S.buffer n op).toList, n + 1,
        log ++ [.ucc (.status op)]⟩) := by
  rw [runTest_open, onReading, if_neg h, if_pos hok]
  rfl

theorem ok_ne_noMessage (nm : NoMessage) {s : Int} (h : s = uccOk) : ¬ s = nm.code := by
  have hneg := nm.negative
  rintro rfl
  rw [h] at hneg
  exact absurd hneg (by decide)

/-- A reading of `UCC_OK` is followed by `finalize`, on a request whose
operation is already taken out. -/
theorem onReading_ok {s : Int} {out : List UInt8} (h : s = uccOk) :
    (onReading ne nm op front d i s out).run (Prog.Handler.recorded S.handler) (n, log) =
      match S.finalized with
      | .ok () => (.ok ((takenRequest front d i out).copyBack ne),
          n, log ++ [.ucc (.finalize op)])
      | .error e => (.ok (.err (.mapUcc e), takenRequest front d i out),
          n, log ++ [.ucc (.finalize op)]) := by
  rw [onReading, if_neg (ok_ne_noMessage nm h), if_neg (not_not_intro h)]
  simp only [UccCollective.finalize, Fn.ucc_bind, Prog.reify_call, Prog.call_bind]
  rw [Prog.run_call]
  show Prog.run _ ((Fn.orErr S.finalized Error.mapUcc).reify >>= _) _ = _
  cases S.finalized <;> rfl

theorem runTest_unfinalized (h : S.status n = uccOk) {e : UccStatus}
    (hfin : S.finalized = .error e) :
    runTest ne nm S ⟨openRequest op front d i last, n, log⟩ =
      (.err (.mapUcc e), ⟨takenRequest front d i (S.buffer n op).toList, n + 1,
        log ++ [.ucc (.status op)] ++ [.ucc (.finalize op)]⟩) := by
  rw [runTest_open, onReading_ok h, hfin]
  rfl

theorem runTest_completed (h : S.status n = uccOk) (hfin : S.finalized = .ok ())
    (hd : ∀ dest ∈ d, dest.Fits op.args.outLen) :
    runTest ne nm S ⟨openRequest op front d i last, n, log⟩ =
      (.ok true, ⟨takenRequest front (d.map fun dest => dest.fill ne (S.buffer n op).toList) i
        (S.buffer n op).toList, n + 1, log ++ [.ucc (.status op)] ++ [.ucc (.finalize op)]⟩) := by
  have hcopy := CollectiveRequest.copyBack_eq ne none front (S.buffer n op).toList d i
    (by rwa [(S.buffer n op).toList_length])
  rw [runTest_open, onReading_ok h, hfin]
  dsimp only
  rw [takenRequest, hcopy]
  rfl

end Test

/-! ## `wait` is repeated `test` -/

section Wait

variable {ne : Endian} {nm : NoMessage} {S : UccScript}

/-- `test` ends with an answer and a request. -/
theorem test_returns (req : CollectiveRequest) : (req.test ne nm).Returns fun _ => True := by
  rw [CollectiveRequest.test]
  split
  · exact .pure trivial
  · next op _ =>
    rw [Fn.ucc_bind]
    refine .call fun reading => ?_
    dsimp only
    split
    · exact .call fun _ => .pure trivial
    · split
      · exact .pure trivial
      · refine .call fun finalized => ?_
        cases finalized with
        | ok u => exact .pure trivial
        | error e => exact .pure trivial

theorem wait_returns (fuel : ℕ) (req : CollectiveRequest) :
    (CollectiveRequest.wait ne nm fuel req).Returns fun _ => True := by
  induction fuel generalizing req with
  | zero => exact .pure trivial
  | succ fuel ih =>
    refine (test_returns req).bind ?_
    rintro ⟨b | e | _ | _, req'⟩ -
    · cases b with
      | true => exact .pure trivial
      | false => exact ih req'
    · exact .pure trivial
    · exact .pure trivial
    · exact .pure trivial

/-- After a method that ended with an answer, the run before it is forgotten. -/
theorem RequestRun.after_congr {α : Type} (r r' : RequestRun)
    {p : Outcome Error (Outcome Error α × CollectiveRequest) × ℕ × List ExtCall}
    (h : ∃ a, p.1 = .ok a) : r.after p = r'.after p := by
  obtain ⟨o, w⟩ := p
  obtain ⟨a, rfl⟩ := h
  rfl

theorem runWait_succ (fuel : ℕ) (r : RequestRun) :
    runWait ne nm S (fuel + 1) r =
      match runTest ne nm S r with
      | (.ok true, r') => (.ok (), r')
      | (.ok false, r') => runWait ne nm S fuel r'
      | (.err e, r') => (.err e, r')
      | (.panic, r') => (.panic, r')
      | (.pending, r') => (.pending, r') := by
  obtain ⟨p, hp, -⟩ := (test_returns r.req).run (Prog.Handler.recorded S.handler) (r.readings, r.log)
  rw [runWait, CollectiveRequest.wait, Prog.run_bind, runTest]
  generalize (r.req.test ne nm).run (Prog.Handler.recorded S.handler) (r.readings, r.log) = ran
    at hp ⊢
  obtain ⟨o, w⟩ := ran
  obtain rfl : o = .ok p := hp
  obtain ⟨(b | e | _ | _), req⟩ := p
  · cases b with
    | true => rfl
    | false =>
      obtain ⟨p, hp, -⟩ := (wait_returns fuel req).run (Prog.Handler.recorded S.handler) w
      exact RequestRun.after_congr _ _ ⟨p, hp⟩
  · rfl
  · rfl
  · rfl

theorem runWait_again {fuel : ℕ} {r : RequestRun} (h : (runTest ne nm S r).1 = .ok false) :
    runWait ne nm S (fuel + 1) r = runWait ne nm S fuel (runTest ne nm S r).2 := by
  rw [runWait_succ]
  generalize runTest ne nm S r = t at h ⊢
  obtain ⟨o, r'⟩ := t
  obtain rfl : o = .ok false := h
  rfl

theorem runWait_stops {fuel : ℕ} {r : RequestRun} (h : (runTest ne nm S r).1 ≠ .ok false) :
    runWait ne nm S (fuel + 1) r =
      ((runTest ne nm S r).1 >>= fun _ => .ok (), (runTest ne nm S r).2) := by
  rw [runWait_succ]
  generalize runTest ne nm S r = t at h ⊢
  obtain ⟨(b | e | _ | _), r'⟩ := t
  · cases b with
    | true => rfl
    | false => exact absurd rfl h
  · rfl
  · rfl
  · rfl

/-- **`wait` is its last `test`**: it ends as a `test` of a state it reached did
that was not told to go on, or it runs out of budget in a state it reached. -/
theorem runWait_last {I : RequestRun → Prop} (htest : ∀ r, I r → I (runTest ne nm S r).2) :
    ∀ fuel r, I r →
      (∃ r', I r' ∧ (runTest ne nm S r').1 ≠ .ok false ∧
        runWait ne nm S fuel r =
          ((runTest ne nm S r').1 >>= fun _ => .ok (), (runTest ne nm S r').2)) ∨
      ∃ r', I r' ∧ runWait ne nm S fuel r = (.pending, r') := by
  intro fuel
  induction fuel with
  | zero =>
    intro r hr
    exact Or.inr ⟨r, hr, rfl⟩
  | succ fuel ih =>
    intro r hr
    have hnext := htest r hr
    by_cases hagain : (runTest ne nm S r).1 = .ok false
    · obtain hlast | hbudget := ih _ hnext
      · obtain ⟨r', hr', hstop, hwait⟩ := hlast
        exact Or.inl ⟨r', hr', hstop, (runWait_again hagain).trans hwait⟩
      · obtain ⟨r', hr', hwait⟩ := hbudget
        exact Or.inr ⟨r', hr', (runWait_again hagain).trans hwait⟩
    · exact Or.inl ⟨r, hr, hagain, runWait_stops hagain⟩

/-- What every `test` keeps, `wait` keeps. -/
theorem runWait_invariant {I : RequestRun → Prop} (htest : ∀ r, I r → I (runTest ne nm S r).2)
    (fuel : ℕ) (r : RequestRun) (hr : I r) : I (runWait ne nm S fuel r).2 := by
  obtain ⟨r', hr', -, hwait⟩ | ⟨r', hr', hwait⟩ := runWait_last htest fuel r hr
  · rw [hwait]
    exact htest r' hr'
  · rw [hwait]
    exact hr'

end Wait

/-! ## The states of a request -/

section Inv

variable {ne : Endian} {nm : NoMessage} {S : UccScript}
variable {op : UccCollective} {front : List (List UInt8)} {d : Option Destination} {i : Option ℕ}

/-- Where a request can be: still open, completed, or taken out without having
been finalized. -/
inductive RequestInv (ne : Endian) (S : UccScript) (op : UccCollective)
    (front : List (List UInt8)) (d : Option Destination) (i : Option ℕ) : RequestRun → Prop where
  | still_open (last : List UInt8) (n : ℕ) (log : List ExtCall)
      (before : ∀ m < n, S.status m ≠ uccOk) :
      RequestInv ne S op front d i ⟨openRequest op front d i last, n, log⟩
  | completed (n : ℕ) (log : List ExtCall) (hok : S.status n = uccOk)
      (hfin : S.finalized = .ok ()) (hlog : ExtCall.ucc (.finalize op) ∈ log) :
      RequestInv ne S op front d i
        ⟨takenRequest front (d.map fun dest => dest.fill ne (S.buffer n op).toList) i
          (S.buffer n op).toList, n + 1, log⟩
  | unfinalized (n : ℕ) (log : List ExtCall) (e : UccStatus) (hok : S.status n = uccOk)
      (hfin : S.finalized = .error e) :
      RequestInv ne S op front d i ⟨takenRequest front d i (S.buffer n op).toList, n + 1, log⟩

/-- One `test` keeps the request where it can be. -/
theorem RequestInv.test (hd : ∀ dest ∈ d, dest.Fits op.args.outLen) {r : RequestRun}
    (h : RequestInv ne S op front d i r) : RequestInv ne S op front d i (runTest ne nm S r).2 := by
  cases h with
  | still_open last n log before =>
    by_cases hok : S.status n = uccOk
    · cases hfin : S.finalized with
      | ok u =>
        rw [runTest_completed hok hfin hd]
        exact .completed n _ hok hfin (by simp)
      | error e =>
        rw [runTest_unfinalized hok hfin]
        exact .unfinalized n _ e hok hfin
    · have hnext : ∀ m < n + 1, S.status m ≠ uccOk := by
        intro m hm
        rcases Nat.lt_succ_iff_lt_or_eq.mp hm with hlt | rfl
        · exact before m hlt
        · exact hok
      by_cases hnm : S.status n = nm.code
      · rw [runTest_noMessage hnm]
        exact .still_open _ _ _ hnext
      · rw [runTest_failed hnm hok]
        exact .still_open _ _ _ hnext
  | completed n log hok hfin hlog => exact .completed n log hok hfin hlog
  | unfinalized n log e hok hfin => exact .unfinalized n log e hok hfin

/-- Every call keeps it there. -/
theorem RequestInv.step (hd : ∀ dest ∈ d, dest.Fits op.args.outLen) {r : RequestRun}
    (h : RequestInv ne S op front d i r) (c : RequestCall) :
    RequestInv ne S op front d i ((requestMachine ne nm S).step r c).2 := by
  cases c with
  | test => exact h.test hd
  | wait fuel => exact runWait_invariant (fun _ hr => hr.test hd) fuel r h
  | result T => exact h

theorem RequestInv.run (hd : ∀ dest ∈ d, dest.Fits op.args.outLen) (calls : List RequestCall)
    (last : List UInt8) :
    RequestInv ne S op front d i
      ((requestMachine ne nm S).final ⟨openRequest op front d i last, 0, []⟩ calls) :=
  Machine.invariant (fun _ c h => h.step hd c) calls _ (.still_open last 0 [] (by simp))

/-- `test` says `Ok(true)` only of a request without its operation. -/
theorem op_none_of_test {r : RequestRun} (hd : ∀ dest ∈ d, dest.Fits op.args.outLen)
    (h : RequestInv ne S op front d i r) (htrue : (runTest ne nm S r).1 = .ok true) :
    (runTest ne nm S r).2.req.op = none := by
  cases h with
  | still_open last n log before =>
    by_cases hok : S.status n = uccOk
    · cases hfin : S.finalized with
      | ok u => rw [runTest_completed hok hfin hd]; rfl
      | error e => rw [runTest_unfinalized hok hfin]; rfl
    · by_cases hnm : S.status n = nm.code
      · rw [runTest_noMessage hnm] at htrue
        cases htrue
      · rw [runTest_failed hnm hok] at htrue
        cases htrue
  | completed n log hok hfin hlog => rfl
  | unfinalized n log e hok hfin => rfl

theorem op_none_of_wait (hd : ∀ dest ∈ d, dest.Fits op.args.outLen) (fuel : ℕ) (r : RequestRun)
    (h : RequestInv ne S op front d i r) (hdone : (runWait ne nm S fuel r).1 = .ok ()) :
    (runWait ne nm S fuel r).2.req.op = none := by
  obtain ⟨r', hr', hstop, hwait⟩ | ⟨r', -, hwait⟩ := runWait_last (fun _ hr => hr.test hd) fuel r h
  · rw [hwait] at hdone ⊢
    obtain ⟨b, hb, -⟩ := Outcome.bind_eq_ok hdone
    cases b with
    | true => exact op_none_of_test hd hr' hb
    | false => exact absurd hb hstop
  · rw [hwait] at hdone
    cases hdone

/-- Success is only ever reported of a request without its operation. -/
theorem op_none_of_succeeds (hd : ∀ dest ∈ d, dest.Fits op.args.outLen) {r : RequestRun}
    (h : RequestInv ne S op front d i r) {c : RequestCall}
    (hs : ((requestMachine ne nm S).step r c).1.Succeeds) :
    ((requestMachine ne nm S).step r c).2.req.op = none := by
  cases c with
  | test => exact op_none_of_test hd h hs
  | wait fuel => exact op_none_of_wait hd fuel r h hs
  | result T =>
    obtain ⟨values, hvalues⟩ := hs
    show r.req.op = none
    rw [CollectiveRequest.result] at hvalues
    split at hvalues
    · cases hvalues
    · next hop => exact Option.not_isSome_iff_eq_none.mp hop

end Inv

/-! ## How a request is made -/

/-- The request is open, and its slice is as long as its buffer. -/
def Posted (req : CollectiveRequest) : Prop :=
  ∃ op front d i last, req = openRequest op front d i last ∧ ∀ dest ∈ d, dest.Fits op.args.outLen

/-- The requests that bring a slice. -/
theorem inplace_posted {ne : Endian} {T : Pod} {post : List UInt8 → Fn UccCollective}
    (hpost : ∀ bytes, (post bytes).Yields fun op => op.args.outLen = bytes.length)
    (values : List T.Value) :
    (Fn.lift (encode ne T values) >>= fun bytes => post bytes >>= fun op =>
      pure (.new op [bytes] (some ⟨T, values⟩) none) : Fn CollectiveRequest).Yields Posted := by
  refine Prog.Yields.bind (lift_yields _) fun bytes hbytes => ?_
  obtain ⟨-, hlen, hsmall⟩ := encode_eq_ok ne hbytes
  refine Prog.Yields.bind (hpost bytes) fun op hop => Prog.Yields.pure ?_
  refine ⟨op, [], some ⟨T, values⟩, none, bytes, rfl, ?_⟩
  -- the buffer UCC writes is the encoded slice, so the slice fits
  rintro dest ⟨⟩
  rw [hop]
  exact ⟨hlen.symm, hsmall⟩

/-- Every function that makes a request makes an open one. -/
theorem post_posted (ne : Endian) (l : Lock) (call : NbCall) : (call.post ne l).Yields Posted := by
  have hrefused : ∀ e : Error, (Fn.fail e : Fn CollectiveRequest).Yields Posted :=
    fun e => Prog.Yields.of_ne_ok fun _ h => by cases h
  cases call with
  | barrier =>
    rw [NbCall.post, barrierNb_eq]
    refine Prog.Yields.bind_any fun op => Prog.Yields.pure ?_
    exact ⟨op, [], none, none, [0], rfl, fun _ h => by cases h⟩
  | broadcast T root values =>
    rw [NbCall.post]
    cases h : values.isEmpty with
    | true =>
      rw [broadcastNb, if_pos h]
      exact hrefused _
    | false =>
      rw [broadcastNb_eq ne l T root h]
      exact inplace_posted (fun bytes => postBroadcast_yields bytes _ root) values
  | collect T values =>
    rw [NbCall.post]
    cases h : values.isEmpty with
    | true =>
      rw [collectNb, if_pos h]
      exact hrefused _
    | false =>
      rw [collectNb_eq ne l T h]
      refine Prog.Yields.bind_any fun p => Prog.Yields.pure ?_
      exact ⟨p.2.2, [p.1], none, some 1, List.replicate p.2.1 0, rfl, fun _ h => by cases h⟩
  | reduce T reduction values =>
    rw [NbCall.post]
    cases h : values.isEmpty with
    | true =>
      rw [reduceNb, if_pos h]
      exact hrefused _
    | false =>
      cases hop : T.reductionSupported reduction with
      | false =>
        rw [reduceNb, h, hop]
        exact hrefused _
      | true =>
        rw [reduceNb_eq ne l T reduction h hop]
        exact inplace_posted (fun bytes => postReduce_yields bytes _ reduction) values

/-! ## When the laws hold -/

section Exact

variable {ne : Endian} {nm : NoMessage} {S : UccScript}
variable {op : UccCollective} {front : List (List UInt8)} {d : Option Destination} {i : Option ℕ}
variable {last : List UInt8}

/-- `k` tests of a request whose first `k` readings are not `UCC_OK` leave it
open. -/
theorem tests_open (k : ℕ) (h : ∀ m < k, S.status m ≠ uccOk) :
    ∃ last' log', (requestMachine ne nm S).final ⟨openRequest op front d i last, 0, []⟩
      (List.replicate k .test) = ⟨openRequest op front d i last', k, log'⟩ := by
  induction k with
  | zero => exact ⟨last, [], rfl⟩
  | succ k ih =>
    obtain ⟨last', log', hk⟩ := ih fun m hm => h m (Nat.lt_succ_of_lt hm)
    have hnow : S.status k ≠ uccOk := h k (Nat.lt_succ_self k)
    have hstep : (requestMachine ne nm S).final ⟨openRequest op front d i last', k, log'⟩ [.test] =
        (runTest ne nm S ⟨openRequest op front d i last', k, log'⟩).2 := rfl
    rw [List.replicate_succ', Machine.final_append, hk, hstep]
    by_cases hnm : S.status k = nm.code
    · rw [runTest_noMessage hnm]
      exact ⟨_, _, rfl⟩
    · rw [runTest_failed hnm hnow]
      exact ⟨_, _, rfl⟩

/-- A request whose operation was taken out has completed, provided that
`finalize` succeeds or `UCC_OK` is never read. -/
theorem completed_of_inv {r : RequestRun} (hinv : RequestInv ne S op front d i r)
    (hnone : r.req.op = none) (h : S.finalized = .ok () ∨ ∀ n, S.status n ≠ uccOk) :
    Completed ne S (openRequest op front d i last) r := by
  cases hinv with
  | still_open last' n log before => cases hnone
  | completed n log hok hfin hlog => exact ⟨op, n, rfl, rfl, hok, hlog, hfin, rfl⟩
  | unfinalized n log e hok hfin =>
    rcases h with hsucc | hnever
    · rw [hsucc] at hfin
      cases hfin
    · exact absurd hok (hnever n)

theorem neverFalseSuccess_of (hd : ∀ dest ∈ d, dest.Fits op.args.outLen)
    (h : S.finalized = .ok () ∨ ∀ n, S.status n ≠ uccOk) :
    NeverFalseSuccess ne nm S (openRequest op front d i last) := by
  intro calls c hs
  have hinv : RequestInv ne S op front d i
      ((requestMachine ne nm S).final ⟨openRequest op front d i last, 0, []⟩ calls) :=
    RequestInv.run hd calls last
  rw [Machine.final_append]
  exact completed_of_inv (hinv.step hd c) (op_none_of_succeeds hd hinv hs) h

/-- A failed `finalize` is followed by a `test` that says `Ok(true)`. -/
theorem test_after_failed_finalize {k : ℕ} (hk : S.status k = uccOk)
    (before : ∀ m < k, S.status m ≠ uccOk) {e : UccStatus} (hfin : S.finalized = .error e) :
    answerAfter ne nm S (openRequest op front d i last) (List.replicate k .test) .test =
        .tested (.err (.mapUcc e)) ∧
      answerAfter ne nm S (openRequest op front d i last) (List.replicate k .test ++ [.test]) .test =
        .tested (.ok true) := by
  obtain ⟨last', log', hopen⟩ : ∃ last' log', (requestMachine ne nm S).final
      ⟨openRequest op front d i last, 0, []⟩ (List.replicate k .test) =
        ⟨openRequest op front d i last', k, log'⟩ := tests_open k before
  rw [answerAfter, answerAfter, Machine.final_append, hopen]
  constructor
  · show RequestAnswer.tested (runTest ne nm S _).1 = _
    rw [runTest_unfinalized hk hfin]
  · show RequestAnswer.tested (runTest ne nm S (runTest ne nm S _).2).1 = _
    rw [runTest_unfinalized hk hfin, runTest_taken]

/-- An error reading is reported by the `test` that makes it. -/
theorem test_fails_at {n : ℕ} (before : ∀ m < n, S.status m ≠ uccOk) (hnm : ¬ S.status n = nm.code)
    (hok : S.status n ≠ uccOk) :
    answerAfter ne nm S (openRequest op front d i last) (List.replicate n .test) .test =
      .tested (.err (.mapUcc ⟨S.status n⟩)) := by
  obtain ⟨last', log', hopen⟩ : ∃ last' log', (requestMachine ne nm S).final
      ⟨openRequest op front d i last, 0, []⟩ (List.replicate n .test) =
        ⟨openRequest op front d i last', n, log'⟩ := tests_open n before
  rw [answerAfter, hopen]
  show RequestAnswer.tested (runTest ne nm S _).1 = _
  rw [runTest_failed hnm hok]

/-- The first reading of `UCC_OK` completes the request. -/
theorem test_completes_at (hd : ∀ dest ∈ d, dest.Fits op.args.outLen) {k : ℕ}
    (hk : S.status k = uccOk) (before : ∀ m < k, S.status m ≠ uccOk)
    (hfin : S.finalized = .ok ()) :
    answerAfter ne nm S (openRequest op front d i last) (List.replicate k .test) .test =
      .tested (.ok true) := by
  obtain ⟨last', log', hopen⟩ : ∃ last' log', (requestMachine ne nm S).final
      ⟨openRequest op front d i last, 0, []⟩ (List.replicate k .test) =
        ⟨openRequest op front d i last', k, log'⟩ := tests_open k before
  rw [answerAfter, hopen]
  show RequestAnswer.tested (runTest ne nm S _).1 = _
  rw [runTest_completed hk hfin hd]

/-- The first reading of `UCC_OK`. -/
theorem first_ok {n : ℕ} (h : S.status n = uccOk) :
    ∃ k ≤ n, S.status k = uccOk ∧ ∀ m < k, S.status m ≠ uccOk := by
  have hex : ∃ k, S.status k = uccOk := ⟨n, h⟩
  exact ⟨Nat.find hex, Nat.find_min' hex h, Nat.find_spec hex, fun m hm => Nat.find_min hex hm⟩

/-- **No false success**, exactly: when `finalize` succeeds, or `UCC_OK` is never
read. -/
theorem neverFalseSuccess_iff (hd : ∀ dest ∈ d, dest.Fits op.args.outLen) :
    NeverFalseSuccess ne nm S (openRequest op front d i last) ↔
      S.finalized = .ok () ∨ ∀ n, S.status n ≠ uccOk := by
  refine ⟨fun hlaw => ?_, neverFalseSuccess_of hd⟩
  cases hfin : S.finalized with
  | ok u => exact Or.inl rfl
  | error e =>
    refine Or.inr fun n hn => ?_
    obtain ⟨k, -, hk, before⟩ := first_ok hn
    have hdone := hlaw (List.replicate k .test ++ [.test]) .test (by
      rw [(test_after_failed_finalize hk before hfin).2]
      rfl)
    obtain ⟨_, _, -, -, -, -, hsucc, -⟩ := hdone
    rw [hfin] at hsucc
    cases hsucc

/-- Every reading before the first `UCC_OK` says `UCC_ERR_NO_MESSAGE`. -/
def Smooth (nm : NoMessage) (S : UccScript) : Prop :=
  ∀ n, (∀ m ≤ n, S.status m ≠ uccOk) → S.status n = nm.code

/-- In a smooth script whose `finalize` succeeds, `test` never fails. -/
theorem test_not_err (hd : ∀ dest ∈ d, dest.Fits op.args.outLen) (hsmooth : Smooth nm S)
    (hfin : S.finalized = .ok ()) {r : RequestRun} (h : RequestInv ne S op front d i r) :
    ∃ b, (runTest ne nm S r).1 = .ok b := by
  cases h with
  | still_open last n log before =>
    by_cases hok : S.status n = uccOk
    · rw [runTest_completed hok hfin hd]
      exact ⟨true, rfl⟩
    · have hnm : S.status n = nm.code := by
        refine hsmooth n fun m hm => ?_
        rcases Nat.lt_or_eq_of_le hm with hlt | rfl
        · exact before m hlt
        · exact hok
      rw [runTest_noMessage hnm]
      exact ⟨false, rfl⟩
  | completed n log hok hfin hlog => exact ⟨true, rfl⟩
  | unfinalized n log e hok hbad =>
    rw [hfin] at hbad
    cases hbad

theorem wait_not_err (hd : ∀ dest ∈ d, dest.Fits op.args.outLen) (hsmooth : Smooth nm S)
    (hfin : S.finalized = .ok ()) (fuel : ℕ) (r : RequestRun)
    (h : RequestInv ne S op front d i r) (e : Error) : (runWait ne nm S fuel r).1 ≠ .err e := by
  obtain ⟨r', hr', -, hwait⟩ | ⟨r', -, hwait⟩ := runWait_last (fun _ hr => hr.test hd) fuel r h
  · obtain ⟨b, hb⟩ := test_not_err hd hsmooth hfin hr'
    rw [hwait, hb]
    exact fun hno => by cases hno
  · rw [hwait]
    exact fun hno => by cases hno

/-- No call fails, in such a script. -/
theorem step_not_fails (hd : ∀ dest ∈ d, dest.Fits op.args.outLen) (hsmooth : Smooth nm S)
    (hfin : S.finalized = .ok ()) {r : RequestRun} (h : RequestInv ne S op front d i r)
    (c : RequestCall) : ¬ ((requestMachine ne nm S).step r c).1.Fails := by
  cases c with
  | test =>
    rintro ⟨e, he⟩
    obtain ⟨b, hb⟩ := test_not_err hd hsmooth hfin h
    have hclash : Outcome.err e = .ok b := he.symm.trans hb
    cases hclash
  | wait fuel =>
    rintro ⟨e, he⟩
    exact wait_not_err hd hsmooth hfin fuel r h e he
  | result T => exact id

/-- **No success after failure**, exactly: when `UCC_OK` is never read, or
`finalize` succeeds and no error was read before `UCC_OK`. -/
theorem noSuccessAfterFailure_iff (hd : ∀ dest ∈ d, dest.Fits op.args.outLen) :
    NoSuccessAfterFailure ne nm S (openRequest op front d i last) ↔
      (∀ n, S.status n ≠ uccOk) ∨ (S.finalized = .ok () ∧ Smooth nm S) := by
  constructor
  · intro hlaw
    by_contra hnot
    obtain ⟨⟨n, hn⟩, hbad⟩ : (∃ n, S.status n = uccOk) ∧ ¬ (S.finalized = .ok () ∧ Smooth nm S) := by
      simpa [not_or] using hnot
    obtain ⟨k, -, hk, before⟩ := first_ok hn
    cases hfin : S.finalized with
    | error e =>
      -- the `test` that finalizes fails, and the next one succeeds
      refine hlaw (List.replicate k .test) .test [] .test ?_ ?_
      · rw [(test_after_failed_finalize hk before hfin).1]
        exact ⟨_, rfl⟩
      · rw [(test_after_failed_finalize hk before hfin).2]
        exact rfl
    | ok u =>
      -- the `test` that reads an error fails, and a later one succeeds
      obtain ⟨n', hopen, hnm⟩ : ∃ n', (∀ m ≤ n', S.status m ≠ uccOk) ∧ ¬ S.status n' = nm.code := by
        have hrough : ¬ Smooth nm S := fun h => hbad ⟨hfin, h⟩
        simpa [Smooth] using hrough
      have hlt : n' < k := Nat.lt_of_not_le fun hle => hopen k hle hk
      refine hlaw (List.replicate n' .test) .test (List.replicate (k - n' - 1) .test) .test ?_ ?_
      · rw [test_fails_at (fun m hm => hopen m hm.le) hnm (hopen n' le_rfl)]
        exact ⟨_, rfl⟩
      · have hall : List.replicate n' RequestCall.test ++
            .test :: List.replicate (k - n' - 1) .test = List.replicate k .test := by
          rw [← List.replicate_succ, ← List.replicate_add]
          congr 1
          omega
        rw [hall, test_completes_at hd hk before hfin]
        exact rfl
  · rintro (hnever | ⟨hfin, hsmooth⟩) calls c calls' c' hfails hs
    · obtain ⟨_, n, -, -, hok, -⟩ := neverFalseSuccess_of hd (Or.inr hnever) _ c' hs
      exact hnever n hok
    · have hinv : RequestInv ne S op front d i
          ((requestMachine ne nm S).final ⟨openRequest op front d i last, 0, []⟩ calls) :=
        RequestInv.run hd calls last
      exact step_not_fails hd hsmooth hfin hinv c hfails

end Exact

/-! ## The result -/

/-- **When a request tells the truth**: for every request made by one of the
four functions and every behaviour of UCC, success is only reported of a
completed operation if and only if `finalize` succeeds or `UCC_OK` is never
read; and on top of that no success follows a failure if and only if `UCC_OK` is
never read, or `finalize` succeeds and no error is read before `UCC_OK`. -/
theorem request_truthful_iff {W : Type} (handler : Prog.Handler Ext W) (w : W) (ne : Endian)
    (nm : NoMessage) (S : UccScript) (l : Lock) (call : NbCall) {req : CollectiveRequest}
    (hpost : ((call.post ne l).run handler w).1 = .ok req) :
    (NeverFalseSuccess ne nm S req ↔
        S.finalized = .ok () ∨ ∀ n, S.status n ≠ uccOk) ∧
      (NeverFalseSuccess ne nm S req ∧ NoSuccessAfterFailure ne nm S req ↔
        (∀ n, S.status n ≠ uccOk) ∨ (S.finalized = .ok () ∧ Smooth nm S)) := by
  obtain ⟨op, front, d, i, last, rfl, hd⟩ :=
    Prog.Sat.run (post_posted ne l call) handler w req hpost
  rw [neverFalseSuccess_iff hd, noSuccessAfterFailure_iff hd]
  refine ⟨Iff.rfl, ⟨And.right, fun h => ⟨?_, h⟩⟩⟩
  obtain hnever | ⟨hfin, -⟩ := h
  · exact Or.inr hnever
  · exact Or.inl hfin

/-- A barrier whose status is `UCC_OK` and whose `finalize` fails. -/
def failingFinalize : UccScript :=
  ⟨fun _ => uccOk, fun _ _ => List.Vector.replicate _ 0, .error ⟨-1⟩⟩

/-- The request of a barrier. -/
def barrierRequest : CollectiveRequest :=
  .new ⟨0, ((CollectiveBuilder.new .barrier).withInplace [0]).withCount 1⟩ [[0]] none none

/-- `UCC_ERR_NO_MESSAGE` as UCC numbers it. -/
def noMessageMinusSix : NoMessage := ⟨-6, by decide⟩

theorem request_truthful_iff_instance :
    NeverFalseSuccess .little noMessageMinusSix
        ⟨fun _ => uccOk, fun _ _ => List.Vector.replicate _ 0, .ok ()⟩ barrierRequest :=
  (request_truthful_iff (accommodating 4096) () .little noMessageMinusSix _ (.holding loneState)
    .barrier rfl).1.mpr (Or.inl rfl)

/-- Of a barrier whose `finalize` failed, the second `test` says `Ok(true)`. -/
theorem test_reports_unfinalized :
    ¬ ∀ (ne : Endian) (nm : NoMessage) (S : UccScript) (l : Lock) (call : NbCall)
        (req : CollectiveRequest), ((call.post ne l).run (accommodating 4096) ()).1 = .ok req →
      NeverFalseSuccess ne nm S req ∧ NoSuccessAfterFailure ne nm S req := by
  intro h
  obtain ⟨htruth, -⟩ := h .little noMessageMinusSix failingFinalize (.holding loneState) .barrier
    barrierRequest rfl
  obtain ⟨_, _, -, -, -, -, hfin, -⟩ := htruth [.test] .test rfl
  cases hfin

end OpenShmem
