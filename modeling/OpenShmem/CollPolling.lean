import OpenShmem.CollRequest

/-!
# What a pending collective looks like

UCC says `UCC_INPROGRESS` of an operation that is not complete and a negative
code of one that failed. The two loops of the library, `wait` and the polled
request, take `UCC_ERR_NO_MESSAGE` for pending and everything else but `UCC_OK`
for failed. So they do what UCC means only when the first reading is already
final, and is not that one failure.
-/

namespace OpenShmem

section Law

variable (ne : Endian) (nm : NoMessage) (S : UccScript)

/-- How an operation ends whose final status is `t`. -/
def outcomeAt (t : Int) : Outcome Error Unit :=
  if t = uccOk then .mapErr S.finalized Error.mapUcc else .err (.mapUcc ⟨t⟩)

/-- The calls of a loop that makes progress after each of `k` pending readings
and stops at the final status `t`. -/
def pollingCalls (op : UccCollective) (k : ℕ) (t : Int) : List ExtCall :=
  (List.replicate k [ExtCall.ucc (.status op), ExtCall.ucc .progress]).flatten ++
    ExtCall.ucc (.status op) :: if t = uccOk then [ExtCall.ucc (.finalize op)] else []

/-- What the loops should do about `k` pending readings and then the final
status `t`. -/
structure PollingLaw (req : CollectiveRequest) (op : UccCollective) (k : ℕ) (t : Int) : Prop where
  /-- the blocking `wait` makes progress `k` times and returns the outcome -/
  blocking : ∀ fuel, k < fuel →
    (((wait nm op fuel).run (Prog.Handler.recorded S.handler) (0, [])).1 >>= fun _ => .ok ()) =
        outcomeAt S t ∧
      ((wait nm op fuel).run (Prog.Handler.recorded S.handler) (0, [])).2.2 = pollingCalls op k t
  /-- so does the `wait` of the request -/
  waiting : ∀ fuel, k < fuel →
    (runWait ne nm S fuel ⟨req, 0, []⟩).1 = outcomeAt S t ∧
      (runWait ne nm S fuel ⟨req, 0, []⟩).2.log = pollingCalls op k t
  /-- `test` says `Ok(false)` of each pending reading -/
  pending : ∀ m < k, answerAfter ne nm S req (List.replicate m .test) .test = .tested (.ok false)
  /-- and the outcome at the final one -/
  final : answerAfter ne nm S req (List.replicate k .test) .test =
    .tested (outcomeAt S t >>= fun _ => .ok true)

end Law

/-! ## The first reading -/

section First

variable {ne : Endian} {nm : NoMessage} {S : UccScript} {op : UccCollective}

/-- What the blocking loop does with a reading. -/
def afterStatus (nm : NoMessage) (op : UccCollective) (fuel : ℕ) (status : Int)
    (out : List UInt8) : Fn (List UInt8) :=
  if status = uccOk then do
    op.finalize
    return out
  else if status ≠ nm.code then Fn.fail (.mapUcc ⟨status⟩)
  else do
    let _ ← Fn.ucc .progress
    wait nm op fuel

theorem run_wait_succ {n fuel : ℕ} {log : List ExtCall} :
    (wait nm op (fuel + 1)).run (Prog.Handler.recorded S.handler) (n, log) =
      (afterStatus nm op fuel (S.status n) (S.buffer n op).toList).run
        (Prog.Handler.recorded S.handler) (n + 1, log ++ [.ucc (.status op)]) := by
  rw [wait, Fn.ucc_bind, Prog.run_call]
  rfl

/-- The blocking loop ends at a reading that does not count as pending. -/
theorem wait_run_final {n fuel : ℕ} {log : List ExtCall} (h : ¬ S.status n = nm.code) :
    (((wait nm op (fuel + 1)).run (Prog.Handler.recorded S.handler) (n, log)).1 >>=
        fun _ => .ok ()) = outcomeAt S (S.status n) ∧
      ((wait nm op (fuel + 1)).run (Prog.Handler.recorded S.handler) (n, log)).2.2 =
        log ++ pollingCalls op 0 (S.status n) := by
  rw [run_wait_succ, afterStatus, outcomeAt, pollingCalls]
  by_cases hok : S.status n = uccOk
  · rw [if_pos hok, if_pos hok, if_pos hok]
    simp only [UccCollective.finalize, Fn.ucc_bind, Prog.call_bind]
    rw [Prog.run_call]
    have hanswer : Prog.Handler.recorded S.handler (.ucc (.finalize op))
        (n + 1, log ++ [.ucc (.status op)]) =
          (S.finalized, n + 1, log ++ [.ucc (.status op)] ++ [.ucc (.finalize op)]) := rfl
    rw [hanswer, List.append_assoc]
    cases S.finalized with
    | ok u => exact ⟨rfl, rfl⟩
    | error e => exact ⟨rfl, rfl⟩
  · rw [if_neg hok, if_neg hok, if_neg hok, if_pos h]
    exact ⟨rfl, rfl⟩

variable {front : List (List UInt8)} {d : Option Destination} {i : Option ℕ}

/-- One `test` of an open request, at such a reading. -/
theorem runTest_final (hd : ∀ dest ∈ d, dest.Fits op.args.outLen) {n : ℕ} {log : List ExtCall}
    {last : List UInt8} (h : ¬ S.status n = nm.code) :
    (runTest ne nm S ⟨openRequest op front d i last, n, log⟩).1 =
        (outcomeAt S (S.status n) >>= fun _ => .ok true) ∧
      (runTest ne nm S ⟨openRequest op front d i last, n, log⟩).2.log =
        log ++ pollingCalls op 0 (S.status n) := by
  rw [outcomeAt, pollingCalls]
  by_cases hok : S.status n = uccOk
  · rw [if_pos hok, if_pos hok]
    cases hfin : S.finalized with
    | ok u =>
      rw [runTest_completed hok hfin hd]
      exact ⟨rfl, List.append_assoc _ _ _⟩
    | error e =>
      rw [runTest_unfinalized hok hfin]
      exact ⟨rfl, List.append_assoc _ _ _⟩
  · rw [if_neg hok, if_neg hok, runTest_failed h hok]
    exact ⟨rfl, rfl⟩

/-- The `wait` of the request ends there too. -/
theorem runWait_final (hd : ∀ dest ∈ d, dest.Fits op.args.outLen) {n fuel : ℕ}
    {log : List ExtCall} {last : List UInt8} (h : ¬ S.status n = nm.code) :
    (runWait ne nm S (fuel + 1) ⟨openRequest op front d i last, n, log⟩).1 =
        outcomeAt S (S.status n) ∧
      (runWait ne nm S (fuel + 1) ⟨openRequest op front d i last, n, log⟩).2.log =
        log ++ pollingCalls op 0 (S.status n) := by
  have htest : (runTest ne nm S ⟨openRequest op front d i last, n, log⟩).1 = _ ∧
      (runTest ne nm S ⟨openRequest op front d i last, n, log⟩).2.log = _ := runTest_final hd h
  obtain ⟨hans, hlog⟩ := htest
  rw [runWait_succ]
  generalize runTest ne nm S ⟨openRequest op front d i last, n, log⟩ = t at hans hlog ⊢
  obtain ⟨o, r⟩ := t
  obtain rfl : o = (outcomeAt S (S.status n) >>= fun _ => .ok true) := hans
  generalize outcomeAt S (S.status n) = out
  cases out <;> exact ⟨rfl, hlog⟩

end First

/-! ## When the law holds -/

/-- The law for `k` pending readings and any status after them. -/
theorem pollingLaw_of_readings {W : Type} (handler : Prog.Handler Ext W) (w : W) (ne : Endian)
    (nm : NoMessage) (S : UccScript) (l : Lock) (call : NbCall) {req : CollectiveRequest}
    (hpost : ((call.post ne l).run handler w).1 = .ok req) {op : UccCollective}
    (hop : req.op = some op) {k : ℕ} {t : Int}
    (hpending : ∀ m < k, S.status m = uccInprogress) (hfinal : S.status k = t) :
    PollingLaw ne nm S req op k t ↔ k = 0 ∧ t ≠ nm.code := by
  obtain ⟨op', front, d, i, last, rfl, hd⟩ :=
    Prog.Sat.run (post_posted ne l call) handler w req hpost
  obtain rfl : op' = op := Option.some.inj hop
  constructor
  · intro hlaw
    have hnone : k = 0 := by
      by_contra hk
      -- the first reading is pending, and `test` reports it as an error
      have h0 : S.status 0 = uccInprogress := hpending 0 (Nat.pos_of_ne_zero hk)
      have hnm : ¬ S.status 0 = nm.code := by
        have := nm.negative
        rw [h0, uccInprogress]
        omega
      have hfails := hlaw.pending 0 (Nat.pos_of_ne_zero hk)
      rw [test_fails_at (n := 0) (fun m hm => absurd hm (Nat.not_lt_zero m)) hnm
        (by rw [h0]; decide)] at hfails
      cases hfails
    refine ⟨hnone, fun htnm => ?_⟩
    -- the final reading is polled past
    subst hnone
    have hans := hlaw.final
    have hneg := nm.negative
    have hnm : S.status 0 = nm.code := hfinal.trans htnm
    have hok : ¬ t = uccOk := by
      rw [htnm, uccOk]
      omega
    rw [outcomeAt, if_neg hok] at hans
    have hfalse : answerAfter ne nm S (openRequest op' front d i last) [] .test =
        .tested (runTest ne nm S ⟨openRequest op' front d i last, 0, []⟩).1 := rfl
    rw [List.replicate_zero, hfalse, runTest_noMessage hnm] at hans
    cases hans
  · rintro ⟨rfl, hne⟩
    rw [← hfinal] at hne ⊢
    refine ⟨fun fuel hfuel => ?_, fun fuel hfuel => ?_, fun m hm => ?_, ?_⟩
    · obtain ⟨fuel, rfl⟩ := Nat.exists_eq_succ_of_ne_zero hfuel.ne'
      exact wait_run_final hne
    · obtain ⟨fuel, rfl⟩ := Nat.exists_eq_succ_of_ne_zero hfuel.ne'
      exact runWait_final hd hne
    · exact absurd hm (Nat.not_lt_zero m)
    · exact congrArg RequestAnswer.tested (runTest_final hd hne).1

/-- **Pending is not failed**, exactly: for `k` pending readings and then a final
status, the loops do what UCC means if and only if there is no pending reading
and the final status is not `UCC_ERR_NO_MESSAGE`. -/
theorem polling_law_iff {W : Type} (handler : Prog.Handler Ext W) (w : W) (ne : Endian)
    (nm : NoMessage) (S : UccScript) (l : Lock) (call : NbCall) {req : CollectiveRequest}
    (hpost : ((call.post ne l).run handler w).1 = .ok req) {op : UccCollective}
    (hop : req.op = some op) {k : ℕ} {t : Int}
    (hpending : ∀ m < k, S.status m = uccInprogress) (hfinal : S.status k = t)
    (_ht : t = uccOk ∨ t < 0) :
    PollingLaw ne nm S req op k t ↔ k = 0 ∧ t ≠ nm.code :=
  pollingLaw_of_readings handler w ne nm S l call hpost hop hpending hfinal

/-- A barrier that is pending once and then completes. -/
def pendingOnce : UccScript :=
  ⟨fun n => if n = 0 then uccInprogress else uccOk, fun _ _ => List.Vector.replicate _ 0, .ok ()⟩

/-- A barrier that fails at the first reading. -/
theorem polling_law_iff_instance :
    PollingLaw .little noMessageMinusSix ⟨fun _ => -3, fun _ _ => List.Vector.replicate _ 0, .ok ()⟩
      barrierRequest ⟨0, ((CollectiveBuilder.new .barrier).withInplace [0]).withCount 1⟩ 0 (-3) :=
  (polling_law_iff (accommodating 4096) () .little noMessageMinusSix _ (.holding loneState) .barrier
    rfl rfl (fun m hm => absurd hm (Nat.not_lt_zero m)) rfl (Or.inr (by decide))).mpr
      ⟨rfl, by decide⟩

/-- Of the barrier that is pending once, the first `test` says it failed. -/
theorem pending_reported_as_error :
    ¬ ∀ (ne : Endian) (nm : NoMessage) (S : UccScript) (l : Lock) (call : NbCall)
        (req : CollectiveRequest) (op : UccCollective) (k : ℕ) (t : Int),
      ((call.post ne l).run (accommodating 4096) ()).1 = .ok req → req.op = some op →
      (∀ m < k, S.status m = uccInprogress) → S.status k = t → (t = uccOk ∨ t < 0) →
      PollingLaw ne nm S req op k t := by
  intro h
  have hlaw := h .little noMessageMinusSix pendingOnce (.holding loneState) .barrier barrierRequest
    ⟨0, ((CollectiveBuilder.new .barrier).withInplace [0]).withCount 1⟩ 1 uccOk rfl rfl
    (by decide) rfl (Or.inl rfl)
  have hfails := hlaw.pending 0 Nat.zero_lt_one
  cases hfails

end OpenShmem
