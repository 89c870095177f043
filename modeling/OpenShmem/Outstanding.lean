import OpenShmem.InPlace
import OpenShmem.Lifecycle

/-!
# Outstanding requests and the team they were posted on

A request is handed out as a value and polled outside the lifecycle mutex. It
keeps its UCC context alive, but the team belongs to the `Runtime` in the stored
state, and `finalize` drops that without asking who still holds a request. A
process here makes the calls of `src/coll.rs` that hand out and poll requests,
and `init` and `finalize`, in any order. `wait` with `fuel + 1` is a `test` and
then `wait` with `fuel`, so a wait that others interleave with is a sequence of
such calls.
-/

namespace OpenShmem

/-! ## The calls -/

/-- A request that was handed out, with the number of the `Runtime` it was posted
on. -/
structure Issued : Type where
  runtime : ℕ
  req : CollectiveRequest

/-- What a process holds: the lifecycle lock, the requests it was handed, and how
many times it set out to make a `Runtime`. The last one has that number. -/
structure Held : Type where
  lock : Lock
  runtimes : ℕ
  issued : List Issued

namespace Held

/-- The process before its first call. -/
def start : Held := ⟨.initial, 0, []⟩

/-- The `Runtime` that is stored, if there is one. -/
def stored (h : Held) : Option ℕ :=
  (h.lock.state.bind ShmemState.collectives).map fun _ => h.runtimes

end Held

/-- A call of the process. `poll i` is a method call on the `i`-th request. -/
inductive TeamCall : Type where
  | init
  | finalize
  | post (call : NbCall)
  | poll (i : ℕ) (call : RequestCall)

/-- `test` and `wait`. -/
def RequestCall.Polls : RequestCall → Prop
  | test => True
  | wait _ => True
  | result _ => False

/-- The answer, its value dropped. -/
def RequestAnswer.outcome : RequestAnswer → Outcome Error Unit
  | tested o => o.void
  | waited o => o
  | resulted _ o => o.void

/-- The request, if one was made. -/
def issuedBy (runtimes : ℕ) : Outcome Error CollectiveRequest → List Issued
  | .ok req => [⟨runtimes, req⟩]
  | _ => []

/-- A call: its result, its value dropped, and what the process then holds. -/
def TeamCall.exec (ne : Endian) (nm : NoMessage) (h : Held) :
    TeamCall → Fn (Outcome Error Unit × Held)
  | init => do
    let (o, l) ← OpenShmem.init true h.lock
    let runtimes := if h.lock.state.isSome then h.runtimes else h.runtimes + 1
    return (o, { h with lock := l, runtimes })
  | finalize => do
    let (o, l) ← OpenShmem.finalize h.lock
    return (o, { h with lock := l })
  | post call => do
    let o ← ((call.post ne h.lock).reify : Fn (Outcome Error CollectiveRequest))
    let lock := h.lock.release h.lock.state o
    return (o.void, { h with lock, issued := h.issued ++ issuedBy h.runtimes o })
  | poll i call =>
    match h.issued[i]? with
    | none => return (.ok (), h)
    | some s => do
      let (a, req) ← s.req.call ne nm call
      return (a.outcome, { h with issued := h.issued.set i ⟨s.runtime, req⟩ })

/-- The calls into UCC are put on record. -/
def touchNote : Prog.Note Ext UccCall
  | .ucc c, _ => [c]
  | _, _ => []

/-- A process that makes such calls, in an environment that answers as `handler`
does. A step answers with the result and the calls into UCC. -/
def teamMachine (ne : Endian) (nm : NoMessage) {W : Type} (handler : Prog.Handler Ext W) :
    Machine (Held × W) TeamCall (Outcome Error Unit × List UccCall) where
  step p c :=
    match (c.exec ne nm p.1).run (handler.noting touchNote) (p.2, []) with
    | (.ok (o, h), w, touched) => ((o, touched), h, w)
    | (.err e, w, touched) => ((.err e, touched), p.1, w)
    | (.panic, w, touched) => ((.panic, touched), p.1, w)
    | (.pending, w, touched) => ((.pending, touched), p.1, w)

/-! ## What a step can do -/

/-- Everything a call can do to what the process holds. -/
inductive TeamStep (h : Held) : TeamCall → Held → Prop where
  /-- `init` with a state stored -/
  | again (hstate : h.lock.state.isSome) : TeamStep h .init h
  /-- `init` with nothing stored, whatever it came to -/
  | started (hstate : h.lock.state = none) (l : Lock) :
      TeamStep h .init { h with lock := l, runtimes := h.runtimes + 1 }
  /-- `finalize` with nothing stored or the lock poisoned -/
  | idle (hidle : h.lock.poisoned = true ∨ h.lock.state = none) : TeamStep h .finalize h
  /-- `finalize` took the state -/
  | taken (hlock : h.lock.poisoned = false) (l : Lock) (hl : l.state = none) :
      TeamStep h .finalize { h with lock := l }
  /-- no request was made -/
  | refused (call : NbCall) (l : Lock) (hl : l.state = h.lock.state) :
      TeamStep h (.post call) { h with lock := l }
  /-- a request was made, on the stored `Runtime` -/
  | posted (call : NbCall) (req : CollectiveRequest) (l : Lock) (hl : l.state = h.lock.state)
      (hstored : h.stored = some h.runtimes) :
      TeamStep h (.post call) { h with lock := l, issued := h.issued ++ [⟨h.runtimes, req⟩] }
  /-- there is no such request -/
  | absent (i : ℕ) (call : RequestCall) (hi : h.issued[i]? = none) : TeamStep h (.poll i call) h
  /-- the request was called: it never gets an operation back, and only a poll
  changes it -/
  | polled (i : ℕ) (call : RequestCall) (s : Issued) (hi : h.issued[i]? = some s)
      (req : CollectiveRequest) (hop : req.op.isSome → s.req.op.isSome)
      (hkept : ¬ call.Polls → req = s.req) :
      TeamStep h (.poll i call) { h with issued := h.issued.set i ⟨s.runtime, req⟩ }

section Steps

variable (ne : Endian) (nm : NoMessage)

/-- Nothing is posted without a stored `Runtime`. -/
theorem runtimeOf_yields {α : Type} {l : Lock} {operation : ShmemState → Runtime → Fn α} :
    (withState l fun state => Fn.lift (runtimeOf state) >>= operation state).Yields
      fun _ => (l.state.bind ShmemState.collectives).isSome := by
  refine withState_sat (fun state hl => ?_) (fun _ h => by cases h) fun _ h => by cases h
  subst hl
  cases h : state.collectives with
  | none =>
    rw [runtimeOf, h]
    exact fun _ h => by cases h
  | some runtime =>
    have hstored : ((Lock.holding state).state.bind ShmemState.collectives).isSome := by
      rw [Lock.holding, Option.bind_some, h]
      rfl
    exact (Prog.yields_true _).mono fun _ _ => hstored

theorem post_yields_stored (l : Lock) (call : NbCall) :
    (call.post ne l).Yields fun _ => (l.state.bind ShmemState.collectives).isSome := by
  cases call with
  | barrier => exact runtimeOf_yields
  | broadcast T root values =>
    rw [NbCall.post, broadcastNb]
    split
    · exact fun _ h => by cases h
    · exact Prog.Yields.bind_any fun bytes => runtimeOf_yields
  | collect T values =>
    rw [NbCall.post, collectNb]
    split
    · exact fun _ h => by cases h
    · exact runtimeOf_yields
  | reduce T reduction values =>
    rw [NbCall.post, reduceNb]
    split
    · exact fun _ h => by cases h
    · split
      · exact fun _ h => by cases h
      · exact Prog.Yields.bind_any fun bytes => runtimeOf_yields

/-- A call on a request never gives it an operation, and only a poll changes it. -/
theorem call_returns (req : CollectiveRequest) (call : RequestCall) :
    (req.call ne nm call).Returns fun p =>
      (p.2.op.isSome → req.op.isSome) ∧ (¬ call.Polls → p.2 = req) := by
  cases hop : req.op with
  | none =>
    obtain ⟨a, hcall⟩ : ∃ a, req.call ne nm call = pure (a, req) := call_of_taken hop call
    rw [hcall]
    exact .pure ⟨fun h => hop ▸ h, fun _ => rfl⟩
  | some op =>
    cases call with
    | test =>
      exact (test_returns req).bind fun _ _ => .pure ⟨fun _ => rfl, fun h => absurd trivial h⟩
    | wait fuel =>
      exact (wait_returns fuel req).bind fun _ _ => .pure ⟨fun _ => rfl, fun h => absurd trivial h⟩
    | result T => exact .pure ⟨fun _ => rfl, fun _ => rfl⟩

/-- `init` comes back, and leaves the lock alone when a state is stored. -/
theorem init_returns (collectives : Bool) (l : Lock) :
    (init collectives l).Returns fun p => l.state.isSome → p.2 = l := by
  obtain ⟨poisoned, state⟩ := l
  cases poisoned with
  | true => exact .pure fun _ => rfl
  | false =>
    cases state with
    | some state => exact .pure fun _ => rfl
    | none =>
      refine (Prog.yields_true connect).reify_returns.bind fun o _ => ?_
      cases o with
      | ok state =>
        cases collectives with
        | true =>
          refine Prog.Returns.bind (R := fun _ => True) ?_ fun _ _ => .pure fun h => by cases h
          refine (Prog.yields_true (Runtime.new _ _ _)).reify_returns.bind fun o _ => ?_
          cases o with
          | ok runtime => exact .pure trivial
          | err e => exact .call fun _ => .pure trivial
          | panic => exact .pure trivial
          | pending => exact .pure trivial
        | false => exact .pure fun h => by cases h
      | err e => exact .pure fun h => by cases h
      | panic => exact .pure fun h => by cases h
      | pending => exact .pure fun h => by cases h

/-- `finalize` comes back, and takes the state if it can get at one. -/
theorem finalize_returns (l : Lock) :
    (finalize l).Returns fun p => ((l.poisoned = true ∨ l.state = none) ∧ p.2 = l) ∨
      (l.poisoned = false ∧ p.2.state = none) := by
  obtain ⟨poisoned, state⟩ := l
  cases poisoned with
  | true => exact .pure (Or.inl ⟨Or.inl rfl, rfl⟩)
  | false =>
    cases state with
    | none => exact .pure (Or.inl ⟨Or.inr rfl, rfl⟩)
    | some state => exact .call fun _ => .pure (Or.inr ⟨rfl, rfl⟩)

/-- A call does one of the things a step can do. -/
theorem exec_returns (h : Held) (c : TeamCall) :
    (c.exec ne nm h).Returns fun p => TeamStep h c p.2 := by
  cases c with
  | init =>
    refine (init_returns true h.lock).bind ?_
    rintro ⟨o, l⟩ hl
    refine .pure ?_
    cases hstate : h.lock.state with
    | none => exact .started hstate l
    | some state =>
      obtain rfl : l = h.lock := hl (hstate ▸ rfl)
      exact .again (hstate ▸ rfl)
  | finalize =>
    refine (finalize_returns h.lock).bind ?_
    rintro ⟨o, l⟩ (⟨hidle, hl⟩ | ⟨hlock, hl⟩)
    · obtain rfl : l = h.lock := hl
      exact .pure (.idle hidle)
    · exact .pure (.taken hlock l hl)
  | post call =>
    refine (post_yields_stored ne h.lock call).reify_returns.bind fun o ho => .pure ?_
    -- whatever it was that kept the request from being made
    have hnone : ∀ o : Outcome Error CollectiveRequest, issuedBy h.runtimes o = [] →
        TeamStep h (.post call) { h with
          lock := h.lock.release h.lock.state o
          issued := h.issued ++ issuedBy h.runtimes o } := by
      intro o hissued
      rw [hissued, List.append_nil]
      exact .refused call _ rfl
    cases o with
    | ok req =>
      refine .posted call req _ rfl ?_
      obtain ⟨runtime, hruntime⟩ := Option.isSome_iff_exists.mp (ho req rfl)
      rw [Held.stored, hruntime]
      rfl
    | err e => exact hnone _ rfl
    | panic => exact hnone _ rfl
    | pending => exact hnone _ rfl
  | poll i call =>
    rw [TeamCall.exec]
    split
    · next hi => exact .pure (.absent i call hi)
    · next s hi =>
      refine (call_returns ne nm s.req call).bind ?_
      rintro ⟨a, req⟩ ⟨hop, hkept⟩
      exact .pure (.polled i call s hi req hop hkept)

/-- A poll of a request that has its operation asks UCC about it before it can
fail. -/
theorem poll_touches {req : CollectiveRequest} (hop : req.op.isSome) {call : RequestCall}
    (hcall : call.Polls) :
    (req.call ne nm call).Records touchNote fun p t =>
      (∃ e, p.1.outcome = .err e) → t ≠ [] := by
  obtain ⟨op, hop⟩ := Option.isSome_iff_exists.mp hop
  have hany : ∀ {α : Type} (m : Fn α), m.Records touchNote fun _ _ => True :=
    fun m => (Prog.yields_true m).records
  cases call with
  | test =>
    simp only [CollectiveRequest.call, CollectiveRequest.test, hop, Fn.ucc_bind, Prog.call_bind]
    exact Prog.Records.call fun reading => (hany _).mono fun _ _ _ _ => List.cons_ne_nil _ _
  | wait fuel =>
    cases fuel with
    | zero => exact Prog.Records.pure fun h => by cases h.choose_spec
    | succ fuel =>
      simp only [CollectiveRequest.call, CollectiveRequest.wait, CollectiveRequest.test, hop,
        Fn.ucc_bind, Prog.call_bind]
      exact Prog.Records.call fun reading => (hany _).mono fun _ _ _ _ => List.cons_ne_nil _ _
  | result T => exact hcall.elim

end Steps

/-! ## The law of a run -/

/-- The `i`-th request is `s`, and it still has its operation. -/
def Held.Open (h : Held) (i : ℕ) (s : Issued) : Prop := h.issued[i]? = some s ∧ s.req.op.isSome

/-- The request refuses: an error, and UCC is not asked. -/
def Refuses (output : Outcome Error Unit × List UccCall) : Prop :=
  (∃ e, output.1 = .err e) ∧ output.2 = []

section Law

variable (ne : Endian) (nm : NoMessage) {W : Type} (handler : Prog.Handler Ext W) (w : W)

/-- Whenever an open request is polled, the `Runtime` it was posted on is the one
that is stored, or else the request refuses. -/
def TeamsOutlive (calls : List TeamCall) : Prop :=
  ∀ before i call after, calls = before ++ .poll i call :: after → call.Polls →
    let p := (teamMachine ne nm handler).final (.start, w) before
    ∀ s, p.1.Open i s → p.1.stored = some s.runtime ∨
      Refuses ((teamMachine ne nm handler).step p (.poll i call)).1

/-- No request that a `finalize` finds open on the `Runtime` it takes is polled
afterwards. -/
def FinalizesLast (calls : List TeamCall) : Prop :=
  ∀ before after, calls = before ++ .finalize :: after →
    let p := (teamMachine ne nm handler).final (.start, w) before
    p.1.lock.poisoned = false → ∀ i s, p.1.Open i s → p.1.stored = some s.runtime →
      ∀ call : RequestCall, call.Polls → .poll i call ∉ after

end Law

/-! ### One step -/

/-- What is stored is a matter of the lock. -/
theorem Held.stored_post (h : Held) {l : Lock} (hl : l.state = h.lock.state)
    (issued : List Issued) : (Held.mk l h.runtimes issued).stored = h.stored := by
  rw [stored, stored, hl]

theorem Held.stored_none {h : Held} (hstate : h.lock.state = none) : h.stored = none := by
  rw [stored, hstate]
  rfl

/-- An open request is on the stored `Runtime`, or it was open before. -/
theorem TeamStep.open_before {h h' : Held} {c : TeamCall} (hstep : TeamStep h c h') {i : ℕ}
    {s' : Issued} (hopen : h'.Open i s') :
    h'.stored = some s'.runtime ∨ ∃ s, h.Open i s ∧ s.runtime = s'.runtime := by
  obtain ⟨hi', hop'⟩ := hopen
  cases hstep with
  | again | started | idle | taken | refused | absent => exact Or.inr ⟨s', ⟨hi', hop'⟩, rfl⟩
  | posted call req l hl hstored =>
    rcases Nat.lt_trichotomy i h.issued.length with hlt | rfl | hgt
    · exact Or.inr ⟨s', ⟨(List.getElem?_append_left hlt).symm.trans hi', hop'⟩, rfl⟩
    · rw [List.getElem?_concat_length] at hi'
      obtain rfl := Option.some.inj hi'
      exact Or.inl ((h.stored_post hl _).trans hstored)
    · rw [List.getElem?_eq_none (by simpa using hgt)] at hi'
      cases hi'
  | polled j call s hj req hop hkept =>
    by_cases hij : j = i
    · subst hij
      have hlt := (List.getElem?_eq_some_iff.mp hj).1
      rw [List.getElem?_set_self hlt] at hi'
      obtain rfl := Option.some.inj hi'
      exact Or.inr ⟨s, ⟨hj, hop hop'⟩, rfl⟩
    · rw [List.getElem?_set_ne hij] at hi'
      exact Or.inr ⟨s', ⟨hi', hop'⟩, rfl⟩

/-- Only a `finalize` that gets at the state drops the stored `Runtime`. -/
theorem TeamStep.stored_kept {h h' : Held} {c : TeamCall} (hstep : TeamStep h c h') {k : ℕ}
    (hk : h.stored = some k) (hc : ¬ (c = .finalize ∧ h.lock.poisoned = false)) :
    h'.stored = some k := by
  cases hstep with
  | again | idle | absent | polled => exact hk
  | started hstate l =>
    rw [Held.stored_none hstate] at hk
    cases hk
  | taken hlock l hl => exact absurd ⟨rfl, hlock⟩ hc
  | refused call l hl => exact (h.stored_post hl _).trans hk
  | posted call req l hl hstored => exact (h.stored_post hl _).trans hk

/-- The `i`-th request is open on a `Runtime` that is gone, for good: no later one
has its number. -/
def Held.Lost (h : Held) (i : ℕ) : Prop :=
  ∃ s, h.Open i s ∧ h.stored ≠ some s.runtime ∧ s.runtime ≤ h.runtimes

/-- It stays so until it is polled. -/
theorem TeamStep.lost {h h' : Held} {c : TeamCall} (hstep : TeamStep h c h') {i : ℕ}
    (hlost : h.Lost i) (hc : ∀ call, c = .poll i call → ¬ call.Polls) : h'.Lost i := by
  obtain ⟨s, ⟨hi, hop⟩, hgone, hle⟩ := hlost
  cases hstep with
  | again | idle | absent => exact ⟨s, ⟨hi, hop⟩, hgone, hle⟩
  | started hstate l =>
    refine ⟨s, ⟨hi, hop⟩, fun hnow => ?_, Nat.le_succ_of_le hle⟩
    -- a new `Runtime` has a number of its own
    obtain ⟨_, -, hnumber⟩ := Option.map_eq_some_iff.mp hnow
    exact absurd hle (hnumber ▸ Nat.not_succ_le_self _)
  | taken hlock l hl =>
    refine ⟨s, ⟨hi, hop⟩, ?_, hle⟩
    rw [Held.stored_none hl]
    exact Option.some_ne_none _ |>.symm
  | refused call l hl =>
    exact ⟨s, ⟨hi, hop⟩, (h.stored_post hl _).trans_ne hgone, hle⟩
  | posted call req l hl hstored =>
    have hlt := (List.getElem?_eq_some_iff.mp hi).1
    exact ⟨s, ⟨(List.getElem?_append_left hlt).trans hi, hop⟩,
      (h.stored_post hl _).trans_ne hgone, hle⟩
  | polled j call s' hj req hop' hkept =>
    by_cases hij : j = i
    · subst hij
      obtain rfl : s' = s := Option.some.inj (hj.symm.trans hi)
      have hlt := (List.getElem?_eq_some_iff.mp hi).1
      obtain rfl : req = s'.req := hkept (hc call rfl)
      exact ⟨s', ⟨List.getElem?_set_self hlt, hop⟩, hgone, hle⟩
    · exact ⟨s, ⟨(List.getElem?_set_ne hij).trans hi, hop⟩, hgone, hle⟩

/-- Requests are numbered by `Runtime`s there have been. -/
def Held.Numbered (h : Held) : Prop := ∀ s ∈ h.issued, s.runtime ≤ h.runtimes

theorem TeamStep.numbered {h h' : Held} {c : TeamCall} (hstep : TeamStep h c h')
    (hnum : h.Numbered) : h'.Numbered := by
  cases hstep with
  | again | idle | taken | refused | absent => exact hnum
  | started hstate l => exact fun s hs => Nat.le_succ_of_le (hnum s hs)
  | posted call req l hl hstored =>
    intro s hs
    rcases List.mem_append.mp hs with hs | hs
    · exact hnum s hs
    · obtain rfl := List.mem_singleton.mp hs
      exact le_rfl
  | polled j call s hj req hop hkept =>
    intro s' hs'
    rcases List.mem_or_eq_of_mem_set hs' with hs' | rfl
    · exact hnum s' hs'
    · exact hnum s (List.mem_of_getElem? hj)

/-- A `finalize` that gets at the state loses what is open on its `Runtime`. -/
theorem TeamStep.finalize_loses {h h' : Held} (hstep : TeamStep h .finalize h')
    (hlock : h.lock.poisoned = false) (hnum : h.Numbered) {i : ℕ} {s : Issued} (hopen : h.Open i s)
    (hstored : h.stored = some s.runtime) : h'.Lost i := by
  cases hstep with
  | idle hidle =>
    rcases hidle with hpoisoned | hstate
    · rw [hlock] at hpoisoned
      cases hpoisoned
    · rw [Held.stored_none hstate] at hstored
      cases hstored
  | taken _ l hl =>
    refine ⟨s, hopen, ?_, hnum s (List.mem_of_getElem? hopen.1)⟩
    rw [Held.stored_none hl]
    exact Option.some_ne_none _ |>.symm

/-! ### Runs -/

section Runs

variable (ne : Endian) (nm : NoMessage) {W : Type} (handler : Prog.Handler Ext W) (w : W)

/-- A step is a run of its call. -/
theorem teamMachine_run (p : Held × W) (c : TeamCall) :
    ∃ q, ((c.exec ne nm p.1).run (handler.noting touchNote) (p.2, [])).1 = .ok q ∧
      TeamStep p.1 c q.2 ∧ ((teamMachine ne nm handler).step p c).2.1 = q.2 ∧
      ((teamMachine ne nm handler).step p c).1 =
        (q.1, ((c.exec ne nm p.1).run (handler.noting touchNote) (p.2, [])).2.2) := by
  obtain ⟨q, hq, hstep⟩ :=
    (exec_returns ne nm p.1 c).run (handler.noting touchNote) (p.2, [])
  refine ⟨q, hq, hstep, ?_⟩
  rw [teamMachine]
  dsimp only
  generalize (c.exec ne nm p.1).run (handler.noting touchNote) (p.2, []) = ran at hq ⊢
  obtain ⟨o, w', touched⟩ := ran
  obtain rfl : o = .ok q := hq
  exact ⟨rfl, rfl⟩

theorem teamMachine_step (p : Held × W) (c : TeamCall) :
    TeamStep p.1 c ((teamMachine ne nm handler).step p c).2.1 := by
  obtain ⟨q, -, hstep, hheld, -⟩ := teamMachine_run ne nm handler p c
  rwa [hheld]

/-- A request that has its operation never refuses a poll. -/
theorem not_refuses {p : Held × W} {i : ℕ} {s : Issued} (hopen : p.1.Open i s)
    {call : RequestCall} (hcall : call.Polls) :
    ¬ Refuses ((teamMachine ne nm handler).step p (.poll i call)).1 := by
  obtain ⟨hi, hop⟩ := hopen
  have hexec : (TeamCall.exec ne nm p.1 (.poll i call)).Records touchNote fun q t =>
      (∃ e, q.1 = .err e) → t ≠ [] := by
    rw [TeamCall.exec, hi]
    refine (poll_touches ne nm hop hcall).bind fun q t hq => .pure fun he => ?_
    rw [List.append_nil]
    exact hq he
  obtain ⟨q, hq, -, -, houtput⟩ :=
    teamMachine_run ne nm handler p (.poll i call)
  rw [houtput]
  exact fun ⟨hfails, hsilent⟩ => hexec.run hq hfails hsilent

/-- An open request whose `Runtime` is gone lost it to a `finalize`. -/
theorem lost_to_finalize (calls : List TeamCall) :
    ∀ i s', ((teamMachine ne nm handler).final (.start, w) calls).1.Open i s' →
      ((teamMachine ne nm handler).final (.start, w) calls).1.stored ≠ some s'.runtime →
      ∃ before after s, calls = before ++ .finalize :: after ∧
        ((teamMachine ne nm handler).final (.start, w) before).1.lock.poisoned = false ∧
        ((teamMachine ne nm handler).final (.start, w) before).1.Open i s ∧
        ((teamMachine ne nm handler).final (.start, w) before).1.stored = some s.runtime := by
  induction calls using List.reverseRecOn with
  | nil => exact fun i s' hopen => by cases hopen.1
  | append_singleton calls c ih =>
    intro i s' hopen hgone
    have hlast : (teamMachine ne nm handler).final (.start, w) (calls ++ [c]) =
        ((teamMachine ne nm handler).step ((teamMachine ne nm handler).final (.start, w) calls)
          c).2 :=
      Machine.final_append _ _ _
    rw [hlast] at hopen hgone
    have hstep := teamMachine_step ne nm handler
      ((teamMachine ne nm handler).final (.start, w) calls) c
    obtain hstored | ⟨s, hs, hruntime⟩ := hstep.open_before hopen
    · exact absurd hstored hgone
    · by_cases hnow : ((teamMachine ne nm handler).final (.start, w) calls).1.stored =
          some s.runtime
      · -- it was stored up to here, so the last call took it
        by_cases hc : c = .finalize ∧
            ((teamMachine ne nm handler).final (.start, w) calls).1.lock.poisoned = false
        · obtain ⟨rfl, hlock⟩ := hc
          exact ⟨calls, [], s, rfl, hlock, hs, hnow⟩
        · exact absurd (hruntime ▸ hstep.stored_kept hnow hc) hgone
      · obtain ⟨before, after, s₀, rfl, hrest⟩ := ih i s hs hnow
        exact ⟨before, after ++ [c], s₀, by rw [List.append_assoc, List.cons_append], hrest⟩

/-- A lost request that is polled is polled for a first time while it is lost. -/
theorem first_poll {i : ℕ} {call : RequestCall} (hcall : call.Polls) :
    ∀ (calls : List TeamCall) (p : Held × W), p.1.Lost i → .poll i call ∈ calls →
      ∃ before call' after, calls = before ++ .poll i call' :: after ∧ call'.Polls ∧
        ((teamMachine ne nm handler).final p before).1.Lost i := by
  intro calls
  induction calls with
  | nil => exact fun p _ hmem => absurd hmem List.not_mem_nil
  | cons c calls ih =>
    intro p hlost hmem
    by_cases hc : ∃ call', c = .poll i call' ∧ call'.Polls
    · obtain ⟨call', rfl, hcall'⟩ := hc
      exact ⟨[], call', calls, rfl, hcall', hlost⟩
    · have hnot : ∀ call', c = .poll i call' → ¬ call'.Polls :=
        fun call' h hpolls => hc ⟨call', h, hpolls⟩
      have hmem : .poll i call ∈ calls :=
        (List.mem_cons.mp hmem).resolve_left fun h => hnot call h.symm hcall
      have hnext := (teamMachine_step ne nm handler p c).lost hlost hnot
      obtain ⟨before, call', after, rfl, hcall', hthen⟩ := ih _ hnext hmem
      exact ⟨c :: before, call', after, rfl, hcall', hthen⟩

theorem numbered_run (calls : List TeamCall) :
    ((teamMachine ne nm handler).final (.start, w) calls).1.Numbered :=
  Machine.invariant (M := teamMachine ne nm handler) (I := fun p => p.1.Numbered)
    (fun p c hp => (teamMachine_step ne nm handler p c).numbered hp) calls (.start, w)
    fun _ hs => absurd hs List.not_mem_nil

/-- **When requests outlive their team**: in every run, each poll of an open
request finds the `Runtime` it was posted on stored (none ever refuses) if and
only if no request that a `finalize` finds open on the `Runtime` it takes is
polled afterwards. -/
theorem teams_outlive_iff (calls : List TeamCall) :
    TeamsOutlive ne nm handler w calls ↔ FinalizesLast ne nm handler w calls := by
  constructor
  · intro houtlive before after hcalls p hlock i s hopen hstored call hcall hmem
    -- the `finalize` loses the request
    have hlost : ((teamMachine ne nm handler).final (.start, w) (before ++ [.finalize])).1.Lost i := by
      rw [Machine.final_append]
      exact (teamMachine_step ne nm handler p .finalize).finalize_loses hlock (numbered_run ne nm handler w before) hopen hstored
    obtain ⟨before', call', after', rfl, hcall', s', hopen', hgone, -⟩ :=
      first_poll ne nm handler hcall after _ hlost hmem
    have hsplit : calls = (before ++ [.finalize] ++ before') ++ .poll i call' :: after' := by
      rw [hcalls, List.append_assoc, List.append_assoc, List.singleton_append]
    rw [← Machine.final_append] at hopen' hgone
    rcases houtlive _ i call' after' hsplit hcall' s' hopen' with hkept | hrefuses
    · exact hgone hkept
    · exact not_refuses ne nm handler hopen' hcall' hrefuses
  · intro hlast before i call after hcalls hcall p s hopen
    by_contra hnot
    obtain ⟨hgone, -⟩ := not_or.mp hnot
    obtain ⟨before₀, after₀, s₀, rfl, hlock, hopen₀, hstored⟩ := lost_to_finalize ne nm handler w before i s hopen hgone
    refine hlast before₀ (after₀ ++ .poll i call :: after) ?_ hlock i s₀ hopen₀ hstored call hcall ?_
    · rw [hcalls, List.append_assoc, List.cons_append]
    · simp

/-- A barrier is posted, the process finalizes, and the barrier is tested: UCC is
asked about an operation whose team was dropped. -/
theorem request_outlives_team :
    ¬ ∀ (ne : Endian) (nm : NoMessage) (W : Type) (handler : Prog.Handler Ext W) (w : W)
        (calls : List TeamCall), TeamsOutlive ne nm handler w calls := by
  intro h
  have htest : RequestCall.test.Polls := trivial
  have hopen : Held.Open ((teamMachine .little noMessageMinusSix (accommodating 4096)).final
      (.start, ()) [.init, .post .barrier, .finalize]).1 0 ⟨1, barrierRequest⟩ := ⟨rfl, rfl⟩
  rcases h .little noMessageMinusSix Unit (accommodating 4096) ()
    [.init, .post .barrier, .finalize, .poll 0 .test] [.init, .post .barrier, .finalize] 0 .test []
    rfl htest ⟨1, barrierRequest⟩ hopen with hkept | hrefuses
  · cases hkept
  · exact not_refuses _ _ _ hopen htest hrefuses

end Runs

end OpenShmem
