import OpenShmem.Lifecycle

/-!
# Closing sessions

`finalize` should report success only when the session is closed, and keep the
state when it is not, so that it can be called again. A process makes any
sequence of `init` and `finalize` calls here, and PMIx answers every disconnect
as it likes. `finalize` takes the state before it asks for the disconnect, so the
two laws hold of exactly the runs in which no disconnect of `finalize` fails.
-/

namespace OpenShmem

/-! ## Runs -/

/-- What PMIx answers about sessions. -/
inductive SessionAnswer : Type where
  /-- `connect_new` opened a session -/
  | opened (client : PmixClient)
  /-- `disconnect` closed it -/
  | closed (client : PmixClient)
  /-- `disconnect` failed -/
  | kept (client : PmixClient)
  deriving DecidableEq, Repr

def answerNote : Prog.Note Ext SessionAnswer
  | .pmix .connectNew, .ok client => [.opened client]
  | .pmix (.disconnect client), .ok () => [.closed client]
  | .pmix (.disconnect client), .error _ => [.kept client]
  | _, _ => []

/-- A call of the lifecycle. -/
inductive LifeCall : Type where
  | init
  | finalize
  deriving DecidableEq, Repr

/-- The function it names. -/
def LifeCall.exec (collectives : Bool) (l : Lock) : LifeCall → Fn (Outcome Error Unit × Lock)
  | init => OpenShmem.init collectives l
  | finalize => OpenShmem.finalize l

/-- A call as it went. -/
structure LifeRecord : Type where
  call : LifeCall
  /-- the stored state before it -/
  found : Lock
  outcome : Outcome Error Unit
  answers : List SessionAnswer
  /-- the stored state after it -/
  left : Lock

/-- A process making lifecycle calls. Its state is the lock and the world of the
environment. -/
def lifeMachine (collectives : Bool) {W : Type} (handler : Prog.Handler Ext W) :
    Machine (Lock × W) LifeCall LifeRecord where
  step s c :=
    match (c.exec collectives s.1).run (handler.noting answerNote) (s.2, []) with
    | (.ok (o, lock), w, answers) => (⟨c, s.1, o, answers, lock⟩, lock, w)
    | (.err e, w, answers) => (⟨c, s.1, .err e, answers, s.1⟩, s.1, w)
    | (.panic, w, answers) => (⟨c, s.1, .panic, answers, s.1⟩, s.1, w)
    | (.pending, w, answers) => (⟨c, s.1, .pending, answers, s.1⟩, s.1, w)

/-- What the calls of a run were, from the start of the process. -/
def lifeHistory (collectives : Bool) {W : Type} (handler : Prog.Handler Ext W) (w : W)
    (calls : List LifeCall) : List LifeRecord :=
  (lifeMachine collectives handler).outputs (.initial, w) calls

/-! ## The laws -/

namespace LifeRecord

/-- An `init` that returned `Ok` and opened this session. -/
def Opens (r : LifeRecord) (client : PmixClient) : Prop :=
  r.call = .init ∧ r.outcome = .ok () ∧ .opened client ∈ r.answers

/-- This session was disconnected with success. -/
def Closes (r : LifeRecord) (client : PmixClient) : Prop := .closed client ∈ r.answers

/-- A `finalize` whose disconnect failed. -/
def FailsToClose (r : LifeRecord) : Prop :=
  r.call = .finalize ∧ ∃ client, .kept client ∈ r.answers

end LifeRecord

/-- `finalize` reports success only for closed sessions, and keeps the state
otherwise. -/
structure TruthfulClosing (history : List LifeRecord) : Prop where
  /-- after `Ok`, every session opened before has been closed since -/
  closed : ∀ before q mid r after, history = before ++ q :: mid ++ r :: after →
    r.call = .finalize → r.outcome = .ok () →
      ∀ client, q.Opens client → ∃ d ∈ mid ++ [r], d.Closes client
  /-- after an `Err` because the disconnect failed, the state is as before -/
  kept : ∀ r ∈ history, r.FailsToClose → (∃ e, r.outcome = .err e) → r.left = r.found

/-! ## What one call can do -/

/-- Everything `init` can do, as far as sessions go: it is refused, it stores the
state of the session it opened, or it finds nothing and does not return `Ok`. -/
inductive InitStep : Lock → Outcome Error Unit → List SessionAnswer → Lock → Prop where
  | refused {l : Lock} {e : Error} : InitStep l (.err e) [] l
  | stored (state : ShmemState) {t : List SessionAnswer}
    (ht : ∀ client, .opened client ∈ t → client = state.client) :
    InitStep .initial (.ok ()) t (.holding state)
  | failed {o : Outcome Error Unit} {t : List SessionAnswer} {l : Lock} (ho : o ≠ .ok ()) :
    InitStep .initial o t l

/-- Everything `finalize` can do. -/
inductive FinalizeStep : Lock → Outcome Error Unit → List SessionAnswer → Lock → Prop where
  | idle : FinalizeStep .initial (.ok ()) [] .initial
  | poisoned {l : Lock} {e : Error} : FinalizeStep l (.err e) [] l
  | closed (state : ShmemState) :
    FinalizeStep (.holding state) (.ok ()) [.closed state.client] .initial
  | kept (state : ShmemState) (e : Error) :
    FinalizeStep (.holding state) (.err e) [.kept state.client] .initial

/-- What is to be shown of the tree of a call. -/
def Follows (S : Outcome Error Unit → List SessionAnswer → Lock → Prop)
    (m : Fn (Outcome Error Unit × Lock)) : Prop :=
  m.Leaves answerNote fun r t => ∃ o l, r = .ok (o, l) ∧ S o t l

/-- The session event of an answer, which does not say how a disconnect went. -/
def SessionAnswer.event : SessionAnswer → SessionEvent
  | opened client => .opened client
  | closed client => .closed client
  | kept client => .closed client

theorem sessionNote_eq (c : ExtCall) (r : c.Reply) :
    sessionNote c r = (answerNote c r).map SessionAnswer.event := by
  cases c with
  | pmix c =>
    cases c with
    | connectNew => cases r <;> rfl
    | disconnect client => cases r <;> rfl
    | _ => rfl
  | ucx c => rfl
  | ucc c => rfl
  | sys c => rfl

theorem init_follows (collectives : Bool) (l : Lock) : Follows (InitStep l) (init collectives l) := by
  obtain ⟨_ | _, state⟩ := l
  · cases state with
    | none =>
      have hdoes : (init collectives .initial).Leaves sessionNote fun r t => ∃ o l,
          r = .ok (o, l) ∧ (o ≠ .panic → l.poisoned = false ∧
            Effect .little collectives .init none o t l.state) := does_init
      refine (hdoes.of_map sessionNote_eq).mono ?_
      rintro _ t ⟨o, ⟨poisoned, left⟩, rfl, heffect⟩
      refine ⟨o, _, rfl, ?_⟩
      by_cases ho : o = .ok ()
      · subst ho
        obtain ⟨rfl, heffect⟩ := heffect (by simp)
        dsimp only at heffect
        generalize hevents : t.map SessionAnswer.event = events at heffect
        cases heffect with
        | stored state hruntime =>
          refine .stored state fun client hclient => ?_
          have hmem := List.mem_map_of_mem (f := SessionAnswer.event) hclient
          rw [hevents] at hmem
          cases List.mem_singleton.mp hmem
          rfl
        | aside found hc ho => exact absurd rfl hc.1
      · exact .failed ho
    | some state => exact ⟨_, _, rfl, .refused⟩
  · exact ⟨_, _, rfl, .refused⟩

theorem finalize_follows (l : Lock) : Follows (FinalizeStep l) (finalize l) := by
  obtain ⟨_ | _, state⟩ := l
  · cases state with
    | none => exact ⟨_, _, rfl, .idle⟩
    | some state =>
      intro answer
      cases answer with
      | ok u => exact ⟨_, _, rfl, .closed state⟩
      | error e => exact ⟨_, _, rfl, .kept state _⟩
  · exact ⟨_, _, rfl, .poisoned⟩

section Runs

variable {collectives : Bool} {W : Type} {handler : Prog.Handler Ext W}

/-- What a call can do. -/
def CallStep : LifeCall → Lock → Outcome Error Unit → List SessionAnswer → Lock → Prop
  | .init => InitStep
  | .finalize => FinalizeStep

theorem exec_follows (collectives : Bool) (l : Lock) (c : LifeCall) :
    Follows (CallStep c l) (c.exec collectives l) := by
  cases c with
  | init => exact init_follows collectives l
  | finalize => exact finalize_follows l

/-- What a record says: the call did what it can do. -/
def LifeRecord.Sound (r : LifeRecord) : Prop :=
  CallStep r.call r.found r.outcome r.answers r.left

/-- One step: its record is sound, and says what was found and what is left. -/
theorem lifeStep (collectives : Bool) (handler : Prog.Handler Ext W) (s : Lock × W)
    (c : LifeCall) :
    let p := (lifeMachine collectives handler).step s c
    p.1.Sound ∧ p.1.found = s.1 ∧ p.1.left = p.2.1 := by
  obtain ⟨t, ht, o, l, hrun, hstep⟩ := (exec_follows collectives s.1 c).run handler s.2 []
  rw [List.nil_append] at ht
  dsimp only [lifeMachine]
  generalize (c.exec collectives s.1).run (handler.noting answerNote) (s.2, []) = ran at ht hrun
  obtain ⟨o', w, answers⟩ := ran
  obtain rfl : o' = .ok (o, l) := hrun
  obtain rfl : answers = t := ht
  exact ⟨hstep, rfl, rfl⟩

/-- Every record of a run is that of a step. -/
theorem sound_of_mem (s : Lock × W) {calls : List LifeCall} {r : LifeRecord}
    (hr : r ∈ (lifeMachine collectives handler).outputs s calls) : r.Sound := by
  obtain ⟨before, after, h⟩ := List.append_of_mem hr
  obtain ⟨js, c, -, rfl⟩ := Machine.outputs_eq_append h
  exact (lifeStep collectives handler _ c).1

/-! ## Runs without a failed disconnect -/

/-- Every session that an `init` returned `Ok` for is closed, or is the one of
the stored state. -/
def Covered (history : List LifeRecord) (l : Lock) : Prop :=
  ∀ before q mid, history = before ++ q :: mid → ∀ client, q.Opens client →
    (∃ d ∈ mid, d.Closes client) ∨ l.state.map ShmemState.client = some client

/-- One call keeps sessions covered, unless it is a `finalize` whose disconnect
fails. -/
theorem Covered.step {history : List LifeRecord} {r : LifeRecord} (h : Covered history r.found)
    (hstep : r.Sound) (hfine : ¬ r.FailsToClose) :
    Covered (history ++ [r]) r.left := by
  obtain ⟨call, found, o, answers, left⟩ := r
  intro before q mid hsplit client hq
  obtain rfl | ⟨mid, last, rfl⟩ := List.eq_nil_or_concat' mid
  · -- the last call opened the session
    obtain ⟨rfl, hlast⟩ := List.append_inj' hsplit rfl
    obtain rfl := (List.cons.inj hlast).1
    obtain ⟨rfl, rfl, hopened⟩ := hq
    cases hstep with
    | stored state ht => exact Or.inr (congrArg some (ht client hopened).symm)
    | failed ho => exact absurd rfl ho
  · -- an earlier call did, and the last one came after it
    rw [← List.cons_append, ← List.append_assoc] at hsplit
    obtain ⟨rfl, hlast⟩ := List.append_inj' hsplit rfl
    obtain rfl := (List.cons.inj hlast).1
    obtain ⟨d, hd, hcloses⟩ | hstored := h before q mid rfl client hq
    · exact Or.inl ⟨d, List.mem_append_left _ hd, hcloses⟩
    cases call with
    | init =>
      cases hstep with
      | refused => exact Or.inr hstored
      | stored state ht => cases hstored
      | failed ho => cases hstored
    | finalize =>
      cases hstep with
      | idle => cases hstored
      | poisoned => exact Or.inr hstored
      | closed state =>
        obtain rfl := Option.some.inj hstored
        exact Or.inl ⟨_, List.mem_concat_self, List.mem_singleton_self _⟩
      | kept state e => exact absurd ⟨rfl, state.client, List.mem_singleton_self _⟩ hfine

/-- And so of whole runs. -/
theorem covered_of_fine (w : W) (calls : List LifeCall)
    (hfine : ∀ r ∈ lifeHistory collectives handler w calls, ¬ r.FailsToClose) :
    Covered (lifeHistory collectives handler w calls)
      ((lifeMachine collectives handler).final (.initial, w) calls).1 := by
  induction calls using List.reverseRecOn with
  | nil =>
    intro before q mid h
    simp [lifeHistory] at h
  | append_singleton calls c ih =>
    rw [lifeHistory, Machine.outputs_append] at hfine ⊢
    have hbefore := ih fun r hr => hfine r (List.mem_append_left _ hr)
    obtain ⟨hsound, hfound, hleft⟩ :=
      lifeStep collectives handler ((lifeMachine collectives handler).final (.initial, w) calls) c
    rw [← hfound] at hbefore
    rw [Machine.final_append]
    have hlast := hfine _ (List.mem_append_right _ (List.mem_singleton_self _))
    exact hleft ▸ hbefore.step hsound hlast

/-- A `finalize` that returns `Ok` on covered sessions leaves none open. -/
theorem Covered.finalize {history : List LifeRecord} {r : LifeRecord} (h : Covered history r.found)
    (hsound : r.Sound) (hcall : r.call = .finalize) (hok : r.outcome = .ok ())
    {before mid : List LifeRecord} {q : LifeRecord} (hsplit : history = before ++ q :: mid)
    {client : PmixClient} (hq : q.Opens client) : ∃ d ∈ mid ++ [r], d.Closes client := by
  obtain ⟨call, found, o, answers, left⟩ := r
  obtain rfl : call = .finalize := hcall
  obtain rfl : o = .ok () := hok
  obtain ⟨d, hd, hcloses⟩ | hstored := h before q mid hsplit client hq
  · exact ⟨d, List.mem_append_left _ hd, hcloses⟩
  · cases hsound with
    | idle => cases hstored
    | closed state =>
      obtain rfl := Option.some.inj hstored
      exact ⟨_, List.mem_concat_self, List.mem_singleton_self _⟩

/-- A `finalize` whose disconnect fails forgets the state. -/
theorem LifeRecord.Sound.forgets {r : LifeRecord} (hsound : r.Sound) (hfails : r.FailsToClose) :
    (∃ e, r.outcome = .err e) ∧ r.left ≠ r.found := by
  obtain ⟨call, found, o, answers, left⟩ := r
  obtain ⟨hcall, client, hkept⟩ := hfails
  obtain rfl : call = .finalize := hcall
  cases hsound with
  | idle => simp at hkept
  | poisoned => simp at hkept
  | closed state => simp at hkept
  | kept state e =>
    refine ⟨⟨e, rfl⟩, fun heq => ?_⟩
    cases heq

end Runs

/-! ## The result -/

/-- **When `finalize` tells the truth**: in a run of `init` and `finalize` calls,
however the environment answers, `Ok` from `finalize` means that every session
opened so far is closed, and a failed disconnect leaves the state for another
try, if and only if no disconnect that `finalize` asks for fails. -/
theorem finalize_truthful_iff (collectives : Bool) {W : Type} (handler : Prog.Handler Ext W) (w : W)
    (calls : List LifeCall) :
    TruthfulClosing (lifeHistory collectives handler w calls) ↔
      ∀ r ∈ lifeHistory collectives handler w calls, ¬ r.FailsToClose := by
  constructor
  · intro htruth r hr hfails
    obtain ⟨herr, hforgot⟩ := (sound_of_mem _ hr).forgets hfails
    exact hforgot (htruth.kept r hr hfails herr)
  · intro hfine
    refine ⟨?_, fun r hr hfails => absurd hfails (hfine r hr)⟩
    intro before q mid r after hsplit hcall hok client hq
    obtain ⟨js, c, hjs, rfl⟩ := Machine.outputs_eq_append hsplit
    obtain ⟨hsound, hfound, -⟩ :=
      lifeStep collectives handler ((lifeMachine collectives handler).final (.initial, w) js) c
    have hcovered : Covered (lifeHistory collectives handler w js) _ :=
      covered_of_fine w js fun r hr => hfine r (by
        rw [hsplit, ← hjs]
        exact List.mem_append_left _ hr)
    rw [← hfound] at hcovered
    exact hcovered.finalize hsound hcall hok hjs hq

/-- An environment in which all goes well but for disconnects, which fail. -/
def undisconnecting : Prog.Handler Ext Unit
  | .pmix (.disconnect _), w => (.error ⟨-1, none⟩, w)
  | c, w => accommodating 4096 c w

/-- After a `finalize` that failed, the next one says `Ok` of the session that is
still open. -/
theorem finalize_forgets_session :
    ¬ ∀ calls, TruthfulClosing (lifeHistory false undisconnecting () calls) := by
  intro h
  obtain ⟨d, hd, hcloses⟩ := (h [.init, .finalize, .finalize]).closed [] _ [_] _ [] rfl rfl rfl ⟨0⟩
    ⟨rfl, rfl, List.mem_singleton_self _⟩
  obtain rfl | rfl : d = _ ∨ d = _ := by simpa using hd
  · cases List.mem_singleton.mp hcloses
  · cases hcloses

end OpenShmem
