import OpenShmem.Coll
import OpenShmem.Puts

/-!
# Phases

What the library is used for: the PEs of a job put to each other, call `quiet`, and meet in
a barrier; after it everyone may get what was put before it. Nothing in the source says
so, as it comes of three parts: a PE makes its calls one after the other, a flush drains an
endpoint, and a UCC barrier completes nowhere before everyone has entered it.

The PEs make data calls and barriers over a `Fabric` and a `Team`, which says what is relied
on of UCC. A PE knows an operation by what `init` and the builder made of it, and the
environment may use a name again.
-/

namespace OpenShmem

/-! ## The team -/

/-- The barriers of a job. -/
structure Team (ι : Type) : Type where
  /-- how many barriers a PE has posted -/
  entered : ι → ℕ
  /-- which of its barriers an operation of a PE is -/
  round : ι × UccCollective → Option ℕ

namespace Team

variable {ι : Type} [DecidableEq ι] (t : Team ι) (i : ι)

def fresh : Team ι := ⟨fun _ => 0, fun _ => none⟩

/-- The team after a call of PE `i` has been answered: an operation that is posted is the
next barrier of its PE. -/
def after : (c : ExtCall) → c.Reply → Team ι
  | .ucc (.post op), .ok () =>
    { entered := Function.update t.entered i (t.entered i + 1)
      round := Function.update t.round (i, op) (some (t.entered i + 1)) }
  | _, _ => t

/-- What an answer says: when the status of a barrier is `UCC_OK`, every PE has entered
it. -/
def Allows : (c : ExtCall) → c.Reply → Prop
  | .ucc (.status op), (status, _) =>
    status = uccOk → ∀ r, t.round (i, op) = some r → ∀ j, r ≤ t.entered j
  | _, _ => True

theorem entered_post_self (op : UccCollective) :
    (t.after i (.ucc (.post op)) (.ok ())).entered i = t.entered i + 1 :=
  Function.update_self ..

theorem entered_post_of_ne {j : ι} (hj : j ≠ i) (op : UccCollective) :
    (t.after i (.ucc (.post op)) (.ok ())).entered j = t.entered j :=
  Function.update_of_ne hj ..

end Team

/-- What a barrier leaves on record. -/
inductive TeamEvent : Type where
  /-- the operation was posted -/
  | entered (op : UccCollective)
  /-- its status was `UCC_OK` -/
  | left (op : UccCollective)
  deriving DecidableEq

def TeamEvent.isEntered : TeamEvent → Bool
  | entered _ => true
  | left _ => false

def teamNote : Prog.Note Ext TeamEvent
  | .ucc (.post op), .ok () => [.entered op]
  | .ucc (.status op), (status, _) => if status = uccOk then [.left op] else []
  | _, _ => []

/-- PEs over a fabric that delivers when it likes, and in a team. -/
def phaseWorld {ι : Type} [DecidableEq ι] (lead : ι → Ep → ℕ) :
    Shared ι Ext (Fabric ι × Team ι) TeamEvent where
  Answers w i c x w' := (w.1.Allows lead i c x ∧ w'.1 = w.1.after i c x) ∧
    w.2.Allows i c x ∧ w'.2 = w.2.after i c x
  Drift w w' := (w.1.flight.Moves w'.1.flight ∧ w'.1.pending = w.1.pending) ∧ w'.2 = w.2
  note := teamNote

theorem phaseWorld_carries {ι : Type} [DecidableEq ι] (lead : ι → Ep → ℕ) :
    Carries lead (phaseWorld lead) Prod.fst :=
  ⟨fun h => h.1, fun h => h.1⟩

/-! ## The calls -/

/-- A data call or a barrier. -/
inductive PhaseCall : Type where
  | comm (call : CommCall)
  | barrier

namespace PhaseCall

/-- What the call returns: the bytes of a get, nothing otherwise. -/
def exec (ne : Endian) (nm : NoMessage) (fuel : ℕ) (l : Lock) : PhaseCall → Fn (List UInt8)
  | comm call => call.exec ne fuel l
  | barrier => do
    OpenShmem.barrier nm fuel l
    return []

def isBarrier : PhaseCall → Bool
  | comm _ => false
  | barrier => true

end PhaseCall

/-- How many of the calls are barriers. -/
def barriers (calls : List PhaseCall) : ℕ := calls.countP PhaseCall.isBarrier

theorem barriers_take_le {m n : ℕ} (h : m ≤ n) (calls : List PhaseCall) :
    barriers (calls.take m) ≤ barriers (calls.take n) :=
  (List.take_prefix_take_left h).sublist.countP_le

theorem barriers_cons (call : PhaseCall) (calls : List PhaseCall) :
    barriers (call :: calls) = barriers [call] + barriers calls := by
  rw [barriers, barriers, barriers, ← List.countP_append]
  rfl

/-- How many barriers are entered on record. -/
def entries (t : List TeamEvent) : ℕ := t.countP TeamEvent.isEntered

theorem entries_append (t u : List TeamEvent) : entries (t ++ u) = entries t + entries u :=
  List.countP_append

theorem entries_cons (op : UccCollective) (t : List TeamEvent) :
    entries (.entered op :: t) = entries t + 1 :=
  List.countP_cons_of_pos rfl

section Calls

variable {ne : Endian} {nm : NoMessage} {fuel : ℕ} {l : Lock}

/-- The wait for a barrier enters none, and if it returns it has left it. -/
theorem wait_leaves (op : UccCollective) (fuel : ℕ) :
    (wait nm op fuel).Leaves teamNote fun o t =>
      entries t = 0 ∧ ∀ a, o = .ok a → t = [.left op] := by
  induction fuel with
  | zero => exact ⟨rfl, fun _ h => by cases h⟩
  | succ fuel ih =>
    intro answer
    dsimp only [Prog.bind]
    by_cases hok : answer.1 = uccOk
    · have hnote : teamNote (.ucc (.status op)) answer = [.left op] := if_pos hok
      rw [hnote, if_pos hok]
      rintro (e | _)
      · exact ⟨rfl, fun _ h => by cases h⟩
      · exact ⟨rfl, fun _ _ => rfl⟩
    · have hnote : teamNote (.ucc (.status op)) answer = [] := if_neg hok
      rw [hnote, if_neg hok]
      split
      · exact ⟨rfl, fun _ h => by cases h⟩
      · exact fun _ => ih

/-- A barrier enters at most once, and if it returns it has entered and left. -/
def Passes {α : Type} (o : Outcome Error α) (t : List TeamEvent) : Prop :=
  entries t ≤ 1 ∧ ∀ a, o = .ok a → ∃ op, t = [.entered op, .left op]

theorem passes_of_ne_ok {α : Type} {o : Outcome Error α} (h : ∀ a, o ≠ .ok a) : Passes o [] :=
  ⟨Nat.zero_le _, fun a ha => absurd ha (h a)⟩

/-- Once it is posted, a barrier is waited for. -/
theorem posted_leaves (op : UccCollective) :
    (wait nm op fuel >>= fun _ => pure () : Fn Unit).Leaves teamNote fun o t =>
      Passes o (.entered op :: t) := by
  refine Prog.Leaves.bind ((wait_leaves op fuel).mono ?_)
  rintro (a | e | _ | _) t ⟨hcount, hok⟩
  · obtain rfl := hok a rfl
    exact ⟨le_rfl, fun _ _ => ⟨op, rfl⟩⟩
  all_goals exact ⟨by rw [entries_cons, hcount], fun _ h => by cases h⟩

theorem barrier_leaves : (PhaseCall.barrier.exec ne nm fuel l).Leaves teamNote Passes := by
  have hbarrier : (OpenShmem.barrier nm fuel l).Leaves teamNote Passes := by
    refine Prog.Leaves.done_bind (fun state _ => ?_) fun _ => passes_of_ne_ok
    refine Prog.Leaves.done_bind (fun runtime _ => ?_) fun _ => passes_of_ne_ok
    rintro (e | id)
    · exact passes_of_ne_ok fun _ h => by cases h
    · rintro (e | _)
      · exact passes_of_ne_ok fun _ h => by cases h
      · exact posted_leaves _
  refine Prog.Leaves.bind (hbarrier.mono ?_)
  rintro (a | e | _ | _) t ⟨hcount, hok⟩
  · obtain ⟨op, rfl⟩ := hok a rfl
    exact ⟨le_rfl, fun _ _ => ⟨op, rfl⟩⟩
  all_goals exact ⟨hcount, fun _ h => by cases h⟩

/-- A call into UCX. -/
def OnUcx : ExtCall → Prop
  | .ucx _ => True
  | _ => False

theorem waitRequest_onUcx (request : Request) (fuel : ℕ) :
    (UcxTransport.waitRequest request fuel).Sat OnUcx fun _ => True := by
  induction fuel with
  | zero => exact trivial
  | succ fuel ih =>
    refine ⟨trivial, fun polled => Fn.sat_orErr_bind (fun finished _ => ?_) fun _ _ => trivial⟩
    split
    · exact trivial
    · exact ih

theorem completeRequest_onUcx (request : Option Request) (fuel : ℕ) :
    (completeRequest fuel request).Sat OnUcx fun _ => True := by
  cases request with
  | none => exact trivial
  | some request => exact waitRequest_onUcx request fuel

theorem completeFetch_onUcx (request : Request) (fuel : ℕ) :
    (completeFetch request fuel).Sat OnUcx fun _ => True := by
  induction fuel with
  | zero => exact trivial
  | succ fuel ih =>
    refine ⟨trivial, fun polled => Fn.sat_orErr_bind (fun finished _ => ?_) fun _ _ => trivial⟩
    split
    · exact trivial
    · exact ⟨trivial, fun _ => ih⟩

theorem flushPeers_onUcx (peers : List PeerConnection) :
    (flushPeers fuel peers).Sat OnUcx fun _ => True := by
  induction peers with
  | nil => exact trivial
  | cons peer peers ih =>
    refine Prog.Sat.bind_any ⟨trivial, fun issued => ?_⟩ fun _ => ih
    exact Fn.sat_orErr_bind (fun r _ => completeRequest_onUcx r fuel) fun _ _ => trivial

theorem answered_onUcx (issued : Except Status (Option Request)) (fuel : ℕ) :
    (Fn.orErr issued Error.ofStatus >>= fun request => completeRequest fuel request).Sat OnUcx
      fun _ => True :=
  Fn.sat_orErr_bind (fun request _ => completeRequest_onUcx request fuel) fun _ _ => trivial

theorem putmem_onUcx (pe : ℕ) (bytes : List UInt8) (offset : ℕ) :
    (putmem fuel l pe bytes offset).Sat OnUcx fun _ => True := by
  refine Prog.Sat.done_bind fun state _ => Prog.Sat.done_bind fun p _ => ?_
  dsimp only
  split
  · exact trivial
  · exact ⟨trivial, fun issued => answered_onUcx issued fuel⟩

theorem getmem_onUcx (pe offset len : ℕ) :
    (getmem fuel l pe offset len).Sat OnUcx fun _ => True := by
  refine Prog.Sat.done_bind fun state _ => Prog.Sat.done_bind fun p _ => ?_
  dsimp only
  split
  · split
    · exact trivial
    · refine ⟨trivial, fun issued => Fn.sat_orErr_bind (fun q _ => ?_) fun _ _ => trivial⟩
      exact (completeRequest_onUcx q.1 fuel).bind_any fun _ => trivial
  · exact trivial

/-- A data call makes no call into UCC. -/
theorem comm_onUcx (call : CommCall) : (call.exec ne fuel l).Sat OnUcx fun _ => True := by
  have hdrop : ∀ {α : Type} {m : Fn α}, m.Sat OnUcx (fun _ => True) →
      (m >>= fun _ => pure [] : Fn (List UInt8)).Sat OnUcx fun _ => True :=
    fun hm => hm.bind_any fun _ => trivial
  have hquiet : (quiet fuel l).Sat OnUcx fun _ => True :=
    Prog.Sat.done_bind fun state _ => flushPeers_onUcx _
  cases call with
  | rma req =>
    refine hdrop ?_
    cases req with
    | putmem pe bytes offset => exact putmem_onUcx pe bytes offset
    | getmem pe offset len => exact (getmem_onUcx pe offset len).bind_any fun _ => trivial
    | put T pe src offset => exact Prog.Sat.done_bind fun bytes _ => putmem_onUcx pe bytes offset
    | get T pe offset lenElems =>
      refine Prog.Sat.bind_any (Prog.Sat.done_bind fun len _ => ?_) fun _ => trivial
      exact (getmem_onUcx pe offset len).bind_any fun _ => trivial
    | atomicOp T pe offset op =>
      refine Prog.Sat.done_bind fun state _ => Prog.Sat.done_bind fun p _ => ?_
      exact ⟨trivial, fun issued => answered_onUcx issued fuel⟩
    | atomicFetch T pe offset op =>
      refine Prog.Sat.bind_any ?_ fun _ => trivial
      refine Prog.Sat.done_bind fun state _ => Prog.Sat.done_bind fun p _ => ?_
      refine ⟨trivial, fun issued => Fn.sat_orErr_bind (fun q _ => ?_) fun _ _ => trivial⟩
      exact (completeFetch_onUcx q.1 fuel).bind_any fun _ => trivial
  | getmem pe offset len => exact getmem_onUcx pe offset len
  | get T pe offset lenElems =>
    refine Prog.Sat.bind_any (Prog.Sat.done_bind fun len _ => ?_) fun _ => trivial
    exact (getmem_onUcx pe offset len).bind_any fun _ => trivial
  | fence =>
    refine hdrop (Prog.Sat.done_bind fun state _ => ?_)
    exact ⟨trivial, fun _ => trivial⟩
  | quiet => exact hdrop hquiet
  | quietPe pe =>
    refine hdrop (Prog.Sat.done_bind fun state _ => ?_)
    refine Prog.Sat.done_bind fun pe _ => Prog.Sat.done_bind fun peer _ => ?_
    exact ⟨trivial, fun issued => answered_onUcx issued fuel⟩
  | quietAll => exact hdrop hquiet

/-- A data call has no part in barriers. -/
theorem comm_leaves (call : CommCall) :
    ((PhaseCall.comm call).exec ne nm fuel l).Leaves teamNote fun _ t => t = [] := by
  have hsilent : (call.exec ne fuel l).Sat (Prog.Silent teamNote) fun _ => True :=
    (comm_onUcx call).mono (fun c hc => by cases c <;> first | exact fun _ => rfl | cases hc)
      fun _ h => h
  exact hsilent.leaves.mono fun _ _ h => h.2

/-- What one call leaves: a barrier that returns has entered and left, and no other call
enters anything. -/
theorem call_leaves (call : PhaseCall) :
    (call.exec ne nm fuel l).Leaves teamNote fun o t =>
      entries t ≤ barriers [call] ∧
        (call = .barrier → ∀ a, o = .ok a → ∃ op, t = [.entered op, .left op]) := by
  cases call with
  | comm call =>
    refine (comm_leaves call).mono ?_
    rintro o t rfl
    exact ⟨le_rfl, fun h => by cases h⟩
  | barrier => exact barrier_leaves.mono fun o t h => ⟨h.1, fun _ => h.2⟩

/-- A PE has not entered more barriers than it has begun. -/
theorem entries_le {calls : List PhaseCall} {t : List TeamEvent}
    {os : List (Outcome Error (List UInt8))} {qs : List (Fn (List UInt8))}
    (h : Ran teamNote (calls.map (·.exec ne nm fuel l)) t os qs) :
    entries t ≤ barriers (calls.take (os.length + 1)) := by
  induction calls generalizing t os with
  | nil =>
    cases h
    exact Nat.zero_le _
  | cons call calls ih =>
    obtain ⟨rfl, m', -, hm'⟩ | ⟨o, os', t₁, t₂, rfl, rfl, ⟨hcount, -⟩, hrest⟩ :=
      h.leaves (call_leaves call)
    · -- what the call at hand will have left is more than what it has left by now
      obtain ⟨t', -, hcount, -⟩ := hm'.run (accommodating 0) () []
      rw [entries_append] at hcount
      exact (Nat.le_add_right ..).trans hcount
    · rw [List.length_cons, List.take_succ_cons, barriers_cons, entries_append]
      exact Nat.add_le_add hcount (ih hrest)

/-- A barrier that returned left an entry and a leaving behind those of the barriers before
it. -/
theorem left_at {calls : List PhaseCall} {t : List TeamEvent}
    {os : List (Outcome Error (List UInt8))} {qs : List (Fn (List UInt8))}
    (h : Ran teamNote (calls.map (·.exec ne nm fuel l)) t os qs)
    {b : ℕ} (hb : calls[b]? = some .barrier) (hended : b < os.length)
    (hfine : ∀ k ≤ b, calls[k]? = some .barrier → ∃ a, os[k]? = some (.ok a)) :
    ∃ u op, u ++ [.entered op, .left op] <+: t ∧ entries u = barriers (calls.take b) := by
  induction calls generalizing t os b with
  | nil => cases hb
  | cons call calls ih =>
    obtain ⟨rfl, -⟩ | ⟨o, os', t₁, t₂, rfl, rfl, ⟨hcount, hleft⟩, hrest⟩ :=
      h.leaves (call_leaves call)
    · cases hended
    · -- the first call has left what it is to leave
      have hfirst : call = .barrier → ∃ op, t₁ = [.entered op, .left op] := by
        rintro rfl
        obtain ⟨a, ha⟩ := hfine 0 (Nat.zero_le _) rfl
        exact hleft rfl a (Option.some.inj ha)
      cases b with
      | zero =>
        obtain ⟨op, rfl⟩ := hfirst (Option.some.inj hb)
        exact ⟨[], op, List.prefix_append _ _, rfl⟩
      | succ b =>
        obtain ⟨u, op, hprefix, hu⟩ := ih hrest hb (Nat.lt_of_succ_lt_succ hended)
          fun k hk => hfine (k + 1) (Nat.succ_le_succ hk)
        refine ⟨t₁ ++ u, op, ?_, ?_⟩
        · rw [List.append_assoc]
          exact List.prefix_append_right_inj t₁ |>.mpr hprefix
        · rw [entries_append, hu, List.take_succ_cons, barriers_cons]
          congr 1
          cases call with
          | comm call => exact Nat.le_zero.mp hcount
          | barrier =>
            obtain ⟨op', rfl⟩ := hfirst rfl
            rfl

end Calls

/-! ## Entering and leaving -/

section Entering

variable {ι : Type} [DecidableEq ι] {lead : ι → Ep → ℕ} {i : ι}

/-- What is known of a team from the record since the start. -/
structure TeamInv (team : Team ι) (t : List (ι × TeamEvent)) : Prop where
  entered : ∀ i, team.entered i = entries (partOf i t)
  /-- the operation posted last is the barrier it was posted as -/
  round : ∀ i op, [.entered op] <:+ partOf i t →
    team.round (i, op) = some (entries (partOf i t))
  /-- what was left after it was entered had been entered by everyone -/
  left : ∀ i u op, u ++ [.entered op, .left op] <+: partOf i t →
    ∀ j, entries u + 1 ≤ team.entered j

theorem TeamInv.fresh : TeamInv (Team.fresh : Team ι) [] where
  entered _ := rfl
  round i op h := absurd (List.suffix_nil.mp h) (List.cons_ne_nil _ _)
  left i u op h := by
    have h := List.prefix_nil.mp h
    simp at h

variable {team : Team ι} {t : List (ι × TeamEvent)}

/-- A barrier is posted. -/
theorem TeamInv.post (h : TeamInv team t) (i : ι) (op : UccCollective) :
    TeamInv (team.after i (.ucc (.post op)) (.ok ())) (t ++ [(i, .entered op)]) := by
  have hgrows : ∀ j, team.entered j ≤ (team.after i (.ucc (.post op)) (.ok ())).entered j := by
    intro j
    by_cases hj : j = i
    · subst hj
      rw [team.entered_post_self]
      exact Nat.le_succ _
    · rw [team.entered_post_of_ne i hj]
  have hentries : entries (partOf i t ++ [.entered op]) = team.entered i + 1 := by
    rw [entries_append, h.entered i]
    rfl
  refine ⟨fun j => ?_, fun j op' hlast => ?_, fun j u op' hleft k => ?_⟩
  · by_cases hj : j = i
    · subst hj
      rw [partOf_concat_self, hentries, team.entered_post_self]
    · rw [partOf_concat_of_ne hj, ← h.entered j, team.entered_post_of_ne i hj]
  · by_cases hj : j = i
    · subst hj
      rw [partOf_concat_self] at hlast ⊢
      obtain ⟨before, hbefore⟩ := hlast
      obtain ⟨-, hop⟩ := List.append_singleton_inj.mp hbefore
      cases hop
      rw [hentries]
      exact Function.update_self ..
    · rw [partOf_concat_of_ne hj] at hlast ⊢
      rw [← h.round j op' hlast]
      exact Function.update_of_ne (fun heq => hj (congrArg Prod.fst heq)) ..
  · refine le_trans (h.left j u op' ?_ k) (hgrows k)
    by_cases hj : j = i
    · subst hj
      rw [partOf_concat_self] at hleft
      rcases List.prefix_concat_iff.mp hleft with heq | hold
      · -- the last event is not one of leaving
        have heq : (u ++ [.entered op']) ++ [.left op'] = partOf j t ++ [.entered op] := by
          rw [List.append_assoc]
          exact heq
        cases (List.append_singleton_inj.mp heq).2
      · exact hold
    · rwa [partOf_concat_of_ne hj] at hleft

/-- A barrier is left. -/
theorem TeamInv.leave (h : TeamInv team t) (i : ι) (op : UccCollective)
    (hleft : ∀ r, team.round (i, op) = some r → ∀ j, r ≤ team.entered j) :
    TeamInv team (t ++ [(i, .left op)]) := by
  have hentries : entries (partOf i t ++ [.left op]) = team.entered i := by
    rw [entries_append, h.entered i]
    rfl
  refine ⟨fun j => ?_, fun j op' hlast => ?_, fun j u op' hprefix k => ?_⟩
  · by_cases hj : j = i
    · subst hj
      rw [partOf_concat_self, hentries]
    · rw [partOf_concat_of_ne hj, h.entered j]
  · by_cases hj : j = i
    · subst hj
      rw [partOf_concat_self] at hlast
      obtain ⟨before, hbefore⟩ := hlast
      cases (List.append_singleton_inj.mp hbefore).2
    · rw [partOf_concat_of_ne hj] at hlast ⊢
      exact h.round j op' hlast
  · by_cases hj : j = i
    · subst hj
      rw [partOf_concat_self] at hprefix
      rcases List.prefix_concat_iff.mp hprefix with heq | hold
      · -- it is this barrier that is left, and it was posted last
        have heq : (u ++ [.entered op']) ++ [.left op'] = partOf j t ++ [.left op] := by
          rw [List.append_assoc]
          exact heq
        obtain ⟨hposted, hop⟩ := List.append_singleton_inj.mp heq
        cases hop
        have hround := h.round j op ⟨u, hposted⟩
        rw [← hposted, entries_append] at hround
        exact hleft _ hround k
      · exact h.left j u op' hold k
    · rw [partOf_concat_of_ne hj] at hprefix
      exact h.left j u op' hprefix k

/-- One answered call keeps what is known. -/
theorem TeamInv.call (h : TeamInv team t) {c : ExtCall} {x : c.Reply} (hx : team.Allows i c x) :
    TeamInv (team.after i c x) (t ++ (teamNote c x).map fun n => (i, n)) := by
  have hsilent : TeamInv team (t ++ []) := by rwa [List.append_nil]
  obtain c | c | c | c := c
  · exact hsilent
  · exact hsilent
  · cases c with
    | post op =>
      cases x with
      | error e => exact hsilent
      | ok _ => exact h.post i op
    | status op =>
      obtain ⟨status, out⟩ := x
      by_cases hok : status = uccOk
      · have hnote : teamNote (.ucc (.status op)) (status, out) = [.left op] := if_pos hok
        rw [hnote]
        exact h.leave i op (hx hok)
      · have hnote : teamNote (.ucc (.status op)) (status, out) = [] := if_neg hok
        rw [hnote]
        exact hsilent
    | _ => exact hsilent
  · exact hsilent

/-- **A run keeps what is known.** -/
theorem teamInv_of_run {α : Type} {todo : ι → List (Fn α)} {memory : Memories UInt8}
    {s : Scene ι Ext Error α (Fabric ι × Team ι) TeamEvent}
    (hs : (phaseWorld lead).Run (Shared.start todo (.fresh memory, .fresh)) s) :
    TeamInv s.world.2 s.trace := by
  have hconfined : Scene.Confined (N := TeamEvent) (fun _ _ => True)
      (Shared.start todo ((.fresh memory, .fresh) : Fabric ι × Team ι)) := fun _ m _ =>
    Prog.Sat.mono (Prog.yields_true m) (fun _ h => h) fun _ _ => trivial
  refine hs.invariant (I := fun w t => TeamInv w.2 t) hconfined .fresh ?_ ?_ s.trace rfl
  · rintro w i c x w' t ht - ⟨-, hallows, hafter⟩
    rw [hafter]
    exact ht.call hallows
  · rintro w w' t ht ⟨-, hsame⟩
    rwa [hsame]

end Entering

/-! ## Barriers and calls -/

section Runs

variable {ι : Type} [DecidableEq ι] {ne : Endian} {nm : NoMessage} {fuel : ℕ}
  {lead : ι → Ep → ℕ} {lock : ι → Lock} {calls : ι → List PhaseCall} {memory : Memories UInt8}

/-- A job making data calls and barriers. -/
abbrev PhaseScene (ι : Type) : Type :=
  Scene ι Ext Error (List UInt8) (Fabric ι × Team ι) TeamEvent

/-- The job before its first calls. -/
def phaseStart (ne : Endian) (nm : NoMessage) (fuel : ℕ) (lock : ι → Lock)
    (calls : ι → List PhaseCall) (memory : Memories UInt8) : PhaseScene ι :=
  Shared.start (fun i => (calls i).map (·.exec ne nm fuel (lock i))) (.fresh memory, .fresh)

/-- The barriers of PE `j` have returned, up to its call number `b`. -/
def Unbroken (calls : ι → List PhaseCall) (s : PhaseScene ι) (j : ι) (b : ℕ) : Prop :=
  ∀ k ≤ b, (calls j)[k]? = some .barrier → ∃ a, (s.results j)[k]? = some (.ok a)

/-- **A barrier synchronizes.** When a barrier of one PE has returned, every PE has begun as
many. -/
theorem barrier_synchronizes {s : PhaseScene ι}
    (hs : (phaseWorld lead).Run (phaseStart ne nm fuel lock calls memory) s) {j : ι} {b : ℕ}
    (hb : (calls j)[b]? = some .barrier) (hfine : Unbroken calls s j b) (i : ι) :
    barriers ((calls j).take (b + 1)) ≤
      barriers ((calls i).take ((s.results i).length + 1)) := by
  have hinv : TeamInv s.world.2 s.trace := teamInv_of_run hs
  obtain ⟨ext, htrace, hran⟩ := hs.ran
  obtain rfl : s.trace = ext := htrace
  obtain ⟨os, hos, hj⟩ := hran j
  obtain rfl : s.results j = os := hos
  obtain ⟨a, ha⟩ := hfine b (Nat.le_refl b) hb
  have hended : b < (s.results j).length := (List.getElem?_eq_some_iff.mp ha).1
  obtain ⟨u, op, hprefix, hu⟩ := left_at hj hb hended hfine
  obtain ⟨os, hos, hi⟩ := hran i
  obtain rfl : s.results i = os := hos
  calc barriers ((calls j).take (b + 1))
      = entries u + 1 := by rw [List.take_add_one, hb, hu]; exact List.countP_append
    _ ≤ s.world.2.entered i := hinv.left j u op hprefix i
    _ = entries (partOf i s.trace) := hinv.entered i
    _ ≤ barriers ((calls i).take ((s.results i).length + 1)) := entries_le hi

/-! ## The theorem -/

/-- The part of a run in which a PE makes a call, if the call has ended by now. -/
theorem call_in_run {s : PhaseScene ι}
    (hs : (phaseWorld lead).Run (phaseStart ne nm fuel lock calls memory) s) {i : ι} {k : ℕ}
    {call : PhaseCall} (hcall : (calls i)[k]? = some call) {o : Outcome Error (List UInt8)}
    (hended : (s.results i)[k]? = some o) :
    ∃ s₁ s₂, (phaseWorld lead).Run (phaseStart ne nm fuel lock calls memory) s₁ ∧
      (phaseWorld lead).Takes s₁ s₂ i (call.exec ne nm fuel (lock i)) o ∧
      (phaseWorld lead).Run s₂ s ∧ (s₁.results i).length = k := by
  refine hs.takes ?_ hended
  show ((calls i).map _)[k]? = _
  rw [List.getElem?_map, hcall, Option.map_some]

/-- A call of `i` that comes before its barrier of the same number has ended when a barrier
of `j` has returned. -/
theorem ended_of_barrier {s : PhaseScene ι}
    (hs : (phaseWorld lead).Run (phaseStart ne nm fuel lock calls memory) s) {i j : ι} {q b : ℕ}
    (hb : (calls j)[b]? = some .barrier) (hfine : Unbroken calls s j b)
    (hround : barriers ((calls i).take (q + 1)) < barriers ((calls j).take (b + 1))) :
    q < (s.results i).length := by
  have hmet := barrier_synchronizes hs hb hfine i
  by_contra hnot
  have hle : barriers ((calls i).take ((s.results i).length + 1)) ≤
      barriers ((calls i).take (q + 1)) :=
    barriers_take_le (Nat.succ_le_succ (Nat.le_of_not_lt hnot)) (calls i)
  omega

/-- **What was put before the barrier is there after it.** PE `i` puts, calls `quiet`, and
goes on to its barrier; PE `j` has returned from its barrier of the same number, or a later
one, and begins a get. By then the write has landed, and the get reads with it in place. -/
theorem phases_publish {s₁ s₂ : PhaseScene ι}
    (hs : (phaseWorld lead).Run (phaseStart ne nm fuel lock calls memory) s₁)
    {i j : ι} {p q b : ℕ} {put : CommCall} {pe offset : ℕ} {bytes a a' shown : List UInt8}
    {call get : CommCall} {pe' offset' len : ℕ} (hgets : get.Gets pe' offset' len)
    (hget : (phaseWorld lead).Takes s₁ s₂ j ((PhaseCall.comm get).exec ne nm fuel (lock j))
      (.ok shown))
    (hput : (calls i)[p]? = some (.comm put)) (hputs : put.Puts ne pe bytes offset)
    (hp : (s₂.results i)[p]? = some (.ok a))
    (hquiet : (calls i)[q]? = some (.comm call)) (hquiets : call.Quiets) (hpq : p < q)
    (hq : (s₂.results i)[q]? = some (.ok a'))
    (hbarrier : (calls j)[b]? = some .barrier) (hfine : Unbroken calls s₁ j b)
    (hround : barriers ((calls i).take (q + 1)) < barriers ((calls j).take (b + 1))) :
    ∃ state peer address state' peer' address', lock i = .holding state ∧
      peerAndAddress state pe offset bytes.length = .ok (peer, address) ∧
      lock j = .holding state' ∧ peerAndAddress state' pe' offset' len = .ok (peer', address') ∧
      shown.length = len ∧
      (bytes ≠ [] → call.Covers (lock i) peer.endpoint →
        ∃ n, s₁.world.1.flight.issued[n]? = some ⟨i, peer.endpoint, address, bytes⟩ ∧
          ¬ s₁.world.1.flight.InFlight n ∧
          s₁.world.1.flight.Seen lead s₂.world.1.flight n (lead j peer'.endpoint) address'
            shown) := by
  have hcarries := phaseWorld_carries lead
  -- by the time the get begins the quiet has ended, and before it the put
  have hq₁ : q < (s₁.results i).length := ended_of_barrier hs hbarrier hfine hround
  obtain ⟨q₁, q₂, hq₁run, hquieted, hq₂run, hqlength⟩ :=
    call_in_run hs hquiet ((hget.run.results_getElem? hq₁).symm.trans hq)
  have hrunq : (phaseWorld lead).Run q₁ s₂ := (hquieted.run.trans hq₂run).trans hget.run
  obtain ⟨p₁, p₂, -, hputted, hp₂run, -⟩ :=
    call_in_run hq₁run hput ((hrunq.results_getElem? (hqlength ▸ hpq)).symm.trans hp)
  obtain ⟨state, peer, address, hl, haccept, hissued⟩ := hcarries.issued_of_put hputted hputs
  obtain ⟨state', peer', address', hl', haccept', hlen, hshown⟩ := hcarries.shown_of_get hget hgets
  refine ⟨state, peer, address, state', peer', address', hl, haccept, hl', haccept', hlen, ?_⟩
  intro hbytes hcovers
  obtain ⟨n, hn⟩ := List.mem_iff_getElem?.mp (hissued hbytes)
  have hn₁ := (hcarries.later hp₂run).getElem? hn
  have hown : OwnEndpoint (lock i) peer.endpoint := by
    obtain ⟨-, hpeer, -⟩ := peerAndAddress_eq_ok.mp haccept
    exact ⟨state, pe, peer, hl, hpeer, rfl⟩
  have hlanded : .write n ∈ s₁.world.1.flight.history :=
    (hcarries.later hq₂run).landed
      (hcarries.landed_of_quiet hquiets hquieted hn₁ rfl hown hcovers)
  have hn₂ := (hcarries.later (hquieted.run.trans hq₂run)).getElem? hn₁
  exact ⟨n, hn₂, fun hflight => hflight.2 hlanded, hshown.seen lead hlanded⟩

end Runs

/-! ## A job of two phases -/

/-- UCX as it was on demand; UCC accepts what it is given, and an operation has completed
when every PE has entered it. -/
def inTeam (w : Fabric Bool × Team Bool) (i : Bool) :
    (c : ExtCall) → Option (c.Reply × (Fabric Bool × Team Bool))
  | .ucc (.status op) =>
    let met : Bool := decide (∀ r ∈ w.2.round (i, op), ∀ j, r ≤ w.2.entered j)
    some ((if met then uccOk else uccInprogress, List.Vector.replicate _ 0), w)
  | .ucc c => some (c.accommodate, (w.1, w.2.after i (.ucc c) c.accommodate))
  | c => (onDemand pairLead w.1 i c).map fun p => (p.1, (p.2, w.2.after i c p.1))

theorem inTeam_answers {w w' : Fabric Bool × Team Bool} {i : Bool} {c : ExtCall} {x : c.Reply}
    (h : inTeam w i c = some (x, w')) : (phaseWorld pairLead).Answers w i c x w' := by
  have hucx : ∀ {c : ExtCall} {x : c.Reply}, w.2.Allows i c x →
      (onDemand pairLead w.1 i c).map (fun p => (p.1, (p.2, w.2.after i c p.1))) = some (x, w') →
        (phaseWorld pairLead).Answers w i c x w' := by
    rintro c x hallows hx
    obtain ⟨⟨y, f⟩, hanswer, heq⟩ := Option.map_eq_some_iff.mp hx
    cases heq
    exact ⟨onDemand_answers pairLead hanswer, hallows, rfl⟩
  obtain c | c | c | c := c
  · exact hucx trivial h
  · exact hucx trivial h
  · cases c with
    | status op =>
      cases h
      refine ⟨⟨trivial, rfl⟩, fun hok r hr => ?_, rfl⟩
      by_contra hnot
      have hmet : ¬ ∀ r ∈ w.2.round (i, op), ∀ j, r ≤ w.2.entered j :=
        fun hall => hnot (hall r hr)
      rw [if_neg (by rwa [decide_eq_true_iff])] at hok
      cases hok
    | _ =>
      cases h
      exact ⟨⟨trivial, rfl⟩, trivial, rfl⟩
  · exact hucx trivial h

/-- A write is delivered, if it is in flight. -/
def deliverIn (n : ℕ) (w : Fabric Bool × Team Bool) : Option (Fabric Bool × Team Bool) :=
  (deliver n w.1).map fun f => (f, w.2)

theorem deliverIn_drifts {n : ℕ} {w w' : Fabric Bool × Team Bool} (h : deliverIn n w = some w') :
    (phaseWorld pairLead).Drift w w' := by
  obtain ⟨f, hf, rfl⟩ := Option.map_eq_some_iff.mp h
  exact ⟨deliver_drifts pairLead hf, rfl⟩

/-- The first PE puts two bytes on the second and calls `quiet`; both meet; the second reads
its own, as one value. -/
def phaseCalls : Bool → List PhaseCall
  | false => [.comm (.rma (.putmem 1 [7, 8] 16)), .comm .quiet, .barrier]
  | true => [.barrier, .comm (.get .u16 1 16 1)]

def pairPhases : PhaseScene Bool :=
  phaseStart .little ⟨-1, by decide⟩ 2 pairLock phaseCalls fun _ _ => 0

/-- The second PE is in the barrier before the first has put anything. -/
def phaseSchedule : List (Bool ⊕ ℕ) :=
  [.inl true, .inl true] ++ List.replicate 4 (.inl false) ++ [.inr 0] ++
    List.replicate 9 (.inl false) ++ List.replicate 3 (.inl true)

theorem phases_play : ∃ s₁ s₂ : PhaseScene Bool,
    (phaseWorld pairLead).play inTeam deliverIn phaseSchedule pairPhases = some s₁ ∧
    (phaseWorld pairLead).play inTeam deliverIn [.inl true, .inl true] s₁ = some s₂ ∧
    s₁.todo true =
      [(PhaseCall.comm (.get .u16 1 16 1)).exec .little ⟨-1, by decide⟩ 2 (pairLock true)] ∧
    s₁.results true = [.ok []] ∧ s₂.results false = [.ok [], .ok [], .ok []] ∧
    s₂.results true = [.ok [], .ok [7, 8]] := by
  refine ⟨_, _, rfl, rfl, rfl, ?_, ?_, ?_⟩
  · decide
  · decide
  · decide +kernel

/-- The second PE enters before anything is put, and reads what was put. -/
theorem phases_publish_instance : ∃ s₁ s₂ : PhaseScene Bool,
    (phaseWorld pairLead).Run pairPhases s₁ ∧
    (phaseWorld pairLead).Takes s₁ s₂ true
      ((PhaseCall.comm (.get .u16 1 16 1)).exec .little ⟨-1, by decide⟩ 2 (pairLock true))
      (.ok [7, 8]) ∧
    ∃ n, s₁.world.1.flight.issued[n]? = some ⟨false, ⟨[1]⟩, 8208, [7, 8]⟩ ∧
      ¬ s₁.world.1.flight.InFlight n ∧
      s₁.world.1.flight.Seen pairLead s₂.world.1.flight n 1 8208 [7, 8] := by
  obtain ⟨s₁, s₂, hplay₁, hplay₂, htodo, hmet, hfalse, htrue⟩ := phases_play
  have hrun : (phaseWorld pairLead).Run pairPhases s₁ :=
    Shared.run_of_play inTeam_answers deliverIn_drifts hplay₁
  have hget : (phaseWorld pairLead).Takes s₁ s₂ true _ (.ok [7, 8]) :=
    ⟨Shared.run_of_play inTeam_answers deliverIn_drifts hplay₂, ⟨[], htodo⟩,
      by rw [hmet, htrue]; rfl⟩
  have hfine : Unbroken phaseCalls s₁ true 0 := by
    intro k hk _
    obtain rfl : k = 0 := Nat.le_zero.mp hk
    exact ⟨[], by rw [hmet]; rfl⟩
  have hput : CommCall.Puts .little (.rma (.putmem 1 [7, 8] 16)) 1 [7, 8] 16 := .putmem 1 [7, 8] 16
  have hquiet : (phaseCalls false)[1]? = some (.comm .quiet) := rfl
  obtain ⟨state, peer, address, state', peer', address', hl, haccept, hl', haccept', -, hsees⟩ :=
    phases_publish (i := false) (j := true) (p := 0) (q := 1) (b := 0) hrun (.get .u16 1 16 1)
      hget rfl hput (by rw [hfalse]; rfl) hquiet trivial (by decide) (by rw [hfalse]; rfl) rfl
      hfine (by decide)
  have haddress : ∀ {st : ShmemState} {peer : PeerConnection} {address : ℕ},
      pairLock false = .holding st → peerAndAddress st 1 16 2 = .ok (peer, address) →
        peer.endpoint = ⟨[1]⟩ ∧ address = 8208 := by
    rintro st peer address hst haccept
    obtain rfl : _ = st := Option.some.inj (congrArg Lock.state hst)
    have hplace : _ = Outcome.ok (peer, address) := haccept
    cases hplace
    exact ⟨rfl, rfl⟩
  obtain ⟨hep, rfl⟩ := haddress hl haccept
  obtain ⟨hep', rfl⟩ := haddress hl' haccept'
  obtain ⟨n, hn, hlanded, hread⟩ := hsees (List.cons_ne_nil _ _) trivial
  rw [hep] at hn
  rw [hep'] at hread
  exact ⟨s₁, s₂, hrun, hget, n, hn, hlanded, hread⟩

end OpenShmem
