import Mathlib.Data.List.FinRange
import OpenShmem.Runtime
import OpenShmem.Store

/-!
# Rounds of the out-of-band allgather

The PEs of a job run `allgather` round after round. A PE comes out of the fence
of a round only when all have published for it, but nothing keeps a fast PE from
publishing its next contribution under the same key while a slow one still has
to get the last. `Timely` is the condition under which that does not happen: a
PE commits only when nobody awaits its earlier contributions. Runs of timely
steps gather each round's data; a run of two PEs with one untimely commit
gathers a mixture and reports success.
-/

namespace OpenShmem

/-- The data of a job of `n` PEs for any number of rounds. -/
structure OobJob (n : ℕ) : Type where
  client : Fin n → PmixClient
  /-- the common length of a round -/
  len : ℕ → ℕ
  contribution : Fin n → ℕ → List UInt8
  length_contribution : ∀ i r, (contribution i r).length = len r
  /-- the destination buffer before the callback -/
  buffer : Fin n → ℕ → List UInt8
  length_buffer : ∀ i r, (buffer i r).length = n * len r

namespace OobJob

variable {n : ℕ} (J : OobJob n)

/-- The callback of a PE in a round. -/
def callback (i : Fin n) (r : ℕ) : Fn CallbackResult :=
  allgather (some (J.contribution i r)) (some (J.buffer i r)) (J.len r)
    (some ⟨J.client i, i, n⟩) false

/-- The PEs, each running the callback in `R` rounds. -/
def system (R : ℕ) : System (Fin n) Ext Error CallbackResult PeStore := jobSystem n R J.callback

/-- What a round is to gather: the contributions in rank order. -/
def gathered (r : ℕ) : List UInt8 := (List.finRange n).flatMap fun i => J.contribution i r

/-- Wherever a callback has returned 0, the destination holds the data of its
round. -/
def RoundsCorrect (cfg : Config (Fin n) Ext Error CallbackResult PeStore) : Prop :=
  ∀ i res, cfg.tree i = .done (.ok res) → res.status = 0 →
    res.dst = some (J.gathered (cfg.round i))

end OobJob

section Timely

variable {n : ℕ}

/-- No path of what is left of a callback gets the contribution of `q`. -/
def Collected (q : Fin n) (m : Fn CallbackResult) : Prop :=
  m.Sat (fun c : ExtCall => c.lookedUp ≠ some (q.val, .oob)) fun _ => True

/-- PE `p` has not come to round `r`, or is in it and may still get the
contribution of `q`. -/
def Awaits (cfg : Config (Fin n) Ext Error CallbackResult PeStore) (p q : Fin n) (r : ℕ) : Prop :=
  cfg.round p < r ∨ (cfg.round p = r ∧ ¬ Collected q (cfg.tree p))

/-- If `q` is about to commit, nobody awaits what it contributed to an earlier
round whose fence it entered. -/
def Timely (cfg : Config (Fin n) Ext Error CallbackResult PeStore) (q : Fin n) : Prop :=
  ∀ k, cfg.tree q = .call (.pmix .commit) k →
    ∀ p, ∀ r ∈ (cfg.cell q).entered, r < cfg.round q → ¬ Awaits cfg p q r

end Timely

/-! ## The destination buffer -/

/-- Copying contributions of one length behind each other fills the buffer from
the front. -/
theorem foldl_copyAt {len n : ℕ} {f : ℕ → List UInt8} (hf : ∀ p < n, (f p).length = len)
    {dst : List UInt8} {k : ℕ} (hk : k ≤ n) :
    (List.range k).foldl (fun d p => copyAt d (p * len) (f p)) dst =
      (List.range k).flatMap f ++ dst.drop (k * len) := by
  induction k with
  | zero => simp
  | succ k ih =>
    have hfront : ((List.range k).flatMap f).length = k * len := by
      have hlen : ∀ p ∈ List.range k, (f p).length = len := fun p hp =>
        hf p (by have := List.mem_range.mp hp; omega)
      rw [List.length_flatMap, List.map_congr_left hlen]
      simp
    have hnext : (f k).length = len := hf k (by omega)
    rw [List.range_succ, List.foldl_append, List.foldl_cons, List.foldl_nil, ih (by omega),
      List.flatMap_append, copyAt, ← hfront, List.take_left, hnext, ← List.drop_drop,
      List.drop_left, List.drop_drop, hfront]
    simp [Nat.add_mul]

/-! ## What one PE knows in a round -/

namespace OobJob

section Round

variable {n : ℕ} (J : OobJob n) (r : ℕ)

/-- The contribution of a rank. -/
def bytes (rank : ℕ) : List UInt8 := if h : rank < n then J.contribution ⟨rank, h⟩ r else []

/-- What is found in the round: each PE's contribution to it. -/
def found : Lookup := fun rank _ =>
  if h : rank < n then some (.byteObject (J.contribution ⟨rank, h⟩ r)) else none

/-- A PE commits before the fence of the round, enters the fence with its
contribution published, and gets the others' behind it. -/
def guard (i : Fin n) : Guard where
  commit := fun s => r ∉ s.entered
  enter := fun s => s.published .oob = some (.byteObject (J.contribution i r))
  get := fun s _ key => key = .oob ∧ r ∈ s.passed

abbrev view (i : Fin n) : View Ext PeStore := storeView (J.found r) r (J.guard r i)

variable {J r} {i : Fin n} {s : PeStore}

theorem found_eq {rank : ℕ} {key : PmixKey} {bytes : List UInt8}
    (h : J.found r rank key = some (.byteObject bytes)) : rank < n ∧ bytes = J.bytes r rank := by
  rw [found] at h
  split at h
  · next hrank =>
    cases h
    rw [bytes, dif_pos hrank]
    exact ⟨hrank, rfl⟩
  · cases h

theorem length_bytes {rank : ℕ} (h : rank < n) : (J.bytes r rank).length = J.len r := by
  rw [bytes, dif_pos h]
  exact J.length_contribution _ _

theorem flatMap_bytes : (List.range n).flatMap (J.bytes r) = J.gathered r := by
  rw [gathered, ← List.map_coe_finRange_eq_range, List.flatMap_map]
  refine List.flatMap_congr fun i _ => ?_
  simp [bytes]

/-- The fences entered so far are of earlier rounds. -/
def Before (r : ℕ) (s : PeStore) : Prop := ∀ r' ∈ s.entered, r' < r

/-- The fences entered so far are of rounds up to this one. -/
def Until (r : ℕ) (s : PeStore) : Prop := ∀ r' ∈ s.entered, r' ≤ r

theorem Before.until (h : Before r s) : Until r s := fun r' hr' => (h r' hr').le

theorem Before.enter (h : Before r s) : Until r (s.enter r) := by
  intro r' hr'
  rcases Finset.mem_insert.mp hr' with rfl | hr'
  · exact le_rfl
  · exact (h r' hr').le

/-- Up to the fence: a PE that comes through it has published its contribution. -/
theorem safe_contribute (hs : Before r s) :
    (contribute (J.contribution i r)).Safe (J.view r i)
      (fun s' o => Until r s' ∧ (o = .ok none ∨ (o = .ok (some ()) ∧ r ∈ s'.passed))) s := by
  have hfails : ∀ {s' : PeStore}, Until r s' →
      (pure none : Fn (Option Unit)).Safe (J.view r i)
        (fun s' o => Until r s' ∧ (o = .ok none ∨ (o = .ok (some ()) ∧ r ∈ s'.passed))) s' :=
    fun h => ⟨h, Or.inl rfl⟩
  refine safe_aside (by exact trivial) fun x => ?_
  cases x with
  | error e => exact hfails hs.until
  | ok _ =>
  refine safe_aside (by exact trivial) fun x => ?_
  cases x with
  | error e => exact hfails hs.until
  | ok _ =>
  refine safe_putValue ?_ fun e s' hs' => hfails ?_
  · refine safe_commit (fun hr => (hs r hr).false) ?_ fun e s' hs' => hfails ?_
    · refine safe_aside (by exact trivial) fun x => ?_
      cases x with
      | error e => exact hfails hs.until
      | ok _ =>
        refine safe_fence rfl ?_ fun e => hfails hs.enter
        exact ⟨hs.enter, Or.inr ⟨rfl, Finset.mem_insert_self _ _⟩⟩
    · rcases hs' with rfl | rfl <;> exact hs.until
  · rcases hs' with rfl | rfl <;> exact hs.until

/-- Behind the fence: a gathering that does not fail has copied every
contribution. -/
theorem safe_gatherPeers (hs : r ∈ s.passed) (peers : List ℕ) (dst : List UInt8) :
    (gatherPeers (J.len r) peers dst).Safe (J.view r i)
      (fun s' o => s' = s ∧ ∃ g : Gathered, o = .ok g ∧ (g.1 = none ∨
        g = (some 0, peers.foldl (fun d p => copyAt d (p * J.len r) (J.bytes r p)) dst))) s := by
  induction peers generalizing dst with
  | nil => exact ⟨rfl, _, rfl, Or.inr rfl⟩
  | cons peer peers ih =>
    refine safe_aside (by exact trivial) fun x => ?_
    cases x with
    | error e => exact ⟨rfl, _, rfl, Or.inl rfl⟩
    | ok _ =>
      refine safe_getBytesCopy ⟨rfl, hs⟩ (fun bytes hbytes => ?_) fun e => ⟨rfl, _, rfl, Or.inl rfl⟩
      obtain ⟨-, rfl⟩ := found_eq hbytes
      dsimp only
      split
      · exact ⟨rfl, _, rfl, Or.inl rfl⟩
      · exact ih _

/-- The whole closure: it fails, or the buffer holds the data of the round. -/
theorem safe_gatherRound (hs : Before r s) :
    (gatherRound n (J.contribution i r) (J.len r) (J.buffer i r)).Safe (J.view r i)
      (fun s' o => Until r s' ∧ ∃ g : Gathered, o = .ok g ∧
        (g.1 = none ∨ g = (some 0, J.gathered r))) s := by
  refine Prog.Safe.bind ((safe_contribute hs).mono ?_)
  rintro s' _ ⟨huntil, rfl | ⟨rfl, hpassed⟩⟩
  · exact ⟨huntil, _, rfl, Or.inl rfl⟩
  · refine (safe_gatherPeers hpassed (List.range n) (J.buffer i r)).mono ?_
    rintro _ _ ⟨rfl, g, rfl, hg⟩
    refine ⟨huntil, g, rfl, hg.imp_right fun h => ?_⟩
    rw [h, foldl_copyAt (fun p hp => length_bytes hp) le_rfl,
      ← J.length_buffer i r, List.drop_length, List.append_nil, flatMap_bytes]

/-- **One round.** A callback whose PE finds only this round's contributions
gathers the data of the round whenever it returns 0. -/
theorem safe_callback (hs : Before r s) :
    (J.callback i r).Safe (J.view r i)
      (fun s' o => Until r s' ∧ ∀ res, o = .ok res → res.status = 0 →
        res.dst = some (J.gathered r)) s := by
  rw [callback, allgather]
  split
  · refine ⟨hs.until, ?_⟩
    rintro _ ⟨⟩ hstatus
    cases hstatus
  · refine Prog.Safe.bind ((safe_gatherRound hs).mono ?_)
    rintro s' _ ⟨huntil, ⟨status, dst⟩, rfl, hg⟩
    refine ⟨huntil, ?_⟩
    rintro _ ⟨⟩ hstatus
    rcases hg with rfl | hg
    · cases hstatus
    · cases hg
      rfl

end Round

/-! ## All PEs together -/

section Together

variable {n : ℕ} (J : OobJob n)

/-- What holds between the steps of a run in which every commit is timely. -/
structure OobInv (cfg : Config (Fin n) Ext Error CallbackResult PeStore) : Prop where
  /-- a PE enters no fence ahead of its round -/
  entered_le : ∀ q, ∀ r ∈ (cfg.cell q).entered, r ≤ cfg.round q
  /-- a fence is left only when all have entered it -/
  passed : ∀ p, ∀ r ∈ (cfg.cell p).passed, AllEntered cfg.cell r
  /-- what is awaited is still there -/
  current : ∀ p q, ∀ r ∈ (cfg.cell q).entered, Awaits cfg p q r →
    (cfg.cell q).published .oob = some (.byteObject (J.contribution q r))

variable {J} {cfg : Config (Fin n) Ext Error CallbackResult PeStore} {i : Fin n}

/-- A call that is answered leaves no more to await. -/
theorem awaits_of_answered {c : ExtCall} {k : c.Reply → Fn CallbackResult} {x : c.Reply}
    {t : PeStore} (htree : cfg.tree i = .call c k) {p q : Fin n} {r : ℕ}
    (h : Awaits (cfg.answered i (k x) t) p q r) : Awaits cfg p q r := by
  obtain h | ⟨hround, hmore⟩ := h
  · exact Or.inl h
  · refine Or.inr ⟨hround, fun hcollected => hmore ?_⟩
    by_cases hp : p = i
    · subst hp
      rw [htree] at hcollected
      simp only [Config.answered, Function.update_self]
      exact hcollected.2 x
    · simp only [Config.answered, Function.update_of_ne hp]
      exact hcollected

/-- Beginning the next round leaves no more to await. -/
theorem awaits_of_advanced {R : ℕ} {p q : Fin n} {r : ℕ}
    (h : Awaits ((J.system R).advanced cfg i) p q r) : Awaits cfg p q r := by
  rw [Awaits] at h ⊢
  by_cases hp : p = i
  · subst hp
    simp only [System.advanced, Function.update_self] at h
    omega
  · simpa only [System.advanced, Function.update_of_ne hp] using h

/-- Behind the fence a get finds this round's contribution: the getting PE
still awaits it. -/
theorem OobInv.lookup_eq (h : OobInv J cfg) {c : ExtCall} {k : c.Reply → Fn CallbackResult}
    (htree : cfg.tree i = .call c k) {rank : ℕ} (hlook : c.lookedUp = some (rank, .oob))
    (hpassed : cfg.round i ∈ (cfg.cell i).passed) :
    lookup cfg.cell rank .oob = J.found (cfg.round i) rank .oob := by
  by_cases hrank : rank < n
  · rw [lookup, dif_pos hrank, found, dif_pos hrank]
    refine h.current i ⟨rank, hrank⟩ (cfg.round i) (h.passed i _ hpassed _) (Or.inr ⟨rfl, ?_⟩)
    rw [htree]
    exact fun hcollected => hcollected.1 hlook
  · rw [lookup, dif_neg hrank, found, dif_neg hrank]

/-- A timely call that keeps to its guard keeps the invariant. -/
theorem OobInv.call (h : OobInv J cfg) (htimely : Timely cfg i) {c : ExtCall}
    {k : c.Reply → Fn CallbackResult} {x : c.Reply} {t : PeStore}
    (htree : cfg.tree i = .call c k)
    (hc : (J.guard (cfg.round i) i).Allows (cfg.cell i) c)
    (hx : PmixAnswers (lookup cfg.cell) (AllEntered cfg.cell (cfg.round i)) (cfg.round i)
      (cfg.cell i) c x t) :
    OobInv J (cfg.answered i (k x) t) := by
  constructor
  · intro q r hr
    by_cases hq : q = i
    · subst hq
      simp only [Config.answered, Function.update_self] at hr ⊢
      obtain hold | ⟨rfl, -⟩ := hx.entered_cases hr
      · exact h.entered_le q r hold
      · exact le_rfl
    · simp only [Config.answered, Function.update_of_ne hq] at hr ⊢
      exact h.entered_le q r hr
  · intro p r hr
    have hall : AllEntered cfg.cell r := by
      by_cases hp : p = i
      · subst hp
        simp only [Config.answered, Function.update_self] at hr
        obtain hold | ⟨rfl, hgate⟩ := hx.passed_cases hr
        · exact h.passed p r hold
        · exact hgate
      · simp only [Config.answered, Function.update_of_ne hp] at hr
        exact h.passed p r hr
    intro q
    by_cases hq : q = i
    · subst hq
      simp only [Config.answered, Function.update_self]
      exact hx.entered_mono (hall q)
    · simp only [Config.answered, Function.update_of_ne hq]
      exact hall q
  · intro p q r hr hawaits
    have hstill : Awaits cfg p q r := awaits_of_answered htree hawaits
    by_cases hq : q = i
    · subst hq
      simp only [Config.answered, Function.update_self] at hr ⊢
      obtain hold | ⟨rfl, rfl, hpublished⟩ := hx.entered_cases hr
      · rcases hx.published_cases with hpublished | rfl
        · rw [hpublished]
          exact h.current p q r hold hstill
        · -- a commit while `p` awaits an earlier round: not timely
          have hne : cfg.round q ∉ (cfg.cell q).entered := hc
          have hle : r ≤ cfg.round q := h.entered_le q r hold
          have hlt : r < cfg.round q := lt_of_le_of_ne hle fun heq => hne (heq ▸ hold)
          exact absurd hstill (htimely k htree p r hold hlt)
      · rw [hpublished]
        exact hc
    · simp only [Config.answered, Function.update_of_ne hq] at hr ⊢
      exact h.current p q r hr hstill

theorem OobInv.advance {R : ℕ} (h : OobInv J cfg) (i : Fin n) :
    OobInv J ((J.system R).advanced cfg i) := by
  constructor
  · intro q r hr
    have hle : r ≤ cfg.round q := h.entered_le q r hr
    by_cases hq : q = i
    · subst hq
      simp only [System.advanced, Function.update_self]
      omega
    · simpa only [System.advanced, Function.update_of_ne hq] using hle
  · exact h.passed
  · exact fun p q r hr hawaits => h.current p q r hr (awaits_of_advanced hawaits)

/-- The outline of the rounds. -/
def outline (J : OobJob n) (R : ℕ) : Outline (J.system R) Timely where
  view := fun i r => J.view r i
  post := fun _ r s o => Until r s ∧ ∀ res, o = .ok res → res.status = 0 →
    res.dst = some (J.gathered r)
  inv := OobInv J
  inv_start := ⟨fun _ r h => absurd h (Finset.notMem_empty r),
    fun _ r h => absurd h (Finset.notMem_empty r), fun _ _ r h => absurd h (Finset.notMem_empty r)⟩
  safe_start := fun i => safe_callback fun r h => absurd h (Finset.notMem_empty r)
  safe_next := fun i r t o _ h => safe_callback fun r' hr' => Nat.lt_succ_of_le (h.1 r' hr')
  sees := by
    intro cfg i c k x t hinv htree hc hx
    refine PmixAnswers.mono hx (fun rank key v hlook hfind => ?_) fun _ => trivial
    obtain ⟨rfl, hpassed⟩ := Guard.get_of_lookedUp (g := J.guard (cfg.round i) i) hc hlook
    rw [← hinv.lookup_eq htree hlook hpassed]
    exact hfind
  inv_call := fun hinv htimely htree hc hx => hinv.call htimely htree hc hx
  inv_next := fun hinv _ _ => hinv.advance _

end Together

end OobJob

/-- **Rounds of timely steps.** If in a run no PE commits while another awaits
what it contributed to an earlier round, every callback that returns 0 has
gathered the data of its own round. -/
theorem rounds_correct_of_timely {n : ℕ} (J : OobJob n) (R : ℕ)
    {cfg : Config (Fin n) Ext Error CallbackResult PeStore}
    (hreach : (J.system R).Reach Timely cfg) : J.RoundsCorrect cfg := by
  obtain ⟨-, hsafe⟩ := (J.outline R).reach hreach
  intro i res hres hstatus
  have hi := hsafe i
  rw [hres] at hi
  exact hi.2 res rfl hstatus

/-! ## Two PEs, two rounds -/

/-- Two PEs that contribute one byte a round: `10` and `11`, then `20` and `21`. -/
def twoRounds : OobJob 2 where
  client := fun i => ⟨i⟩
  len := fun _ => 1
  contribution := fun i r => [UInt8.ofNat (10 * (r + 1) + i)]
  length_contribution := fun _ _ => rfl
  buffer := fun _ _ => [0, 0]
  length_buffer := fun _ _ => rfl

/-- A commit is timely if everybody has come to the end of the earlier rounds. -/
def allDone {n : ℕ} (cfg : Config (Fin n) Ext Error CallbackResult PeStore) (q : Fin n) : Bool :=
  (List.finRange n).all fun p =>
    cfg.round q ≤ cfg.round p || (cfg.round p + 1 == cfg.round q && (cfg.tree p).returned.isSome)

theorem timely_of_allDone {n : ℕ} {cfg : Config (Fin n) Ext Error CallbackResult PeStore}
    {q : Fin n} (h : allDone cfg q = true) : Timely cfg q := by
  intro k _ p r _ hr hawaits
  have hp := List.all_eq_true.mp h p (List.mem_finRange p)
  simp only [Bool.or_eq_true, decide_eq_true_eq, Bool.and_eq_true, beq_iff_eq] at hp
  obtain hahead | ⟨hround, hdone⟩ := hp
  · rcases hawaits with hlt | ⟨heq, -⟩ <;> omega
  · obtain hlt | ⟨-, hmore⟩ := hawaits
    · omega
    · obtain ⟨res, hres⟩ := Option.isSome_iff_exists.mp hdone
      refine hmore ?_
      rw [Prog.returned_eq_some.mp hres]
      exact trivial

/-- Both rounds, the first PE waiting for the second after each. -/
def timelySchedule : List (Fin 2) := turns [(6, 6), (5, 5), (7, 7), (5, 5)]

/-- The first PE commits its second contribution when the second PE has come out
of the fence and not yet got the first. -/
def untimelySchedule : List (Fin 2) := turns [(6, 6), (5, 1), (5, 4)]

theorem timely_result :
    ((twoRounds.system 2).play obligingPmix allDone timelySchedule
        (twoRounds.system 2).start).map (fun cfg => (cfg.round 1, (cfg.tree 1).returned)) =
      some (1, some ⟨0, some [20, 21], some ⟨0⟩⟩) := by
  decide

/-- A run of timely steps through both rounds. -/
theorem rounds_correct_of_timely_instance : ∃ cfg, (twoRounds.system 2).Reach Timely cfg ∧
    (cfg.tree 1).returned = some ⟨0, some [20, 21], some ⟨0⟩⟩ ∧ twoRounds.RoundsCorrect cfg := by
  obtain ⟨cfg, hplay, hres⟩ := Option.map_eq_some_iff.mp timely_result
  have hreach : (twoRounds.system 2).Reach Timely cfg :=
    System.reach_of_play obligingPmix_answers (fun _ _ h => timely_of_allDone h) .start hplay
  exact ⟨cfg, hreach, congrArg Prod.snd hres, rounds_correct_of_timely twoRounds 2 hreach⟩

theorem untimely_result :
    ((twoRounds.system 2).play obligingPmix (fun _ _ => true) untimelySchedule
        (twoRounds.system 2).start).map (fun cfg => (cfg.round 1, (cfg.tree 1).returned)) =
      some (0, some ⟨0, some [20, 11], some ⟨0⟩⟩) := by
  decide

/-- **Rounds are mixed.** The second PE's first round returns 0 with the first
PE's second contribution. -/
theorem allgather_mixes_rounds :
    ¬ ∀ cfg, (twoRounds.system 2).Reach (fun _ _ => True) cfg → twoRounds.RoundsCorrect cfg := by
  intro hclaim
  obtain ⟨cfg, hplay, hres⟩ := Option.map_eq_some_iff.mp untimely_result
  obtain ⟨hround, hreturned⟩ := Prod.mk.inj hres
  have hreach : (twoRounds.system 2).Reach (fun _ _ => True) cfg :=
    System.reach_of_play obligingPmix_answers (fun _ _ _ => trivial) .start hplay
  have hdst := hclaim cfg hreach 1 _ (Prog.returned_eq_some.mp hreturned) rfl
  rw [hround] at hdst
  exact absurd hdst (by decide)

end OpenShmem
