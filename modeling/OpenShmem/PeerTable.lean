import OpenShmem.Init
import OpenShmem.Rma

/-!
# The peer table and the job

`handshake` connects to the PEs `0..size as u32`, and `init` stores `size` as it
got it. So the table has an entry for every PE of the job as long as the job
size is a 32-bit word, which a published one always is; a `PMIX_SIZE` beyond
that leaves a table that is shorter than what `n_pes` reports.
-/

namespace OpenShmem

/-! ## What the peer loop enters -/

/-- One round enters its PE. -/
theorem connectPeer_keys (pe : ℕ) (b : Bootstrap) :
    (connectPeer pe b).Yields fun b' => ∀ k : ℕ, k ∈ b'.peers ↔ k = pe ∨ k ∈ b.peers := by
  rw [connectPeer]
  -- whatever the look-ups return, the entry is made last
  iterate 8 refine Prog.Yields.bind_any fun _ => ?_
  split
  · exact Prog.Yields.of_ne_ok fun _ h => by cases h
  · iterate 3 refine Prog.Yields.bind_any fun _ => ?_
    refine Prog.Yields.pure fun k => ?_
    rw [Std.ExtTreeMap.mem_insert, compare_eq_iff_eq, eq_comm]

/-- The loop enters the PEs it is given. -/
theorem connectPeers_keys (pes : List ℕ) (b : Bootstrap) :
    (connectPeers pes b).Yields fun b' => ∀ k : ℕ, k ∈ b'.peers ↔ k ∈ pes ∨ k ∈ b.peers := by
  induction pes generalizing b with
  | nil => exact Prog.Yields.pure fun k => by simp
  | cons pe pes ih =>
    refine Prog.Yields.bind (connectPeer_keys pe b) fun b' hb' => ?_
    refine (ih b').mono fun c hc k => ?_
    rw [hc k, hb' k, List.mem_cons, or_left_comm, or_assoc]

/-- `handshake` enters the PEs below the job size taken as a `u32`. -/
theorem handshake_keys (transport : UcxTransport) (heap : SymHeap) (size : ℕ) :
    (handshake transport heap size).Yields fun b => ∀ k : ℕ, k ∈ b.peers ↔ k < size % 2 ^ 32 := by
  rw [handshake]
  split
  · exact Prog.Yields.of_ne_ok fun _ h => by cases h
  · iterate 5 refine Prog.Yields.bind_any fun _ => ?_
    refine (connectPeers_keys _ _).mono fun b hb k => ?_
    rw [hb k, List.mem_range]
    simp

/-! ## What `init` stores -/

/-- Closing the session on an error keeps what is known of the values. -/
theorem closing_yields {α : Type} {R : α → Prop} {m : Fn α} (hm : m.Yields R)
    (client : PmixClient) : (closing client m).Yields R := by
  rw [closing]
  refine Prog.Yields.bind hm.attempt fun x hx => ?_
  cases x with
  | ok a => exact Prog.Yields.pure (hx a rfl)
  | error e => exact Prog.Yields.bind_any fun _ => Prog.Yields.of_ne_ok fun _ h => by cases h

/-- The table that is brought up has the PEs below the stored size taken as a
`u32`. -/
theorem bringUp_keys (client : PmixClient) :
    (bringUp client).Yields fun state =>
      ∀ k : ℕ, k ∈ state.peers ↔ k < state.size % 2 ^ 32 := by
  rw [bringUp]
  refine Prog.Yields.bind_any fun rank => ?_
  cases rank with
  | none => exact Prog.Yields.of_ne_ok fun _ h => by cases h
  | some rank =>
    refine Prog.Yields.bind_any fun transport => ?_
    refine Prog.Yields.bind_any fun heap => ?_
    refine Prog.Yields.bind_any fun reported => ?_
    refine Prog.Yields.bind_any fun size => ?_
    refine Prog.Yields.bind (closing_yields (handshake_keys _ _ _) client) fun b hb => ?_
    exact Prog.Yields.pure hb

section Runs

variable {W : Type} {handler : Prog.Handler Ext W} {w : W}

/-- Inversion: what was run under `closing` returned. -/
theorem run_closing_bind_eq_ok {α β : Type} {client : PmixClient} {m : Fn α} {f : α → Fn β} {b : β}
    (hrun : ((closing client m >>= f).run handler w).1 = .ok b) :
    ∃ a w', m.run handler w = (.ok a, w') ∧ ((f a).run handler w').1 = .ok b := by
  rw [closing, Prog.bind_assoc] at hrun
  obtain ⟨a, w', hm, hf⟩ | ⟨e, w', -, hf⟩ := Prog.run_attempt_bind_eq_ok hrun
  · exact ⟨a, w', hm, hf⟩
  · cases hf

/-- The stored size is the one that was reported. -/
theorem bringUp_size {client : PmixClient} {state : ShmemState}
    (hrun : ((bringUp client).run handler w).1 = .ok state) :
    ∃ w', (jobSize.run handler w').1 = .ok (some state.size) := by
  rw [bringUp] at hrun
  obtain ⟨_ | rank, w₀, -, hrun⟩ := Prog.run_bind_eq_ok hrun
  · cases hrun
  · obtain ⟨transport, w₁, -, hrun⟩ := run_closing_bind_eq_ok hrun
    obtain ⟨heap, w₂, -, hrun⟩ := run_closing_bind_eq_ok hrun
    obtain ⟨reported, w₃, hreported, hrun⟩ := Prog.run_bind_eq_ok hrun
    obtain ⟨size, w₄, hsome, hrun⟩ := run_closing_bind_eq_ok hrun
    obtain ⟨b, w₅, -, hrun⟩ := run_closing_bind_eq_ok hrun
    have hstored : size = state.size := congrArg ShmemState.size (Outcome.ok.inj hrun)
    have hgiven : reported = some size := Outcome.okOr_eq_ok.mp (congrArg Prod.fst hsome)
    refine ⟨w₂, ?_⟩
    rw [hreported, hgiven, hstored]

/-- An `init` of the default build that returns `Ok` stores what it connected. -/
theorem init_ok {l l' : Lock} (hinit : ((init false l).run handler w).1 = .ok (.ok (), l')) :
    ∃ state client w', l' = .holding state ∧ ((bringUp client).run handler w').1 = .ok state := by
  obtain ⟨poisoned, stored⟩ := l
  cases poisoned with
  | true => cases hinit
  | false =>
    cases stored with
    | some state => cases hinit
    | none =>
      obtain ⟨o, w', hconnect, hrest⟩ := Prog.run_bind_eq_ok (m := connect.reify) hinit
      rw [Prog.run_reify] at hconnect
      obtain rfl : (connect.run handler w).1 = o := Outcome.ok.inj (congrArg Prod.fst hconnect)
      rcases hstate : (connect.run handler w).1 with state | e | _ | _
      · rw [hstate] at hrest
        obtain rfl : Lock.holding state = l' := congrArg Prod.snd (Outcome.ok.inj hrest)
        obtain ⟨connected, w₁, -, hopen⟩ := Prog.run_bind_eq_ok hstate
        obtain ⟨client, w₂, -, hup⟩ := Prog.run_bind_eq_ok hopen
        exact ⟨state, client, w₂, rfl, hup⟩
      all_goals
        rw [hstate] at hrest
        cases hrest

end Runs

/-! ## The table against `n_pes` -/

/-- The peer table has the PEs of the job and no others: those below `n_pes`
are found by the validator and by `quiet_pe`, and no other one is. -/
structure CoversJob (state : ShmemState) : Prop where
  keys : ∀ pe : ℕ, pe ∈ state.peers ↔ pe < state.size
  found : ∀ pe < state.size, ∃ peer, state.peers[pe]? = some peer ∧
    (∀ offset len, peer.heapBase + offset < 2 ^ 64 → offset + len < 2 ^ 64 →
      peerAndAddress state pe offset len = .ok (peer, peer.heapBase + offset)) ∧
    ∀ fuel, quietPe fuel (.holding state) pe = flushPeer fuel peer
  refused : ∀ pe, state.size ≤ pe →
    (∀ offset len, ∃ m, peerAndAddress state pe offset len = .err (.usage m)) ∧
      ∀ fuel, ∃ m, quietPe fuel (.holding state) pe = Fn.fail (.usage m)

/-- A table with the PEs below the job size taken as a `u32` covers the job
exactly when the job size is a `u32`. -/
theorem coversJob_iff {state : ShmemState}
    (hkeys : ∀ k : ℕ, k ∈ state.peers ↔ k < state.size % 2 ^ 32) :
    CoversJob state ↔ state.size < 2 ^ 32 := by
  constructor
  · rintro ⟨hall, -, -⟩
    -- otherwise the last PE that fits a `u32` count is missing
    by_contra hlarge
    have hmem := (hkeys (state.size - 1)).mp ((hall _).mpr (by omega))
    omega
  · intro hsmall
    rw [Nat.mod_eq_of_lt hsmall] at hkeys
    refine ⟨hkeys, fun pe hpe => ?_, fun pe hpe => ?_⟩
    · have hword : pe < 2 ^ 32 := hpe.trans hsmall
      have htry : tryFrom 32 pe = some pe := tryFrom_eq_some.mpr ⟨hword, rfl⟩
      obtain ⟨peer, hpeer⟩ : ∃ peer, state.peers[pe]? = some peer :=
        ⟨_, Std.ExtTreeMap.getElem?_eq_some_getElem ((hkeys pe).mpr hpe)⟩
      refine ⟨peer, hpeer, fun offset len hfits hrange => ?_, fun fuel => ?_⟩
      · exact peerAndAddress_eq_ok.mpr ⟨hword, hpeer, rfl, hfits, hrange⟩
      · rw [quietPe, withState_holding, htry, Fn.okOr_some_bind, hpeer, Fn.okOr_some_bind]
    · have hnone : state.peers[pe]? = none :=
        Std.ExtTreeMap.getElem?_eq_none fun hmem => absurd ((hkeys pe).mp hmem) (Nat.not_lt_of_le hpe)
      refine ⟨fun offset len => ?_, fun fuel => ?_⟩
      · obtain ⟨peer, address, haccept⟩ | hrefuse := peerAndAddress_cases state pe offset len
        · obtain ⟨-, hpeer, -⟩ := peerAndAddress_eq_ok.mp haccept
          rw [hnone] at hpeer
          cases hpeer
        · exact hrefuse
      · rw [quietPe, withState_holding]
        rcases htry : tryFrom 32 pe with _ | pe'
        · exact ⟨_, rfl⟩
        · obtain ⟨-, rfl⟩ := tryFrom_eq_some.mp htry
          rw [Fn.okOr_some_bind, hnone]
          exact ⟨_, rfl⟩

/-- **Coverage**: whatever PMIx and UCX answer, an `init` of the default build
that returns `Ok` stores the job size that was reported, and a peer table that
covers the job if and only if that size is below `2 ^ 32`. -/
theorem peer_table_covers_iff {W : Type} (handler : Prog.Handler Ext W) (w : W) {l l' : Lock}
    (hinit : ((init false l).run handler w).1 = .ok (.ok (), l')) :
    ∃ state w', l' = .holding state ∧ nPes l' = .ok state.size ∧
      (jobSize.run handler w').1 = .ok (some state.size) ∧
      (CoversJob state ↔ state.size < 2 ^ 32) := by
  obtain ⟨state, client, w₁, rfl, hup⟩ := init_ok hinit
  obtain ⟨w₂, hsize⟩ := bringUp_size hup
  have hkeys := (bringUp_keys client).run handler w₁ state hup
  exact ⟨state, w₂, rfl, rfl, hsize, coversJob_iff hkeys⟩

/-- A process alone in its job. -/
theorem peer_table_covers_iff_instance : ∃ state : ShmemState, state.size = 1 ∧ CoversJob state := by
  obtain ⟨state, w', hlock, hsize, -, hcovers⟩ :=
    peer_table_covers_iff (accommodating 4096) () (l := .initial) rfl
  have hone : state.size = 1 := (Outcome.ok.inj hsize).symm
  exact ⟨state, hone, hcovers.mpr (by omega)⟩

/-- An environment in which all goes well, but which publishes no job size and
has `PMIX_SIZE=4294967296`. -/
def oversized : Prog.Handler Ext Unit
  | .pmix (.getWildcardUint32 _), w => (.error (.other (-46)), w)
  | .sys (.envVar "PMIX_SIZE"), w => (some "4294967296", w)
  | c, w => accommodating 4096 c w

/-- There `init` connects to no PE at all, returns `Ok`, and `n_pes` reports
`2 ^ 32` of them. -/
theorem peer_table_misses_job :
    ¬ ∀ (W : Type) (handler : Prog.Handler Ext W) (w : W) (l l' : Lock),
      ((init false l).run handler w).1 = .ok (.ok (), l') →
        ∃ state, l' = .holding state ∧ CoversJob state := by
  intro h
  obtain ⟨state, hlock, hcovers⟩ := h Unit oversized () .initial _ rfl
  have hsize : state.size = 2 ^ 32 :=
    (Option.some.inj (congrArg (fun l : Lock => l.state.map ShmemState.size) hlock)).symm
  have hpeers : state.peers = ∅ :=
    (Option.some.inj (congrArg (fun l : Lock => l.state.map ShmemState.peers) hlock)).symm
  have hzero : 0 ∈ state.peers := (hcovers.keys 0).mpr (by omega)
  rw [hpeers] at hzero
  exact absurd hzero Std.ExtTreeMap.not_mem_empty

end OpenShmem
