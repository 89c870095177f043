import OpenShmem.Fabric
import OpenShmem.RmaRange

/-!
# `quiet` completes everything

The PEs of a job make data calls, interleaved call by call, over its fabric. All that
is relied on is what a flush of an endpoint says once it has completed, and that a get
shows what was there while it was made. A PE makes one call after the other, as
`with_state` holds the lifecycle lock throughout; so no put of its own comes between
the flushes of `quiet`, and an endpoint that was flushed stays drained while the next
are.
-/

namespace OpenShmem

/-! ## The calls -/

/-- A data call of a PE. -/
inductive CommCall : Type where
  /-- a put, a get, or an atomic, its result dropped -/
  | rma (req : RmaRequest)
  | getmem (pe offset len : ℕ)
  | get (T : Pod) (pe offset lenElems : ℕ)
  | fence
  | quiet
  | quietPe (pe : ℕ)
  | quietAll

namespace CommCall

/-- What the call returns: the bytes of a get, those of its values if it is typed, and
nothing otherwise. -/
def exec (ne : Endian) (fuel : ℕ) (l : Lock) : CommCall → Fn (List UInt8)
  | rma req => do
    req.exec ne fuel l
    return []
  | getmem pe offset len => OpenShmem.getmem fuel l pe offset len
  | get T pe offset lenElems => do
    let values ← OpenShmem.get ne fuel l T pe offset lenElems
    return values.flatMap (T.toNeBytes ne)
  | fence => do
    OpenShmem.fence l
    return []
  | quiet => do
    OpenShmem.quiet fuel l
    return []
  | quietPe pe => do
    OpenShmem.quietPe fuel l pe
    return []
  | quietAll => do
    OpenShmem.quietAll fuel l
    return []

/-- The call gets so many bytes. -/
inductive Gets : CommCall → ℕ → ℕ → ℕ → Prop where
  | getmem (pe offset len : ℕ) : Gets (.getmem pe offset len) pe offset len
  | get (T : Pod) (pe offset lenElems : ℕ) :
    Gets (.get T pe offset lenElems) pe offset (lenElems * T.size)

/-- The call is one of those that complete. -/
def Quiets : CommCall → Prop
  | quiet | quietAll | quietPe _ => True
  | _ => False

/-- The endpoints that the call is to complete. -/
def Covers (l : Lock) : CommCall → Ep → Prop
  | quiet, _ | quietAll, _ => True
  | quietPe pe, ep => ∃ (state : ShmemState) (peer : PeerConnection), l = .holding state ∧
      state.peers[pe]? = some peer ∧ peer.endpoint = ep
  | _, _ => False

end CommCall

/-! ## What the calls leave on record -/

section Record

variable {α β : Type} (fuel : ℕ) (l : Lock)

/-- How a call may end that is to complete the endpoints with `C`: if it returns,
a flush of each of them has completed, and if something failed it returns an
error. -/
def Settles (C : Ep → Prop) (o : Outcome Error α) (t : List FabricEvent) : Prop :=
  (∀ a, o = .ok a → ∀ ep, C ep → DoneIn (.flush ep) t) ∧ (.failed ∈ t → ∃ e, o = .err e)

theorem Settles.mono {C C' : Ep → Prop} {o : Outcome Error α} {t : List FabricEvent}
    (h : Settles C o t) (hC : ∀ a, o = .ok a → ∀ ep, C' ep → C ep) : Settles C' o t :=
  ⟨fun a ha ep hep => h.1 a ha ep (hC a ha ep hep), h.2⟩

/-- Before anything was called. -/
theorem Settles.of_ne_ok {C : Ep → Prop} {o : Outcome Error α} (h : ∀ a, o ≠ .ok a) :
    Settles C o [] :=
  ⟨fun a ha => absurd ha (h a), fun h => absurd h List.not_mem_nil⟩

/-- One after the other. -/
theorem settles_bind {C C' : Ep → Prop} {m : Fn α} {f : α → Fn β}
    (hm : m.Leaves fabricNote (Settles C)) (hf : ∀ a, (f a).Leaves fabricNote (Settles C')) :
    (m >>= f).Leaves fabricNote (Settles fun ep => C ep ∨ C' ep) := by
  refine Prog.Leaves.bind (hm.mono ?_)
  rintro (a | e | _ | _) t ⟨hflushed, hfailed⟩
  · refine (hf a).mono fun o t' ht' => ⟨fun b hb ep hep => ?_, fun hmem => ?_⟩
    · obtain hep | hep := hep
      · exact (hflushed a rfl ep hep).append_left t'
      · exact (ht'.1 b hb ep hep).append_right t
    · obtain hmem | hmem := List.mem_append.mp hmem
      · obtain ⟨e, he⟩ := hfailed hmem
        cases he
      · exact ht'.2 hmem
  · exact ⟨fun _ h => (by cases h), fun _ => ⟨e, rfl⟩⟩
  · exact ⟨fun _ h => (by cases h), fun h => (hfailed h).imp fun _ h => by cases h⟩
  · exact ⟨fun _ h => (by cases h), fun h => (hfailed h).imp fun _ h => by cases h⟩

/-- A wait that succeeds has found its request complete. -/
theorem waitRequest_leaves (request : Request) :
    (UcxTransport.waitRequest request fuel).Leaves fabricNote fun o t =>
      (∀ a, o = .ok a → t = [.waited request]) ∧ (.failed ∈ t → ∃ e, o = .err e) := by
  induction fuel with
  | zero => exact ⟨fun _ h => (by cases h), fun h => absurd h List.not_mem_nil⟩
  | succ fuel ih =>
    rintro (e | _ | _)
    · exact ⟨fun _ h => (by cases h), fun _ => ⟨_, rfl⟩⟩
    · exact ih
    · refine ⟨fun _ _ => rfl, fun h => ?_⟩
      cases List.mem_singleton.mp h

/-- One step of the loop. -/
theorem flushPeer_leaves (peer : PeerConnection) :
    (flushPeer fuel peer).Leaves fabricNote (Settles (· = peer.endpoint)) := by
  rintro (e | _ | request)
  · exact ⟨fun _ h => (by cases h), fun _ => ⟨_, rfl⟩⟩
  · refine ⟨fun _ _ ep hep => Or.inl ?_, fun h => ?_⟩
    · rw [hep]
      exact List.mem_singleton_self _
    · cases List.mem_singleton.mp h
  · refine (waitRequest_leaves fuel request).mono fun o t ht => ⟨fun a ha ep hep => ?_, fun h => ?_⟩
    · rw [hep, ht.1 a ha]
      exact Or.inr ⟨request, List.infix_rfl⟩
    · obtain h | h := List.mem_cons.mp h
      · cases h
      · exact ht.2 h

/-- **The loop of `quiet`**: an endpoint that was flushed stays on record while the
next are. -/
theorem flushPeers_leaves (peers : List PeerConnection) :
    (flushPeers fuel peers).Leaves fabricNote
      (Settles fun ep => ∃ peer ∈ peers, peer.endpoint = ep) := by
  induction peers with
  | nil =>
    refine ⟨fun _ _ ep hep => ?_, fun h => absurd h List.not_mem_nil⟩
    obtain ⟨peer, hmem, -⟩ := hep
    exact absurd hmem List.not_mem_nil
  | cons peer peers ih =>
    refine (settles_bind (flushPeer_leaves fuel peer) fun _ => ih).mono fun o t ht =>
      ht.mono fun _ _ ep hep => ?_
    obtain ⟨peer', hmem, rfl⟩ := hep
    obtain rfl | hmem := List.mem_cons.mp hmem
    · exact Or.inl rfl
    · exact Or.inr ⟨peer', hmem, rfl⟩

/-- The endpoint is in the PE's own table. -/
def OwnEndpoint (ep : Ep) : Prop :=
  ∃ (state : ShmemState) (pe : ℕ) (peer : PeerConnection), l = .holding state ∧
    state.peers[pe]? = some peer ∧ peer.endpoint = ep

/-- Every peer of a table is among its values. -/
theorem mem_values {peers : Peers} {pe : ℕ} {peer : PeerConnection} (h : peers[pe]? = some peer) :
    peer ∈ peers.values := by
  have hvalues : peers.values = peers.foldr (fun _ v vs => v :: vs) [] := by
    obtain ⟨⟨t⟩⟩ := peers
    rfl
  rw [hvalues, Std.ExtTreeMap.foldr_eq_foldr_toList, ← List.map_eq_foldr]
  exact List.mem_map.mpr ⟨(pe, peer), Std.ExtTreeMap.mem_toList_iff_getElem?_eq_some.mpr h, rfl⟩

theorem quiet_leaves :
    (quiet fuel l).Leaves fabricNote (Settles (OwnEndpoint l)) := by
  obtain ⟨state, rfl, -⟩ | ⟨-, -, h⟩ | ⟨-, h⟩ := lockedState_cases l
  · refine (flushPeers_leaves fuel state.peers.values).mono fun o t ht =>
      ht.mono fun _ _ ep hep => ?_
    obtain ⟨state', pe, peer, ⟨⟩, hpeer, hep⟩ := hep
    exact ⟨peer, mem_values hpeer, hep⟩
  · rw [quiet, withState, h]
    exact Settles.of_ne_ok fun _ h => by cases h
  · rw [quiet, withState, h]
    exact Settles.of_ne_ok fun _ h => by cases h

theorem quietPe_leaves (pe : ℕ) :
    (quietPe fuel l pe).Leaves fabricNote (Settles ((CommCall.quietPe pe).Covers l)) := by
  refine Prog.Leaves.done_bind (fun state hstate => ?_) fun _ => Settles.of_ne_ok
  refine Prog.Leaves.done_bind (fun pe' hpe => ?_) fun _ => Settles.of_ne_ok
  refine Prog.Leaves.done_bind (fun peer hpeer => ?_) fun _ => Settles.of_ne_ok
  obtain ⟨-, rfl⟩ := tryFrom_eq_some.mp (Outcome.okOr_eq_ok.mp hpe)
  refine (flushPeer_leaves fuel peer).mono fun o t ht => ht.mono fun _ _ ep hep => ?_
  obtain ⟨state', peer', rfl, hpeer', rfl⟩ := hep
  obtain rfl := Outcome.ok.inj hstate
  rw [Option.some.inj (hpeer'.symm.trans (Outcome.okOr_eq_ok.mp hpeer))]

/-- The calls that complete, with their results dropped. -/
theorem exec_settles (ne : Endian) {call : CommCall} (h : call.Quiets) :
    (call.exec ne fuel l).Leaves fabricNote
      (Settles fun ep => OwnEndpoint l ep ∧ call.Covers l ep) := by
  have hdrop : ∀ {C : Ep → Prop} {m : Fn Unit}, m.Leaves fabricNote (Settles C) →
      (∀ ep, OwnEndpoint l ep ∧ call.Covers l ep → C ep) →
      (m >>= fun _ => pure [] : Fn (List UInt8)).Leaves fabricNote
        (Settles fun ep => OwnEndpoint l ep ∧ call.Covers l ep) := by
    intro C m hm hC
    have hnothing : ∀ _ : Unit, (pure [] : Fn (List UInt8)).Leaves fabricNote
        (Settles fun _ => False) :=
      fun _ => ⟨fun _ _ _ h => h.elim, fun h => absurd h List.not_mem_nil⟩
    exact (settles_bind hm hnothing).mono fun o t ht => ht.mono fun _ _ ep hep => Or.inl (hC ep hep)
  cases call with
  | quiet => exact hdrop (quiet_leaves fuel l) fun _ h => h.1
  | quietAll => exact hdrop (quiet_leaves fuel l) fun _ h => h.1
  | quietPe pe => exact hdrop (quietPe_leaves fuel l pe) fun _ h => h.2
  | rma req => exact h.elim
  | getmem pe offset len => exact h.elim
  | get T pe offset lenElems => exact h.elim
  | fence => exact h.elim

/-- A get of raw bytes that returns has the length asked for, and is on record as complete. -/
theorem getmem_records (pe offset len : ℕ) :
    (getmem fuel l pe offset len).Records fabricNote fun bytes t =>
      ∃ state peer address, l = .holding state ∧
        peerAndAddress state pe offset len = .ok (peer, address) ∧ bytes.length = len ∧
        (len ≠ 0 → DoneIn (.get peer.endpoint address bytes) t) := by
  refine Prog.Records.done_bind fun state hstate => ?_
  refine Prog.Records.done_bind fun p haccept => ?_
  have hl := lockedState_eq_ok.mp hstate
  obtain ⟨peer, address⟩ := p
  dsimp only
  split
  · split
    · next hzero =>
      rintro _ ⟨⟩
      exact ⟨state, peer, address, hl, haccept, hzero.symm, fun h => absurd hzero h⟩
    · refine Prog.Records.call fun issued => ?_
      obtain e | ⟨_ | request, shown⟩ := issued
      · exact Prog.Records.of_ne_ok fun _ h => by cases h
      · rintro _ ⟨⟩
        exact ⟨state, peer, address, hl, haccept, shown.toList_length,
          fun _ => Or.inl List.mem_cons_self⟩
      · have hwait : (completeRequest fuel (some request)).Records fabricNote
            fun _ t => t = [.waited request] :=
          (waitRequest_leaves fuel request).mono fun _ _ h => h.1
        refine Prog.Records.bind (m := completeRequest fuel (some request)) hwait fun _ t ht => ?_
        rintro _ ⟨⟩
        rw [ht]
        exact ⟨state, peer, address, hl, haccept, shown.toList_length,
          fun _ => Or.inr ⟨request, List.infix_rfl⟩⟩
  · exact Prog.Records.of_ne_ok fun _ h => by cases h

/-- **A get that returns** has the length asked for, and is on record as complete. -/
theorem gets_records {ne : Endian} {call : CommCall} {pe offset len : ℕ}
    (hgets : call.Gets pe offset len) :
    (call.exec ne fuel l).Records fabricNote fun bytes t =>
      ∃ state peer address, l = .holding state ∧
        peerAndAddress state pe offset len = .ok (peer, address) ∧ bytes.length = len ∧
        (len ≠ 0 → DoneIn (.get peer.endpoint address bytes) t) := by
  cases hgets with
  | getmem => exact getmem_records fuel l pe offset len
  | get T _ _ lenElems =>
    refine Prog.Records.bind (R := fun values t => ∃ state peer address, l = .holding state ∧
      peerAndAddress state pe offset (lenElems * T.size) = .ok (peer, address) ∧
      (values.flatMap (T.toNeBytes ne)).length = lenElems * T.size ∧
      (lenElems * T.size ≠ 0 → DoneIn (.get peer.endpoint address
        (values.flatMap (T.toNeBytes ne))) t)) ?_ fun values t ht => ?_
    · refine Prog.Records.done_bind fun len hlen => ?_
      obtain ⟨-, rfl⟩ := checkedMul_eq_some.mp (Outcome.okOr_eq_ok.mp hlen)
      refine Prog.Records.bind (getmem_records fuel l pe offset _) fun bytes t ht => ?_
      obtain ⟨state, peer, address, hl, haccept, hbytes, hdone⟩ := ht
      -- the values are read off the bytes, and have these bytes
      rw [Pod.collect_decode_chunks]
      rintro _ ⟨⟩
      have hvalues : ((chunksExact T.size bytes).map (T.fromNeBytes ne)).flatMap
          (T.toNeBytes ne) = bytes :=
        Pod.flatMap_toNeBytes_chunks ne (hbytes ▸ Nat.dvd_mul_left ..)
      rw [List.append_nil, hvalues]
      exact ⟨state, peer, address, hl, haccept, hbytes, hdone⟩
    · rintro _ ⟨⟩
      rwa [List.append_nil]

end Record

/-! ## Where puts go -/

section Puts

variable (ne : Endian) (fuel : ℕ) (l : Lock)

/-- A put goes to an endpoint of the PE's own table. -/
def PutsOwn (c : ExtCall) : Prop :=
  ∀ ep bytes address rkey, c = .ucx (.rmaPut ep bytes address rkey) → OwnEndpoint l ep

theorem putsOwn_of_no_range {c : ExtCall} (h : remoteRange c = none) : PutsOwn l c := by
  rintro ep bytes address rkey rfl
  cases h

theorem putsOwn_of_issues {pe offset len : ℕ} {c : ExtCall} (h : Issues l pe offset len c) :
    PutsOwn l c := by
  cases h with
  | access hl haccept _ h =>
    rintro ep bytes address rkey rfl
    cases h with
    | put bytes => exact ⟨_, pe, _, hl, (peerAndAddress_eq_ok.mp haccept).2.1, rfl⟩
  | other h => exact putsOwn_of_no_range l h

theorem flushPeer_putsOwn (peer : PeerConnection) :
    (flushPeer fuel peer).Sat (PutsOwn l) fun _ => True :=
  ⟨putsOwn_of_no_range l rfl, fun issued =>
    answered_sat (fun _ => putsOwn_of_no_range l) issued fuel⟩

theorem flushPeers_putsOwn (peers : List PeerConnection) :
    (flushPeers fuel peers).Sat (PutsOwn l) fun _ => True := by
  induction peers with
  | nil => exact trivial
  | cons peer peers ih => exact (flushPeer_putsOwn fuel l peer).bind_any fun _ => ih

theorem exec_putsOwn (call : CommCall) : (call.exec ne fuel l).Sat (PutsOwn l) fun _ => True := by
  have hdone : ∀ {m : Fn Unit}, m.Sat (PutsOwn l) (fun _ => True) →
      (m >>= fun _ => pure [] : Fn (List UInt8)).Sat (PutsOwn l) fun _ => True :=
    fun hm => hm.bind_any fun _ => trivial
  have hquiet : (quiet fuel l).Sat (PutsOwn l) fun _ => True :=
    withState_sat (fun state _ => flushPeers_putsOwn fuel l _) trivial trivial
  cases call with
  | rma req =>
    exact hdone ((exec_issues fuel ne req).mono (fun _ => putsOwn_of_issues l) fun _ h => h)
  | getmem pe offset len =>
    exact (getmem_issues fuel pe offset len).mono (fun _ => putsOwn_of_issues l) fun _ h => h
  | get T pe offset lenElems =>
    refine Prog.Sat.bind_any (Prog.Sat.done_bind fun len _ => ?_) fun _ => trivial
    refine ((getmem_issues fuel pe offset len).mono (fun _ => putsOwn_of_issues l)
      fun _ h => h).bind_any fun _ => ?_
    exact trivial
  | fence =>
    refine hdone (withState_sat (fun state _ => ?_) trivial trivial)
    exact ⟨putsOwn_of_no_range l rfl, fun _ => trivial⟩
  | quiet => exact hdone hquiet
  | quietPe pe =>
    refine hdone (withState_sat (fun state _ => ?_) trivial trivial)
    refine Prog.Sat.done_bind fun pe _ => Prog.Sat.done_bind fun peer _ => ?_
    exact flushPeer_putsOwn fuel l peer
  | quietAll => exact hdone hquiet

end Puts

/-! ## What a call does to the fabric -/

namespace Carries

variable {ι σ N : Type} [DecidableEq ι] {lead : ι → Ep → ℕ} {S : Shared ι Ext σ N}
  {fabric : σ → Fabric ι} (hS : Carries lead S fabric)
  {s s' : Scene ι Ext Error (List UInt8) σ N} {i : ι} {ne : Endian} {fuel : ℕ} {l : Lock}

include hS

/-- A get that returns has read while it was made. -/
theorem shown_of_get {call : CommCall} {pe offset len : ℕ} {shown : List UInt8}
    (h : S.Takes s s' i (call.exec ne fuel l) (.ok shown)) (hgets : call.Gets pe offset len) :
    ∃ state peer address, l = .holding state ∧
      peerAndAddress state pe offset len = .ok (peer, address) ∧ shown.length = len ∧
      (fabric s.world).flight.Shown lead (fabric s'.world).flight (lead i peer.endpoint) address
        shown := by
  obtain ⟨ext, t₁, t₂, hinv, ht, hrecord⟩ := hS.leaves h (gets_records fuel l hgets)
  obtain ⟨state, peer, address, hl, haccept, hlen, hdone⟩ := hrecord shown rfl
  refine ⟨state, peer, address, hl, haccept, hlen, ?_⟩
  obtain rfl | hpos := Nat.eq_zero_or_pos len
  · intro x hx
    exact absurd hx (by omega)
  · have hpart : DoneIn (.get peer.endpoint address shown) (partOf i ext) := by
      rw [ht]
      exact (hdone (Nat.ne_of_gt hpos)).append_left t₂
    exact hinv.complete i _ hpart

/-- What a PE has issued on an endpoint has landed when a call that covers it returns. -/
theorem landed_of_quiet {call : CommCall} (hquiets : call.Quiets) {bytes : List UInt8}
    (h : S.Takes s s' i (call.exec ne fuel l) (.ok bytes)) {n : ℕ} {w : Write ι Ep UInt8}
    (hw : (fabric s.world).flight.issued[n]? = some w) (hi : w.issuer = i)
    (hown : OwnEndpoint l w.channel) (hcovers : call.Covers l w.channel) :
    .write n ∈ (fabric s'.world).flight.history := by
  obtain ⟨ext, t₁, t₂, hinv, ht, hflushed, -⟩ := hS.leaves h (exec_settles fuel l ne hquiets)
  have hpart : DoneIn (.flush w.channel) (partOf i ext) := by
    -- what has begun after the call may have left more
    rw [ht]
    exact (hflushed bytes rfl w.channel ⟨hown, hcovers⟩).append_left t₂
  have hdrained := hinv.complete i _ hpart
  have hn : n < (fabric s.world).flight.issued.length := (List.getElem?_eq_some_iff.mp hw).1
  exact hdrained n hn w (hinv.later.getElem? hw) hi rfl

end Carries

/-! ## The theorem -/

section Quiet

variable {ι : Type} [DecidableEq ι] {ne : Endian} {fuel : ℕ} {lead : ι → Ep → ℕ}
  {lock : ι → Lock}

/-- A job making data calls. -/
abbrev CommScene (ι : Type) : Type := Scene ι Ext Error (List UInt8) (Fabric ι) FabricEvent

/-- The job before its first calls. -/
def commStart (ne : Endian) (fuel : ℕ) (lock : ι → Lock) (calls : ι → List CommCall)
    (memory : Memories UInt8) : CommScene ι :=
  Shared.start (fun i => (calls i).map (·.exec ne fuel (lock i))) (.fresh memory)

/-- Writes are only ever issued on endpoints of the issuer's own table. -/
theorem issued_own {calls : ι → List CommCall} {memory : Memories UInt8} {s : CommScene ι}
    (hs : (fabricWorld lead).Run (commStart ne fuel lock calls memory) s) :
    ∀ w ∈ s.world.flight.issued, OwnEndpoint (lock w.issuer) w.channel := by
  have hconfined : (commStart ne fuel lock calls memory).Confined fun i => PutsOwn (lock i) := by
    intro i m hm
    obtain ⟨call, -, rfl⟩ := List.mem_map.mp hm
    exact exec_putsOwn ne fuel (lock i) call
  refine hs.invariant (I := fun f _ => ∀ w ∈ f.flight.issued, OwnEndpoint (lock w.issuer) w.channel)
    hconfined (fun w hw => absurd hw List.not_mem_nil) ?_ ?_ s.trace rfl
  · rintro f i c x f' t hf hputs ⟨-, rfl⟩
    obtain hsame | ⟨ep, bytes, address, rkey, hc, hnew⟩ := after_issued f i c x
    · rwa [hsame]
    · rw [hnew]
      refine List.forall_mem_append.mpr ⟨hf, fun w hw => ?_⟩
      rw [List.mem_singleton.mp hw]
      exact hputs ep bytes address rkey hc
  · rintro f f' t hf ⟨hmoves, -⟩
    rwa [hmoves.issued_eq]

/-- **`quiet` completes everything.** When it returns, in any run of any job, no
write that its PE had issued on an endpoint it covers is still in flight; and what
any PE gets from then on was read, while the get was made, with these writes in
place. When a flush or a wait fails, it returns an error. -/
theorem quiet_completes {calls : ι → List CommCall} {memory : Memories UInt8} {s : CommScene ι}
    (hs : (fabricWorld lead).Run (commStart ne fuel lock calls memory) s) {i : ι} {call : CommCall}
    (hquiets : call.Quiets) :
    (∀ s' bytes, (fabricWorld lead).Takes s s' i (call.exec ne fuel (lock i)) (.ok bytes) →
      ∀ n w, s.world.flight.issued[n]? = some w → w.issuer = i → call.Covers (lock i) w.channel →
        ¬ s'.world.flight.InFlight n ∧
        ∀ s₂ s₃ j get pe offset len shown, (fabricWorld lead).Run s' s₂ →
          CommCall.Gets get pe offset len →
          (fabricWorld lead).Takes s₂ s₃ j (get.exec ne fuel (lock j)) (.ok shown) →
          ∃ state peer address, lock j = .holding state ∧
            peerAndAddress state pe offset len = .ok (peer, address) ∧ shown.length = len ∧
            s₂.world.flight.Seen lead s₃.world.flight n (lead j peer.endpoint) address shown) ∧
    (call.exec ne fuel (lock i)).Leaves fabricNote fun o t => .failed ∈ t → ∃ e, o = .err e := by
  have hcarries := fabricWorld_carries lead
  refine ⟨fun s' bytes hquiet n w hw hi hcovers => ?_,
    (exec_settles fuel (lock i) ne hquiets).mono fun _ _ h => h.2⟩
  have hown : OwnEndpoint (lock i) w.channel := by
    rw [← hi]
    exact issued_own hs w (List.mem_of_getElem? hw)
  have hlanded := hcarries.landed_of_quiet hquiets hquiet hw hi hown hcovers
  refine ⟨fun hflight => hflight.2 hlanded, ?_⟩
  intro s₂ s₃ j get pe offset len shown hrun hgets hget
  obtain ⟨state, peer, address, hl, haccept, hlen, hshown⟩ := hcarries.shown_of_get hget hgets
  -- the get begins later, and reads later still
  exact ⟨state, peer, address, hl, haccept, hlen,
    hshown.seen lead ((hcarries.later hrun).landed hlanded)⟩

end Quiet

/-! ## A fabric that delivers on demand -/

section OnDemand

variable {ι : Type} [DecidableEq ι] (lead : ι → Ep → ℕ)

/-- Puts are accepted, gets show what is there, and a flush is a request that is
complete once everything has landed. -/
def onDemand (f : Fabric ι) (i : ι) (c : ExtCall) : Option (c.Reply × Fabric ι) :=
  match c with
  | .ucx (.rmaPut ep bytes address rkey) =>
    some (.ok none, f.after i (.ucx (.rmaPut ep bytes address rkey)) (.ok none))
  | .ucx (.rmaGet ep len address rkey) =>
    let shown := List.Vector.ofFn fun x => f.flight.memory lead (lead i ep) (address + x)
    some (.ok (none, shown), f.after i (.ucx (.rmaGet ep len address rkey)) (.ok (none, shown)))
  | .ucx (.flush ep) => some (.ok (some ⟨0⟩), f.after i (.ucx (.flush ep)) (.ok (some ⟨0⟩)))
  | .ucx (.waitRequest request) =>
    match f.pending (i, request) with
    | some (.flush _, _) =>
      some (.ok ((List.range f.flight.issued.length).all f.flight.hasLanded), f)
    | _ => none
  | _ => none

theorem onDemand_answers {f f' : Fabric ι} {i : ι} {c : ExtCall} {x : c.Reply}
    (h : onDemand lead f i c = some (x, f')) : (fabricWorld lead).Answers f i c x f' := by
  dsimp only [onDemand] at h
  split at h
  · cases h
    exact ⟨trivial, rfl⟩
  · cases h
    refine ⟨Flight.Shown.now lead fun x hx => ?_, rfl⟩
    rw [List.getElem_of_eq (List.Vector.toList_ofFn _), List.getElem_ofFn]
  · cases h
    exact ⟨trivial, rfl⟩
  · next request =>
    split at h
    · next ep began hpending =>
      cases h
      cases hall : (List.range f.flight.issued.length).all f.flight.hasLanded with
      | false => exact ⟨trivial, rfl⟩
      | true =>
        refine ⟨fun task began' htask => ?_, rfl⟩
        cases hpending.symm.trans htask
        intro n _ w hw _ _
        have hn := (List.getElem?_eq_some_iff.mp hw).1
        exact f.flight.hasLanded_iff.mp (List.all_eq_true.mp hall n (List.mem_range.mpr hn))
    · cases h
  · cases h

/-- Write number `n` is delivered, if it is in flight. -/
def deliver (n : ℕ) (f : Fabric ι) : Option (Fabric ι) :=
  if h : f.flight.InFlight n then some { f with flight := f.flight.deliver n h.1 } else none

theorem deliver_drifts {n : ℕ} {f f' : Fabric ι} (h : deliver n f = some f') :
    (fabricWorld lead).Drift f f' := by
  rw [deliver] at h
  split at h
  · next hn =>
    cases h
    exact ⟨.deliver n hn, rfl⟩
  · cases h

end OnDemand

/-- A job of two. -/
def pairLock (_ : Bool) : Lock := .holding { loneState with
  peers := (∅ : Peers).insertMany
    [(0, ⟨⟨[0]⟩, ⟨⟨[0]⟩, [1, 2, 3, 4]⟩, 4096⟩), (1, ⟨⟨[1]⟩, ⟨⟨[1]⟩, [1, 2, 3, 4]⟩, 8192⟩)]
  size := 2 }

/-- Where its endpoints lead to. -/
def pairLead (_ : Bool) (ep : Ep) : ℕ := (ep.remote.headD 0).toNat

/-- The first PE puts two bytes on the second and calls `quiet`; then the second
reads its own. -/
def pairCalls : Bool → List CommCall
  | false => [.rma (.putmem 1 [7, 8] 16), .quiet]
  | true => [.getmem 1 16 2]

def pairStart : CommScene Bool := commStart .little 2 pairLock pairCalls fun _ _ => 0

theorem pair_plays : ∃ s s' s₃ : CommScene Bool,
    (fabricWorld pairLead).play (onDemand pairLead) deliver [.inl false, .inl false] pairStart =
      some s ∧
    (fabricWorld pairLead).play (onDemand pairLead) deliver
      [.inl false, .inl false, .inr 0, .inl false, .inl false, .inl false, .inl false] s = some s' ∧
    (fabricWorld pairLead).play (onDemand pairLead) deliver [.inl true, .inl true] s' = some s₃ ∧
    s.todo false = [CommCall.quiet.exec .little 2 (pairLock false)] ∧
    s.world.flight.issued = [⟨false, ⟨[1]⟩, 8208, [7, 8]⟩] ∧ s.world.flight.InFlight 0 ∧
    (s'.results false)[(s.results false).length]? = some (.ok []) ∧
    s'.todo true = [(CommCall.getmem 1 16 2).exec .little 2 (pairLock true)] ∧
    (s₃.results true)[(s'.results true).length]? = some (.ok [7, 8]) := by
  refine ⟨_, _, _, rfl, rfl, rfl, rfl, rfl, ?_, rfl, rfl, ?_⟩
  · decide
  · decide +kernel

/-- The write is in flight when `quiet` begins, is delivered between two of its
polls, and is what the other PE then reads. -/
theorem quiet_completes_instance : ∃ s s' s₃ : CommScene Bool,
    (fabricWorld pairLead).Takes s s' false (CommCall.quiet.exec .little 2 (pairLock false))
      (.ok []) ∧
    s.world.flight.InFlight 0 ∧ ¬ s'.world.flight.InFlight 0 ∧
    (fabricWorld pairLead).Takes s' s₃ true
      ((CommCall.getmem 1 16 2).exec .little 2 (pairLock true)) (.ok [7, 8]) ∧
    s'.world.flight.Seen pairLead s₃.world.flight 0 1 8208 [7, 8] := by
  obtain ⟨s, s', s₃, hput, hquiet, hget, htodo, hissued, hflight, hok, htodo', hshown⟩ := pair_plays
  have hrun : ∀ {schedule} {a b : CommScene Bool},
      (fabricWorld pairLead).play (onDemand pairLead) deliver schedule a = some b →
        (fabricWorld pairLead).Run a b :=
    fun h => Shared.run_of_play (onDemand_answers pairLead) (deliver_drifts pairLead) h
  have hquieted : (fabricWorld pairLead).Takes s s' false _ (.ok []) :=
    ⟨hrun hquiet, ⟨[], htodo⟩, hok⟩
  have hreads : (fabricWorld pairLead).Takes s' s₃ true _ (.ok [7, 8]) :=
    ⟨hrun hget, ⟨[], htodo'⟩, hshown⟩
  have hissued0 : s.world.flight.issued[0]? = some ⟨false, ⟨[1]⟩, 8208, [7, 8]⟩ := by
    rw [hissued]
    rfl
  have hquiets : CommCall.quiet.Quiets := trivial
  obtain ⟨hlanded, hsees⟩ :=
    (quiet_completes (hrun hput) hquiets).1 s' [] hquieted 0 _ hissued0 rfl trivial
  obtain ⟨state, peer, address, hl, haccept, -, hread⟩ :=
    hsees s' s₃ true _ 1 16 2 [7, 8] .refl (.getmem 1 16 2) hreads
  have haddress : peerAndAddress state 1 16 2 =
      .ok (⟨⟨[1]⟩, ⟨⟨[1]⟩, [1, 2, 3, 4]⟩, 8192⟩, 8208) := by
    obtain rfl : _ = state := Option.some.inj (congrArg Lock.state hl)
    rfl
  obtain ⟨rfl, rfl⟩ := Prod.mk.inj (Outcome.ok.inj (haddress.symm.trans haccept))
  exact ⟨s, s', s₃, hquieted, hflight, hlanded, hreads, hread⟩

end OpenShmem
