import OpenShmem.Completion

/-!
# What a put leaves on record

`put` and `putmem` seen from outside: which bytes they put where, and that a put that returns
has been accepted by UCX, if it had anything to put. It holds of any record that marks the
puts UCX accepts; so in any world with a fabric what a put puts is issued
(`Carries.issued_of_put`).
-/

namespace OpenShmem

/-- The call puts these bytes. -/
inductive CommCall.Puts (ne : Endian) : CommCall → ℕ → List UInt8 → ℕ → Prop where
  | putmem (pe : ℕ) (bytes : List UInt8) (offset : ℕ) :
    Puts ne (.rma (.putmem pe bytes offset)) pe bytes offset
  | put {T : Pod} (pe : ℕ) (src : List T.Value) (offset : ℕ) {bytes : List UInt8}
    (h : T.podAsBytes ne src = .ok bytes) : Puts ne (.rma (.put T pe src offset)) pe bytes offset

section Record

variable {N : Type} {note : Prog.Note Ext N} {mark : Ep → ℕ → List UInt8 → N} {ne : Endian}
  {fuel : ℕ} {l : Lock}

/-- An accepted put is marked on record. -/
def Marks (note : Prog.Note Ext N) (mark : Ep → ℕ → List UInt8 → N) : Prop :=
  ∀ ep bytes address rkey request,
    mark ep address bytes ∈ note (.ucx (.rmaPut ep bytes address rkey)) (.ok request)

theorem putmem_records (h : Marks note mark) (pe : ℕ) (bytes : List UInt8) (offset : ℕ) :
    (putmem fuel l pe bytes offset).Records note fun _ t =>
      ∃ state peer address, l = .holding state ∧
        peerAndAddress state pe offset bytes.length = .ok (peer, address) ∧
        (bytes ≠ [] → mark peer.endpoint address bytes ∈ t) := by
  refine Prog.Records.done_bind fun state hstate => ?_
  refine Prog.Records.done_bind fun p haccept => ?_
  have hl := lockedState_eq_ok.mp hstate
  obtain ⟨peer, address⟩ := p
  dsimp only
  split
  · next hempty =>
    rintro _ ⟨⟩
    exact ⟨state, peer, address, hl, haccept, fun hne => absurd (List.isEmpty_iff.mp hempty) hne⟩
  · refine Prog.Records.call fun issued => ?_
    obtain e | request := issued
    · exact Prog.Records.of_ne_ok fun _ h => by cases h
    · have hwait : (completeRequest fuel request).Records note fun _ _ => True :=
        Prog.Yields.records (Prog.yields_true _)
      exact hwait.mono fun _ t _ => ⟨state, peer, address, hl, haccept,
        fun _ => List.mem_append_left t (h ..)⟩

/-- **A put that returns was accepted**, if it had anything to put. -/
theorem puts_records (h : Marks note mark) {call : CommCall} {pe offset : ℕ} {bytes : List UInt8}
    (hputs : call.Puts ne pe bytes offset) :
    (call.exec ne fuel l).Records note fun _ t =>
      ∃ state peer address, l = .holding state ∧
        peerAndAddress state pe offset bytes.length = .ok (peer, address) ∧
        (bytes ≠ [] → mark peer.endpoint address bytes ∈ t) := by
  have hdrop : (putmem fuel l pe bytes offset >>= fun _ => pure [] : Fn (List UInt8)).Records note
      fun _ t => ∃ state peer address, l = .holding state ∧
        peerAndAddress state pe offset bytes.length = .ok (peer, address) ∧
        (bytes ≠ [] → mark peer.endpoint address bytes ∈ t) :=
    (putmem_records h pe bytes offset).bind fun _ t ht => by
      rintro _ ⟨⟩
      rwa [List.append_nil]
  cases hputs with
  | putmem => exact hdrop
  | put _ src _ hbytes =>
    rw [CommCall.exec, RmaRequest.exec, OpenShmem.put, hbytes]
    exact hdrop

end Record

theorem fabricNote_marks : Marks fabricNote .put := fun _ _ _ _ _ => List.mem_singleton_self _

/-- What a put puts is issued when it has returned. -/
theorem Carries.issued_of_put {ι σ N : Type} [DecidableEq ι] {lead : ι → Ep → ℕ}
    {S : Shared ι Ext σ N} {fabric : σ → Fabric ι} (hS : Carries lead S fabric)
    {s s' : Scene ι Ext Error (List UInt8) σ N} {i : ι} {ne : Endian} {fuel : ℕ} {l : Lock}
    {call : CommCall} {pe offset : ℕ} {bytes a : List UInt8}
    (h : S.Takes s s' i (call.exec ne fuel l) (.ok a)) (hputs : call.Puts ne pe bytes offset) :
    ∃ state peer address, l = .holding state ∧
      peerAndAddress state pe offset bytes.length = .ok (peer, address) ∧
      (bytes ≠ [] → ⟨i, peer.endpoint, address, bytes⟩ ∈ (fabric s'.world).flight.issued) := by
  obtain ⟨ext, t₁, t₂, hinv, ht, hrecord⟩ := hS.leaves h (puts_records fabricNote_marks hputs)
  obtain ⟨state, peer, address, hl, haccept, hmem⟩ := hrecord a rfl
  refine ⟨state, peer, address, hl, haccept, fun hbytes => ?_⟩
  refine hinv.put i peer.endpoint address bytes ?_
  rw [ht]
  exact List.mem_append_left _ (hmem hbytes)

end OpenShmem
