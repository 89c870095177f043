import OpenShmem.Fences
import OpenShmem.Puts

/-!
# What `fence` is for

A PE puts data, calls `fence`, and puts a flag; another gets the flag and then the data. Of
UCX it is relied on that a fence of the worker orders what is put on each endpoint, and that
what a get shows was there at some time between its beginning and its completion. No PE waits
for anything to be complete at the other, which is the difference to `quiet`.
-/

namespace OpenShmem

/-! ## The wire -/

/-- The fabric of a job, and the fences between its writes. -/
structure Wire (ι : Type) : Type where
  fabric : Fabric ι
  /-- for each write, how many had been issued when its issuer last fenced -/
  floors : List ℕ
  /-- for each PE, how many had been issued when it last fenced -/
  mark : ι → ℕ

namespace Wire

variable {ι : Type} [DecidableEq ι] (w : Wire ι) (i : ι)

/-- Before the first call. -/
def fresh (memory : Memories UInt8) : Wire ι := ⟨.fresh memory, [], fun _ => 0⟩

/-- The writes, with the fences between them. -/
def fenced : Fenced ι Ep UInt8 := ⟨w.fabric.flight, w.floors, w.mark⟩

/-- The wire after a call of PE `i` has been answered. -/
def after : (c : ExtCall) → c.Reply → Wire ι
  | .ucx (.rmaPut ep bytes address rkey), .ok request =>
    { w with
      fabric := w.fabric.after i (.ucx (.rmaPut ep bytes address rkey)) (.ok request)
      floors := w.floors ++ [w.mark i] }
  | .ucx .fence, .ok () =>
    { w with mark := Function.update w.mark i w.fabric.flight.issued.length }
  | c, x => { w with fabric := w.fabric.after i c x }

end Wire

/-- What is put and fenced on record. -/
inductive WireEvent : Type where
  /-- a put was accepted -/
  | put (ep : Ep) (address : ℕ) (bytes : List UInt8)
  | fenced

def wireNote : Prog.Note Ext WireEvent
  | .ucx (.rmaPut ep bytes address _), .ok _ => [.put ep address bytes]
  | .ucx .fence, .ok () => [.fenced]
  | _, _ => []

/-- PEs over a fabric that delivers when it likes, but for the fences. -/
def wireWorld {ι : Type} [DecidableEq ι] (lead : ι → Ep → ℕ) :
    Shared ι Ext (Wire ι) WireEvent where
  Answers w i c x w' := w.fabric.Allows lead i c x ∧ w' = w.after i c x
  Drift w w' := w.fenced.Moves w'.fenced ∧ w'.fabric.pending = w.fabric.pending
  note := wireNote

section Step

variable {ι : Type} [DecidableEq ι] {lead : ι → Ep → ℕ}

/-- **What an answer does to the wire**: a put that is accepted goes behind the last fence of
its PE, a fence behind all there is, and nothing else is put or fenced. -/
theorem wire_step (w : Wire ι) (i : ι) (c : ExtCall) (x : c.Reply) :
    (w.after i c x).fabric = w.fabric.after i c x ∧
      ((∃ ep address bytes, wireNote c x = [.put ep address bytes] ∧
          (w.after i c x).fenced = w.fenced.issue ⟨i, ep, address, bytes⟩) ∨
        (wireNote c x = [.fenced] ∧ (w.after i c x).fenced = w.fenced.fence i) ∨
        wireNote c x = [] ∧ (w.after i c x).fenced = w.fenced) := by
  have hother : ∀ f : Fabric ι, f.flight = w.fabric.flight →
      ({ w with fabric := f } : Wire ι).fenced = w.fenced := by
    intro f hf
    rw [Wire.fenced, hf]
    rfl
  obtain c | c | c | c := c
  · exact ⟨rfl, Or.inr (Or.inr ⟨rfl, rfl⟩)⟩
  · cases c with
    | rmaPut ep bytes address rkey =>
      cases x with
      | error e => exact ⟨rfl, Or.inr (Or.inr ⟨rfl, rfl⟩)⟩
      | ok request => exact ⟨rfl, Or.inl ⟨ep, address, bytes, rfl, rfl⟩⟩
    | fence =>
      cases x with
      | error e => exact ⟨rfl, Or.inr (Or.inr ⟨rfl, rfl⟩)⟩
      | ok _ => exact ⟨rfl, Or.inr (Or.inl ⟨rfl, rfl⟩)⟩
    | rmaGet _ _ _ _ =>
      refine ⟨rfl, Or.inr (Or.inr ⟨rfl, hother _ ?_⟩)⟩
      cases x <;> simp [Fabric.after]
    | amo _ _ _ _ _ =>
      refine ⟨rfl, Or.inr (Or.inr ⟨rfl, hother _ ?_⟩)⟩
      cases x <;> simp [Fabric.after]
    | fetchAmo _ _ _ _ _ =>
      refine ⟨rfl, Or.inr (Or.inr ⟨rfl, hother _ ?_⟩)⟩
      cases x <;> simp [Fabric.after]
    | flush _ =>
      refine ⟨rfl, Or.inr (Or.inr ⟨rfl, hother _ ?_⟩)⟩
      cases x <;> simp [Fabric.after]
    | _ => exact ⟨rfl, Or.inr (Or.inr ⟨rfl, rfl⟩)⟩
  · exact ⟨rfl, Or.inr (Or.inr ⟨rfl, rfl⟩)⟩
  · exact ⟨rfl, Or.inr (Or.inr ⟨rfl, rfl⟩)⟩

theorem wireWorld_carries (lead : ι → Ep → ℕ) : Carries lead (wireWorld lead) Wire.fabric where
  answers h := ⟨h.1, h.2 ▸ (wire_step ..).1⟩
  drift h := ⟨h.1.flight, h.2⟩

end Step

/-! ## What the record says of the fences -/

section Invariant

variable {ι : Type} [DecidableEq ι] {lead : ι → Ep → ℕ} {i : ι} {F₀ F G : Fenced ι Ep UInt8}
  {t : List (ι × WireEvent)}

/-- What is known of the fences from the record since `F₀`. -/
structure FencedInv (F₀ F : Fenced ι Ep UInt8) (t : List (ι × WireEvent)) : Prop where
  ordered : F.Ordered
  later : F₀.Later F
  put : ∀ i ep address bytes, .put ep address bytes ∈ partOf i t →
    F₀.IssuedSince F ⟨i, ep, address, bytes⟩
  fenced : ∀ i, .fenced ∈ partOf i t → F₀.flight.issued.length ≤ F.mark i

theorem FencedInv.start (h : F.Ordered) : FencedInv F F [] where
  ordered := h
  later := .refl F
  put _ _ _ _ h := absurd h List.not_mem_nil
  fenced _ h := absurd h List.not_mem_nil

/-- Nothing is put on record. -/
theorem FencedInv.silent (h : FencedInv F₀ F t) (hordered : G.Ordered) (hlater : F.Later G) :
    FencedInv F₀ G t where
  ordered := hordered
  later := h.later.trans hlater
  put i ep address bytes hput := (h.put i ep address bytes hput).mono (.refl _) hlater
  fenced i hfenced := (h.fenced i hfenced).trans (hlater.mark i)

/-- A put is put on record. -/
theorem FencedInv.issue (h : FencedInv F₀ F t) (i : ι) (ep : Ep) (address : ℕ)
    (bytes : List UInt8) :
    FencedInv F₀ (F.issue ⟨i, ep, address, bytes⟩) (t ++ [(i, .put ep address bytes)]) := by
  have hkept := h.silent (h.ordered.issue ⟨i, ep, address, bytes⟩) (F.later_issue _)
  refine ⟨hkept.ordered, hkept.later, fun j ep' address' bytes' hput => ?_, fun j hfenced => ?_⟩
  · by_cases hj : j = i
    · subst hj
      rw [partOf_concat_self] at hput
      obtain hold | hnew := List.mem_append.mp hput
      · exact hkept.put j ep' address' bytes' hold
      · cases List.mem_singleton.mp hnew
        exact (h.ordered.issuedSince_issue _).mono h.later (.refl _)
    · rw [partOf_concat_of_ne hj] at hput
      exact hkept.put j ep' address' bytes' hput
  · by_cases hj : j = i
    · subst hj
      rw [partOf_concat_self] at hfenced
      obtain hold | hnew := List.mem_append.mp hfenced
      · exact hkept.fenced j hold
      · cases List.mem_singleton.mp hnew
    · rw [partOf_concat_of_ne hj] at hfenced
      exact hkept.fenced j hfenced

/-- A fence is put on record. -/
theorem FencedInv.fence (h : FencedInv F₀ F t) (i : ι) :
    FencedInv F₀ (F.fence i) (t ++ [(i, .fenced)]) := by
  have hkept := h.silent (h.ordered.fence i) (h.ordered.later_fence i)
  refine ⟨hkept.ordered, hkept.later, fun j ep address bytes hput => ?_, fun j hfenced => ?_⟩
  · by_cases hj : j = i
    · subst hj
      rw [partOf_concat_self] at hput
      obtain hold | hnew := List.mem_append.mp hput
      · exact hkept.put j ep address bytes hold
      · cases List.mem_singleton.mp hnew
    · rw [partOf_concat_of_ne hj] at hput
      exact hkept.put j ep address bytes hput
  · by_cases hj : j = i
    · subst hj
      have hmark : F.flight.issued.length ≤ (F.fence j).mark j :=
        (Function.update_self j F.flight.issued.length F.mark).ge
      exact h.later.flight.issued.length_le.trans hmark
    · rw [partOf_concat_of_ne hj] at hfenced
      exact hkept.fenced j hfenced

/-- **A run keeps what is known.** -/
theorem fencedInv_of_run {α : Type} {s s' : Scene ι Ext Error α (Wire ι) WireEvent}
    (hordered : s.world.fenced.Ordered) (hrun : (wireWorld lead).Run s s')
    {ext : List (ι × WireEvent)} (hext : s'.trace = s.trace ++ ext) :
    FencedInv s.world.fenced s'.world.fenced ext := by
  have hs : s.Confined fun _ _ => True := fun _ m _ =>
    Prog.Sat.mono (Prog.yields_true m) (fun _ h => h) fun _ _ => trivial
  refine hrun.invariant (I := fun w t => FencedInv s.world.fenced w.fenced t) hs (.start hordered)
    ?_ ?_ ext hext
  · rintro w i c x w' t ht - ⟨-, rfl⟩
    show FencedInv _ _ (t ++ (wireNote c x).map fun n => (i, n))
    obtain ⟨-, ⟨ep, address, bytes, hnote, hfenced⟩ | ⟨hnote, hfenced⟩ | ⟨hnote, hfenced⟩⟩ :=
      wire_step w i c x
    · rw [hnote, hfenced]
      exact ht.issue i ep address bytes
    · rw [hnote, hfenced]
      exact ht.fence i
    · rw [hnote, hfenced, List.map_nil, List.append_nil]
      exact ht
  · rintro w w' t ht ⟨hmoves, -⟩
    exact ht.silent (ht.ordered.moves hmoves) hmoves.later

end Invariant

/-! ## What the calls leave on record -/

section Record

variable {fuel : ℕ} {l : Lock} {ne : Endian}

theorem wireNote_marks : Marks wireNote .put := fun _ _ _ _ _ => List.mem_singleton_self _

/-- A fence that returns has fenced. -/
theorem fence_records :
    (CommCall.fence.exec ne fuel l).Records wireNote fun _ t => .fenced ∈ t := by
  refine Prog.Records.bind (R := fun _ t => .fenced ∈ t) ?_ fun _ t ht => ?_
  · refine Prog.Records.done_bind fun state _ => Prog.Records.call fun fenced => ?_
    cases fenced with
    | error e => exact Prog.Records.of_ne_ok fun _ h => by cases h
    | ok u => exact fun _ _ => List.mem_cons_self
  · rintro _ ⟨⟩
    rwa [List.append_nil]

end Record

/-! ## The theorem -/

section Runs

variable {ι : Type} [DecidableEq ι] {ne : Endian} {fuel : ℕ} {lead : ι → Ep → ℕ} {lock : ι → Lock}
  {calls : ι → List CommCall} {memory : Memories UInt8}

/-- A job making data calls. -/
abbrev WireScene (ι : Type) : Type := Scene ι Ext Error (List UInt8) (Wire ι) WireEvent

/-- The job before its first calls. -/
def wireStart (ne : Endian) (fuel : ℕ) (lock : ι → Lock) (calls : ι → List CommCall)
    (memory : Memories UInt8) : WireScene ι :=
  Shared.start (fun i => (calls i).map (·.exec ne fuel (lock i))) (.fresh memory)

theorem wire_ordered {s : WireScene ι}
    (hs : (wireWorld lead).Run (wireStart ne fuel lock calls memory) s) :
    s.world.fenced.Ordered := by
  have hfresh : (Wire.fresh memory : Wire ι).fenced.Ordered := Fenced.Ordered.fresh memory
  exact (fencedInv_of_run hfresh hs rfl).ordered

/-- What is known of a part of a run. -/
theorem fencedInv_of_part {s s' : WireScene ι}
    (hs : (wireWorld lead).Run (wireStart ne fuel lock calls memory) s)
    (hrun : (wireWorld lead).Run s s') {ext : List (ι × WireEvent)}
    (hext : s'.trace = s.trace ++ ext) : FencedInv s.world.fenced s'.world.fenced ext :=
  fencedInv_of_run (wire_ordered hs) hrun hext

theorem wire_later {s s' : WireScene ι}
    (hs : (wireWorld lead).Run (wireStart ne fuel lock calls memory) s)
    (hrun : (wireWorld lead).Run s s') : s.world.fenced.Later s'.world.fenced := by
  obtain ⟨ext, hext, -⟩ := hrun.ran
  exact (fencedInv_of_part hs hrun hext).later

/-- The part of a run in which a PE makes a call, and what is known of it. -/
theorem wire_call {s : WireScene ι}
    (hs : (wireWorld lead).Run (wireStart ne fuel lock calls memory) s) {i : ι} {k : ℕ}
    {call : CommCall} (hcall : (calls i)[k]? = some call) {a : List UInt8}
    (hended : (s.results i)[k]? = some (.ok a)) {R : List UInt8 → List WireEvent → Prop}
    (hrecords : (call.exec ne fuel (lock i)).Records wireNote R) :
    ∃ s₁ s₂ ext t₁ t₂, (wireWorld lead).Run (wireStart ne fuel lock calls memory) s₁ ∧
      (wireWorld lead).Run s₁ s₂ ∧ (wireWorld lead).Run s₂ s ∧ (s₁.results i).length = k ∧
      FencedInv s₁.world.fenced s₂.world.fenced ext ∧ partOf i ext = t₁ ++ t₂ ∧ R a t₁ := by
  have hm : ((calls i).map (·.exec ne fuel (lock i)))[k]? = some (call.exec ne fuel (lock i)) := by
    rw [List.getElem?_map, hcall, Option.map_some]
  obtain ⟨s₁, s₂, hs₁, htakes, hrest, hlength⟩ := hs.takes hm hended
  obtain ⟨ext, t₁, t₂, hext, ht, hR⟩ := htakes.leaves hrecords
  exact ⟨s₁, s₂, ext, t₁, t₂, hs₁, htakes.run, hrest, hlength,
    fencedInv_of_part hs₁ htakes.run hext, ht, hR a rfl⟩

/-- The part of a run in which a PE makes a put, which is issued there. -/
theorem wire_put {s : WireScene ι}
    (hs : (wireWorld lead).Run (wireStart ne fuel lock calls memory) s) {i : ι} {k : ℕ}
    {put : CommCall} {pe offset : ℕ} {bytes a : List UInt8} (hput : (calls i)[k]? = some put)
    (hputs : put.Puts ne pe bytes offset) (hended : (s.results i)[k]? = some (.ok a)) :
    ∃ s₁ s₂, (wireWorld lead).Run (wireStart ne fuel lock calls memory) s₁ ∧
      (wireWorld lead).Run s₁ s₂ ∧ (wireWorld lead).Run s₂ s ∧ (s₁.results i).length = k ∧
      ∃ state peer address, lock i = .holding state ∧
        peerAndAddress state pe offset bytes.length = .ok (peer, address) ∧
        (bytes ≠ [] →
          s₁.world.fenced.IssuedSince s₂.world.fenced ⟨i, peer.endpoint, address, bytes⟩) := by
  obtain ⟨s₁, s₂, ext, t₁, t₂, hs₁, hrun, hrest, hlength, hinv, ht, hrecord⟩ :=
    wire_call hs hput hended (puts_records wireNote_marks hputs)
  obtain ⟨state, peer, address, hl, haccept, hmem⟩ := hrecord
  refine ⟨s₁, s₂, hs₁, hrun, hrest, hlength, state, peer, address, hl, haccept, fun hbytes => ?_⟩
  refine hinv.put i peer.endpoint address bytes ?_
  rw [ht]
  exact List.mem_append_left _ (hmem hbytes)

/-- A put, a fence and a put: the writes, and that one precedes the other. -/
theorem precedes_of_fence {s : WireScene ι}
    (hs : (wireWorld lead).Run (wireStart ne fuel lock calls memory) s) {i : ι} {p f p' : ℕ}
    (hpf : p < f) (hfp : f < p') {put put' : CommCall} {pe offset offset' : ℕ}
    {bytes bytes' a a' a'' : List UInt8}
    (hput : (calls i)[p]? = some put) (hputs : put.Puts ne pe bytes offset)
    (hp : (s.results i)[p]? = some (.ok a))
    (hfence : (calls i)[f]? = some .fence) (hf : (s.results i)[f]? = some (.ok a'))
    (hput' : (calls i)[p']? = some put') (hputs' : put'.Puts ne pe bytes' offset')
    (hp' : (s.results i)[p']? = some (.ok a'')) :
    ∃ state peer address address', lock i = .holding state ∧
      peerAndAddress state pe offset bytes.length = .ok (peer, address) ∧
      peerAndAddress state pe offset' bytes'.length = .ok (peer, address') ∧
      (bytes ≠ [] → bytes' ≠ [] → ∃ n n',
        s.world.fabric.flight.issued[n]? = some ⟨i, peer.endpoint, address, bytes⟩ ∧
        s.world.fabric.flight.issued[n']? = some ⟨i, peer.endpoint, address', bytes'⟩ ∧
        s.world.fenced.Precedes n n') := by
  -- the run is cut at the second put, before that at the fence, and before that at the first
  obtain ⟨s₁, s₂, hs₁, hrun₁, hrest₁, hlength₁, state, peer, address', hl, haccept', hwrite'⟩ :=
    wire_put hs hput' hputs' hp'
  have hcut₁ : (wireWorld lead).Run s₁ s := hrun₁.trans hrest₁
  obtain ⟨f₁, f₂, ext, t, u, hf₁, hrun₂, hrest₂, hlength₂, hinv, ht, hfenced⟩ :=
    wire_call hs₁ hfence ((hcut₁.results_getElem? (hlength₁ ▸ hfp)).symm.trans hf) fence_records
  have hcut₂ : (wireWorld lead).Run f₁ s := (hrun₂.trans hrest₂).trans hcut₁
  obtain ⟨p₁, p₂, hp₁, hrun₃, hrest₃, -, state', peer', address, hl', haccept, hwrite⟩ :=
    wire_put hf₁ hput hputs ((hcut₂.results_getElem? (hlength₂ ▸ hpf)).symm.trans hp)
  obtain rfl : state = state' := Option.some.inj (congrArg Lock.state (hl.symm.trans hl'))
  obtain rfl : peer = peer' := by
    obtain ⟨-, hpeer, -⟩ := peerAndAddress_eq_ok.mp haccept
    obtain ⟨-, hpeer', -⟩ := peerAndAddress_eq_ok.mp haccept'
    exact Option.some.inj (hpeer'.symm.trans hpeer)
  refine ⟨state, peer, address, address', hl, haccept, haccept', fun hbytes hbytes' => ?_⟩
  -- the first write has a number below the fence, the second has the fence as its floor
  obtain ⟨n, -, -, hn, -, -⟩ := hwrite hbytes
  obtain ⟨n', floor, -, hn', hfloor, hmark⟩ := hwrite' hbytes'
  have hfence := hinv.fenced i (by
    rw [ht]
    exact List.mem_append_left _ hfenced)
  have hlater₃ := wire_later (hp₁.trans hrun₃) hrest₃
  have hlater₂ := wire_later (hf₁.trans hrun₂) hrest₂
  have hlater₁ := wire_later (hs₁.trans hrun₁) hrest₁
  have hnf : n < f₁.world.fenced.flight.issued.length :=
    (List.getElem?_eq_some_iff.mp (hlater₃.flight.getElem? hn)).1
  have hnfloor : n < floor := lt_of_lt_of_le hnf (hfence.trans ((hlater₂.mark i).trans hmark))
  have hin : s.world.fenced.flight.issued[n]? = some ⟨i, peer.endpoint, address, bytes⟩ :=
    (wire_later hf₁ hcut₂).flight.getElem? (hlater₃.flight.getElem? hn)
  have hin' := hlater₁.flight.getElem? hn'
  exact ⟨n, n', hin, hin', ⟨floor, hlater₁.getElem?_floors hfloor, hnfloor⟩, _, _, hin, hin',
    rfl, rfl⟩

/-- Write `n'` hands write `n` over: who gets a byte that was not there before write `n'` had
landed, and then gets again, reads with write `n` in place. -/
def HandsOver (ne : Endian) (fuel : ℕ) (lead : ι → Ep → ℕ) (lock : ι → Lock)
    (calls : ι → List CommCall) (memory : Memories UInt8) (s : WireScene ι) (n n' : ℕ) : Prop :=
  ∀ (j : ι) (r₁ r₂ s₁ s₂ : WireScene ι) (get get' : CommCall) (on start len on' start' len' : ℕ)
    (shown shown' : List UInt8), get.Gets on start len → get'.Gets on' start' len' →
    (wireWorld lead).Run (wireStart ne fuel lock calls memory) r₁ →
    (wireWorld lead).Takes r₁ r₂ j (get.exec ne fuel (lock j)) (.ok shown) →
    (wireWorld lead).Run r₂ s₁ →
    (wireWorld lead).Takes s₁ s₂ j (get'.exec ne fuel (lock j)) (.ok shown') →
    (wireWorld lead).Run s₂ s →
    ∃ state flag place data place', lock j = .holding state ∧
      peerAndAddress state on start len = .ok (flag, place) ∧
      peerAndAddress state on' start' len' = .ok (data, place') ∧
      shown.length = len ∧ shown'.length = len' ∧
      ∀ x (hx : x < shown.length),
        (∀ k, r₁.world.fabric.flight.Later k → k.Later r₂.world.fabric.flight →
          .write n' ∉ k.history → k.memory lead (lead j flag.endpoint) (place + x) ≠ shown[x]) →
        s₁.world.fabric.flight.Seen lead s₂.world.fabric.flight n (lead j data.endpoint) place'
          shown'

/-- **A fence hands over.** PE `i` puts, calls `fence`, and puts again at the same PE. The
first write lands before the second; and if PE `j` gets a byte that was not there before the
second had landed, and then gets again, it reads with the first in place. -/
theorem fence_hands_over {s : WireScene ι}
    (hs : (wireWorld lead).Run (wireStart ne fuel lock calls memory) s) {i : ι} {p f p' : ℕ}
    (hpf : p < f) (hfp : f < p') {put put' : CommCall} {pe offset offset' : ℕ}
    {bytes bytes' a a' a'' : List UInt8}
    (hput : (calls i)[p]? = some put) (hputs : put.Puts ne pe bytes offset)
    (hp : (s.results i)[p]? = some (.ok a))
    (hfence : (calls i)[f]? = some .fence) (hf : (s.results i)[f]? = some (.ok a'))
    (hput' : (calls i)[p']? = some put') (hputs' : put'.Puts ne pe bytes' offset')
    (hp' : (s.results i)[p']? = some (.ok a'')) :
    ∃ state peer address address', lock i = .holding state ∧
      peerAndAddress state pe offset bytes.length = .ok (peer, address) ∧
      peerAndAddress state pe offset' bytes'.length = .ok (peer, address') ∧
      (bytes ≠ [] → bytes' ≠ [] → ∃ n n',
        s.world.fabric.flight.issued[n]? = some ⟨i, peer.endpoint, address, bytes⟩ ∧
        s.world.fabric.flight.issued[n']? = some ⟨i, peer.endpoint, address', bytes'⟩ ∧
        (∀ before after, s.world.fabric.flight.history = before ++ .write n' :: after →
          .write n ∈ before) ∧
        HandsOver ne fuel lead lock calls memory s n n') := by
  have hcarries := wireWorld_carries lead
  obtain ⟨state, peer, address, address', hl, haccept, haccept', hwrites⟩ :=
    precedes_of_fence hs hpf hfp hput hputs hp hfence hf hput' hputs' hp'
  refine ⟨state, peer, address, address', hl, haccept, haccept', fun hbytes hbytes' => ?_⟩
  obtain ⟨n, n', hn, hn', hprecedes⟩ := hwrites hbytes hbytes'
  have hordered := wire_ordered hs
  refine ⟨n, n', hn, hn', fun before after h => hordered.order before n' after h n hprecedes, ?_⟩
  intro j r₁ r₂ s₁ s₂ get get' on start len on' start' len' shown shown' hgets hgets' hr₁ hget
    hrest hget' hend
  obtain ⟨state', flag, place, hl', hflag, hlen, hshown⟩ := hcarries.shown_of_get hget hgets
  obtain ⟨state'', data, place', hl'', hdata, hlen', hshown'⟩ :=
    hcarries.shown_of_get hget' hgets'
  obtain rfl : state' = state'' := Option.some.inj (congrArg Lock.state (hl'.symm.trans hl''))
  refine ⟨state', flag, place, data, place', hl', hflag, hdata, hlen, hlen', ?_⟩
  intro x hx hnew
  have hs₁ := (hr₁.trans hget.run).trans hrest
  obtain ⟨k, hfirst, hlast, hbyte⟩ := hshown x hx
  -- the byte shows that the second write has landed, so the first has
  have hflagged : .write n' ∈ s₁.world.fenced.flight.history := by
    by_contra hnot
    refine hnew k hfirst hlast (fun hin => hnot ?_) hbyte.symm
    exact (hlast.trans (hcarries.later hrest)).landed hin
  have hlater : s₁.world.fenced.Later s.world.fenced := wire_later hs₁ (hget'.run.trans hend)
  exact hshown'.seen lead (hlater.landed_of_precedes hordered hprecedes hflagged)

end Runs

/-! ## Data and a flag -/

/-- UCX as it was on demand; fences are accepted. -/
def onWire (w : Wire Bool) (i : Bool) (c : ExtCall) : Option (c.Reply × Wire Bool) :=
  match c with
  | .ucx .fence => some (.ok (), w.after i (.ucx .fence) (.ok ()))
  | c => (onDemand pairLead w.fabric i c).map fun p => (p.1, w.after i c p.1)

theorem onWire_answers {w w' : Wire Bool} {i : Bool} {c : ExtCall} {x : c.Reply}
    (h : onWire w i c = some (x, w')) : (wireWorld pairLead).Answers w i c x w' := by
  dsimp only [onWire] at h
  split at h
  · cases h
    exact ⟨trivial, rfl⟩
  · obtain ⟨⟨y, f⟩, hanswer, heq⟩ := Option.map_eq_some_iff.mp h
    cases heq
    exact ⟨(onDemand_answers pairLead hanswer).1, rfl⟩

/-- Write number `n` is delivered, if it is in flight and what precedes it has landed. -/
def deliverOn (n : ℕ) (w : Wire Bool) : Option (Wire Bool) :=
  if h : w.fabric.flight.InFlight n ∧
      ∀ m < (w.floors[n]?).getD 0, w.fabric.flight.hasLanded m = true then
    some { w with fabric := { w.fabric with flight := w.fabric.flight.deliver n h.1.1 } }
  else none

theorem deliverOn_drifts {n : ℕ} {w w' : Wire Bool} (h : deliverOn n w = some w') :
    (wireWorld pairLead).Drift w w' := by
  rw [deliverOn] at h
  split at h
  · next hready =>
    cases h
    refine ⟨.deliver n hready.1 ?_, rfl⟩
    rintro m ⟨⟨floor, hfloor, hlt⟩, -⟩
    have hfloor : w.floors[n]? = some floor := hfloor
    refine w.fabric.flight.hasLanded_iff.mp (hready.2 m ?_)
    rw [hfloor]
    exact hlt
  · cases h

/-- The first PE puts two bytes on the second, and a flag behind a fence; the second gets the
flag, and then the bytes. -/
def flagCalls : Bool → List CommCall
  | false => [.rma (.putmem 1 [7, 8] 16), .fence, .rma (.putmem 1 [1] 24)]
  | true => [.getmem 1 24 1, .getmem 1 16 2]

def pairFlag : WireScene Bool := wireStart .little 2 pairLock flagCalls fun _ _ => 0

/-- What was in flight when the second PE had the flag. -/
def flagFlight : Flight Bool Ep UInt8 where
  base _ _ := 0
  issued := [⟨false, ⟨[1]⟩, 8208, [7, 8]⟩, ⟨false, ⟨[1]⟩, 8216, [1]⟩]
  history := [.write 0, .write 1]
  known n hn := by
    obtain ⟨⟩ | ⟨_, ⟨⟩ | ⟨_, ⟨⟩⟩⟩ := hn <;> decide

/-- The flag lands when the second PE has begun to get it. -/
theorem flag_plays : ∃ r₁ r₂ s : WireScene Bool,
    (wireWorld pairLead).play onWire deliverOn (List.replicate 6 (.inl false) ++ [.inr 0])
      pairFlag = some r₁ ∧
    (wireWorld pairLead).play onWire deliverOn [.inr 1, .inl true, .inl true] r₁ = some r₂ ∧
    (wireWorld pairLead).play onWire deliverOn [.inl true, .inl true] r₂ = some s ∧
    r₁.todo true = (flagCalls true).map (·.exec .little 2 (pairLock true)) ∧
    r₂.todo true = [(CommCall.getmem 1 16 2).exec .little 2 (pairLock true)] ∧
    r₁.results true = [] ∧ r₂.results true = [.ok [1]] ∧
    s.results true = [.ok [1], .ok [7, 8]] ∧ s.results false = [.ok [], .ok [], .ok []] ∧
    r₂.world.fabric.flight = flagFlight ∧ s.world.fabric.flight = flagFlight := by
  refine ⟨_, _, _, rfl, rfl, rfl, rfl, rfl, rfl, ?_, ?_, ?_, rfl, rfl⟩
  · decide +kernel
  · decide +kernel
  · decide

/-- The flag is not there before it has landed. -/
theorem flag_is_new {k : Flight Bool Ep UInt8} (hlater : k.Later flagFlight)
    (hnot : .write 1 ∉ k.history) : k.memory pairLead 1 8216 ≠ 1 := by
  have hcell : k.memory pairLead 1 8216 = k.base 1 8216 := by
    refine Flight.foldl_applied_eq pairLead (fun e he m => ?_) k.base
    obtain rfl | rfl : e = .write 0 ∨ e = .write 1 := by
      simpa [flagFlight] using hlater.history.subset he
    · -- the bytes lie below the flag
      rw [Flight.applied]
      cases hissued : k.issued[0]? with
      | none => rfl
      | some w =>
        cases hlater.getElem? hissued
        rfl
    · exact absurd he hnot
  rw [hcell, ← hlater.base]
  decide

/-- The second PE sees the flag, and so the bytes. -/
theorem fence_hands_over_instance : ∃ r₁ r₂ s : WireScene Bool,
    (wireWorld pairLead).Run pairFlag r₁ ∧
    (wireWorld pairLead).Takes r₁ r₂ true
      ((CommCall.getmem 1 24 1).exec .little 2 (pairLock true)) (.ok [1]) ∧
    (wireWorld pairLead).Takes r₂ s true
      ((CommCall.getmem 1 16 2).exec .little 2 (pairLock true)) (.ok [7, 8]) ∧
    ∃ n, s.world.fabric.flight.issued[n]? = some ⟨false, ⟨[1]⟩, 8208, [7, 8]⟩ ∧
      r₂.world.fabric.flight.Seen pairLead s.world.fabric.flight n 1 8208 [7, 8] := by
  obtain ⟨r₁, r₂, s, hplay, hplay₁, hplay₂, htodo, htodo', hr₁, hr₂, htrue, hfalse, hflight,
    hflight'⟩ := flag_plays
  have hrun : ∀ {schedule} {a b : WireScene Bool},
      (wireWorld pairLead).play onWire deliverOn schedule a = some b →
        (wireWorld pairLead).Run a b :=
    fun h => Shared.run_of_play onWire_answers deliverOn_drifts h
  have hget : (wireWorld pairLead).Takes r₁ r₂ true _ (.ok [1]) :=
    ⟨hrun hplay₁, ⟨_, htodo⟩, by rw [hr₁, hr₂]; rfl⟩
  have hget' : (wireWorld pairLead).Takes r₂ s true _ (.ok [7, 8]) :=
    ⟨hrun hplay₂, ⟨[], htodo'⟩, by rw [hr₂, htrue]; rfl⟩
  have hput : CommCall.Puts .little (.rma (.putmem 1 [7, 8] 16)) 1 [7, 8] 16 := .putmem 1 [7, 8] 16
  have hput' : CommCall.Puts .little (.rma (.putmem 1 [1] 24)) 1 [1] 24 := .putmem 1 [1] 24
  have hplace : ∀ {st : ShmemState} {peer : PeerConnection} {offset len address : ℕ},
      pairLock false = .holding st → peerAndAddress st 1 offset len = .ok (peer, address) →
        peer.endpoint = ⟨[1]⟩ ∧ address = 8192 + offset := by
    rintro st peer offset len address hst haccept
    obtain rfl : _ = st := Option.some.inj (congrArg Lock.state hst)
    obtain ⟨-, hpeer, haddress, -⟩ := peerAndAddress_eq_ok.mp haccept
    have hpeer : _ = some peer := hpeer
    cases hpeer
    exact ⟨rfl, haddress⟩
  have hflagged : (flagCalls false)[2]? = some (.rma (.putmem 1 [1] 24)) := rfl
  obtain ⟨state, peer, address, address', hl, haccept, haccept', hhanded⟩ :=
    fence_hands_over (i := false) (p := 0) (f := 1)
      (((hrun hplay).trans hget.run).trans hget'.run) (by decide) (by decide) rfl hput
      (by rw [hfalse]; rfl) rfl (by rw [hfalse]; rfl) hflagged hput' (by rw [hfalse]; rfl)
  obtain ⟨hep, rfl⟩ := hplace hl haccept
  obtain ⟨-, rfl⟩ := hplace hl haccept'
  obtain ⟨n, n', hn, hn', -, hover⟩ := hhanded (List.cons_ne_nil _ _) (List.cons_ne_nil _ _)
  rw [hep] at hn hn'
  obtain ⟨state', flag, place, data, place', hl', hflag, hdata, -, -, hsees⟩ :=
    hover true r₁ r₂ r₂ s _ _ 1 24 1 1 16 2 [1] [7, 8] (.getmem 1 24 1) (.getmem 1 16 2)
      (hrun hplay) hget .refl hget' .refl
  obtain ⟨hflagEp, rfl⟩ := hplace hl' hflag
  obtain ⟨hdataEp, rfl⟩ := hplace hl' hdata
  obtain rfl : n' = 1 := by
    rw [hflight'] at hn'
    obtain _ | _ | n' := n'
    · cases hn'
    · rfl
    · cases hn'
  rw [hflagEp, hdataEp] at hsees
  refine ⟨r₁, r₂, s, hrun hplay, hget, hget', n, hn, hsees 0 (by decide) fun k _ hk hnot => ?_⟩
  rw [hflight] at hk
  exact flag_is_new hk hnot

end OpenShmem
