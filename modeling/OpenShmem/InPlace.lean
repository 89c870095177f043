import OpenShmem.CollRequest
import OpenShmem.Record
import OpenShmem.ReduceAgree

/-!
# In-place collectives and the caller's slice

`broadcast`, `reduce` and their `_nb` forms are handed the slice they write to.
What UCC says of the operation is put on record: every status reading with the
buffer, and every answer of `finalize`. `SliceLaw` says what the slice is as a
function of that record: untouched until an `UCC_OK` is followed by a `finalize`
that succeeds, the decoded buffer from then on, and nothing comes after.
-/

namespace OpenShmem

/-! ## What UCC says of an operation -/

/-- What UCC said. -/
inductive UccEvent : Type where
  /-- a status reading, and what the buffer held -/
  | read (op : UccCollective) (status : Int) (out : List UInt8)
  /-- the answer of `finalize` -/
  | finalized (op : UccCollective) (answer : Except UccStatus Unit)

/-- Status readings and finalizations are put on record. -/
def uccNote : Prog.Note Ext UccEvent
  | .ucc (.status op), r => [.read op r.1 r.2.toList]
  | .ucc (.finalize op), r => [.finalized op r]
  | _, _ => []

/-- No operation was finalized with success. -/
def Unfinalized (t : List UccEvent) : Prop := ∀ op, .finalized op (.ok ()) ∉ t

theorem Unfinalized.nil : Unfinalized [] := fun _ => List.not_mem_nil

theorem Unfinalized.append {t t' : List UccEvent} (h : Unfinalized t) (h' : Unfinalized t') :
    Unfinalized (t ++ t') :=
  fun op hmem => (List.mem_append.mp hmem).elim (h op) (h' op)

theorem Unfinalized.read (op : UccCollective) (status : Int) (out : List UInt8) :
    Unfinalized [.read op status out] := by
  intro op' h
  cases List.mem_singleton.mp h

theorem Unfinalized.failed (op : UccCollective) (e : UccStatus) :
    Unfinalized [.finalized op (.error e)] := by
  intro op' h
  cases List.mem_singleton.mp h

/-- The slice after UCC has said `t`: as it was, or all of it replaced by the
buffer of the operation that the last two events completed. -/
inductive SliceLaw (ne : Endian) (d : Destination) : List UccEvent → Destination → Prop where
  | kept (t : List UccEvent) (h : Unfinalized t) : SliceLaw ne d t d
  | written (t : List UccEvent) (op : UccCollective) (out : List UInt8) (h : Unfinalized t)
      (hlen : out.length = d.values.length * d.T.size) :
      SliceLaw ne d (t ++ [.read op uccOk out, .finalized op (.ok ())]) (d.fill ne out)

/-! ## The blocking forms -/

section Blocking

variable {ne : Endian} {nm : NoMessage}

/-- A wait returns the buffer of a completed operation, or never completes it. -/
def WaitEnds (op : UccCollective) (o : Outcome Error (List UInt8)) (t : List UccEvent) : Prop :=
  (∃ out t', o = .ok out ∧ out.length = op.args.outLen ∧ Unfinalized t' ∧
      t = t' ++ [.read op uccOk out, .finalized op (.ok ())]) ∨
    (∀ out, o ≠ .ok out) ∧ Unfinalized t

theorem WaitEnds.prepend {op : UccCollective} {o : Outcome Error (List UInt8)}
    {t t₀ : List UccEvent} (h : WaitEnds op o t) (h₀ : Unfinalized t₀) :
    WaitEnds op o (t₀ ++ t) := by
  obtain ⟨out, t', rfl, hlen, ht', rfl⟩ | ⟨hno, ht⟩ := h
  · exact Or.inl ⟨out, t₀ ++ t', rfl, hlen, h₀.append ht', (List.append_assoc _ _ _).symm⟩
  · exact Or.inr ⟨hno, h₀.append ht⟩

theorem wait_ends (op : UccCollective) (fuel : ℕ) :
    (wait nm op fuel).Leaves uccNote (WaitEnds op) := by
  induction fuel with
  | zero => exact Or.inr ⟨(fun _ h => by cases h), .nil⟩
  | succ fuel ih =>
    rw [wait, Fn.ucc_bind]
    intro reading
    obtain ⟨status, out⟩ := reading
    have hread : Unfinalized (uccNote (.ucc (.status op)) (status, out)) := .read op status out.toList
    dsimp only
    split
    · next hok =>
      intro answer
      cases answer with
      | ok u =>
        refine Or.inl ⟨out.toList, [], rfl, out.toList_length, .nil, ?_⟩
        rw [hok]
        rfl
      | error e =>
        exact Or.inr ⟨(fun _ h => by cases h), hread.append (.failed op e)⟩
    · split
      · exact Or.inr ⟨(fun _ h => by cases h), hread.append .nil⟩
      · refine fun _ => ih.mono fun o t h => ?_
        exact h.prepend hread

/-- What a blocking form ends with. -/
def SliceEnds (ne : Endian) (T : Pod) (values : List T.Value)
    (o : Outcome Error (Outcome Error Unit × List T.Value)) (t : List UccEvent) : Prop :=
  ∃ p, o = .ok p ∧ SliceLaw ne ⟨T, values⟩ t ⟨T, p.2⟩ ∧ ((∃ e, p.1 = .err e) → p.2 = values) ∧
    (p.1 = .ok () ↔ ¬ Unfinalized t)

/-- Posting says nothing of the operation yet, and its output buffer is as long
as the encoded slice. -/
def PostsSilently (post : List UInt8 → Fn UccCollective) : Prop :=
  ∀ bytes, (post bytes).Sat (Prog.Silent uccNote)
    fun o => ∀ op, o = .ok op → op.args.outLen = bytes.length

/-- Any blocking form: encode, post, wait, decode. -/
theorem inplace_ends {T : Pod} {post : List UInt8 → Fn UccCollective} (hpost : PostsSilently post)
    (fuel : ℕ) (values : List T.Value) :
    (withSlice (Fn.lift (encode ne T values) >>= fun bytes => post bytes >>= fun op =>
      wait nm op fuel) values (decode ne T · values)).Leaves uccNote (SliceEnds ne T values) := by
  have hunwritten : ∀ (o : Outcome Error Unit) t, o ≠ .ok () → Unfinalized t →
      SliceEnds ne T values (.ok (o, values)) t :=
    fun o t ho ht => ⟨_, rfl, .kept t ht, fun _ => rfl, iff_of_false ho (not_not_intro ht)⟩
  cases hencode : encode ne T values with
  | err e => exact hunwritten _ _ (fun h => by cases h) .nil
  | panic => exact hunwritten _ _ (fun h => by cases h) .nil
  | pending => exact hunwritten _ _ (fun h => by cases h) .nil
  | ok bytes =>
    obtain ⟨-, hlen, hsmall⟩ := encode_eq_ok ne hencode
    rw [withSlice, Fn.lift_ok_bind]
    -- how the operation ends is how the wait ends, if it gets there
    have hends : (post bytes >>= fun op => wait nm op fuel).Leaves uccNote fun o t =>
        (∃ op, op.args.outLen = bytes.length ∧ WaitEnds op o t) ∨
          (∀ out, o ≠ .ok out) ∧ Unfinalized t := by
      refine Prog.Leaves.bind ((hpost bytes).leaves.mono ?_)
      rintro (op | e | _ | _) t ⟨hop, rfl⟩
      · exact (wait_ends op fuel).mono fun o t h => Or.inl ⟨op, hop op rfl, h⟩
      · exact Or.inr ⟨(fun _ h => by cases h), .nil⟩
      · exact Or.inr ⟨(fun _ h => by cases h), .nil⟩
      · exact Or.inr ⟨(fun _ h => by cases h), .nil⟩
    refine Prog.Leaves.bind (hends.reify.mono ?_)
    rintro _ t ⟨o, rfl, ho⟩
    have hfailed : (∀ out, o ≠ .ok out) → Unfinalized t := by
      intro hno
      obtain ⟨op, -, ⟨out, -, rfl, -⟩ | ⟨-, ht⟩⟩ | ⟨-, ht⟩ := ho
      · exact absurd rfl (hno out)
      · exact ht
      · exact ht
    have hunchanged : ∀ o' : Outcome Error Unit, o' ≠ .ok () → (∀ out, o ≠ .ok out) →
        SliceEnds ne T values (.ok (o', values)) (t ++ []) :=
      fun o' ho' hno => hunwritten o' _ ho' ((hfailed hno).append .nil)
    rcases o with out | e | _ | _
    · obtain ⟨op, hop, ⟨_, t', ⟨⟩, hout, ht', rfl⟩ | ⟨hno, -⟩⟩ | ⟨hno, -⟩ := ho
      · have hsize : out.length = values.length * T.size := hout.trans (hop.trans hlen)
        show SliceEnds ne T values (.ok (decode ne T out values)) (_ ++ [])
        rw [decode_eq ne hsize ((hout.trans hop) ▸ hsmall), List.append_nil]
        exact ⟨_, rfl, .written t' op out ht' hsize, (fun he => by cases he.choose_spec),
          iff_of_true rfl fun h => h op (by simp)⟩
      · exact absurd rfl (hno out)
      · exact absurd rfl (hno out)
    · exact hunchanged _ (fun h => by cases h) fun _ h => by cases h
    · exact hunchanged _ (fun h => by cases h) fun _ h => by cases h
    · exact hunchanged _ (fun h => by cases h) fun _ h => by cases h

end Blocking

/-! ## The non-blocking forms -/

section Polling

variable (ne : Endian) (nm : NoMessage)

namespace CollectiveRequest

/-- A method call and its answer. -/
def call (req : CollectiveRequest) : RequestCall → Fn (RequestAnswer × CollectiveRequest)
  | .test => do
    let (o, req) ← req.test ne nm
    return (.tested o, req)
  | .wait fuel => do
    let (o, req) ← req.wait ne nm fuel
    return (.waited o, req)
  | .result T => return (.resulted T (req.result ne T), req)

/-- A sequence of method calls: the answer of the last one, if there was one. -/
def callAll (req : CollectiveRequest) :
    List RequestCall → Option RequestAnswer → Fn (Option RequestAnswer × CollectiveRequest)
  | [], last => return (last, req)
  | c :: calls, _ => do
    let (a, req) ← req.call ne nm c
    req.callAll calls (some a)

end CollectiveRequest

/-- An `_nb` function on the slice `d` and then any calls on the request: how it
went, and the slice the caller has back when the request is gone. -/
def nbSession (post : Fn CollectiveRequest) (d : Destination) (calls : List RequestCall) :
    Fn (Outcome Error (Option RequestAnswer × CollectiveRequest) × Destination) := do
  match ← (post.reify : Fn (Outcome Error CollectiveRequest)) with
  | .ok req =>
    let (last, req) ← req.callAll ne nm calls none
    return (.ok (last, req), req.destination.getD d)
  | .err e => return (.err e, d)
  | .panic => return (.panic, d)
  | .pending => return (.pending, d)

end Polling

section Requests

variable {ne : Endian} {nm : NoMessage} {op : UccCollective} {front : List (List UInt8)}
variable {d : Option Destination} {i : Option ℕ}

/-- A request after UCC has said `t`: open, taken out but not finalized, or
completed by the last two events. -/
inductive SliceInv (ne : Endian) (op : UccCollective) (front : List (List UInt8))
    (d : Option Destination) (i : Option ℕ) : CollectiveRequest → List UccEvent → Prop where
  | still_open (last : List UInt8) (t : List UccEvent) (h : Unfinalized t) :
      SliceInv ne op front d i (openRequest op front d i last) t
  | unfinalized (last : List UInt8) (t : List UccEvent) (h : Unfinalized t) :
      SliceInv ne op front d i (takenRequest front d i last) t
  | completed (out : List UInt8) (t : List UccEvent) (h : Unfinalized t)
      (hlen : out.length = op.args.outLen) :
      SliceInv ne op front d i (takenRequest front (d.map fun dest => dest.fill ne out) i out)
        (t ++ [.read op uccOk out, .finalized op (.ok ())])

/-- What a method call ends with: the request is where it can be, and if the call
failed its slice is untouched. -/
def MethodEnds {α : Type} (ne : Endian) (op : UccCollective) (front : List (List UInt8))
    (d : Option Destination) (i : Option ℕ) (t₀ : List UccEvent)
    (o : Outcome Error (Outcome Error α × CollectiveRequest)) (t : List UccEvent) : Prop :=
  ∃ p, o = .ok p ∧ SliceInv ne op front d i p.2 (t₀ ++ t) ∧
    ((∃ e, p.1 = .err e) → p.2.destination = d)

theorem MethodEnds.assoc {α : Type} {t₀ t₁ t : List UccEvent}
    {o : Outcome Error (Outcome Error α × CollectiveRequest)}
    (h : MethodEnds ne op front d i (t₀ ++ t₁) o t) : MethodEnds ne op front d i t₀ o (t₁ ++ t) := by
  rwa [MethodEnds, ← List.append_assoc]

/-- A method that says nothing more to UCC. -/
theorem MethodEnds.silent {α : Type} {t₀ : List UccEvent}
    {p : Outcome Error α × CollectiveRequest} (hinv : SliceInv ne op front d i p.2 t₀)
    (hfail : (∃ e, p.1 = .err e) → p.2.destination = d) :
    MethodEnds ne op front d i t₀ (.ok p) [] := by
  refine ⟨p, rfl, ?_, hfail⟩
  rwa [List.append_nil]

/-- What `test` does with a reading. -/
theorem onReading_ends (hd : ∀ dest ∈ d, dest.Fits op.args.outLen) {t₀ : List UccEvent}
    (h : Unfinalized t₀) (status : Int) (out : List UInt8) (hlen : out.length = op.args.outLen) :
    (onReading ne nm op front d i status out).Leaves uccNote
      (MethodEnds ne op front d i (t₀ ++ [.read op status out])) := by
  have hread : Unfinalized (t₀ ++ [.read op status out]) := h.append (.read op status out)
  rw [onReading]
  split
  · exact fun _ => ⟨_, rfl, .still_open _ _ (hread.append .nil), fun _ => rfl⟩
  · split
    · exact ⟨_, rfl, .still_open _ _ (hread.append .nil), fun _ => rfl⟩
    · next hok =>
      rintro (e | u)
      · exact ⟨_, rfl, .unfinalized _ _ (hread.append (.failed op e)), fun _ => rfl⟩
      · have hcopy := CollectiveRequest.copyBack_eq ne none front out d i (by rwa [hlen])
        show MethodEnds ne op front d i _ (.ok ((takenRequest front d i out).copyBack ne))
          ([.finalized op (.ok ())] ++ [])
        rw [takenRequest, hcopy, not_not.mp hok]
        refine ⟨_, rfl, ?_, fun he => by cases he.choose_spec⟩
        rw [List.append_nil, List.append_assoc]
        exact .completed out t₀ h hlen

/-- One `test`. -/
theorem test_ends (hd : ∀ dest ∈ d, dest.Fits op.args.outLen) {req : CollectiveRequest}
    {t₀ : List UccEvent} (h : SliceInv ne op front d i req t₀) :
    (req.test ne nm).Leaves uccNote (MethodEnds ne op front d i t₀) := by
  cases h with
  | still_open last t h =>
    rw [test_open]
    rintro ⟨status, out⟩
    exact (onReading_ends hd h status out.toList out.toList_length).mono fun o t h => h.assoc
  | unfinalized last t h => exact MethodEnds.silent (.unfinalized last _ h) fun _ => rfl
  | completed out t h hlen =>
    exact MethodEnds.silent (.completed out _ h hlen) fun he => by cases he.choose_spec

/-- A `wait`, which is `test` until it does not say `Ok(false)`. -/
theorem requestWait_ends (hd : ∀ dest ∈ d, dest.Fits op.args.outLen) (fuel : ℕ) :
    ∀ {req : CollectiveRequest} {t₀ : List UccEvent}, SliceInv ne op front d i req t₀ →
      (CollectiveRequest.wait ne nm fuel req).Leaves uccNote (MethodEnds ne op front d i t₀) := by
  induction fuel with
  | zero =>
    intro req t₀ h
    exact MethodEnds.silent h fun he => by cases he.choose_spec
  | succ fuel ih =>
    intro req t₀ h
    rw [CollectiveRequest.wait]
    refine Prog.Leaves.bind ((test_ends hd h).mono ?_)
    rintro _ t ⟨⟨b | e | _ | _, req'⟩, rfl, hinv, hfail⟩
    · cases b with
      | true => exact MethodEnds.assoc (MethodEnds.silent hinv fun he => by cases he.choose_spec)
      | false => exact (ih hinv).mono fun o t h => h.assoc
    · exact MethodEnds.assoc (MethodEnds.silent hinv fun _ => hfail ⟨e, rfl⟩)
    · exact MethodEnds.assoc (MethodEnds.silent hinv fun he => by cases he.choose_spec)
    · exact MethodEnds.assoc (MethodEnds.silent hinv fun he => by cases he.choose_spec)

/-- What a call ends with. -/
def CallEnds (ne : Endian) (op : UccCollective) (front : List (List UInt8))
    (d : Option Destination) (i : Option ℕ) (t₀ : List UccEvent)
    (o : Outcome Error (RequestAnswer × CollectiveRequest)) (t : List UccEvent) : Prop :=
  ∃ p, o = .ok p ∧ SliceInv ne op front d i p.2 (t₀ ++ t) ∧ (p.1.Fails → p.2.destination = d)

theorem call_ends (hd : ∀ dest ∈ d, dest.Fits op.args.outLen) {req : CollectiveRequest}
    {t₀ : List UccEvent} (h : SliceInv ne op front d i req t₀) (c : RequestCall) :
    (req.call ne nm c).Leaves uccNote (CallEnds ne op front d i t₀) := by
  cases c with
  | test =>
    refine Prog.Leaves.bind ((test_ends hd h).mono ?_)
    rintro _ t ⟨⟨o, req'⟩, rfl, hinv, hfail⟩
    refine ⟨_, rfl, ?_, hfail⟩
    rwa [List.append_nil]
  | wait fuel =>
    refine Prog.Leaves.bind ((requestWait_ends hd fuel h).mono ?_)
    rintro _ t ⟨⟨o, req'⟩, rfl, hinv, hfail⟩
    refine ⟨_, rfl, ?_, hfail⟩
    rwa [List.append_nil]
  | result T =>
    refine ⟨_, rfl, ?_, False.elim⟩
    rwa [List.append_nil]

/-- A sequence of calls: the last answer is a failure only if the slice is
untouched. -/
theorem callAll_ends (hd : ∀ dest ∈ d, dest.Fits op.args.outLen) (calls : List RequestCall) :
    ∀ {req : CollectiveRequest} {t₀ : List UccEvent} {last : Option RequestAnswer},
      SliceInv ne op front d i req t₀ → (∀ a ∈ last, a.Fails → req.destination = d) →
      (req.callAll ne nm calls last).Leaves uccNote fun o t => ∃ p, o = .ok p ∧
        SliceInv ne op front d i p.2 (t₀ ++ t) ∧ ∀ a ∈ p.1, a.Fails → p.2.destination = d := by
  induction calls with
  | nil =>
    intro req t₀ last h hlast
    refine ⟨_, rfl, ?_, hlast⟩
    rwa [List.append_nil]
  | cons c calls ih =>
    intro req t₀ last h hlast
    rw [CollectiveRequest.callAll]
    refine Prog.Leaves.bind ((call_ends hd h c).mono ?_)
    rintro _ t ⟨⟨a, req'⟩, rfl, hinv, hfail⟩
    refine (ih hinv ?_).mono ?_
    · rintro _ ⟨⟩
      exact hfail
    · rintro o t' ⟨p, rfl, hp, hl⟩
      rw [List.append_assoc] at hp
      exact ⟨p, rfl, hp, hl⟩

/-- A call on a request without its operation says nothing to UCC and leaves the
request, and with it the slice, as it is. -/
theorem call_of_taken {req : CollectiveRequest} (h : req.op = none) (c : RequestCall) :
    ∃ a, req.call ne nm c = pure (a, req) := by
  have htest : req.test ne nm = pure (.ok true, req) := by rw [CollectiveRequest.test, h]
  cases c with
  | test => exact ⟨_, by rw [CollectiveRequest.call, htest]; rfl⟩
  | wait fuel =>
    cases fuel with
    | zero => exact ⟨_, rfl⟩
    | succ fuel => exact ⟨_, by rw [CollectiveRequest.call, CollectiveRequest.wait, htest]; rfl⟩
  | result T => exact ⟨_, rfl⟩

/-- What a session with an `_nb` form on the slice `d` ends with. -/
def SessionEnds (ne : Endian) (d : Destination)
    (o : Outcome Error (Outcome Error (Option RequestAnswer × CollectiveRequest) × Destination))
    (t : List UccEvent) : Prop :=
  ∃ p, o = .ok p ∧ SliceLaw ne d t p.2 ∧
    ((∃ e, p.1 = .err e) → p.2 = d) ∧
    ∀ last req, p.1 = .ok (last, req) →
      (∀ a ∈ last, a.Fails → p.2 = d) ∧ (¬ Unfinalized t → req.op = none)

/-- Any `_nb` form: encode, post, and any calls on the request. -/
theorem inplaceNb_ends {T : Pod} {post : List UInt8 → Fn UccCollective}
    (hpost : PostsSilently post) (values : List T.Value) (calls : List RequestCall) :
    (nbSession ne nm (Fn.lift (encode ne T values) >>= fun bytes => post bytes >>= fun op =>
      pure (.new op [bytes] (some ⟨T, values⟩) none)) ⟨T, values⟩ calls).Leaves uccNote
        (SessionEnds ne ⟨T, values⟩) := by
  have hunposted : ∀ o : Outcome Error (Option RequestAnswer × CollectiveRequest),
      (∀ p, o ≠ .ok p) → SessionEnds ne ⟨T, values⟩ (.ok (o, ⟨T, values⟩)) [] :=
    fun o ho => ⟨_, rfl, .kept [] .nil, fun _ => rfl, fun _ _ h => absurd h (ho _)⟩
  cases hencode : encode ne T values with
  | err e => exact hunposted _ fun _ h => by cases h
  | panic => exact hunposted _ fun _ h => by cases h
  | pending => exact hunposted _ fun _ h => by cases h
  | ok bytes =>
    obtain ⟨-, hlen, hsmall⟩ := encode_eq_ok ne hencode
    -- posting is silent, so the record starts with the calls on the request
    rw [nbSession, Fn.lift_ok_bind, Prog.reify_bind, Prog.bind_assoc]
    refine Prog.Sat.leaves_reify_bind (hpost bytes) fun o ho => ?_
    rcases o with op | e | _ | _
    · have hout := ho op rfl
      have hd : ∀ dest ∈ (some ⟨T, values⟩ : Option Destination), dest.Fits op.args.outLen := by
        rintro dest ⟨⟩
        rw [hout]
        exact ⟨hlen.symm, hsmall⟩
      have hopen : SliceInv ne op [] (some ⟨T, values⟩) none
          (.new op [bytes] (some ⟨T, values⟩) none) [] := .still_open bytes [] .nil
      show ((CollectiveRequest.callAll ne nm (.new op [bytes] (some ⟨T, values⟩) none) calls none >>=
        fun p => pure (.ok p, p.2.destination.getD ⟨T, values⟩) :
          Fn (Outcome Error (Option RequestAnswer × CollectiveRequest) × Destination))).Leaves _ _
      refine Prog.Leaves.bind ((callAll_ends hd calls hopen fun _ h => absurd h (Option.not_mem_none _)).mono ?_)
      rintro _ t ⟨⟨last, req⟩, rfl, hinv, hlast⟩
      rw [List.nil_append] at hinv
      show SessionEnds ne ⟨T, values⟩ (.ok (.ok (last, req), req.destination.getD ⟨T, values⟩)) (t ++ [])
      rw [List.append_nil]
      refine ⟨_, rfl, ?_, (fun he => by cases he.choose_spec), ?_⟩
      · cases hinv with
        | still_open last t h => exact .kept t h
        | unfinalized last t h => exact .kept t h
        | completed out t h hsize => exact .written t op out h (hsize.trans (hout.trans hlen))
      · rintro _ _ ⟨⟩
        refine ⟨fun a ha hfails => ?_, fun hdone => ?_⟩
        · show req.destination.getD ⟨T, values⟩ = ⟨T, values⟩
          rw [hlast a ha hfails]
          rfl
        · cases hinv with
          | still_open last t h => exact absurd h hdone
          | unfinalized last t h => rfl
          | completed out t h hsize => rfl
    · exact hunposted _ fun _ h => by cases h
    · exact hunposted _ fun _ h => by cases h
    · exact hunposted _ fun _ h => by cases h

end Requests

/-! ## The four functions -/

section Functions

variable {l : Lock} {T : Pod}

/-- Initializing and posting an operation says nothing of it. -/
theorem post_silent {args : CollectiveBuilder} (team : UccTeam) :
    (args.init team >>= fun op => op.post >>= fun _ => pure op : Fn UccCollective).Sat
      (Prog.Silent uccNote) fun o => ∀ op, o = .ok op → op.args = args := by
  refine ⟨fun _ => rfl, fun answer => ?_⟩
  cases answer with
  | error e => exact fun _ h => by cases h
  | ok id =>
    refine ⟨fun _ => rfl, fun posted => ?_⟩
    cases posted with
    | error e => exact fun _ h => by cases h
    | ok u =>
      rintro op ⟨⟩
      rfl

theorem postReduce_silent (count : ℕ) (reduction : UccReductionOp) :
    PostsSilently fun bytes => postReduce l T bytes count reduction := by
  intro bytes
  refine withState_sat (fun state _ => ?_) (fun _ h => by cases h) fun _ h => by cases h
  rw [runtimeOf]
  cases state.collectives with
  | none => exact fun _ h => by cases h
  | some runtime =>
    refine (post_silent runtime.team).mono (fun _ hc => hc) fun o ho op hop => ?_
    rw [ho op hop]
    rfl

theorem postBroadcast_silent (count root : ℕ) :
    PostsSilently fun bytes => postBroadcast l T bytes count root := by
  intro bytes
  refine withState_sat (fun state _ => ?_) (fun _ h => by cases h) fun _ h => by cases h
  rw [runtimeOf]
  cases state.collectives with
  | none => exact fun _ h => by cases h
  | some runtime =>
    refine ⟨fun _ => rfl, fun answer => ?_⟩
    cases answer with
    | error e => exact fun _ h => by cases h
    | ok size =>
      show Prog.Sat _ _ (ite _ _ _)
      split
      · exact fun _ h => by cases h
      · refine (post_silent runtime.team).mono (fun _ hc => hc) fun o ho op hop => ?_
        rw [ho op hop]
        rfl

end Functions

/-- **Written once, and only on success**: whatever UCC answers, the slice that
an in-place collective was handed is as it was until an `UCC_OK` is followed by
a `finalize` that succeeds; then it is the decoded buffer, and UCC is asked
nothing more. No call that fails leaves it changed, and no call on a request
whose operation is gone touches it. -/
theorem slice_written_once (ne : Endian) (nm : NoMessage) (l : Lock) (T : Pod)
    (values : List T.Value) :
    (∀ fuel root, (broadcast ne nm fuel l T root values).Leaves uccNote (SliceEnds ne T values)) ∧
      (∀ fuel reduction,
        (reduce ne nm fuel l T reduction values).Leaves uccNote (SliceEnds ne T values)) ∧
      (∀ root calls, (nbSession ne nm (broadcastNb ne l T root values) ⟨T, values⟩ calls).Leaves
        uccNote (SessionEnds ne ⟨T, values⟩)) ∧
      (∀ reduction calls,
        (nbSession ne nm (reduceNb ne l T reduction values) ⟨T, values⟩ calls).Leaves
          uccNote (SessionEnds ne ⟨T, values⟩)) ∧
      ∀ (req : CollectiveRequest) (c : RequestCall), req.op = none →
        ∃ a, req.call ne nm c = pure (a, req) := by
  have hrefused : ∀ e, SliceEnds ne T values (.ok (.err e, values)) [] :=
    fun e => ⟨_, rfl, .kept [] .nil, fun _ => rfl,
      iff_of_false (fun h => by cases h) (not_not_intro .nil)⟩
  have hunposted : ∀ e calls, (nbSession ne nm (Fn.fail e) ⟨T, values⟩ calls).Leaves uccNote
      (SessionEnds ne ⟨T, values⟩) :=
    fun e calls => ⟨_, rfl, .kept [] .nil, fun _ => rfl, fun _ _ h => by cases h⟩
  -- each form first refuses some slices, and is the common one on the others
  refine ⟨fun fuel root => ?_, fun fuel reduction => ?_, fun root calls => ?_,
    fun reduction calls => ?_, fun req c h => call_of_taken h c⟩
  · cases h : values.isEmpty with
    | true =>
      rw [broadcast, if_pos h]
      exact hrefused _
    | false =>
      rw [broadcast_eq ne nm fuel l T root h]
      exact inplace_ends (postBroadcast_silent _ root) fuel values
  · cases h : T.reductionSupported reduction with
    | false =>
      rw [reduce, h]
      exact hrefused _
    | true =>
      rw [reduce_eq ne nm fuel l T reduction values h]
      exact inplace_ends (postReduce_silent _ reduction) fuel values
  · cases h : values.isEmpty with
    | true =>
      rw [broadcastNb, if_pos h]
      exact hunposted _ calls
    | false =>
      rw [broadcastNb_eq ne l T root h]
      exact inplaceNb_ends (postBroadcast_silent _ root) values calls
  · cases h : values.isEmpty with
    | true =>
      rw [reduceNb, if_pos h]
      exact hunposted _ calls
    | false =>
      cases hop : T.reductionSupported reduction with
      | false =>
        rw [reduceNb, h, hop]
        exact hunposted _ calls
      | true =>
        rw [reduceNb_eq ne l T reduction h hop]
        exact inplaceNb_ends (postReduce_silent _ reduction) values calls

end OpenShmem
