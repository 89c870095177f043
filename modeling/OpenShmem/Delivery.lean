import OpenShmem.Record
import OpenShmem.ReduceAgree

/-!
# Collectives deliver typed results

UCC moves bytes. `UccContract` is what it is relied on for: a broadcast copies
the root's buffer, an allgather lays the send buffers out by rank, an allreduce
folds elements of a datatype. It is stated over what the PEs of a job and UCC
tell each other, and only for operations whose element count, datatype and byte
count fit together. Over it, the collectives of `src/coll.rs` deliver typed
slices on every PE.
-/

namespace OpenShmem

/-! ## What UCC is relied on for -/

/-- What a PE and UCC tell each other. -/
inductive CollEvent : Type where
  /-- the size of the team, as reported -/
  | sized (size : ℕ)
  /-- an operation was posted -/
  | posted (op : UccCollective)
  /-- an operation was read as complete, with its output buffer -/
  | completed (op : UccCollective) (out : List UInt8)
  deriving DecidableEq

def collNote : Prog.Note Ext CollEvent
  | .ucc (.teamSize _), .ok size => [.sized size.toNat]
  | .ucc (.post op), .ok () => [.posted op]
  | .ucc (.status op), r => if r.1 = uccOk then [.completed op r.2.toList] else []
  | _, _ => []

/-- The scalar type a datatype of UCC stands for. -/
def DataType.pod : DataType → Pod
  | uint8 => .u8
  | int8 => .i8
  | uint16 => .u16
  | int16 => .i16
  | uint32 => .u32
  | int32 => .i32
  | uint64 => .u64
  | int64 => .i64
  | float32 => .f32
  | float64 => .f64

theorem Pod.pod_uccDatatype (T : Pod) : T.uccDatatype.pod = T := by
  cases T <;> rfl

/-- What the output buffer `out` of a completed operation is relied on to hold,
where PE `r` of the job posted it with the builder `args r`. The builders say
`count` elements of the datatype `d`. `fold` is what a reduction makes of one
element of each PE, in rank order. -/
structure OutputLaw (ne : Endian) (fold : (T : Pod) → UccReductionOp → List T.Value → T.Value)
    {n : ℕ} (args : Fin n → CollectiveBuilder) (out : List UInt8) : Prop where
  /-- a broadcast copies the buffer of the root -/
  broadcast : ∀ (d : DataType) (count : ℕ) (root : Fin n) (buffer : Fin n → List UInt8),
    (∀ r, args r = {
      coll := .broadcast
      inplace := some (buffer r)
      count := some count
      dtype := some d
      root := some root.val }) →
    (∀ r, (buffer r).length = count * d.pod.size) → out = buffer root
  /-- an allgather places what rank `s` sends at byte `s * (count * size)` -/
  allgather : ∀ (d : DataType) (count : ℕ) (send : Fin n → List UInt8),
    (∀ r, args r = {
      coll := .allgather
      src := some (send r)
      dst := some (n * (count * d.pod.size))
      count := some count
      dtype := some d }) →
    (∀ r, (send r).length = count * d.pod.size) →
    ∀ s : Fin n, (out.drop (s * (count * d.pod.size))).take (count * d.pod.size) = send s
  /-- an allreduce leaves the encoding of the elementwise fold -/
  allreduce : ∀ (d : DataType) (count : ℕ) (reduction : UccReductionOp)
    (x : Fin n → Fin count → d.pod.Value),
    (∀ r, args r = {
      coll := .allreduce
      inplace := some ((List.ofFn (x r)).flatMap (d.pod.toNeBytes ne))
      count := some count
      dtype := some d
      reductionOp := some reduction }) →
    out = (List.ofFn fun j => fold d.pod reduction (List.ofFn fun s => x s j)).flatMap
      (d.pod.toNeBytes ne)

/-- What UCC is relied on for, in a job whose PE `r` and UCC have told each other
`told r`. -/
structure UccContract (ne : Endian) (fold : (T : Pod) → UccReductionOp → List T.Value → T.Value)
    {n : ℕ} (told : Fin n → List CollEvent) : Prop where
  /-- the team is the job -/
  team : ∀ r size, .sized size ∈ told r → size = n
  /-- an operation that all PEs have posted completes as its builders say -/
  output : ∀ op : Fin n → UccCollective, (∀ r, .posted (op r) ∈ told r) →
    ∀ r out, .completed (op r) out ∈ told r → OutputLaw ne fold (fun s => (op s).args) out

/-! ## What one PE tells UCC -/

section OnePe

variable (ne : Endian) (nm : NoMessage) {l : Lock} {T : Pod}

/-- The operation was initialized from this builder and posted. -/
def PostedAs (args : CollectiveBuilder) (op : UccCollective) (t : List CollEvent) : Prop :=
  op.args = args ∧ .posted op ∈ t

theorem post_records {α : Type} {R : α → List CollEvent → Prop} {args : CollectiveBuilder}
    (team : UccTeam) {f : UccCollective → α} (h : ∀ op t, PostedAs args op t → R (f op) t) :
    (args.init team >>= fun op => op.post >>= fun _ => pure (f op) : Fn α).Records collNote R := by
  refine Prog.Records.bind (init_yields args team).records fun op t hop => ?_
  refine Prog.Records.call fun posted => ?_
  cases posted with
  | error e => exact Prog.Records.of_ne_ok fun _ h => by cases h
  | ok u => exact Prog.Records.pure (h op _ ⟨hop, by simp [collNote]⟩)

theorem size_records (team : UccTeam) :
    (team.size).Records collNote fun size t => .sized size ∈ t := by
  refine Prog.Records.call fun answer => ?_
  cases answer with
  | error e => exact Prog.Records.of_ne_ok fun _ h => by cases h
  | ok size => exact Prog.Records.pure (by simp [collNote])

theorem withState_records {α : Type} {R : α → List CollEvent → Prop}
    {operation : ShmemState → Fn α} (h : ∀ state, (operation state).Records collNote R) :
    (withState l operation).Records collNote R :=
  Prog.Records.done_bind fun state _ => h state

/-- A wait returns the buffer that the operation was read complete with. -/
theorem wait_records (op : UccCollective) (fuel : ℕ) :
    (wait nm op fuel).Records collNote fun out t =>
      .completed op out ∈ t ∧ out.length = op.args.outLen := by
  induction fuel with
  | zero => exact Prog.Records.of_ne_ok fun _ h => by cases h
  | succ fuel ih =>
    rw [wait, Fn.ucc_bind]
    refine Prog.Records.call fun reading => ?_
    obtain ⟨status, out⟩ := reading
    dsimp only
    split
    · next hok =>
      have hnote : CollEvent.completed op out.toList ∈ collNote (.ucc (.status op)) (status, out) := by
        simp [collNote, hok]
      refine Prog.Records.bind (Prog.yields_true _).records fun _ t _ => Prog.Records.pure ?_
      exact ⟨List.mem_append_left _ hnote, out.toList_length⟩
    · split
      · exact Prog.Records.of_ne_ok fun _ h => by cases h
      · exact Prog.Records.call fun _ => ih.mono fun out t h =>
          ⟨List.mem_append_right _ (List.mem_append_right _ h.1), h.2⟩

/-- The team was reported to have a rank `root`. -/
def HasRank (root : ℕ) (t : List CollEvent) : Prop := ∃ size, .sized size ∈ t ∧ root < size

theorem postBroadcast_records (bytes : List UInt8) (count root : ℕ) :
    (postBroadcast l T bytes count root).Records collNote fun op t =>
      PostedAs (broadcastArgs T bytes count root) op t ∧ HasRank root t := by
  refine withState_records fun state => Prog.Records.done_bind fun runtime _ => ?_
  refine Prog.Records.bind (size_records _) fun size t hsize => ?_
  split
  · exact Prog.Records.of_ne_ok fun _ h => by cases h
  · next hroot =>
    refine post_records _ fun op t' hop => ⟨⟨hop.1, List.mem_append_right _ hop.2⟩, size, ?_, ?_⟩
    · exact List.mem_append_left _ hsize
    · exact Nat.lt_of_not_le hroot

theorem postReduce_records (bytes : List UInt8) (count : ℕ) (reduction : UccReductionOp) :
    (postReduce l T bytes count reduction).Records collNote
      (PostedAs (reduceArgs T bytes count reduction)) :=
  withState_records fun _ => Prog.Records.done_bind fun _ _ => post_records _ fun _ _ hop => hop

theorem postCollect_records (values : List T.Value) :
    (postCollect ne l T values).Records collNote fun p t =>
      encode ne T values = .ok p.1 ∧ ∃ ranks, .sized ranks ∈ t ∧
        PostedAs (collectArgs T p.1 (p.1.length * ranks) values.length) p.2.2 t := by
  refine withState_records fun state => Prog.Records.done_bind fun runtime _ => ?_
  refine Prog.Records.done_bind fun send hsend => ?_
  refine Prog.Records.bind (size_records _) fun ranks t hranks => ?_
  refine Prog.Records.done_bind fun len hlen => ?_
  obtain ⟨-, rfl⟩ := checkedMul_eq_some.mp (Outcome.okOr_eq_ok.mp hlen)
  split
  · refine post_records _ fun op t' hop => ⟨hsend, ranks, ?_, hop.1, ?_⟩
    · exact List.mem_append_left _ hranks
    · exact List.mem_append_right _ hop.2
  · exact Prog.Records.of_ne_ok fun _ h => by cases h

/-- The slice that a call leaves if it returns `Ok`. -/
def sliceOf {β : Type} (m : Fn (Outcome Error Unit × β)) : Fn β := do
  let (o, slice) ← m
  Fn.lift o
  return slice

theorem sliceOf_withSlice {α β : Type} (m : Fn α) (slice : β)
    (write : α → Outcome Error Unit × β) :
    sliceOf (withSlice m slice write) =
      m >>= fun a => Fn.lift (write a).1 >>= fun _ => pure (write a).2 := by
  induction m with
  | done o => cases o <;> rfl
  | call c k ih =>
    rw [Prog.call_bind]
    exact congrArg (Prog.call c) (funext ih)

/-- An operation was posted as `P` says, and read as complete with `out`. -/
def CompletesWith (P : UccCollective → List CollEvent → Prop) (out : List UInt8)
    (t : List CollEvent) : Prop :=
  ∃ op t₁, P op t₁ ∧ t₁ ⊆ t ∧ .completed op out ∈ t ∧ out.length = op.args.outLen

theorem post_wait_records {post : Fn UccCollective} {P : UccCollective → List CollEvent → Prop}
    (hpost : post.Records collNote P) (fuel : ℕ) :
    (post >>= fun op => wait nm op fuel).Records collNote (CompletesWith P) :=
  hpost.bind fun op t₁ hop => (wait_records nm op fuel).mono fun _ _ hout =>
    ⟨op, t₁, hop, List.subset_append_left _ _, List.mem_append_right _ hout.1, hout.2⟩

/-- An in-place collective that returns `Ok` decodes the buffer that its
operation was read complete with. -/
theorem inplace_records {post : List UInt8 → Fn UccCollective}
    {P : List UInt8 → UccCollective → List CollEvent → Prop}
    (hpost : ∀ bytes, (post bytes).Records collNote (P bytes)) (fuel : ℕ)
    (values : List T.Value) :
    (sliceOf (withSlice (Fn.lift (encode ne T values) >>= fun bytes => post bytes >>= fun op =>
      wait nm op fuel) values (decode ne T · values))).Records collNote fun slice t =>
        ∃ bytes out, encode ne T values = .ok bytes ∧ CompletesWith (P bytes) out t ∧
          slice = (decode ne T out values).2 := by
  rw [sliceOf_withSlice, Prog.bind_assoc]
  refine Prog.Records.done_bind fun bytes hbytes => ?_
  refine Prog.Records.bind (post_wait_records nm (hpost bytes) fuel) fun out t hout => ?_
  refine Prog.Records.done_bind fun _ _ => Prog.Records.pure ⟨bytes, out, hbytes, ?_, rfl⟩
  rwa [List.append_nil]

/-- A gather that returns `Ok` decodes the receive buffer. -/
theorem collect_records (fuel : ℕ) {values : List T.Value} (h : values.isEmpty = false) :
    (collect ne nm fuel l T values).Records collNote fun gathered t =>
      ∃ bytes ranks out, encode ne T values = .ok bytes ∧ .sized ranks ∈ t ∧
        CompletesWith (PostedAs (collectArgs T bytes (bytes.length * ranks) values.length)) out t ∧
          gathered = (chunksExact T.size out).map (T.fromNeBytes ne) := by
  rw [collect_eq ne nm fuel l T h]
  refine Prog.Records.bind (postCollect_records ne values) ?_
  rintro ⟨bytes, len, op⟩ t ⟨hencode, ranks, hranks, hop⟩
  refine Prog.Records.bind (wait_records nm op fuel) fun out t' hout => ?_
  refine Prog.Records.done_bind fun parts hparts => Prog.Records.pure ?_
  obtain ⟨-, hlen, -⟩ := encode_eq_ok ne hencode
  refine ⟨bytes, ranks, out, hencode, List.mem_append_left _ hranks,
    ⟨op, t, hop, List.subset_append_left _ _, ?_, hout.2⟩, ?_⟩
  · simp [hout.1]
  · have hcount : 0 < values.length := by
      rw [List.length_pos_iff]
      rintro rfl
      cases h
    have hsize : out.length = ranks * (values.length * T.size) := by
      rw [hout.2, hop.1, ← hlen, Nat.mul_comm]
      rfl
    have hdecode := decode_per_rank ne T hcount hsize
    rw [← hlen, hparts, Pod.collect_decode_chunks] at hdecode
    exact Outcome.ok.inj hdecode

end OnePe

/-! ## What all of them are left with -/

/-- The PEs of a job, each with its lifecycle lock, its answers to external calls
and the number of readings its waits go on for. -/
structure CollJob (n : ℕ) (W : Type) : Type where
  lock : Fin n → Lock
  handler : Fin n → Prog.Handler Ext W
  world : Fin n → W
  fuel : Fin n → ℕ

namespace CollJob

variable {n : ℕ} {W α : Type} (J : CollJob n W)

/-- How the call of a PE ends, and what it and UCC told each other. -/
def run (call : Fin n → Fn α) (r : Fin n) : Outcome Error α × List CollEvent :=
  let p := (call r).run ((J.handler r).noting collNote) (J.world r, [])
  (p.1, p.2.2)

/-- If every PE makes the call and all calls return `Ok`, then PE `r` is left with
`value r`, by what UCC is relied on for. -/
def Delivers (ne : Endian) (fold : (T : Pod) → UccReductionOp → List T.Value → T.Value)
    (call : Fin n → Fn α) (value : Fin n → α → Prop) : Prop :=
  ∀ a : Fin n → α, (∀ r, (J.run call r).1 = .ok (a r)) →
    UccContract ne fold (fun r => (J.run call r).2) → ∀ r, value r (a r)

variable {J}

theorem delivers_of_records {ne : Endian}
    {fold : (T : Pod) → UccReductionOp → List T.Value → T.Value} {call : Fin n → Fn α}
    {value : Fin n → α → Prop} {R : Fin n → α → List CollEvent → Prop}
    (hcall : ∀ r, (call r).Records collNote (R r))
    (h : ∀ (a : Fin n → α) (told : Fin n → List CollEvent), (∀ r, R r (a r) (told r)) →
      UccContract ne fold told → ∀ r, value r (a r)) :
    J.Delivers ne fold call value :=
  fun a hok hucc => h a _ (fun r => (hcall r).run (hok r)) hucc

end CollJob

section Delivery

variable {n m : ℕ} {ne : Endian} {fold : (T : Pod) → UccReductionOp → List T.Value → T.Value}
variable {W : Type} {J : CollJob n W} {nm : NoMessage} {T : Pod} {v : Fin n → Fin m → T.Value}

/-- What an encoded slice of `m` elements is. -/
theorem encode_ofFn {x : Fin m → T.Value} {bytes : List UInt8}
    (h : encode ne T (List.ofFn x) = .ok bytes) :
    bytes = (List.ofFn x).flatMap (T.toNeBytes ne) ∧ bytes.length = m * T.size ∧
      m * T.size ≤ isizeMax := by
  obtain ⟨hbytes, hlen, hsmall⟩ := encode_eq_ok ne h
  rw [List.length_ofFn] at hlen
  exact ⟨hbytes, hlen, hlen ▸ hsmall⟩

/-- The encoding of `m` elements decodes to them, in any slice of that length. -/
theorem decode_ofFn {x y : Fin m → T.Value} (hsmall : m * T.size ≤ isizeMax) :
    (decode ne T ((List.ofFn x).flatMap (T.toNeBytes ne)) (List.ofFn y)).2 = List.ofFn x := by
  have hlen := Pod.length_flatMap_toNeBytes ne (List.ofFn x)
  rw [List.length_ofFn] at hlen
  rw [decode_eq ne (by rw [hlen, List.length_ofFn]) (hlen ▸ hsmall)]
  exact Pod.map_fromNeBytes_chunks ne _

/-- Allreduce, for the type the datatype was taken from. -/
theorem OutputLaw.allreduce_pod {args : Fin n → CollectiveBuilder} {out : List UInt8}
    (hlaw : OutputLaw ne fold args out) {reduction : UccReductionOp}
    (hargs : ∀ r, args r =
      reduceArgs T ((List.ofFn (v r)).flatMap (T.toNeBytes ne)) m reduction) :
    out = (List.ofFn fun j => fold T reduction (List.ofFn fun s => v s j)).flatMap
      (T.toNeBytes ne) := by
  obtain ⟨d, rfl, hd⟩ : ∃ d : DataType, d.pod = T ∧ T.uccDatatype = d :=
    ⟨T.uccDatatype, T.pod_uccDatatype, rfl⟩
  refine hlaw.allreduce d m reduction v fun s => ?_
  rw [hargs, reduceArgs, hd]
  rfl

theorem broadcast_delivers (root : ℕ) :
    J.Delivers ne fold
      (fun r => sliceOf (broadcast ne nm (J.fuel r) (J.lock r) T root (List.ofFn (v r))))
      fun _ slice => ∃ h : root < n, slice = List.ofFn (v ⟨root, h⟩) := by
  refine CollJob.delivers_of_records (R := fun r slice t => ∃ bytes out,
    encode ne T (List.ofFn (v r)) = .ok bytes ∧ CompletesWith (fun op t =>
      PostedAs (broadcastArgs T bytes m root) op t ∧ HasRank root t) out t ∧
        slice = (decode ne T out (List.ofFn (v r))).2) ?_ ?_
  · intro r
    cases h : (List.ofFn (v r)).isEmpty with
    | true =>
      rw [broadcast, if_pos h]
      exact Prog.Records.of_ne_ok fun _ h => by cases h
    | false =>
      have hrec := inplace_records ne nm (fun bytes =>
        postBroadcast_records (l := J.lock r) (T := T) bytes (List.ofFn (v r)).length root)
          (J.fuel r) (List.ofFn (v r))
      rw [List.length_ofFn] at hrec
      rw [broadcast_eq ne nm (J.fuel r) (J.lock r) T root h, List.length_ofFn]
      exact hrec
  · intro slice told hrec hucc r
    choose bytes out hencode hcompletes hslice using hrec
    choose op t₁ hop hsub hout hlen using hcompletes
    -- the root is a rank of the team, which is the job
    obtain ⟨size, hsize, hroot⟩ := (hop r).2
    rw [hucc.team r size (hsub r hsize)] at hroot
    have hfit : ∀ s, (bytes s).length = m * T.uccDatatype.pod.size := by
      intro s
      rw [(encode_ofFn (hencode s)).2.1, Pod.pod_uccDatatype]
    have hlaw := hucc.output op (fun s => hsub s (hop s).1.2) r (out r) (hout r)
    have hcopy : out r = bytes ⟨root, hroot⟩ :=
      hlaw.broadcast T.uccDatatype m ⟨root, hroot⟩ bytes (fun s => (hop s).1.1) hfit
    obtain ⟨hbytes, -, hsmall⟩ := encode_ofFn (hencode ⟨root, hroot⟩)
    refine ⟨hroot, ?_⟩
    rw [hslice, hcopy, hbytes]
    exact decode_ofFn hsmall

theorem reduce_delivers (reduction : UccReductionOp) :
    J.Delivers ne fold
      (fun r => sliceOf (reduce ne nm (J.fuel r) (J.lock r) T reduction (List.ofFn (v r))))
      fun _ slice => slice = List.ofFn fun j => fold T reduction (List.ofFn fun s => v s j) := by
  refine CollJob.delivers_of_records (R := fun r slice t => ∃ bytes out,
    encode ne T (List.ofFn (v r)) = .ok bytes ∧
      CompletesWith (PostedAs (reduceArgs T bytes m reduction)) out t ∧
        slice = (decode ne T out (List.ofFn (v r))).2) ?_ ?_
  · intro r
    cases h : T.reductionSupported reduction with
    | false =>
      rw [reduce, h]
      exact Prog.Records.of_ne_ok fun _ h => by cases h
    | true =>
      have hrec := inplace_records ne nm (fun bytes =>
        postReduce_records (l := J.lock r) (T := T) bytes (List.ofFn (v r)).length reduction)
          (J.fuel r) (List.ofFn (v r))
      rw [List.length_ofFn] at hrec
      rw [reduce_eq ne nm (J.fuel r) (J.lock r) T reduction _ h, List.length_ofFn]
      exact hrec
  · intro slice told hrec hucc r
    choose bytes out hencode hcompletes hslice using hrec
    choose op t₁ hop hsub hout hlen using hcompletes
    have hlaw := hucc.output op (fun s => hsub s (hop s).2) r (out r) (hout r)
    have hargs : ∀ s, (op s).args =
        reduceArgs T ((List.ofFn (v s)).flatMap (T.toNeBytes ne)) m reduction := by
      intro s
      rw [(hop s).1, (encode_ofFn (hencode s)).1]
    rw [hslice, hlaw.allreduce_pod hargs]
    exact decode_ofFn (encode_ofFn (hencode r)).2.2

theorem collect_delivers :
    J.Delivers ne fold (fun r => collect ne nm (J.fuel r) (J.lock r) T (List.ofFn (v r)))
      fun _ gathered => gathered = (List.ofFn fun s => List.ofFn (v s)).flatten := by
  refine CollJob.delivers_of_records (R := fun r gathered t => 0 < m ∧ ∃ bytes ranks out,
    encode ne T (List.ofFn (v r)) = .ok bytes ∧ .sized ranks ∈ t ∧
      CompletesWith (PostedAs (collectArgs T bytes (bytes.length * ranks) m)) out t ∧
        gathered = (chunksExact T.size out).map (T.fromNeBytes ne)) ?_ ?_
  · intro r
    cases h : (List.ofFn (v r)).isEmpty with
    | true =>
      rw [collect, if_pos h]
      exact Prog.Records.of_ne_ok fun _ h => by cases h
    | false =>
      have hrec := collect_records ne nm (l := J.lock r) (J.fuel r) h
      rw [List.length_ofFn] at hrec
      refine hrec.mono fun gathered t ht => ⟨Nat.pos_of_ne_zero ?_, ht⟩
      rintro rfl
      cases h
  · intro gathered told hrec hucc r
    choose hm bytes ranks out hencode hranks hcompletes hgathered using hrec
    choose op t₁ hop hsub hout hlen using hcompletes
    have hsize : 0 < m * T.size := Nat.mul_pos (hm r) T.size_pos
    have hteam : ∀ s, ranks s = n := fun s => hucc.team s _ (hranks s)
    have hbytes : ∀ s, (bytes s).length = m * T.size := fun s => (encode_ofFn (hencode s)).2.1
    have hargs : ∀ s, (op s).args = collectArgs T (bytes s) (n * (m * T.size)) m := by
      intro s
      rw [(hop s).1, hteam, hbytes, Nat.mul_comm]
    -- the receive buffer is the contributions' bytes, one after the other
    have hlaw := hucc.output op (fun s => hsub s (hop s).2) r (out r) (hout r)
    have hblocks : ∀ s : Fin n, ((out r).drop (s * (m * T.size))).take (m * T.size) = bytes s := by
      have hgather := hlaw.allgather T.uccDatatype m bytes
      rw [Pod.pod_uccDatatype] at hgather
      exact hgather hargs hbytes
    have hlong : (out r).length = n * (m * T.size) := by
      rw [hlen, hargs]
      rfl
    have hchunks := chunksExact_eq_ofFn hsize hlong hblocks
    have hjoin : out r = ((List.ofFn fun s => List.ofFn (v s)).flatten).flatMap (T.toNeBytes ne) :=
      calc out r = (List.ofFn bytes).flatten := by
            rw [← hchunks, flatten_chunksExact hsize ⟨n, hlong.trans (Nat.mul_comm _ _)⟩]
        _ = (List.ofFn fun s => (List.ofFn (v s)).flatMap (T.toNeBytes ne)).flatten := by
            rw [funext fun s => (encode_ofFn (hencode s)).1]
        _ = ((List.ofFn fun s => List.ofFn (v s)).flatten).flatMap (T.toNeBytes ne) := by
            simp only [List.flatMap_def, List.map_flatten, List.flatten_flatten, List.map_ofFn,
              Function.comp_def]
    rw [hgathered, hjoin]
    exact Pod.map_fromNeBytes_chunks ne _

theorem collectNb_delivers :
    J.Delivers ne fold (fun r => collectNbWait ne nm (J.fuel r) (J.lock r) T (List.ofFn (v r)))
      fun _ gathered => gathered = (List.ofFn fun s => List.ofFn (v s)).flatten := by
  simp only [← collect_agree]
  exact collect_delivers

end Delivery

/-- **Collectives deliver typed results on every PE.** For any number of PEs, any
type and any contributions of one length, when all calls return `Ok`: a
broadcast leaves every PE with the slice of the root; a gather, blocking or
not, returns the contributions in rank order; a reduction leaves every PE with
the elementwise fold. -/
theorem collectives_deliver (ne : Endian) (nm : NoMessage)
    (fold : (T : Pod) → UccReductionOp → List T.Value → T.Value) {n m : ℕ} {W : Type}
    (J : CollJob n W) (T : Pod) (v : Fin n → Fin m → T.Value) :
    (∀ root, J.Delivers ne fold
      (fun r => sliceOf (broadcast ne nm (J.fuel r) (J.lock r) T root (List.ofFn (v r))))
      fun _ slice => ∃ h : root < n, slice = List.ofFn (v ⟨root, h⟩)) ∧
    J.Delivers ne fold (fun r => collect ne nm (J.fuel r) (J.lock r) T (List.ofFn (v r)))
      (fun _ gathered => gathered = (List.ofFn fun s => List.ofFn (v s)).flatten) ∧
    J.Delivers ne fold (fun r => collectNbWait ne nm (J.fuel r) (J.lock r) T (List.ofFn (v r)))
      (fun _ gathered => gathered = (List.ofFn fun s => List.ofFn (v s)).flatten) ∧
    ∀ reduction, J.Delivers ne fold
      (fun r => sliceOf (reduce ne nm (J.fuel r) (J.lock r) T reduction (List.ofFn (v r))))
      fun _ slice => slice = List.ofFn fun j => fold T reduction (List.ofFn fun s => v s j) :=
  ⟨broadcast_delivers, collect_delivers, collectNb_delivers, reduce_delivers⟩

/-! ### Two PEs -/

/-- Two PEs with two elements each. -/
def pairSlice (r j : Fin 2) : Pod.u16.Value :=
  if r.val = 0 then (if j.val = 0 then 1 else 2) else if j.val = 0 then 515 else 4

/-- What UCC does with them: the second PE is the root, and sums are taken. -/
def pairOut : UccCollectiveType → List UInt8
  | .barrier => []
  | .broadcast => [3, 2, 4, 0]
  | .allgather => [1, 0, 2, 0, 3, 2, 4, 0]
  | .allreduce => [4, 2, 6, 0]

def pairHandler : Prog.Handler Ext Unit
  | .ucc (.teamSize _), _ => (.ok 2, ())
  | .ucc (.status op), _ =>
    ((uccOk, List.Vector.ofFn fun i => (pairOut op.args.coll).getD i 0), ())
  | c, w => accommodating 4096 c w

def pairJob : CollJob 2 Unit :=
  ⟨fun _ => .holding loneState, fun _ => pairHandler, fun _ => (), fun _ => 1⟩

/-- Sums as UCC takes them, over any type. -/
def sumFold (T : Pod) (_ : UccReductionOp) (xs : List T.Value) : T.Value := xs.foldl (· + ·) 0

/-- One operation, completed with what the law says, meets the contract. -/
theorem UccContract.of_single {ne : Endian}
    {fold : (T : Pod) → UccReductionOp → List T.Value → T.Value} {n : ℕ}
    {told : Fin n → List CollEvent} {args : Fin n → CollectiveBuilder} {out : List UInt8}
    (htold : ∀ r, told r ⊆ [.sized n, .posted ⟨0, args r⟩, .completed ⟨0, args r⟩ out])
    (hlaw : OutputLaw ne fold args out) : UccContract ne fold told where
  team r size h := by simpa using htold r h
  output op hposted r out' hout := by
    have hop : ∀ s, op s = ⟨0, args s⟩ := fun s => by simpa using htold s (hposted s)
    obtain ⟨-, rfl⟩ : op r = ⟨0, args r⟩ ∧ out' = out := by simpa using htold r hout
    simpa only [hop] using hlaw

/-- The three operations of the two PEs, as the law has them. -/
theorem pair_broadcast_law : OutputLaw .little sumFold
    (fun r : Fin 2 => broadcastArgs .u16 ((List.ofFn (pairSlice r)).flatMap
      (Pod.u16.toNeBytes .little)) 2 1) (pairOut .broadcast) where
  broadcast d count root buffer h _ := by
    obtain rfl : (1 : Fin 2) = root :=
      Fin.ext (Option.some.inj (congrArg CollectiveBuilder.root (h 0)))
    have hbuffer := Option.some.inj (congrArg CollectiveBuilder.inplace (h 1))
    exact Eq.trans (by decide) hbuffer
  allgather d count send h _ := by cases h 0
  allreduce d count reduction x h := by cases h 0

theorem pair_collect_law : OutputLaw .little sumFold
    (fun r : Fin 2 => collectArgs .u16 ((List.ofFn (pairSlice r)).flatMap
      (Pod.u16.toNeBytes .little)) 8 2) (pairOut .allgather) where
  broadcast d count root buffer h _ := by cases h 0
  allgather d count send h _ := by
    have hsend : ∀ r, _ = send r := fun r => Option.some.inj (congrArg CollectiveBuilder.src (h r))
    obtain rfl : 2 = count := Option.some.inj (congrArg CollectiveBuilder.count (h 0))
    obtain rfl : .uint16 = d := Option.some.inj (congrArg CollectiveBuilder.dtype (h 0))
    intro s
    rw [← hsend s]
    revert s
    decide
  allreduce d count reduction x h := by cases h 0

theorem pair_reduce_law : OutputLaw .little sumFold
    (fun r : Fin 2 => reduceArgs .u16 ((List.ofFn (pairSlice r)).flatMap
      (Pod.u16.toNeBytes .little)) 2 .sum) (pairOut .allreduce) where
  broadcast d count root buffer h _ := by cases h 0
  allgather d count send h _ := by cases h 0
  allreduce d count reduction x h := by
    obtain rfl : 2 = count := Option.some.inj (congrArg CollectiveBuilder.count (h 0))
    obtain rfl : .uint16 = d := Option.some.inj (congrArg CollectiveBuilder.dtype (h 0))
    obtain rfl : .sum = reduction :=
      Option.some.inj (congrArg CollectiveBuilder.reductionOp (h 0))
    -- the contributions are read back from the bytes
    have hx : ∀ r, List.ofFn (pairSlice r) = List.ofFn (x r) := by
      intro r
      have hbytes := Option.some.inj (congrArg CollectiveBuilder.inplace (h r))
      rw [← Pod.map_fromNeBytes_chunks .little (List.ofFn (pairSlice r)), hbytes]
      exact Pod.map_fromNeBytes_chunks .little (List.ofFn (x r))
    obtain rfl : pairSlice = x := funext fun r => List.ofFn_injective (hx r)
    decide

/-- Two PEs, of which the second is the root, and sums. -/
theorem collectives_deliver_instance :
    (∃ h : 1 < 2, [515, 4] = List.ofFn (pairSlice ⟨1, h⟩)) ∧
      [1, 2, 515, 4] = (List.ofFn fun s => List.ofFn (pairSlice s)).flatten ∧
      [516, 6] = List.ofFn fun j => sumFold .u16 .sum (List.ofFn fun s => pairSlice s j) := by
  obtain ⟨hbroadcast, hcollect, -, hreduce⟩ :=
    collectives_deliver .little ⟨-6, by decide⟩ sumFold pairJob .u16 pairSlice
  refine ⟨?_, ?_, ?_⟩
  · exact hbroadcast 1 (fun _ => [515, 4]) (by decide) (.of_single (by decide) pair_broadcast_law) 0
  · exact hcollect (fun _ => [1, 2, 515, 4]) (by decide) (.of_single (by decide) pair_collect_law) 0
  · exact hreduce .sum (fun _ => [516, 6]) (by decide) (.of_single (by decide) pair_reduce_law) 0

end OpenShmem
