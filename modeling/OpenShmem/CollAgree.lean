import OpenShmem.Coll

/-!
# Blocking and non-blocking collectives agree

A blocking collective and its `_nb` form followed by `wait` are the same tree of
external calls, leaf for leaf. Both post the same operation (`postBarrier`,
`postBroadcast`, `postCollect`); from there the loop of `wait` and the polled
request read the same statuses, and what they do with the completed buffer is
the same.
-/

namespace OpenShmem

/-! ## The compositions compared -/

section Compositions

variable (ne : Endian) (nm : NoMessage) (fuel : ℕ) (l : Lock)

/-- `barrier_nb()?.wait()`. -/
def barrierNbWait : Fn Unit := do
  let req ← barrierNb l
  let (o, _) ← req.wait ne nm fuel
  Fn.lift o

variable (T : Pod)

/-- `broadcast_nb(root, values)?.wait()`, with the slice the caller has back
when the request is gone. -/
def broadcastNbWait (root : ℕ) (values : List T.Value) : Fn (Outcome Error Unit × Destination) := do
  match ← ((broadcastNb ne l T root values).reify : Fn (Outcome Error CollectiveRequest)) with
  | .ok req =>
    let (o, req) ← req.wait ne nm fuel
    return (o, req.destination.getD ⟨T, values⟩)
  | .err e => return (.err e, ⟨T, values⟩)
  | .panic => return (.panic, ⟨T, values⟩)
  | .pending => return (.pending, ⟨T, values⟩)

/-- The second half of that: what is done with the request, if there is one. -/
def waitSlice (d : Destination) :
    Outcome Error CollectiveRequest → Fn (Outcome Error Unit × Destination)
  | .ok req => do
    let (o, req) ← req.wait ne nm fuel
    return (o, req.destination.getD d)
  | .err e => return (.err e, d)
  | .panic => return (.panic, d)
  | .pending => return (.pending, d)

/-- `let mut req = collect_nb(values)?; req.wait()?; req.result::<T>()`. -/
def collectNbWait (values : List T.Value) : Fn (List T.Value) := do
  let req ← collectNb ne l T values
  let (o, req) ← req.wait ne nm fuel
  Fn.lift o
  Fn.lift (req.result ne T)

end Compositions

/-! ## What both forms post -/

section Posts

variable (ne : Endian) (l : Lock)

/-- The builder of both barriers. -/
def barrierArgs : CollectiveBuilder := (CollectiveBuilder.new .barrier).withInplace [0] |>.withCount 1

def postBarrier : Fn UccCollective :=
  withState l fun state => do
    let runtime ← Fn.lift (runtimeOf state)
    let op ← barrierArgs.init runtime.team
    op.post
    return op

variable (T : Pod)

/-- The builder of both broadcasts. -/
def broadcastArgs (bytes : List UInt8) (count root : ℕ) : CollectiveBuilder :=
  (CollectiveBuilder.new .broadcast).withInplace bytes
    |>.withCount count
    |>.withDtype T.uccDatatype
    |>.withRoot root

def postBroadcast (bytes : List UInt8) (count root : ℕ) : Fn UccCollective :=
  withState l fun state => do
    let runtime ← Fn.lift (runtimeOf state)
    let size ← runtime.team.size
    if root ≥ size then Fn.fail (.usage "broadcast root is outside the UCC team")
    else
      let op ← (broadcastArgs T bytes count root).init runtime.team
      op.post
      return op

/-- The builder of both gathers. -/
def collectArgs (send : List UInt8) (len count : ℕ) : CollectiveBuilder :=
  (CollectiveBuilder.new .allgather).withSrc send
    |>.withDst len
    |>.withCount count
    |>.withDtype T.uccDatatype

/-- What both gathers post: the encoded contribution, the length of the receive
buffer, and the operation. -/
def postCollect (values : List T.Value) : Fn (List UInt8 × ℕ × UccCollective) :=
  withState l fun state => do
    let runtime ← Fn.lift (runtimeOf state)
    let send ← Fn.lift (encode ne T values)
    let ranks ← runtime.team.size
    let len ← Fn.okOr (checkedMul 64 send.length ranks)
      (.usage "collective receive buffer overflow")
    if len ≤ isizeMax then
      let op ← (collectArgs T send len values.length).init runtime.team
      op.post
      return (send, len, op)
    else Fn.panic

end Posts

/-! ## Sequencing through `with_state` -/

theorem withState_bind {α β : Type} (l : Lock) (operation : ShmemState → Fn α) (f : α → Fn β) :
    (withState l operation >>= f : Fn β) = withState l fun state => operation state >>= f :=
  Prog.bind_assoc _ _ _

theorem fail_bind {α β : Type} (e : Error) (f : α → Fn β) :
    (Fn.fail e >>= f : Fn β) = Fn.fail e := rfl

theorem panic_bind {α β : Type} (f : α → Fn β) : (Fn.panic >>= f : Fn β) = Fn.panic := rfl

theorem barrier_eq (nm : NoMessage) (fuel : ℕ) (l : Lock) :
    barrier nm fuel l = postBarrier l >>= fun op => wait nm op fuel >>= fun _ => pure () := by
  simp only [barrier, postBarrier, withState_bind, Prog.bind_assoc, Prog.pure_eq,
    Prog.done_ok_bind, barrierArgs]

theorem barrierNb_eq (l : Lock) :
    barrierNb l = postBarrier l >>= fun op => pure (.new op [[0]] none none) := by
  simp only [barrierNb, postBarrier, withState_bind, Prog.bind_assoc, Prog.pure_eq,
    Prog.done_ok_bind, barrierArgs]

theorem ite_bind {α β : Type} (c : Prop) [Decidable c] (m m' : Fn α) (f : α → Fn β) :
    ((if c then m else m') >>= f : Fn β) = if c then m >>= f else m' >>= f := by
  split <;> rfl

section Equations

variable (ne : Endian) (nm : NoMessage) (fuel : ℕ) (l : Lock) (T : Pod)

theorem broadcast_eq (root : ℕ) {values : List T.Value} (h : values.isEmpty = false) :
    broadcast ne nm fuel l T root values =
      withSlice (Fn.lift (encode ne T values) >>= fun bytes =>
        postBroadcast l T bytes values.length root >>= fun op => wait nm op fuel)
        values (decode ne T · values) := by
  simp only [broadcast, h, Bool.false_eq_true, if_false, postBroadcast, withState_bind,
    Prog.bind_assoc, ite_bind, fail_bind, Prog.pure_eq, Prog.done_ok_bind, broadcastArgs]

theorem broadcastNb_eq (root : ℕ) {values : List T.Value} (h : values.isEmpty = false) :
    broadcastNb ne l T root values =
      Fn.lift (encode ne T values) >>= fun bytes =>
        postBroadcast l T bytes values.length root >>= fun op =>
          pure (.new op [bytes] (some ⟨T, values⟩) none) := by
  simp only [broadcastNb, h, Bool.false_eq_true, if_false, postBroadcast, withState_bind,
    Prog.bind_assoc, ite_bind, fail_bind, Prog.pure_eq, Prog.done_ok_bind, broadcastArgs]

theorem collect_eq {values : List T.Value} (h : values.isEmpty = false) :
    collect ne nm fuel l T values =
      postCollect ne l T values >>= fun p => wait nm p.2.2 fuel >>= fun recv =>
        Fn.lift (Outcome.collect ((chunksExact p.1.length recv).map fun chunk =>
          Outcome.collect ((chunksExact T.size chunk).map (T.decode ne)))) >>= fun parts =>
            pure parts.flatten := by
  simp only [collect, h, Bool.false_eq_true, if_false, postCollect, withState_bind,
    Prog.bind_assoc, ite_bind, panic_bind, Prog.pure_eq, Prog.done_ok_bind, collectArgs]

theorem collectNb_eq {values : List T.Value} (h : values.isEmpty = false) :
    collectNb ne l T values =
      postCollect ne l T values >>= fun p =>
        pure (.new p.2.2 [p.1, List.replicate p.2.1 0] none (some 1)) := by
  simp only [collectNb, h, Bool.false_eq_true, if_false, postCollect, withState_bind,
    Prog.bind_assoc, ite_bind, panic_bind, Prog.pure_eq, Prog.done_ok_bind, collectArgs,
    List.length_replicate]

end Equations

/-! ## The two loops -/

/-- The polled request and the blocking loop read the same statuses. `f` is what
follows the request, `g` what follows the loop. -/
theorem CollectiveRequest.wait_bind {β : Type} (ne : Endian) (nm : NoMessage)
    (op : UccCollective) (front : List (List UInt8)) (d : Option Destination) (i : Option ℕ)
    (hd : ∀ dest ∈ d, dest.Fits op.args.outLen)
    {f : Outcome Error Unit × CollectiveRequest → Fn β} {g : Outcome Error (List UInt8) → Fn β}
    (hok : ∀ out : List UInt8, out.length = op.args.outLen →
      f (.ok (), ⟨none, front ++ [out], d.map fun dest => dest.fill ne out, i⟩) = g (.ok out))
    (herr : ∀ e op' last, f (.err e, ⟨op', front ++ [last], d, i⟩) = g (.err e))
    (hpending : ∀ op' last, f (.pending, ⟨op', front ++ [last], d, i⟩) = g .pending) :
    ∀ (fuel : ℕ) (last : List UInt8),
      (CollectiveRequest.wait ne nm fuel ⟨some op, front ++ [last], d, i⟩ >>= f : Fn β) =
        (OpenShmem.wait nm op fuel).reify >>= g := by
  intro fuel
  induction fuel with
  | zero =>
    intro last
    exact hpending (some op) last
  | succ fuel ih =>
    intro last
    rw [CollectiveRequest.wait, CollectiveRequest.test, OpenShmem.wait]
    simp only [Fn.ucc_bind, Prog.call_bind, Prog.reify_call]
    congr 1
    funext r
    obtain ⟨status, out⟩ := r
    have hlen : out.toList.length = op.args.outLen := out.toList_length
    rw [filled_concat]
    by_cases hnm : status = nm.code
    · -- not complete: both progress and poll again
      have hok' : ¬ status = uccOk := by
        have := nm.negative
        rw [hnm, uccOk]
        omega
      have hsame : ¬ (status ≠ nm.code) := not_not_intro hnm
      simp only [if_pos hnm, if_neg hok', if_neg hsame, Prog.call_bind,
        Prog.reify_call, Prog.pure_eq, Prog.done_ok_bind]
      congr 1
      funext _
      exact ih out.toList
    · by_cases hdone : status = uccOk
      · -- complete: both finalize
        have hclean : ¬ (status ≠ uccOk) := not_not_intro hdone
        simp only [if_neg hnm, if_pos hdone, if_neg hclean, UccCollective.finalize, Fn.ucc_bind,
          Prog.call_bind, Prog.reify_call, Fn.orErr]
        congr 1
        funext finalized
        cases finalized with
        | error e => exact herr _ none out.toList
        | ok u =>
          have hcopy : copyBack ne ⟨none, front ++ [out.toList], d, i⟩ =
              (.ok true, ⟨none, front ++ [out.toList],
                d.map fun dest => dest.fill ne out.toList, i⟩) :=
            copyBack_eq ne none front out.toList d i (by rwa [hlen])
          simp only [Outcome.mapErr_ok, Prog.reify_done, Prog.done_ok_bind, hcopy, Prog.pure_eq]
          exact hok out.toList hlen
      · -- failed: both report the status
        simp only [if_neg hnm, if_pos hnm, if_neg hdone, if_pos hdone]
        exact herr _ (some op) out.toList

/-! ## What is known of a posted operation -/

section Posted

variable {ne : Endian} {l : Lock} {T : Pod}

theorem postBarrier_yields : (postBarrier l).Yields fun op => op.args.outLen = 1 := by
  refine withState_yields fun state => Prog.Yields.bind_any fun runtime => ?_
  exact post_yields fun op hop => by rw [hop]; rfl

theorem postBroadcast_yields (bytes : List UInt8) (count root : ℕ) :
    (postBroadcast l T bytes count root).Yields fun op => op.args.outLen = bytes.length := by
  refine withState_yields fun state => Prog.Yields.bind_any fun runtime => ?_
  refine Prog.Yields.bind_any fun size => ?_
  split
  · exact Prog.Yields.of_ne_ok fun _ h => by cases h
  · exact post_yields fun op hop => by rw [hop]; rfl

/-- A gather receives a multiple of what it sends. -/
theorem postCollect_yields (values : List T.Value) :
    (postCollect ne l T values).Yields fun p =>
      encode ne T values = .ok p.1 ∧ p.2.2.args.outLen = p.2.1 ∧
        ∃ ranks, p.2.1 = p.1.length * ranks := by
  refine withState_yields fun state => Prog.Yields.bind_any fun runtime => ?_
  refine Prog.Yields.bind (lift_yields _) fun send hsend => ?_
  refine Prog.Yields.bind_any fun ranks => ?_
  have hmul : (Fn.okOr (checkedMul 64 send.length ranks)
      (.usage "collective receive buffer overflow")).Yields fun len => len = send.length * ranks :=
    fun len h => ((checkedMul_eq_some.mp (Outcome.okOr_eq_ok.mp h)).2).symm
  refine Prog.Yields.bind hmul fun len hlen => ?_
  split
  · refine Prog.Yields.bind (init_yields _ _) fun op hop => ?_
    refine Prog.Yields.bind_any fun _ => Prog.Yields.pure ?_
    exact ⟨hsend, by rw [hop]; rfl, ranks, hlen⟩
  · exact Prog.Yields.of_ne_ok fun _ h => by cases h

end Posted

/-! ## Agreement -/

section Agreement

variable (ne : Endian) (nm : NoMessage) (fuel : ℕ) (l : Lock) (T : Pod)

/-- **Barriers agree**: a barrier is a posted barrier that is waited for. -/
theorem barrier_agree : barrier nm fuel l = barrierNbWait ne nm fuel l := by
  rw [barrier_eq, barrierNbWait, barrierNb_eq, Prog.bind_assoc]
  refine Prog.Yields.bind_congr postBarrier_yields fun op _ => ?_
  let f : Outcome Error Unit × CollectiveRequest → Fn Unit := fun p => Fn.lift p.1
  let g : Outcome Error (List UInt8) → Fn Unit := fun o => .done (o >>= fun _ => .ok ())
  have hloops : (CollectiveRequest.wait ne nm fuel (.new op [[0]] none none) >>= f : Fn Unit) =
      (wait nm op fuel).reify >>= g :=
    CollectiveRequest.wait_bind ne nm op [] none none (fun _ h => by cases h) (fun _ _ => rfl)
      (fun _ _ _ => rfl) (fun _ _ => rfl) fuel [0]
  exact (Prog.reify_bind_done _ _).symm.trans hloops.symm

/-- **In-place collectives agree**: encoding, posting and waiting, with the
buffer decoded into the slice by the caller or by the request. -/
theorem inplace_agree {post : List UInt8 → Fn UccCollective}
    (hpost : ∀ bytes, (post bytes).Yields fun op => op.args.outLen = bytes.length)
    (values : List T.Value) :
    (withSlice (Fn.lift (encode ne T values) >>= fun bytes =>
        post bytes >>= fun op => wait nm op fuel) values (decode ne T · values) >>=
      fun p => pure (p.1, ⟨T, p.2⟩) : Fn (Outcome Error Unit × Destination)) =
      ((Fn.lift (encode ne T values) >>= fun bytes => post bytes >>= fun op =>
          pure (.new op [bytes] (some ⟨T, values⟩) none) : Fn CollectiveRequest).reify >>=
        waitSlice ne nm fuel ⟨T, values⟩) := by
  cases hencode : encode ne T values with
  | err e => rfl
  | panic => rfl
  | pending => rfl
  | ok bytes =>
    obtain ⟨-, hlen, hsmall⟩ := encode_eq_ok ne hencode
    rw [withSlice, Fn.lift_ok_bind, Fn.lift_ok_bind, Prog.reify_bind, Prog.reify_bind]
    simp only [Prog.bind_assoc]
    refine Prog.Sat.reify_bind_congr (hpost bytes) ?_
    rintro (op | e | _ | _) hop
    · have hout : op.args.outLen = bytes.length := hop op rfl
      -- the two loops take the same steps; they differ in who decodes at the end
      let f : Outcome Error Unit × CollectiveRequest → Fn (Outcome Error Unit × Destination) :=
        fun p => pure (p.1, p.2.destination.getD ⟨T, values⟩)
      let g : Outcome Error (List UInt8) → Fn (Outcome Error Unit × Destination)
        | .ok out => pure ((decode ne T out values).1, ⟨T, (decode ne T out values).2⟩)
        | .err e => pure (.err e, ⟨T, values⟩)
        | .panic => pure (.panic, ⟨T, values⟩)
        | .pending => pure (.pending, ⟨T, values⟩)
      have hloops :
          (CollectiveRequest.wait ne nm fuel (.new op [bytes] (some ⟨T, values⟩) none) >>= f :
            Fn (Outcome Error Unit × Destination)) = (wait nm op fuel).reify >>= g := by
        refine CollectiveRequest.wait_bind ne nm op [] (some ⟨T, values⟩) none ?_ ?_
          (fun _ _ _ => rfl) (fun _ _ => rfl) fuel bytes
        · rintro dest ⟨⟩
          rw [hout]
          exact ⟨hlen.symm, hsmall⟩
        · intro out hsize
          rw [hout] at hsize
          have hdecode := decode_eq ne (hsize.trans hlen) (hsize ▸ hsmall)
          show pure (Outcome.ok (), Destination.mk T _) = g (.ok out)
          simp only [g, hdecode]
      refine Eq.trans ?_ hloops.symm
      show (wait nm op fuel).reify >>= _ = _
      congr 1
      funext o
      cases o <;> rfl
    · rfl
    · rfl
    · rfl

theorem broadcastNbWait_eq (root : ℕ) (values : List T.Value) :
    broadcastNbWait ne nm fuel l T root values =
      ((broadcastNb ne l T root values).reify >>= waitSlice ne nm fuel ⟨T, values⟩) := rfl

/-- **Broadcasts agree**: the same outcome and the same slice. -/
theorem broadcast_agree (root : ℕ) (values : List T.Value) :
    (broadcast ne nm fuel l T root values >>= fun p => pure (p.1, ⟨T, p.2⟩) :
        Fn (Outcome Error Unit × Destination)) =
      broadcastNbWait ne nm fuel l T root values := by
  rw [broadcastNbWait_eq]
  cases h : values.isEmpty with
  | true =>
    rw [broadcast, broadcastNb, if_pos h, if_pos h]
    rfl
  | false =>
    rw [broadcast_eq ne nm fuel l T root h, broadcastNb_eq ne l T root h]
    exact inplace_agree ne nm fuel T (fun bytes => postBroadcast_yields bytes _ root) values

/-- Decoding a gathered buffer rank by rank is decoding it in one go. -/
theorem decode_per_rank {m n : ℕ} (hm : 0 < m) {recv : List UInt8}
    (hrecv : recv.length = n * (m * T.size)) :
    (Outcome.collect ((chunksExact (m * T.size) recv).map fun chunk =>
        Outcome.collect ((chunksExact T.size chunk).map (T.decode ne))) >>= fun parts =>
      (.ok parts.flatten : Outcome Error (List T.Value))) =
      Outcome.collect ((chunksExact T.size recv).map (T.decode ne)) := by
  simp only [Pod.collect_decode_chunks, Outcome.collect_map_ok, Outcome.ok_bind]
  rw [← flatMap_chunksExact T.size_pos hm hrecv, List.map_flatMap, List.flatMap_def]

/-- **Gathers agree**: the same outcome and the same vector. -/
theorem collect_agree (values : List T.Value) :
    collect ne nm fuel l T values = collectNbWait ne nm fuel l T values := by
  cases h : values.isEmpty with
  | true =>
    rw [collect, collectNbWait, collectNb, if_pos h, if_pos h]
    rfl
  | false =>
    rw [collect_eq ne nm fuel l T h, collectNbWait, collectNb_eq ne l T h, Prog.bind_assoc]
    refine Prog.Yields.bind_congr (postCollect_yields values) ?_
    rintro ⟨send, len, op⟩ ⟨hencode, hout, ranks, hlen⟩
    obtain ⟨-, hsend, -⟩ := encode_eq_ok ne hencode
    have hcount : 0 < values.length := by
      rw [List.length_pos_iff]
      rintro rfl
      cases h
    let decodeAll : List UInt8 → Outcome Error (List T.Value) := fun recv =>
      Outcome.collect ((chunksExact send.length recv).map fun chunk =>
        Outcome.collect ((chunksExact T.size chunk).map (T.decode ne))) >>= fun parts =>
          .ok parts.flatten
    let f : Outcome Error Unit × CollectiveRequest → Fn (List T.Value) := fun p =>
      Fn.lift p.1 >>= fun _ => Fn.lift (p.2.result ne T)
    let g : Outcome Error (List UInt8) → Fn (List T.Value) := fun o => .done (o >>= decodeAll)
    have hloops : (CollectiveRequest.wait ne nm fuel
        (.new op [send, List.replicate len 0] none (some 1)) >>= f : Fn (List T.Value)) =
          (wait nm op fuel).reify >>= g := by
      refine CollectiveRequest.wait_bind ne nm op [send] none (some 1) (fun _ h => by cases h) ?_
        (fun _ _ _ => rfl) (fun _ _ => rfl) fuel (List.replicate len 0)
      intro out hsize
      have hrecv : out.length = ranks * (values.length * T.size) := by
        rw [hsize, hout, hlen, hsend, Nat.mul_comm]
      have hdecode : decodeAll out = Outcome.collect ((chunksExact T.size out).map (T.decode ne)) := by
        simp only [decodeAll, hsend]
        exact decode_per_rank ne T hcount hrecv
      show Prog.done (Outcome.collect ((chunksExact T.size out).map (T.decode ne))) =
        Prog.done (decodeAll out)
      rw [hdecode]
    refine Eq.trans ?_ hloops.symm
    rw [Prog.reify_bind_done]
    congr 1
    funext recv
    simp only [decodeAll]
    cases Outcome.collect ((chunksExact send.length recv).map fun chunk =>
        Outcome.collect ((chunksExact T.size chunk).map (T.decode ne))) <;> rfl

/-- **Blocking and non-blocking collectives agree**: whatever UCC answers,
`barrier`, `broadcast` and `collect` issue the same calls and end the same way
as their `_nb` forms followed by `wait`, with the same slice and the same
gathered vector. -/
theorem collectives_agree :
    barrier nm fuel l = barrierNbWait ne nm fuel l ∧
      (∀ root (values : List T.Value),
        (broadcast ne nm fuel l T root values >>= fun p => pure (p.1, ⟨T, p.2⟩) :
            Fn (Outcome Error Unit × Destination)) =
          broadcastNbWait ne nm fuel l T root values) ∧
      ∀ values : List T.Value,
        collect ne nm fuel l T values = collectNbWait ne nm fuel l T values :=
  ⟨barrier_agree ne nm fuel l, broadcast_agree ne nm fuel l T, collect_agree ne nm fuel l T⟩

end Agreement

end OpenShmem
