import OpenShmem.CollAgree

/-!
# When the two reductions agree

`reduce` and `reduce_nb` write out the same guards, but for one: only
`reduce_nb` refuses an empty slice. On every other input the two are one tree of
calls. On the empty slice `reduce_nb` ends before it looks at anything else,
and `reduce` goes on, up to posting an operation on no elements.
-/

namespace OpenShmem

section Definitions

variable (ne : Endian) (nm : NoMessage) (fuel : ℕ) (l : Lock) (T : Pod)

/-- `reduce_nb(op, values)?.wait()`, with the slice the caller has back when the
request is gone. -/
def reduceNbWait (reduction : UccReductionOp) (values : List T.Value) :
    Fn (Outcome Error Unit × Destination) := do
  let posted ← ((reduceNb ne l T reduction values).reify : Fn (Outcome Error CollectiveRequest))
  waitSlice ne nm fuel ⟨T, values⟩ posted

/-- The two forms issue the same calls with the same arguments, end the same
way and leave the same slice, whatever UCC answers. Ending the same way is
returning the same `Result`: an error is compared with its text. -/
def ReduceAgrees (reduction : UccReductionOp) (values : List T.Value) : Prop :=
  (reduce ne nm fuel l T reduction values >>= fun p => pure (p.1, ⟨T, p.2⟩) :
      Fn (Outcome Error Unit × Destination)) =
    reduceNbWait ne nm fuel l T reduction values

/-- An end without what the error says. -/
def Outcome.forget {ε α : Type} : Outcome ε α → Outcome Unit α
  | .ok a => .ok a
  | .err _ => .err ()
  | .panic => .panic
  | .pending => .pending

/-- The two forms agree up to what an error says: both return `Ok` or both `Err`. -/
def ReduceAgreesUpToError (reduction : UccReductionOp) (values : List T.Value) : Prop :=
  (reduce ne nm fuel l T reduction values >>= fun p => pure (p.1.forget, ⟨T, p.2⟩) :
      Fn (Outcome Unit Unit × Destination)) =
    (reduceNbWait ne nm fuel l T reduction values >>= fun p => pure (p.1.forget, p.2))

/-- The builder of both reductions. -/
def reduceArgs (bytes : List UInt8) (count : ℕ) (reduction : UccReductionOp) : CollectiveBuilder :=
  (CollectiveBuilder.new .allreduce).withInplace bytes
    |>.withCount count
    |>.withDtype T.uccDatatype
    |>.withReductionOp reduction

def postReduce (bytes : List UInt8) (count : ℕ) (reduction : UccReductionOp) :
    Fn UccCollective :=
  withState l fun state => do
    let runtime ← Fn.lift (runtimeOf state)
    let op ← (reduceArgs T bytes count reduction).init runtime.team
    op.post
    return op

end Definitions

section Lemmas

variable (ne : Endian) (nm : NoMessage) (fuel : ℕ) (l : Lock) (T : Pod)
variable (reduction : UccReductionOp)

theorem reduce_eq (values : List T.Value) (h : T.reductionSupported reduction = true) :
    reduce ne nm fuel l T reduction values =
      withSlice (Fn.lift (encode ne T values) >>= fun bytes =>
        postReduce l T bytes values.length reduction >>= fun op => wait nm op fuel)
        values (decode ne T · values) := by
  simp only [reduce, h, Bool.not_true, Bool.false_eq_true, if_false, postReduce, withState_bind,
    Prog.bind_assoc, Prog.pure_eq, Prog.done_ok_bind, reduceArgs]

theorem reduceNb_eq {values : List T.Value} (hvalues : values.isEmpty = false)
    (h : T.reductionSupported reduction = true) :
    reduceNb ne l T reduction values =
      Fn.lift (encode ne T values) >>= fun bytes =>
        postReduce l T bytes values.length reduction >>= fun op =>
          pure (.new op [bytes] (some ⟨T, values⟩) none) := by
  simp only [reduceNb, hvalues, h, Bool.not_true, Bool.false_eq_true, if_false, postReduce,
    withState_bind, Prog.bind_assoc, Prog.pure_eq, Prog.done_ok_bind, reduceArgs]

variable {l T} in
theorem postReduce_yields (bytes : List UInt8) (count : ℕ) (reduction : UccReductionOp) :
    (postReduce l T bytes count reduction).Yields fun op => op.args.outLen = bytes.length := by
  refine withState_yields fun state => Prog.Yields.bind_any fun runtime => ?_
  exact post_yields fun op hop => by rw [hop]; rfl

/-- On a slice that is not empty the two agree. -/
theorem reduceAgrees_of_nonempty {values : List T.Value} (hvalues : values.isEmpty = false) :
    ReduceAgrees ne nm fuel l T reduction values := by
  rw [ReduceAgrees, reduceNbWait]
  cases h : T.reductionSupported reduction with
  | false =>
    simp only [reduce, reduceNb, h, hvalues, Bool.not_false, Bool.false_eq_true, if_true, if_false]
    rfl
  | true =>
    rw [reduce_eq ne nm fuel l T reduction values h, reduceNb_eq ne l T reduction hvalues h]
    exact inplace_agree ne nm fuel T (fun bytes => postReduce_yields bytes _ reduction) values

/-- The end is not the refusal of an empty slice. -/
def Undisputed {α : Type} (o : Outcome Error α) : Prop :=
  o ≠ .err (.usage "collective buffer must be non-empty")

/-- A wait does not refuse a slice. -/
theorem wait_undisputed (op : UccCollective) :
    (wait nm op fuel).Sat (fun _ => True) Undisputed := by
  induction fuel with
  | zero => exact fun h => by cases h
  | succ fuel ih =>
    rw [wait, Fn.ucc_bind]
    refine ⟨trivial, fun reading => ?_⟩
    obtain ⟨status, out⟩ := reading
    dsimp only
    split
    · refine ⟨trivial, fun finalized => ?_⟩
      refine Fn.sat_orErr_bind (fun _ _ h => by cases h) fun e _ h => by cases h
    · split
      · exact fun h => by cases h
      · exact ⟨trivial, fun _ => ih⟩

theorem postReduce_undisputed (bytes : List UInt8) (count : ℕ) :
    (postReduce l T bytes count reduction >>= fun op => wait nm op fuel).Sat (fun _ => True)
      Undisputed := by
  rw [postReduce, withState_bind]
  refine withState_sat (fun state _ => ?_) (fun h => by cases h) fun h => by cases h
  cases hruntime : state.collectives with
  | none =>
    rw [runtimeOf, hruntime]
    exact fun h => by cases h
  | some runtime =>
    rw [runtimeOf, hruntime]
    refine ⟨trivial, fun answer => ?_⟩
    cases answer with
    | error e => exact fun h => by cases h
    | ok id =>
      refine ⟨trivial, fun posted => ?_⟩
      cases posted with
      | error e => exact fun h => by cases h
      | ok u => exact wait_undisputed nm fuel _

/-- The slice next to a result does not change the result into a refusal. -/
theorem withSlice_undisputed {α β : Type} {m : Fn α} (hm : m.Sat (fun _ => True) Undisputed)
    (slice : β) {write : α → Outcome Error Unit × β} (hwrite : ∀ a, Undisputed (write a).1) :
    (withSlice m slice write).Sat (fun _ => True) fun o => ∃ p, o = .ok p ∧ Undisputed p.1 := by
  rw [withSlice]
  refine Prog.Sat.bind (hm.reify.mono (fun _ hc => hc) ?_)
  rintro _ ⟨a | e | _ | _, rfl, ho⟩
  · exact ⟨_, rfl, hwrite a⟩
  · exact ⟨_, rfl, fun h => ho (by cases h; rfl)⟩
  · exact ⟨_, rfl, fun h => by cases h⟩
  · exact ⟨_, rfl, fun h => by cases h⟩

/-- On the empty slice they do not: one error is about the slice, and the other
form never returns that one. -/
theorem not_reduceAgrees_empty : ¬ ReduceAgrees ne nm fuel l T reduction [] := by
  intro hagree
  have hnb : reduceNbWait ne nm fuel l T reduction [] =
      pure (.err (.usage "collective buffer must be non-empty"), ⟨T, []⟩) := rfl
  rw [ReduceAgrees, hnb] at hagree
  cases h : T.reductionSupported reduction with
  | false =>
    simp only [reduce, h, Bool.not_false, if_true] at hagree
    simp at hagree
  | true =>
    rw [reduce_eq ne nm fuel l T reduction [] h] at hagree
    have hencode : encode ne T [] = .ok [] := by simp [encode, checkedMul]
    rw [hencode, Fn.lift_ok_bind, List.length_nil] at hagree
    have hwrite : ∀ out, Undisputed (decode ne T out []).1 := by
      intro out
      rw [decode,
        show checkedMul 64 ([] : List T.Value).length T.size = some 0 by simp [checkedMul]]
      dsimp only
      split
      · simp [Undisputed]
      · exact fun h => by cases h
    have hsat := withSlice_undisputed (postReduce_undisputed nm fuel l T reduction [] 0)
      ([] : List T.Value) hwrite
    have hpair := Prog.Sat.bind (f := fun p => pure (p.1, ⟨T, p.2⟩))
      (R := fun o : Outcome Error (Outcome Error Unit × Destination) =>
        ∃ p, o = .ok p ∧ Undisputed p.1) (hsat.mono (fun _ hc => hc) ?_)
    · rw [hagree] at hpair
      obtain ⟨p, hp, hundisputed⟩ := hpair
      cases hp
      exact hundisputed rfl
    · rintro _ ⟨p, rfl, hp⟩
      exact ⟨_, rfl, hp⟩

end Lemmas

/-- **When the reductions agree**: exactly on the slices that are not empty. -/
theorem reduce_agree_iff (ne : Endian) (nm : NoMessage) (fuel : ℕ) (l : Lock) (T : Pod)
    (reduction : UccReductionOp) (values : List T.Value) :
    ReduceAgrees ne nm fuel l T reduction values ↔ values ≠ [] := by
  cases values with
  | nil => exact iff_of_false (not_reduceAgrees_empty ne nm fuel l T reduction) (absurd rfl)
  | cons v vs =>
    exact iff_of_true (reduceAgrees_of_nonempty ne nm fuel l T reduction rfl)
      (List.cons_ne_nil v vs)

/-- On a slice that is not empty they agree up to what an error says, too. -/
theorem reduceAgreesUpToError_of_nonempty (ne : Endian) (nm : NoMessage) (fuel : ℕ) (l : Lock)
    (T : Pod) (reduction : UccReductionOp) {values : List T.Value} (hvalues : values ≠ []) :
    ReduceAgreesUpToError ne nm fuel l T reduction values := by
  have hagree : ReduceAgrees ne nm fuel l T reduction values :=
    reduceAgrees_of_nonempty ne nm fuel l T reduction (by simpa using hvalues)
  rw [ReduceAgreesUpToError, ← hagree, Prog.bind_assoc]
  rfl

/-- There is a runtime to post on. -/
def RuntimeUsable (l : Lock) : Prop :=
  ∃ state runtime, l = .holding state ∧ state.collectives = some runtime

/-- On the empty slice `reduce` calls UCC, if it supports the operation and finds a runtime. -/
theorem reduce_empty_calls (ne : Endian) (nm : NoMessage) (fuel : ℕ) {l : Lock} {T : Pod}
    {reduction : UccReductionOp} (h : T.reductionSupported reduction = true)
    (hl : RuntimeUsable l) : ∃ c k, reduce ne nm fuel l T reduction [] = .call c k := by
  obtain ⟨state, runtime, rfl, hruntime⟩ := hl
  have hencode : encode ne T [] = .ok [] := by simp [encode, checkedMul]
  rw [reduce_eq ne nm fuel _ T reduction [] h, hencode, Fn.lift_ok_bind, postReduce, withState_bind,
    withState, lockedState_holding, Fn.lift_ok_bind, runtimeOf, hruntime]
  exact ⟨_, _, rfl⟩

/-- Otherwise it returns an error. -/
theorem reduce_empty_refuses (ne : Endian) (nm : NoMessage) (fuel : ℕ) {l : Lock} {T : Pod}
    {reduction : UccReductionOp}
    (h : T.reductionSupported reduction = false ∨ ¬ RuntimeUsable l) :
    ∃ e, reduce ne nm fuel l T reduction [] = pure (.err e, []) := by
  cases hsupported : T.reductionSupported reduction with
  | false =>
    simp only [reduce, hsupported, Bool.not_false, if_true]
    exact ⟨_, rfl⟩
  | true =>
    have hunusable : ¬ RuntimeUsable l := h.resolve_left (by rw [hsupported]; decide)
    have hencode : encode ne T [] = .ok [] := by simp [encode, checkedMul]
    rw [reduce_eq ne nm fuel l T reduction [] hsupported, hencode, Fn.lift_ok_bind, postReduce,
      withState_bind, withState]
    obtain ⟨state, rfl, hstate⟩ | ⟨-, -, hstate⟩ | ⟨-, hstate⟩ := lockedState_cases l
    · have hnone : state.collectives = none := by
        cases hruntime : state.collectives with
        | none => rfl
        | some runtime => exact absurd ⟨state, runtime, rfl, hruntime⟩ hunusable
      rw [hstate, Fn.lift_ok_bind, runtimeOf, hnone]
      exact ⟨_, rfl⟩
    · rw [hstate]
      exact ⟨_, rfl⟩
    · rw [hstate]
      exact ⟨_, rfl⟩

/-- **When the reductions agree up to what an error says**: also on the empty slice, when
`reduce` comes upon another error before it posts. -/
theorem reduce_agree_up_to_error_iff (ne : Endian) (nm : NoMessage) (fuel : ℕ) (l : Lock)
    (T : Pod) (reduction : UccReductionOp) (values : List T.Value) :
    ReduceAgreesUpToError ne nm fuel l T reduction values ↔
      values ≠ [] ∨ T.reductionSupported reduction = false ∨ ¬ RuntimeUsable l := by
  cases values with
  | cons v vs =>
    exact iff_of_true
      (reduceAgreesUpToError_of_nonempty ne nm fuel l T reduction (List.cons_ne_nil v vs))
      (Or.inl (List.cons_ne_nil v vs))
  | nil =>
    have hnb : reduceNbWait ne nm fuel l T reduction [] =
        pure (.err (.usage "collective buffer must be non-empty"), ⟨T, []⟩) := rfl
    rw [ReduceAgreesUpToError, hnb]
    constructor
    · intro hagree
      by_contra hnot
      push Not at hnot
      obtain ⟨-, hsupported, hl⟩ := hnot
      -- `reduce` makes a call where `reduce_nb` has ended
      obtain ⟨c, k, hcall⟩ := reduce_empty_calls ne nm fuel (Bool.ne_false_iff.mp hsupported) hl
      rw [hcall] at hagree
      cases hagree
    · intro h
      obtain ⟨e, he⟩ := reduce_empty_refuses ne nm fuel (h.resolve_left (absurd rfl))
      rw [he]
      rfl

/-- A sum over no elements: `reduce` posts it and returns `Ok`, `reduce_nb` makes
no call and refuses. -/
theorem empty_posted_by_one :
    ¬ ∀ (ne : Endian) (nm : NoMessage) (fuel : ℕ) (l : Lock) (T : Pod) (reduction : UccReductionOp)
        (values : List T.Value), ReduceAgrees ne nm fuel l T reduction values := by
  intro h
  have hagree := h .little ⟨-6, by decide⟩ 1 (.holding loneState) .u8 .sum []
  have hrun := congrArg (fun m => (m.run (accommodating 4096) ()).1) hagree
  cases hrun

end OpenShmem
