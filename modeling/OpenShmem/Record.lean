import OpenShmem.Prog

/-!
# What a run leaves on record

A library over an arbitrary effect signature. A `Note` says what a call and its
answer leave on record; `Handler.noting` is a handler that also keeps the
record. `Leaves note Q` says of a program, by recursion on its tree, that every
outcome and the record that leads to it satisfy `Q`, whatever is answered. A
program all of whose calls are silent leaves nothing.
-/

namespace OpenShmem

namespace Prog

variable {E : Sig} {ε ε' α β N W : Type}

/-- What a call and its answer leave on record. -/
abbrev Note (E : Sig) (N : Type) : Type := (c : E.Call) → E.Reply c → List N

/-- The handler that also keeps the record, oldest first. -/
def Handler.noting (h : Handler E W) (note : Note E N) : Handler E (W × List N) :=
  fun c w => ((h c w.1).1, ((h c w.1).2, w.2 ++ note c (h c w.1).1))

/-- On every path the outcome and the record satisfy `Q`. -/
def Leaves (note : Note E N) : (Outcome ε α → List N → Prop) → Prog E ε α → Prop
  | Q, done o => Q o []
  | Q, call c k => ∀ r, (k r).Leaves note fun o t => Q o (note c r ++ t)

/-- A call that leaves nothing on record, whatever it is answered. -/
def Silent (note : Note E N) (c : E.Call) : Prop := ∀ r, note c r = []

variable {note : Note E N} {Q Q' : Outcome ε α → List N → Prop}

theorem Leaves.mono {m : Prog E ε α} (h : m.Leaves note Q) (hQ : ∀ o t, Q o t → Q' o t) :
    m.Leaves note Q' := by
  induction m generalizing Q Q' with
  | done o => exact hQ o [] h
  | call c k ih => exact fun r => ih r (h r) fun o t => hQ o (note c r ++ t)

/-- A record in less detail is the record with the detail dropped. -/
theorem Leaves.of_map {N' : Type} {note' : Note E N'} {f : N' → N}
    (hnote : ∀ c r, note c r = (note' c r).map f) {m : Prog E ε α} (h : m.Leaves note Q) :
    m.Leaves note' fun o t => Q o (t.map f) := by
  induction m generalizing Q with
  | done o => exact h
  | call c k ih =>
    intro r
    refine (ih r (h r)).mono fun o t ht => ?_
    show Q o ((note' c r ++ t).map f)
    rw [List.map_append, ← hnote]
    exact ht

/-- The rule for a silent call. -/
theorem Leaves.silent {c : E.Call} {k : E.Reply c → Prog E ε α} (hc : Silent note c)
    (hk : ∀ r, (k r).Leaves note Q) : (call c k).Leaves note Q := by
  intro r
  rw [hc r]
  exact hk r

/-- The rule for `?`: the records of the two parts are joined. -/
theorem Leaves.bind {m : Prog E ε α} {f : α → Prog E ε β} {R : Outcome ε β → List N → Prop}
    (hm : m.Leaves note fun o t => match o with
      | .ok a => (f a).Leaves note fun o' t' => R o' (t ++ t')
      | .err e => R (.err e) t
      | .panic => R .panic t
      | .pending => R .pending t) :
    (m >>= f).Leaves note R := by
  induction m generalizing R with
  | done o => cases o <;> exact hm
  | call c k ih =>
    intro r
    refine ih r ((hm r).mono ?_)
    rintro (a | e | _ | _) t h
    · simpa only [List.append_assoc] using h
    · exact h
    · exact h
    · exact h

/-- What a caller makes of the value. -/
theorem Leaves.bind_pure {m : Prog E ε α} {f : α → β} {R : Outcome ε β → List N → Prop}
    (hm : m.Leaves note fun o t => R (f <$> o) t) :
    (m >>= fun a => pure (f a)).Leaves note R := by
  refine Leaves.bind (hm.mono ?_)
  rintro (a | e | _ | _) t h
  · show R (.ok (f a)) (t ++ [])
    rw [List.append_nil]
    exact h
  · exact h
  · exact h
  · exact h

/-- The rule for `?` on a result that takes no call to get. -/
theorem Leaves.done_bind {o : Outcome ε α} {f : α → Prog E ε β} {R : Outcome ε β → List N → Prop}
    (hok : ∀ a, o = .ok a → (f a).Leaves note R) (hother : ∀ o', (∀ b, o' ≠ .ok b) → R o' []) :
    (done o >>= f : Prog E ε β).Leaves note R := by
  cases o with
  | ok a => exact hok a rfl
  | err e => exact hother (.err e) fun _ h => by cases h
  | panic => exact hother .panic fun _ h => by cases h
  | pending => exact hother .pending fun _ h => by cases h

/-- Only silent calls: nothing is left. -/
theorem Sat.leaves {m : Prog E ε α} {R : Outcome ε α → Prop} (h : m.Sat (Silent note) R) :
    m.Leaves note fun o t => R o ∧ t = [] := by
  induction m with
  | done o => exact ⟨h, rfl⟩
  | call c k ih => exact Leaves.silent h.1 fun r => ih r (h.2 r)

/-- The rule for a silent part that always returns a value. -/
theorem Sat.leaves_bind {m : Prog E ε α} (hm : m.Sat (Silent note) fun o => ∃ a, o = .ok a)
    {f : α → Prog E ε β} {Q : Outcome ε β → List N → Prop} (hf : ∀ a, (f a).Leaves note Q) :
    (m >>= f).Leaves note Q := by
  induction m with
  | done o =>
    obtain ⟨a, rfl⟩ := hm
    exact hf a
  | call c k ih => exact Leaves.silent hm.1 fun r => ih r (hm.2 r)

/-- The rule for `match m { .. }` after a part that is silent. -/
theorem Sat.leaves_reify_bind {m : Prog E ε α} {R : Outcome ε α → Prop}
    (hm : m.Sat (Silent note) R) {f : Outcome ε α → Prog E ε' β}
    {Q : Outcome ε' β → List N → Prop} (hf : ∀ o, R o → (f o).Leaves note Q) :
    (m.reify >>= f : Prog E ε' β).Leaves note Q := by
  induction m with
  | done o => exact hf o hm
  | call c k ih => exact Leaves.silent hm.1 fun r => ih r (hm.2 r)

/-- The rule for `match m { Ok(a) => .., Err(e) => .. }` after a silent part. -/
theorem Sat.leaves_attempt_bind {m : Prog E ε α} {R : Outcome ε α → Prop}
    (hm : m.Sat (Silent note) R) {f : Except ε α → Prog E ε' β}
    {Q : Outcome ε' β → List N → Prop} (hok : ∀ a, (f (.ok a)).Leaves note Q)
    (herr : ∀ e, R (.err e) → (f (.error e)).Leaves note Q) (hpanic : Q .panic [])
    (hpending : R .pending → Q .pending []) :
    (m.attempt >>= f : Prog E ε' β).Leaves note Q := by
  induction m with
  | done o =>
    cases o with
    | ok a => exact hok a
    | err e => exact herr e hm
    | panic => exact hpanic
    | pending => exact hpending hm
  | call c k ih => exact Leaves.silent hm.1 fun r => ih r (hm.2 r)

/-- Looking at how a program ends does not change its record. -/
theorem Leaves.reify {m : Prog E ε α} (h : m.Leaves note Q) :
    (m.reify : Prog E ε' (Outcome ε α)).Leaves note fun o' t => ∃ o, o' = .ok o ∧ Q o t := by
  induction m generalizing Q with
  | done o => exact ⟨o, rfl, h⟩
  | call c k ih => exact fun r => ih r (h r)

/-- What holds of every path holds of the record of a run. -/
theorem Leaves.run {m : Prog E ε α} (hm : m.Leaves note Q) (h : Handler E W) (w : W)
    (log : List N) :
    ∃ t, (m.run (h.noting note) (w, log)).2.2 = log ++ t ∧
      Q (m.run (h.noting note) (w, log)).1 t := by
  induction m generalizing Q w log with
  | done o => exact ⟨[], (List.append_nil log).symm, hm⟩
  | call c k ih =>
    obtain ⟨t, hlog, hQ⟩ := ih (h c w).1 (hm _) (h c w).2 (log ++ note c (h c w).1)
    exact ⟨note c (h c w).1 ++ t, by rw [← List.append_assoc]; exact hlog, hQ⟩

/-- Keeping a record does not change a run. -/
theorem run_noting (h : Handler E W) (note : Note E N) (m : Prog E ε α) (w : W) (log : List N) :
    (m.run (h.noting note) (w, log)).1 = (m.run h w).1 ∧
      (m.run (h.noting note) (w, log)).2.1 = (m.run h w).2 := by
  induction m generalizing w log with
  | done o => exact ⟨rfl, rfl⟩
  | call c k ih => exact ih _ _ _

/-! ## Partial correctness with the record -/

/-- Every value returned, with the record that leads to it, satisfies `R`. -/
def Records (note : Note E N) (R : α → List N → Prop) (m : Prog E ε α) : Prop :=
  m.Leaves note fun o t => ∀ a, o = .ok a → R a t

variable {R R₁ R₂ : α → List N → Prop} {R' : β → List N → Prop}

theorem Records.pure {a : α} (h : R a []) : (pure a : Prog E ε α).Records note R := by
  rintro b ⟨⟩
  exact h

/-- A program that never returns a value may leave anything. -/
theorem Records.of_ne_ok {o : Outcome ε α} (h : ∀ a, o ≠ .ok a) :
    (done o : Prog E ε α).Records note R :=
  fun a ha => absurd ha (h a)

/-- The rule for a call: its note comes first. -/
theorem Records.call {c : E.Call} {k : E.Reply c → Prog E ε α}
    (h : ∀ r, (k r).Records note fun a t => R a (note c r ++ t)) : (call c k).Records note R :=
  h

theorem Records.mono {m : Prog E ε α} (hm : m.Records note R₁) (h : ∀ a t, R₁ a t → R₂ a t) :
    m.Records note R₂ :=
  Leaves.mono hm fun _ t ho a ha => h a t (ho a ha)

/-- What is known of the values is known of them next to any record. -/
theorem Yields.records {R : α → Prop} {m : Prog E ε α} (hm : m.Yields R) :
    m.Records note fun a _ => R a := by
  induction m with
  | done o => exact hm
  | call c k ih => exact fun r => ih r (hm.2 r)

/-- The rule for sequences. -/
theorem Records.bind {m : Prog E ε α} {f : α → Prog E ε β} (hm : m.Records note R)
    (hf : ∀ a t, R a t → (f a).Records note fun b t' => R' b (t ++ t')) :
    (m >>= f).Records note R' := by
  refine Leaves.bind (Leaves.mono hm ?_)
  rintro (a | e | _ | _) t h
  · exact hf a t (h a rfl)
  · exact fun _ h => by cases h
  · exact fun _ h => by cases h
  · exact fun _ h => by cases h

/-- The rule for `?` on a result that takes no call to get. -/
theorem Records.done_bind {o : Outcome ε α} {f : α → Prog E ε β}
    (h : ∀ a, o = .ok a → (f a).Records note R') : (done o >>= f : Prog E ε β).Records note R' := by
  cases o with
  | ok a => exact h a rfl
  | err e => exact fun _ h => by cases h
  | panic => exact fun _ h => by cases h
  | pending => exact fun _ h => by cases h

/-- What holds of every path holds of the record of a run from the empty one. -/
theorem Records.run {m : Prog E ε α} (hm : m.Records note R) {h : Handler E W} {w : W} {a : α}
    (hrun : (m.run (h.noting note) (w, [])).1 = .ok a) :
    R a (m.run (h.noting note) (w, [])).2.2 := by
  obtain ⟨t, ht, hR⟩ := Leaves.run hm h w []
  rw [ht, List.nil_append]
  exact hR a hrun

end Prog

end OpenShmem
