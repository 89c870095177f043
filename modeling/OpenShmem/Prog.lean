import OpenShmem.Outcome

/-!
# Programs as trees of external calls

A library over an arbitrary effect signature `E`. A `Prog E ε α` is either
`done` with an `Outcome`, or it issues one external call and continues with
whatever that call is answered. One definition of a function then serves every
reading of it:

* `Sat P Q` — whatever is answered, every call issued satisfies `P` and every
  outcome satisfies `Q`;
* `run` — the function under a handler that answers each call;
* `recorded` — the same run with the list of calls it issued;
* and, in `Interleave`, the steps of many programs against one shared resource.
-/

namespace OpenShmem

/-- An effect signature: the external calls and what each is answered with. -/
structure Sig where
  /-- the calls -/
  Call : Type
  /-- the type of a call's answer -/
  Reply : Call → Type

/-- A program over the calls of `E`. -/
inductive Prog (E : Sig) (ε α : Type) : Type where
  /-- the function has ended -/
  | done (o : Outcome ε α)
  /-- it issues `c` and continues with the answer -/
  | call (c : E.Call) (k : E.Reply c → Prog E ε α)

namespace Prog

variable {E : Sig} {ε ε' α β γ : Type}

/-- `?` on programs: continue at the `ok` leaves. -/
protected def bind : Prog E ε α → (α → Prog E ε β) → Prog E ε β
  | done (.ok a), f => f a
  | done (.err e), _ => done (.err e)
  | done .panic, _ => done .panic
  | done .pending, _ => done .pending
  | call c k, f => call c fun r => (k r).bind f

instance : Monad (Prog E ε) where
  pure a := done (.ok a)
  bind := Prog.bind

/-- Issue one call and return its answer. -/
def perform (c : E.Call) : Prog E ε (E.Reply c) := call c fun r => done (.ok r)

/-- Turn every way to end into a value, so that the caller can look at it. -/
def reify : Prog E ε α → Prog E ε' (Outcome ε α)
  | done o => done (.ok o)
  | call c k => call c fun r => (k r).reify

/-- `match m { Ok(a) => .., Err(e) => .. }`: only a panic or an unfinished wait
goes through. -/
def attempt : Prog E ε α → Prog E ε' (Except ε α)
  | done (.ok a) => done (.ok (.ok a))
  | done (.err e) => done (.ok (.error e))
  | done .panic => done .panic
  | done .pending => done .pending
  | call c k => call c fun r => (k r).attempt

@[simp] theorem pure_eq (a : α) : (pure a : Prog E ε α) = done (.ok a) := rfl

@[simp] theorem done_ok_bind (a : α) (f : α → Prog E ε β) :
    (done (.ok a) >>= f : Prog E ε β) = f a := rfl

@[simp] theorem done_err_bind (e : ε) (f : α → Prog E ε β) :
    (done (.err e) >>= f : Prog E ε β) = done (.err e) := rfl

@[simp] theorem done_panic_bind (f : α → Prog E ε β) :
    (done .panic >>= f : Prog E ε β) = done .panic := rfl

@[simp] theorem done_pending_bind (f : α → Prog E ε β) :
    (done .pending >>= f : Prog E ε β) = done .pending := rfl

@[simp] theorem call_bind (c : E.Call) (k : E.Reply c → Prog E ε α) (f : α → Prog E ε β) :
    (call c k >>= f : Prog E ε β) = call c fun r => k r >>= f := rfl

@[simp] theorem perform_bind (c : E.Call) (f : E.Reply c → Prog E ε β) :
    (perform c >>= f : Prog E ε β) = call c f := rfl

theorem bind_assoc (m : Prog E ε α) (f : α → Prog E ε β) (g : β → Prog E ε γ) :
    (m >>= f) >>= g = m >>= fun a => f a >>= g := by
  induction m with
  | done o => cases o <;> rfl
  | call c k ih =>
    simp only [call_bind]
    congr 1
    funext r
    exact ih r

/-- Returning the value at the end changes nothing. -/
theorem bind_done (m : Prog E ε α) : (m >>= fun a => done (.ok a) : Prog E ε α) = m := by
  induction m with
  | done o => cases o <;> rfl
  | call c k ih =>
    rw [call_bind]
    congr 1
    funext r
    exact ih r

/-- The value of a program that has ended with `ok`. -/
def returned : Prog E ε α → Option α
  | done (.ok a) => some a
  | _ => none

theorem returned_eq_some {m : Prog E ε α} {a : α} : m.returned = some a ↔ m = done (.ok a) := by
  cases m with
  | done o => cases o <;> simp [returned]
  | call c k => simp [returned]

@[simp] theorem reify_done (o : Outcome ε α) :
    (done o : Prog E ε α).reify = (done (.ok o) : Prog E ε' (Outcome ε α)) := rfl

@[simp] theorem reify_call (c : E.Call) (k : E.Reply c → Prog E ε α) :
    (call c k).reify = (call c fun r => (k r).reify : Prog E ε' (Outcome ε α)) := rfl

/-- Looking at how a sequence ends is looking at how its first part ends, and
then at the rest. -/
theorem reify_bind (m : Prog E ε α) (f : α → Prog E ε β) :
    ((m >>= f).reify : Prog E ε' (Outcome ε β)) = m.reify >>= fun
      | .ok a => (f a).reify
      | .err e => done (.ok (.err e))
      | .panic => done (.ok .panic)
      | .pending => done (.ok .pending) := by
  induction m with
  | done o => cases o <;> rfl
  | call c k ih =>
    simp only [call_bind, reify_call]
    congr 1
    funext r
    exact ih r

/-! ## What holds on every path -/

/-- Every call on every path satisfies `P`, every outcome satisfies `Q`. -/
def Sat (P : E.Call → Prop) (Q : Outcome ε α → Prop) : Prog E ε α → Prop
  | done o => Q o
  | call c k => P c ∧ ∀ r, (k r).Sat P Q

variable {P P' : E.Call → Prop} {Q Q' : Outcome ε α → Prop}

theorem Sat.mono {m : Prog E ε α} (h : m.Sat P Q) (hP : ∀ c, P c → P' c)
    (hQ : ∀ o, Q o → Q' o) : m.Sat P' Q' := by
  induction m with
  | done o => exact hQ o h
  | call c k ih => exact ⟨hP c h.1, fun r => ih r (h.2 r)⟩

theorem Sat.and {m : Prog E ε α} (h : m.Sat P Q) (h' : m.Sat P' Q') :
    m.Sat (fun c => P c ∧ P' c) fun o => Q o ∧ Q' o := by
  induction m with
  | done o => exact ⟨h, h'⟩
  | call c k ih => exact ⟨⟨h.1, h'.1⟩, fun r => ih r (h.2 r) (h'.2 r)⟩

/-- The rule for `?`: the rest of the function is only looked at after `ok`. -/
theorem Sat.bind {m : Prog E ε α} {f : α → Prog E ε β} {R : Outcome ε β → Prop}
    (hm : m.Sat P fun
      | .ok a => (f a).Sat P R
      | .err e => R (.err e)
      | .panic => R .panic
      | .pending => R .pending) :
    (m >>= f).Sat P R := by
  induction m with
  | done o => cases o <;> exact hm
  | call c k ih => exact ⟨hm.1, fun r => ih r (hm.2 r)⟩

/-- The rule for `?` where nothing is asked of the outcome. -/
theorem Sat.bind_any {m : Prog E ε α} {f : α → Prog E ε β} (hm : m.Sat P fun _ => True)
    (hf : ∀ a, (f a).Sat P fun _ => True) : (m >>= f).Sat P fun _ => True := by
  refine Sat.bind (hm.mono (fun _ h => h) ?_)
  rintro (a | e | _ | _) _
  · exact hf a
  · exact trivial
  · exact trivial
  · exact trivial

/-- The rule for `?` on a result that takes no call to get. -/
theorem Sat.done_bind {o : Outcome ε α} {f : α → Prog E ε β}
    (hf : ∀ a, o = .ok a → (f a).Sat P fun _ => True) :
    (done o >>= f : Prog E ε β).Sat P fun _ => True := by
  cases o with
  | ok a => exact hf a rfl
  | err e => exact trivial
  | panic => exact trivial
  | pending => exact trivial

/-- Two continuations need only agree on the values that can come. -/
theorem Sat.reify_bind_congr {m : Prog E ε α} (h : m.Sat P Q)
    {f g : Outcome ε α → Prog E ε' β} (hfg : ∀ o, Q o → f o = g o) :
    (m.reify >>= f : Prog E ε' β) = m.reify >>= g := by
  induction m with
  | done o => exact hfg o h
  | call c k ih =>
    simp only [reify_call, call_bind]
    congr 1
    funext r
    exact ih r (h.2 r)

theorem Sat.reify {m : Prog E ε α} (h : m.Sat P Q) :
    (m.reify : Prog E ε' (Outcome ε α)).Sat P fun o' => ∃ o, o' = .ok o ∧ Q o := by
  induction m with
  | done o => exact ⟨o, rfl, h⟩
  | call c k ih => exact ⟨h.1, fun r => ih r (h.2 r)⟩

/-- Partial correctness: every value returned satisfies `R`. -/
def Yields (R : α → Prop) (m : Prog E ε α) : Prop :=
  m.Sat (fun _ => True) fun o => ∀ a, o = .ok a → R a

theorem Yields.pure {R : α → Prop} {a : α} (h : R a) : (pure a : Prog E ε α).Yields R := by
  rintro b ⟨⟩
  exact h

theorem Yields.call {R : α → Prop} {c : E.Call} {k : E.Reply c → Prog E ε α}
    (h : ∀ r, (k r).Yields R) : (call c k).Yields R :=
  ⟨trivial, h⟩

/-- A program that never returns a value yields anything. -/
theorem Yields.of_ne_ok {R : α → Prop} {o : Outcome ε α} (h : ∀ a, o ≠ .ok a) :
    (done o : Prog E ε α).Yields R :=
  fun a ha => absurd ha (h a)

theorem yields_true (m : Prog E ε α) : m.Yields fun _ => True := by
  induction m with
  | done o => exact fun _ _ => trivial
  | call c k ih => exact ⟨trivial, ih⟩

/-- The rule for sequences. -/
theorem Yields.bind {R : α → Prop} {R' : β → Prop} {m : Prog E ε α} {f : α → Prog E ε β}
    (hm : m.Yields R) (hf : ∀ a, R a → (f a).Yields R') : (m >>= f).Yields R' := by
  refine Sat.bind (Sat.mono hm (fun _ h => h) ?_)
  rintro (a | e | _ | _) h
  · exact hf a (h a rfl)
  · exact fun _ h => by cases h
  · exact fun _ h => by cases h
  · exact fun _ h => by cases h

/-- The rule for sequences whose first part may return anything. -/
theorem Yields.bind_any {R : β → Prop} {m : Prog E ε α} {f : α → Prog E ε β}
    (hf : ∀ a, (f a).Yields R) : (m >>= f).Yields R :=
  (yields_true m).bind fun a _ => hf a

theorem Yields.mono {R R' : α → Prop} {m : Prog E ε α} (hm : m.Yields R) (h : ∀ a, R a → R' a) :
    m.Yields R' :=
  Sat.mono hm (fun _ hc => hc) fun _ ho a ha => h a (ho a ha)

/-- Catching errors keeps what is known of the values. -/
theorem Yields.attempt {R : α → Prop} {m : Prog E ε α} (hm : m.Yields R) :
    (m.attempt : Prog E ε' (Except ε α)).Yields fun x => ∀ a, x = .ok a → R a := by
  induction m with
  | done o =>
    cases o with
    | ok a => exact Yields.pure fun _ h => Except.ok.inj h ▸ hm a rfl
    | err e => exact Yields.pure fun _ h => by cases h
    | panic => exact Yields.of_ne_ok fun _ h => by cases h
    | pending => exact Yields.of_ne_ok fun _ h => by cases h
  | call c k ih => exact ⟨trivial, fun r => ih r (hm.2 r)⟩

/-- What is known of the values is known of an end that is looked at. -/
theorem Yields.reify_yields {R : α → Prop} {m : Prog E ε α} (hm : m.Yields R) :
    (m.reify : Prog E ε' (Outcome ε α)).Yields fun o => ∀ a, o = .ok a → R a := by
  refine Sat.mono (Sat.reify hm) (fun _ h => h) ?_
  rintro _ ⟨o, rfl, ho⟩ _ ⟨⟩
  exact ho

/-- Two continuations need only agree on the values that can be returned. -/
theorem Yields.bind_congr {R : α → Prop} {m : Prog E ε α} (hm : m.Yields R)
    {f g : α → Prog E ε β} (hfg : ∀ a, R a → f a = g a) : m >>= f = m >>= g := by
  induction m with
  | done o =>
    cases o with
    | ok a => exact hfg a (hm a rfl)
    | err e => rfl
    | panic => rfl
    | pending => rfl
  | call c k ih =>
    simp only [call_bind]
    congr 1
    funext r
    exact ih r (hm.2 r)

/-- Total correctness: a value is returned on every path, and it satisfies `R`. -/
def Returns (R : α → Prop) (m : Prog E ε α) : Prop :=
  m.Sat (fun _ => True) fun o => ∃ a, o = .ok a ∧ R a

theorem Returns.pure {R : α → Prop} {a : α} (h : R a) : (pure a : Prog E ε α).Returns R :=
  ⟨a, rfl, h⟩

theorem Returns.call {R : α → Prop} {c : E.Call} {k : E.Reply c → Prog E ε α}
    (h : ∀ r, (k r).Returns R) : (call c k).Returns R :=
  ⟨trivial, h⟩

theorem Returns.bind {R : α → Prop} {R' : β → Prop} {m : Prog E ε α} {f : α → Prog E ε β}
    (hm : m.Returns R) (hf : ∀ a, R a → (f a).Returns R') : (m >>= f).Returns R' := by
  refine Sat.bind (Sat.mono hm (fun _ h => h) ?_)
  rintro _ ⟨a, rfl, ha⟩
  exact hf a ha

/-- A program that looks at how another one ends always gets there. -/
theorem Sat.reify_returns {m : Prog E ε α} (hm : m.Sat P Q) :
    (m.reify : Prog E ε' (Outcome ε α)).Returns Q :=
  hm.reify.mono (fun _ _ => trivial) fun _ ⟨o, ho, hQ⟩ => ⟨o, ho, hQ⟩

/-- A continuation that only passes the end on need not look at it. -/
theorem reify_bind_done (m : Prog E ε α) (h : α → Outcome ε β) :
    (m.reify >>= fun o => done (o >>= h) : Prog E ε β) = m >>= fun a => done (h a) := by
  induction m with
  | done o => cases o <;> rfl
  | call c k ih =>
    simp only [reify_call, call_bind]
    congr 1
    funext r
    exact ih r

/-! ## Running under a handler -/

/-- A handler answers every call and may change its own world while doing so. -/
abbrev Handler (E : Sig) (W : Type) : Type := (c : E.Call) → W → E.Reply c × W

variable {W : Type}

/-- The run of a program under a handler. -/
def run (h : Handler E W) : Prog E ε α → W → Outcome ε α × W
  | done o, w => (o, w)
  | call c k, w => run h (k (h c w).1) (h c w).2

@[simp] theorem run_done (h : Handler E W) (o : Outcome ε α) (w : W) :
    (done o : Prog E ε α).run h w = (o, w) := rfl

@[simp] theorem run_call (h : Handler E W) (c : E.Call) (k : E.Reply c → Prog E ε α) (w : W) :
    (call c k).run h w = (k (h c w).1).run h (h c w).2 := rfl

/-- The run of a sequence, by how its first part ended. -/
theorem run_bind (h : Handler E W) (m : Prog E ε α) (f : α → Prog E ε β) (w : W) :
    (m >>= f).run h w =
      match m.run h w with
      | (.ok a, w') => (f a).run h w'
      | (.err e, w') => (.err e, w')
      | (.panic, w') => (.panic, w')
      | (.pending, w') => (.pending, w') := by
  induction m generalizing w with
  | done o => cases o <;> rfl
  | call c k ih => exact ih _ _

theorem run_bind_of_ok {h : Handler E W} {m : Prog E ε α} {f : α → Prog E ε β} {w w' : W} {a : α}
    (hm : m.run h w = (.ok a, w')) : (m >>= f).run h w = (f a).run h w' := by
  rw [run_bind, hm]

/-- Inversion: a sequence that returns came through its first part. -/
theorem run_bind_eq_ok {h : Handler E W} {m : Prog E ε α} {f : α → Prog E ε β} {w : W} {b : β}
    (hrun : ((m >>= f).run h w).1 = .ok b) :
    ∃ a w', m.run h w = (.ok a, w') ∧ ((f a).run h w').1 = .ok b := by
  rw [run_bind] at hrun
  rcases hm : m.run h w with ⟨a | e | _ | _, w'⟩
  · rw [hm] at hrun
    exact ⟨a, w', rfl, hrun⟩
  all_goals
    rw [hm] at hrun
    cases hrun

/-- Inversion: what a program that catches errors went on with. -/
theorem run_attempt_bind_eq_ok {h : Handler E W} {m : Prog E ε α} {f : Except ε α → Prog E ε' β}
    {w : W} {b : β} (hrun : ((m.attempt >>= f).run h w).1 = .ok b) :
    (∃ a w', m.run h w = (.ok a, w') ∧ ((f (.ok a)).run h w').1 = .ok b) ∨
      ∃ e w', m.run h w = (.err e, w') ∧ ((f (.error e)).run h w').1 = .ok b := by
  induction m generalizing w with
  | done o =>
    cases o with
    | ok a => exact Or.inl ⟨a, w, rfl, hrun⟩
    | err e => exact Or.inr ⟨e, w, rfl, hrun⟩
    | panic => cases hrun
    | pending => cases hrun
  | call c k ih => exact ih _ hrun

@[simp] theorem run_reify (h : Handler E W) (m : Prog E ε α) (w : W) :
    (m.reify : Prog E ε' (Outcome ε α)).run h w = (.ok (m.run h w).1, (m.run h w).2) := by
  induction m generalizing w with
  | done o => rfl
  | call c k ih => exact ih _ _

/-- What holds on every path holds of every run. -/
theorem Sat.run {m : Prog E ε α} (hm : m.Sat P Q) (h : Handler E W) (w : W) :
    Q (m.run h w).1 := by
  induction m generalizing w with
  | done o => exact hm
  | call c k ih => exact ih _ (hm.2 _) _

/-- The run of a program that looks at how another one ends. -/
theorem run_reify_bind (h : Handler E W) (m : Prog E ε α) (f : Outcome ε α → Prog E ε' β) (w : W) :
    (m.reify >>= f : Prog E ε' β).run h w = (f (m.run h w).1).run h (m.run h w).2 := by
  rw [run_bind, run_reify]

/-- Under this handler the program comes back, with `Ok` or with `Err`, from
every world. -/
def Ends (h : Handler E W) (m : Prog E ε α) : Prop := ∀ w, (m.run h w).1.Returned

section Ends

variable {h : Handler E W}

theorem Ends.done {o : Outcome ε α} (ho : o.Returned) : (done o : Prog E ε α).Ends h := fun _ => ho

/-- The rule for a call, by the answers this handler gives. -/
theorem Ends.call {c : E.Call} {k : E.Reply c → Prog E ε α} (hk : ∀ w, (k (h c w).1).Ends h) :
    (call c k).Ends h :=
  fun w => hk w _

theorem Ends.bind {m : Prog E ε α} {f : α → Prog E ε β} (hm : m.Ends h)
    (hf : ∀ a, (f a).Ends h) : (m >>= f).Ends h := by
  intro w
  have hback := hm w
  rw [run_bind]
  generalize m.run h w = ran at hback ⊢
  obtain ⟨a | e | _ | _, w'⟩ := ran
  · exact hf a w'
  · exact trivial
  · exact False.elim hback
  · exact False.elim hback

/-- Errors that are caught come back all the more. -/
theorem Ends.attempt {m : Prog E ε α} (hm : m.Ends h) :
    (m.attempt : Prog E ε' (Except ε α)).Ends h := by
  intro w
  have hback := hm w
  clear hm
  induction m generalizing w with
  | done o =>
    cases o with
    | ok a => exact trivial
    | err e => exact trivial
    | panic => exact False.elim hback
    | pending => exact False.elim hback
  | call c k ih => exact ih _ _ hback

/-- Under this handler the program returns a value that satisfies `R`, from every
world. -/
def EndsWith (h : Handler E W) (R : α → Prop) (m : Prog E ε α) : Prop :=
  ∀ w, ∃ a, (m.run h w).1 = .ok a ∧ R a

theorem EndsWith.pure {R : α → Prop} {a : α} (ha : R a) : (pure a : Prog E ε α).EndsWith h R :=
  fun _ => ⟨a, rfl, ha⟩

theorem EndsWith.call {R : α → Prop} {c : E.Call} {k : E.Reply c → Prog E ε α}
    (hk : ∀ w, (k (h c w).1).EndsWith h R) : (call c k).EndsWith h R :=
  fun w => hk w _

theorem EndsWith.bind {R : α → Prop} {R' : β → Prop} {m : Prog E ε α} {f : α → Prog E ε β}
    (hm : m.EndsWith h R) (hf : ∀ a, R a → (f a).EndsWith h R') : (m >>= f).EndsWith h R' := by
  intro w
  obtain ⟨a, hrun, ha⟩ := hm w
  rw [run_bind_of_ok (Prod.ext hrun rfl)]
  exact hf a ha _

/-- Looking at a program that comes back shows `Ok` or `Err`. -/
theorem Ends.reify {m : Prog E ε α} (hm : m.Ends h) :
    (m.reify : Prog E ε' (Outcome ε α)).EndsWith h Outcome.Returned := by
  intro w
  rw [run_reify]
  exact ⟨_, rfl, hm w⟩

end Ends

/-- A panic of the first part is the end of the sequence. -/
theorem run_bind_panic {h : Handler E W} {m : Prog E ε α} {f : α → Prog E ε β} {w : W}
    (hm : (m.run h w).1 = .panic) : ((m >>= f).run h w).1 = .panic := by
  rw [run_bind]
  generalize m.run h w = ran at hm ⊢
  obtain ⟨o, w'⟩ := ran
  obtain rfl : o = .panic := hm
  rfl

/-- Catching errors does not catch a panic. -/
theorem run_attempt_panic {h : Handler E W} {m : Prog E ε α} {w : W}
    (hm : (m.run h w).1 = .panic) :
    ((m.attempt : Prog E ε' (Except ε α)).run h w).1 = .panic := by
  induction m generalizing w with
  | done o =>
    obtain rfl : o = .panic := hm
    rfl
  | call c k ih => exact ih _ hm

/-- The handler that also keeps the list of the calls it answered, oldest
first. -/
def Handler.recorded (h : Handler E W) : Handler E (W × List E.Call) :=
  fun c w => ((h c w.1).1, ((h c w.1).2, w.2 ++ [c]))

end Prog

end OpenShmem
