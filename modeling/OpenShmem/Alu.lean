import OpenShmem.Prog

/-!
# Programs over unchecked machine arithmetic

A library. `E.withAlu` is the signature `E` together with the unchecked sums,
differences and products of a machine word of `w` bits. One program over it has
two readings: a release build wraps around, a dev build panics where the release
build would. `Exactly` says that along every path no operation does either, and
then both readings are the program over whole numbers.
-/

namespace OpenShmem

/-! ## Operations -/

/-- An unchecked operation on machine words. -/
inductive AluOp : Type where
  | add (a b : ℕ)
  | sub (a b : ℕ)
  | mul (a b : ℕ)
  deriving DecidableEq, Repr

namespace AluOp

variable {w : ℕ}

/-- The word it leaves, after wrapping around. -/
def value (w : ℕ) : AluOp → ℕ
  | add a b => (a + b) % 2 ^ w
  | sub a b => (2 ^ w + a - b) % 2 ^ w
  | mul a b => a * b % 2 ^ w

/-- It does not wrap around. -/
def Exact (w : ℕ) : AluOp → Prop
  | add a b => a + b < 2 ^ w
  | sub a b => b ≤ a ∧ a < 2 ^ w
  | mul a b => a * b < 2 ^ w

instance (op : AluOp) : Decidable (op.Exact w) :=
  match op with
  | add a b => inferInstanceAs (Decidable (a + b < 2 ^ w))
  | sub a b => inferInstanceAs (Decidable (b ≤ a ∧ a < 2 ^ w))
  | mul a b => inferInstanceAs (Decidable (a * b < 2 ^ w))

@[simp] theorem exact_add {a b : ℕ} : (add a b).Exact w ↔ a + b < 2 ^ w := Iff.rfl

@[simp] theorem exact_sub {a b : ℕ} : (sub a b).Exact w ↔ b ≤ a ∧ a < 2 ^ w := Iff.rfl

@[simp] theorem exact_mul {a b : ℕ} : (mul a b).Exact w ↔ a * b < 2 ^ w := Iff.rfl

theorem value_add {a b : ℕ} (h : (add a b).Exact w) : (add a b).value w = a + b :=
  Nat.mod_eq_of_lt h

theorem value_sub {a b : ℕ} (h : (sub a b).Exact w) : (sub a b).value w = a - b := by
  obtain ⟨hle, hlt⟩ := h
  rw [value, Nat.add_sub_assoc hle, Nat.add_mod_left, Nat.mod_eq_of_lt (by omega)]

theorem value_mul {a b : ℕ} (h : (mul a b).Exact w) : (mul a b).value w = a * b :=
  Nat.mod_eq_of_lt h

end AluOp

/-- The calls of `E`, and the operations of the machine. -/
abbrev Sig.withAlu (E : Sig) : Sig where
  Call := E.Call ⊕ AluOp
  Reply := Sum.elim E.Reply fun _ => ℕ

namespace Prog

variable {E : Sig} {ε ε' α β : Type} {w : ℕ}

/-- One unchecked operation. -/
def alu (op : AluOp) : Prog E.withAlu ε ℕ := call (.inr op) fun r => done (.ok r)

/-- One call of `E`. -/
def ext (c : E.Call) : Prog E.withAlu ε (E.Reply c) := call (.inl c) fun r => done (.ok r)

@[simp] theorem alu_bind (op : AluOp) (f : ℕ → Prog E.withAlu ε β) :
    alu op >>= f = (call (.inr op) f : Prog E.withAlu ε β) := rfl

@[simp] theorem ext_bind (c : E.Call) (f : E.Reply c → Prog E.withAlu ε β) :
    ext c >>= f = (call (.inl c) f : Prog E.withAlu ε β) := rfl

/-! ## The two readings -/

/-- The release build: operations wrap around. -/
def release (w : ℕ) : Prog E.withAlu ε α → Prog E ε α
  | done o => done o
  | call (.inl c) k => call c fun r => (k r).release w
  | call (.inr op) k => (k (op.value w)).release w

/-- The dev build: an operation that would wrap around panics. -/
def dev (w : ℕ) : Prog E.withAlu ε α → Prog E ε α
  | done o => done o
  | call (.inl c) k => call c fun r => (k r).dev w
  | call (.inr op) k => if op.Exact w then (k (op.value w)).dev w else done .panic

/-- Along every path, no operation wraps around. -/
def Exactly (w : ℕ) : Prog E.withAlu ε α → Prop
  | done _ => True
  | call (.inl _) k => ∀ r, (k r).Exactly w
  | call (.inr op) k => op.Exact w ∧ (k (op.value w)).Exactly w

/-- Where nothing wraps around, the two builds are the same program. -/
theorem Exactly.dev_eq_release {m : Prog E.withAlu ε α} (h : m.Exactly w) :
    m.dev w = m.release w := by
  induction m with
  | done o => rfl
  | call c k ih =>
    cases c with
    | inl c => exact congrArg (call c) (funext fun r => ih r (h r))
    | inr op => exact (if_pos h.1).trans (ih _ h.2)

/-- `m` executes no operation that wraps around, and is then the program `n`. -/
structure Computes (w : ℕ) (m : Prog E.withAlu ε α) (n : Prog E ε α) : Prop where
  /-- nothing wraps around -/
  exactly : m.Exactly w
  /-- and the release build is `n` -/
  release_eq : m.release w = n

namespace Computes

variable {m : Prog E.withAlu ε α} {n : Prog E ε α}

theorem dev_eq (h : Computes w m n) : m.dev w = n := h.exactly.dev_eq_release.trans h.release_eq

theorem done (o : Outcome ε α) : Computes w (done o : Prog E.withAlu ε α) (done o) := ⟨trivial, rfl⟩

/-- The rule for an operation. -/
theorem alu {op : AluOp} {k : ℕ → Prog E.withAlu ε α} (hop : op.Exact w)
    (hk : Computes w (k (op.value w)) n) : Computes w (call (.inr op) k : Prog E.withAlu ε α) n :=
  ⟨⟨hop, hk.exactly⟩, hk.release_eq⟩

theorem add {a b : ℕ} {k : ℕ → Prog E.withAlu ε α} (h : a + b < 2 ^ w)
    (hk : Computes w (k (a + b)) n) :
    Computes w (Prog.alu (.add a b) >>= k : Prog E.withAlu ε α) n :=
  alu h ((AluOp.value_add h).symm ▸ hk)

theorem sub {a b : ℕ} {k : ℕ → Prog E.withAlu ε α} (hle : b ≤ a) (hlt : a < 2 ^ w)
    (hk : Computes w (k (a - b)) n) :
    Computes w (Prog.alu (.sub a b) >>= k : Prog E.withAlu ε α) n :=
  alu ⟨hle, hlt⟩ ((AluOp.value_sub ⟨hle, hlt⟩).symm ▸ hk)

theorem mul {a b : ℕ} {k : ℕ → Prog E.withAlu ε α} (h : a * b < 2 ^ w)
    (hk : Computes w (k (a * b)) n) :
    Computes w (Prog.alu (.mul a b) >>= k : Prog E.withAlu ε α) n :=
  alu h ((AluOp.value_mul h).symm ▸ hk)

/-- The rule for a call of `E`. -/
theorem ext {c : E.Call} {k : E.Reply c → Prog E.withAlu ε α} {k' : E.Reply c → Prog E ε α}
    (hk : ∀ r, Computes w (k r) (k' r)) :
    Computes w (call (.inl c) k : Prog E.withAlu ε α) (call c k') :=
  ⟨fun r => (hk r).exactly, congrArg (call c) (funext fun r => (hk r).release_eq)⟩

/-- The rule for `?` on a result that takes no call to get. -/
theorem done_bind {o : Outcome ε α} {f : α → Prog E.withAlu ε β} {g : α → Outcome ε β}
    (h : ∀ a, o = .ok a → Computes w (f a) (Prog.done (g a))) :
    Computes w (Prog.done o >>= f) (Prog.done (o >>= g)) := by
  cases o with
  | ok a => exact h a rfl
  | err e => exact done _
  | panic => exact done _
  | pending => exact done _

/-- The rule for a sequence whose first part makes no call of `E`. -/
theorem bind_ok {a : α} {f : α → Prog E.withAlu ε β} {n' : Prog E ε β}
    (hm : Computes w m (Prog.done (.ok a))) (hf : Computes w (f a) n') :
    Computes w (m >>= f) n' := by
  induction m with
  | done o =>
    obtain rfl : o = .ok a := by simpa [release] using hm.release_eq
    exact hf
  | call c k ih =>
    cases c with
    | inl c => cases hm.release_eq
    | inr op => exact alu hm.exactly.1 (ih _ ⟨hm.exactly.2, hm.release_eq⟩)

/-- The rule for looking at how a program without calls of `E` ends. -/
theorem reify_bind {o : Outcome ε α} {f : Outcome ε α → Prog E.withAlu ε' β} {n' : Prog E ε' β}
    (hm : Computes w m (Prog.done o)) (hf : Computes w (f o) n') :
    Computes w (m.reify >>= f : Prog E.withAlu ε' β) n' := by
  induction m with
  | done o' =>
    obtain rfl : o' = o := by simpa [release] using hm.release_eq
    exact hf
  | call c k ih =>
    cases c with
    | inl c => cases hm.release_eq
    | inr op => exact alu hm.exactly.1 (ih _ ⟨hm.exactly.2, hm.release_eq⟩)

end Computes

end Prog

end OpenShmem
