import Mathlib.Data.Finset.Insert
import OpenShmem.Bootstrap
import OpenShmem.Interleave

/-!
# PMIx as the PEs of a job share it

What is assumed of PMIx where several PEs are concerned, as the cells of an
interleaving. A PE's cell is its own part of the store. A put stages a value
under a key; `commit` publishes what is staged, all at once and in place of
older values; a fence is left with success only after every PE has entered the
fence of that round; a get that succeeds returns what the peer has published
last. Any call may fail at any time, and a put or a commit that fails may have
had its effect or not. Of UCX and the environment nothing is assumed.
-/

namespace OpenShmem

/-- What PMIx holds for one PE. -/
structure PeStore : Type where
  staged : PmixKey → Option PmixValue
  published : PmixKey → Option PmixValue
  /-- the rounds whose fence the PE has entered -/
  entered : Finset ℕ
  /-- the rounds whose fence it has left with success -/
  passed : Finset ℕ

namespace PeStore

/-- Nothing staged, nothing published, no fence entered. -/
def empty : PeStore := ⟨fun _ => none, fun _ => none, ∅, ∅⟩

def stage (s : PeStore) (key : PmixKey) (value : PmixValue) : PeStore :=
  { s with staged := Function.update s.staged key (some value) }

def publish (s : PeStore) : PeStore :=
  { s with staged := fun _ => none, published := fun key => (s.staged key).or (s.published key) }

def enter (s : PeStore) (round : ℕ) : PeStore := { s with entered := insert round s.entered }

def pass (s : PeStore) (round : ℕ) : PeStore := { s with passed := insert round s.passed }

end PeStore

/-- What a get of a rank and a key finds. -/
abbrev Lookup : Type := ℕ → PmixKey → Option PmixValue

/-- How a call may be answered to a PE whose cell is `s`, and what that makes of
its cell, if gets find `find` and a fence can be left when `gate` holds. -/
def PmixAnswers (find : Lookup) (gate : Prop) (round : ℕ) (s : PeStore) :
    (c : ExtCall) → c.Reply → PeStore → Prop
  | .pmix (.putValue key value), .ok (), s' => s' = s.stage key value
  | .pmix (.putValue key value), .error _, s' => s' = s ∨ s' = s.stage key value
  | .pmix .commit, .ok (), s' => s' = s.publish
  | .pmix .commit, .error _, s' => s' = s ∨ s' = s.publish
  | .pmix .fenceEnter, (), s' => s' = s.enter round
  | .pmix .fenceLeave, .ok (), s' => gate ∧ s' = s.pass round
  | .pmix (.getBytesCopy rank key), .ok bytes, s' =>
    find rank key = some (.byteObject bytes) ∧ s' = s
  | .pmix (.getUint64 rank key), .ok v, s' => find rank key = some (.uint64 v) ∧ s' = s
  | _, _, s' => s' = s

section Job

variable {n : ℕ}

/-- What gets find in the store: the last published values of the PEs. -/
def lookup (cells : Fin n → PeStore) : Lookup := fun rank key =>
  if h : rank < n then (cells ⟨rank, h⟩).published key else none

/-- Every PE has entered the fence of the round. -/
def AllEntered (cells : Fin n → PeStore) (round : ℕ) : Prop := ∀ i, round ∈ (cells i).entered

instance (cells : Fin n → PeStore) (round : ℕ) : Decidable (AllEntered cells round) :=
  inferInstanceAs (Decidable (∀ _, _))

/-- The PEs of a job of `n`, each running its programs against the store. -/
def jobSystem {α : Type} (n rounds : ℕ) (prog : Fin n → ℕ → Fn α) :
    System (Fin n) Ext Error α PeStore where
  prog := prog
  rounds := rounds
  cell := fun _ => .empty
  Answers := fun cells i round => PmixAnswers (lookup cells) (AllEntered cells round) round (cells i)

end Job

/-! ## What an answer does to the caller's cell -/

/-- The rank and the key a call looks up. -/
def ExtCall.lookedUp : ExtCall → Option (ℕ × PmixKey)
  | .pmix (.getBytesCopy rank key) => some (rank, key)
  | .pmix (.getUint64 rank key) => some (rank, key)
  | _ => none

section Answers

variable {find find' : Lookup} {gate gate' : Prop} {round : ℕ} {s s' : PeStore} {c : ExtCall}
  {x : c.Reply}

/-- Only `commit` publishes, and only the fence calls move the PE along. -/
theorem PmixAnswers.cases (h : PmixAnswers find gate round s c x s') :
    (s'.published = s.published ∧ s'.entered = s.entered ∧ s'.passed = s.passed) ∨
      (c = .pmix .commit ∧ s' = s.publish) ∨
      (c = .pmix .fenceEnter ∧ s' = s.enter round) ∨
      (c = .pmix .fenceLeave ∧ gate ∧ s' = s.pass round) := by
  rw [PmixAnswers.eq_def] at h
  split at h
  -- putValue
  · subst h
    exact Or.inl ⟨rfl, rfl, rfl⟩
  · rcases h with rfl | rfl <;> exact Or.inl ⟨rfl, rfl, rfl⟩
  -- commit
  · exact Or.inr (Or.inl ⟨rfl, h⟩)
  · rcases h with rfl | rfl
    · exact Or.inl ⟨rfl, rfl, rfl⟩
    · exact Or.inr (Or.inl ⟨rfl, rfl⟩)
  -- the fence
  · exact Or.inr (Or.inr (Or.inl ⟨rfl, h⟩))
  · exact Or.inr (Or.inr (Or.inr ⟨rfl, h⟩))
  -- gets, and everything else
  · obtain ⟨-, rfl⟩ := h
    exact Or.inl ⟨rfl, rfl, rfl⟩
  · obtain ⟨-, rfl⟩ := h
    exact Or.inl ⟨rfl, rfl, rfl⟩
  · subst h
    exact Or.inl ⟨rfl, rfl, rfl⟩

theorem PmixAnswers.entered_mono (h : PmixAnswers find gate round s c x s') {r : ℕ}
    (hr : r ∈ s.entered) : r ∈ s'.entered := by
  obtain ⟨-, hentered, -⟩ | ⟨-, rfl⟩ | ⟨-, rfl⟩ | ⟨-, -, rfl⟩ := h.cases
  · exact hentered ▸ hr
  · exact hr
  · exact Finset.mem_insert_of_mem hr
  · exact hr

/-- A PE comes to a fence by entering it, and that publishes nothing. -/
theorem PmixAnswers.entered_cases (h : PmixAnswers find gate round s c x s') {r : ℕ}
    (hr : r ∈ s'.entered) :
    r ∈ s.entered ∨ (r = round ∧ c = .pmix .fenceEnter ∧ s'.published = s.published) := by
  obtain ⟨-, hentered, -⟩ | ⟨-, rfl⟩ | ⟨hc, rfl⟩ | ⟨-, -, rfl⟩ := h.cases
  · exact Or.inl (hentered ▸ hr)
  · exact Or.inl hr
  · rcases Finset.mem_insert.mp hr with rfl | hr
    · exact Or.inr ⟨rfl, hc, rfl⟩
    · exact Or.inl hr
  · exact Or.inl hr

/-- A PE comes out of a fence through its gate. -/
theorem PmixAnswers.passed_cases (h : PmixAnswers find gate round s c x s') {r : ℕ}
    (hr : r ∈ s'.passed) : r ∈ s.passed ∨ (r = round ∧ gate) := by
  obtain ⟨-, -, hpassed⟩ | ⟨-, rfl⟩ | ⟨-, rfl⟩ | ⟨-, hgate, rfl⟩ := h.cases
  · exact Or.inl (hpassed ▸ hr)
  · exact Or.inl hr
  · exact Or.inl hr
  · rcases Finset.mem_insert.mp hr with rfl | hr
    · exact Or.inr ⟨rfl, hgate⟩
    · exact Or.inl hr

theorem PmixAnswers.published_cases (h : PmixAnswers find gate round s c x s') :
    s'.published = s.published ∨ c = .pmix .commit := by
  obtain ⟨hpublished, -⟩ | ⟨hc, -⟩ | ⟨-, rfl⟩ | ⟨-, -, rfl⟩ := h.cases
  · exact Or.inl hpublished
  · exact Or.inr hc
  · exact Or.inl rfl
  · exact Or.inl rfl

/-- A lookup that finds as much and a gate that opens as early answer the same. -/
theorem PmixAnswers.mono (h : PmixAnswers find gate round s c x s')
    (hfind : ∀ rank key v, c.lookedUp = some (rank, key) → find rank key = some v →
      find' rank key = some v) (hgate : gate → gate') :
    PmixAnswers find' gate' round s c x s' := by
  rw [PmixAnswers.eq_def] at h
  split at h
  · exact h
  · exact h
  · exact h
  · exact h
  · exact h
  · exact ⟨hgate h.1, h.2⟩
  · exact ⟨hfind _ _ _ rfl h.1, h.2⟩
  · exact ⟨hfind _ _ _ rfl h.1, h.2⟩
  · rw [PmixAnswers.eq_def]
    split <;> simp_all

end Answers

/-! ## What one PE knows of the store -/

/-- Conditions on the PE's own cell under which it publishes, enters a fence,
and looks something up. -/
structure Guard : Type where
  commit : PeStore → Prop
  enter : PeStore → Prop
  get : PeStore → ℕ → PmixKey → Prop

/-- The calls that keep to the conditions. -/
def Guard.Allows (g : Guard) (s : PeStore) : ExtCall → Prop
  | .pmix .commit => g.commit s
  | .pmix .fenceEnter => g.enter s
  | .pmix (.getBytesCopy rank key) => g.get s rank key
  | .pmix (.getUint64 rank key) => g.get s rank key
  | _ => True

theorem Guard.get_of_lookedUp {g : Guard} {s : PeStore} {c : ExtCall} {rank : ℕ} {key : PmixKey}
    (h : g.Allows s c) (hc : c.lookedUp = some (rank, key)) : g.get s rank key := by
  rw [ExtCall.lookedUp.eq_def] at hc
  split at hc <;> cases hc <;> exact h

/-- The view of a PE that keeps to the conditions and whose gets find `find`. -/
def storeView (find : Lookup) (round : ℕ) (g : Guard) : View Ext PeStore where
  Allowed := g.Allows
  Sees := fun s c x s' => PmixAnswers find True round s c x s'

/-- The calls into PMIx that only build values and names. -/
def PmixCall.Aside : PmixCall → Prop
  | byteObject _ | build _ | procWildcard | procWithNspace _ => True
  | _ => False

section Rules

variable {α : Type} {find : Lookup} {round : ℕ} {g : Guard}
  {Q : PeStore → Outcome Error α → Prop} {s : PeStore}

theorem safe_ucx {c : UcxCall} {f : c.Reply → Fn α}
    (hf : ∀ x, (f x).Safe (storeView find round g) Q s) :
    (Fn.ucx c >>= f : Fn α).Safe (storeView find round g) Q s := by
  refine ⟨trivial, fun x s' hx => ?_⟩
  obtain rfl : s' = s := hx
  exact hf x

/-- A call that leaves the store alone, whatever it is answered. -/
theorem safe_aside {c : PmixCall} (hc : c.Aside) {f : c.Reply → Fn α}
    (hf : ∀ x, (f x).Safe (storeView find round g) Q s) :
    (Fn.pmix c >>= f : Fn α).Safe (storeView find round g) Q s := by
  cases c with
  | byteObject _ | build _ | procWildcard | procWithNspace _ =>
    refine ⟨trivial, fun x s' hx => ?_⟩
    obtain rfl : s' = s := hx
    exact hf x
  | _ => exact hc.elim

theorem safe_putValue {key : PmixKey} {value : PmixValue} {f : Except PmixStatus Unit → Fn α}
    (hok : (f (.ok ())).Safe (storeView find round g) Q (s.stage key value))
    (herr : ∀ e s', s' = s ∨ s' = s.stage key value →
      (f (.error e)).Safe (storeView find round g) Q s') :
    (Fn.pmix (.putValue key value) >>= f : Fn α).Safe (storeView find round g) Q s := by
  refine ⟨trivial, fun x s' hx => ?_⟩
  cases x with
  | ok _ =>
    obtain rfl : s' = s.stage key value := hx
    exact hok
  | error e => exact herr e s' hx

theorem safe_commit {f : Except PmixStatus Unit → Fn α} (hg : g.commit s)
    (hok : (f (.ok ())).Safe (storeView find round g) Q s.publish)
    (herr : ∀ e s', s' = s ∨ s' = s.publish → (f (.error e)).Safe (storeView find round g) Q s') :
    (Fn.pmix .commit >>= f : Fn α).Safe (storeView find round g) Q s := by
  refine ⟨hg, fun x s' hx => ?_⟩
  cases x with
  | ok _ =>
    obtain rfl : s' = s.publish := hx
    exact hok
  | error e => exact herr e s' hx

theorem safe_fence {f : Except PmixStatus Unit → Fn α} (hg : g.enter s)
    (hok : (f (.ok ())).Safe (storeView find round g) Q ((s.enter round).pass round))
    (herr : ∀ e, (f (.error e)).Safe (storeView find round g) Q (s.enter round)) :
    (pmixFence >>= f : Fn α).Safe (storeView find round g) Q s := by
  refine ⟨hg, fun _ s₁ h₁ => ⟨trivial, fun x s₂ h₂ => ?_⟩⟩
  obtain rfl : s₁ = s.enter round := h₁
  cases x with
  | ok _ =>
    obtain ⟨-, rfl⟩ : True ∧ s₂ = (s.enter round).pass round := h₂
    exact hok
  | error e =>
    obtain rfl : s₂ = s.enter round := h₂
    exact herr e

theorem safe_getBytesCopy {rank : ℕ} {key : PmixKey} {f : Except PmixError (List UInt8) → Fn α}
    (hg : g.get s rank key)
    (hok : ∀ bytes, find rank key = some (.byteObject bytes) →
      (f (.ok bytes)).Safe (storeView find round g) Q s)
    (herr : ∀ e, (f (.error e)).Safe (storeView find round g) Q s) :
    (Fn.pmix (.getBytesCopy rank key) >>= f : Fn α).Safe (storeView find round g) Q s := by
  refine ⟨hg, fun x s' hx => ?_⟩
  cases x with
  | ok bytes =>
    obtain ⟨hfind, rfl⟩ : find rank key = some (.byteObject bytes) ∧ s' = s := hx
    exact hok bytes hfind
  | error e =>
    obtain rfl : s' = s := hx
    exact herr e

theorem safe_getUint64 {rank : ℕ} {key : PmixKey} {f : Except PmixError ℕ → Fn α}
    (hg : g.get s rank key)
    (hok : ∀ v, find rank key = some (.uint64 v) →
      (f (.ok v)).Safe (storeView find round g) Q s)
    (herr : ∀ e, (f (.error e)).Safe (storeView find round g) Q s) :
    (Fn.pmix (.getUint64 rank key) >>= f : Fn α).Safe (storeView find round g) Q s := by
  refine ⟨hg, fun x s' hx => ?_⟩
  cases x with
  | ok v =>
    obtain ⟨hfind, rfl⟩ : find rank key = some (.uint64 v) ∧ s' = s := hx
    exact hok v hfind
  | error e =>
    obtain rfl : s' = s := hx
    exact herr e

end Rules

/-! ## A store where all goes well -/

/-- The answer of a PMIx that never fails: gets of what is not there and fences
that others have not entered wait. -/
def obligingPmix {n : ℕ} (cells : Fin n → PeStore) (i : Fin n) (round : ℕ) :
    (c : ExtCall) → Option (c.Reply × PeStore)
  | .pmix (.putValue key value) => some (.ok (), (cells i).stage key value)
  | .pmix .commit => some (.ok (), (cells i).publish)
  | .pmix .fenceEnter => some ((), (cells i).enter round)
  | .pmix .fenceLeave =>
    if AllEntered cells round then some (.ok (), (cells i).pass round) else none
  | .pmix (.getBytesCopy rank key) =>
    match lookup cells rank key with
    | some (.byteObject bytes) => some (.ok bytes, cells i)
    | _ => none
  | .pmix (.getUint64 rank key) =>
    match lookup cells rank key with
    | some (.uint64 v) => some (.ok v, cells i)
    | _ => none
  | c => some ((accommodating 4096 c ()).1, cells i)

/-- What the obliging PMIx answers is what the store may answer. -/
theorem obligingPmix_answers {n : ℕ} {cells : Fin n → PeStore} {i : Fin n} {round : ℕ}
    {c : ExtCall} {x : c.Reply} {t : PeStore} (h : obligingPmix cells i round c = some (x, t)) :
    PmixAnswers (lookup cells) (AllEntered cells round) round (cells i) c x t := by
  rw [obligingPmix.eq_def] at h
  split at h
  · cases h
    exact rfl
  · cases h
    exact rfl
  · cases h
    exact rfl
  · split at h
    · next hall =>
      cases h
      exact ⟨hall, rfl⟩
    · cases h
  · split at h
    · next hfind =>
      cases h
      exact ⟨hfind, rfl⟩
    · cases h
  · split at h
    · next hfind =>
      cases h
      exact ⟨hfind, rfl⟩
    · cases h
  · cases h
    rw [PmixAnswers.eq_def]
    split <;> simp_all

/-- A schedule of two PEs that take turns: so many steps of the first, then so
many of the second. -/
def turns (counts : List (ℕ × ℕ)) : List (Fin 2) :=
  counts.flatMap fun p => List.replicate p.1 0 ++ List.replicate p.2 1

end OpenShmem
