import Mathlib.Data.List.Forall2
import Mathlib.Tactic.Common

/-!
# Machines and runs

A library. A `Machine` answers every input and moves on; a run feeds it a list
of inputs. The two inductions over runs are done here once: an invariant that
each step keeps holds at the end of every run, and two machines whose steps
agree under a relation agree along whole runs.
-/

namespace OpenShmem

/-- A machine over states `σ` with inputs `ι` and outputs `ο`. -/
structure Machine (σ ι ο : Type) : Type where
  /-- one step: the answer and the next state -/
  step : σ → ι → ο × σ

namespace Machine

variable {σ τ ι ο ο' : Type}

/-- The answers of a run. -/
def outputs (M : Machine σ ι ο) : σ → List ι → List ο
  | _, [] => []
  | s, i :: is => (M.step s i).1 :: M.outputs (M.step s i).2 is

/-- The state after a run. -/
def final (M : Machine σ ι ο) : σ → List ι → σ
  | s, [] => s
  | s, i :: is => M.final (M.step s i).2 is

/-- The machine with inputs of another type, each standing for one of its own. -/
def along {κ : Type} (M : Machine σ ι ο) (f : κ → ι) : Machine σ κ ο where
  step s k := M.step s (f k)

variable {M : Machine σ ι ο} {N : Machine τ ι ο'}

@[simp] theorem along_step {κ : Type} (f : κ → ι) (s : σ) (k : κ) :
    (M.along f).step s k = M.step s (f k) := rfl

@[simp] theorem outputs_nil (s : σ) : M.outputs s [] = [] := rfl

@[simp] theorem outputs_cons (s : σ) (i : ι) (is : List ι) :
    M.outputs s (i :: is) = (M.step s i).1 :: M.outputs (M.step s i).2 is := rfl

@[simp] theorem final_nil (s : σ) : M.final s [] = s := rfl

@[simp] theorem final_cons (s : σ) (i : ι) (is : List ι) :
    M.final s (i :: is) = M.final (M.step s i).2 is := rfl

@[simp] theorem length_outputs (s : σ) (is : List ι) :
    (M.outputs s is).length = is.length := by
  induction is generalizing s with
  | nil => rfl
  | cons i is ih => exact congrArg Nat.succ (ih _)

theorem final_append (s : σ) (is js : List ι) :
    M.final s (is ++ js) = M.final (M.final s is) js := by
  induction is generalizing s with
  | nil => rfl
  | cons i is ih => exact ih _

theorem outputs_append (s : σ) (is js : List ι) :
    M.outputs s (is ++ js) = M.outputs s is ++ M.outputs (M.final s is) js := by
  induction is generalizing s with
  | nil => rfl
  | cons i is ih => exact congrArg (List.cons _) (ih _)

/-- An answer is that of a step, in the state that the inputs before it lead to. -/
theorem outputs_eq_append {s : σ} {is : List ι} {before after : List ο} {o : ο}
    (h : M.outputs s is = before ++ o :: after) :
    ∃ js i, M.outputs s js = before ∧ o = (M.step (M.final s js) i).1 := by
  induction before generalizing s is with
  | nil =>
    cases is with
    | nil => cases h
    | cons i is => exact ⟨[], i, rfl, (List.cons.inj h).1.symm⟩
  | cons a before ih =>
    cases is with
    | nil => cases h
    | cons i is =>
      obtain ⟨hhead, htail⟩ := List.cons.inj h
      obtain ⟨js, j, hjs, ho⟩ := ih htail
      exact ⟨i :: js, j, congrArg₂ List.cons hhead hjs, ho⟩

/-- **Invariants**: what every step keeps, every run keeps. -/
theorem invariant {I : σ → Prop} (hstep : ∀ s i, I s → I (M.step s i).2) :
    ∀ (is : List ι) (s : σ), I s → I (M.final s is) := by
  intro is
  induction is with
  | nil =>
    intro s hs
    exact hs
  | cons i is ih =>
    intro s hs
    exact ih _ (hstep s i hs)

/-- **Lockstep simulation**: if related states answer alike and stay related,
whole runs answer alike and end related. -/
theorem lockstep {R : σ → τ → Prop} {A : ο → ο' → Prop}
    (hstep : ∀ s t i, R s t → A (M.step s i).1 (N.step t i).1 ∧ R (M.step s i).2 (N.step t i).2) :
    ∀ (is : List ι) (s : σ) (t : τ), R s t →
      List.Forall₂ A (M.outputs s is) (N.outputs t is) ∧ R (M.final s is) (N.final t is) := by
  intro is
  induction is with
  | nil =>
    intro s t hst
    exact ⟨List.Forall₂.nil, hst⟩
  | cons i is ih =>
    intro s t hst
    obtain ⟨hans, hnext⟩ := hstep s t i hst
    obtain ⟨houts, hfin⟩ := ih _ _ hnext
    exact ⟨List.Forall₂.cons hans houts, hfin⟩

end Machine

/-- What is on the right has a partner on the left. -/
theorem exists_left_of_forall₂ {α β : Type} {R : α → β → Prop} {as : List α} {bs : List β}
    (h : List.Forall₂ R as bs) {b : β} (hb : b ∈ bs) : ∃ a ∈ as, R a b := by
  induction h with
  | nil => cases hb
  | cons hab _ ih =>
    rcases List.mem_cons.mp hb with rfl | hb
    · exact ⟨_, List.mem_cons_self, hab⟩
    · obtain ⟨a, ha, hR⟩ := ih hb
      exact ⟨a, List.mem_cons_of_mem _ ha, hR⟩

/-- Two lists that agree with a common third agree with each other. -/
theorem forall₂_of_common {α β γ : Type} {A : α → γ → Prop} {B : β → γ → Prop} {C : α → β → Prop}
    (h : ∀ a b c, A a c → B b c → C a b) {as : List α} {bs : List β} {cs : List γ}
    (ha : List.Forall₂ A as cs) (hb : List.Forall₂ B bs cs) : List.Forall₂ C as bs := by
  induction ha generalizing bs with
  | nil =>
    cases hb
    exact List.Forall₂.nil
  | cons hac _ ih =>
    cases hb with
    | cons hbc hrest => exact List.Forall₂.cons (h _ _ _ hac hbc) (ih hrest)

end OpenShmem
