import Mathlib.Data.Fintype.Basic
import Mathlib.Logic.Hydra
import OpenShmem.Interleave

/-!
# What a system comes to

A library. A program is a well-founded tree and every step goes down in one of them, so
no run of finitely many processes goes on for ever. `Inevitably Q` says that every run,
however it is scheduled and answered, comes to `Q`, provided it is not broken off: it
holds where a configuration that is not `Q` yet always has a step.
-/

namespace OpenShmem

/-! ## Programs are well-founded -/

namespace Prog

variable {E : Sig} {ε α : Type}

/-- What is left of a program after its first call is answered. -/
inductive Child : Prog E ε α → Prog E ε α → Prop where
  | mk (c : E.Call) (k : E.Reply c → Prog E ε α) (x : E.Reply c) : Child (k x) (.call c k)

theorem wellFounded_child : WellFounded (Child : Prog E ε α → Prog E ε α → Prop) := by
  refine ⟨fun m => ?_⟩
  induction m with
  | done o => exact ⟨_, fun m' h => by cases h⟩
  | call c k ih =>
    refine ⟨_, fun m' h => ?_⟩
    cases h with
    | mk _ _ x => exact ih x

end Prog

/-! ## Total correctness in a view -/

namespace Prog

variable {E : Sig} {ε ε' α β τ : Type} {V : View E τ} {R : τ → α → Prop} {R' : τ → β → Prop}
  {t : τ}

/-- Total correctness: safe, and a value with `R` is returned whatever is seen. -/
def Attains (V : View E τ) (R : τ → α → Prop) (m : Prog E ε α) (t : τ) : Prop :=
  m.Safe V (fun t o => ∃ a, o = .ok a ∧ R t a) t

theorem Attains.pure {a : α} (h : R t a) : (pure a : Prog E ε α).Attains V R t := ⟨a, rfl, h⟩

theorem Attains.bind {m : Prog E ε α} {f : α → Prog E ε β} (hm : m.Attains V R t)
    (hf : ∀ t a, R t a → (f a).Attains V R' t) : (m >>= f).Attains V R' t := by
  refine Safe.bind (Safe.mono hm ?_)
  rintro t _ ⟨a, rfl, ha⟩
  exact hf t a ha

/-- The rule for `match m { .. }`: there is only one case. -/
theorem Attains.reify_bind {m : Prog E ε α} {f : Outcome ε α → Prog E ε' β}
    (hm : m.Attains V R t) (hok : ∀ t a, R t a → (f (.ok a)).Attains V R' t) :
    (m.reify >>= f : Prog E ε' β).Attains V R' t := by
  induction m generalizing t with
  | done o =>
    obtain ⟨a, rfl, ha⟩ := hm
    exact hok t a ha
  | call c k ih => exact ⟨hm.1, fun x t' hx => ih x (hm.2 x t' hx)⟩

/-- The rule for `match m { Ok(a) => .., Err(e) => .. }`. -/
theorem Attains.attempt_bind {m : Prog E ε α} {f : Except ε α → Prog E ε' β}
    (hm : m.Attains V R t) (hok : ∀ t a, R t a → (f (.ok a)).Attains V R' t) :
    (m.attempt >>= f : Prog E ε' β).Attains V R' t := by
  induction m generalizing t with
  | done o =>
    obtain ⟨a, rfl, ha⟩ := hm
    exact hok t a ha
  | call c k ih => exact ⟨hm.1, fun x t' hx => ih x (hm.2 x t' hx)⟩

end Prog

namespace System

variable {ι : Type} [DecidableEq ι] {E : Sig} {ε α τ : Type} (S : System ι E ε α τ)

/-! ## Runs are finite -/

/-- What a process has before it: its rounds, and the program of this one. -/
def ahead (cfg : Config ι E ε α τ) (i : ι) : ℕ × Prog E ε α :=
  (S.rounds - cfg.round i, cfg.tree i)

/-- One process has less before it. -/
def Less : ℕ × Prog E ε α → ℕ × Prog E ε α → Prop := Prod.Lex (· < ·) Prog.Child

theorem wellFounded_less : WellFounded (Less : ℕ × Prog E ε α → ℕ × Prog E ε α → Prop) :=
  WellFounded.prod_lex Nat.lt_wfRel.wf Prog.wellFounded_child

variable {S}

/-- A step leaves its process with less before it, and the others as they were. -/
theorem Step.less {cfg cfg' : Config ι E ε α τ} {i : ι} (h : S.Step i cfg cfg') :
    Less (S.ahead cfg' i) (S.ahead cfg i) ∧ ∀ j, j ≠ i → S.ahead cfg' j = S.ahead cfg j := by
  cases h with
  | @call c k x t htree hx =>
    constructor
    · simp only [ahead, Config.answered, Function.update_self, htree]
      exact .right _ (.mk c k x)
    · intro j hj
      simp only [ahead, Config.answered, Function.update_of_ne hj]
  | next htree hround =>
    constructor
    · simp only [ahead, advanced, Function.update_self]
      exact .left _ _ (by omega)
    · intro j hj
      simp only [ahead, advanced, Function.update_of_ne hj]

variable (S) in
/-- **No run goes on for ever.** -/
theorem wellFounded_step [Fintype ι] :
    WellFounded fun cfg' cfg : Config ι E ε α τ => ∃ i, S.Step i cfg cfg' := by
  -- the processes are the heads of a hydra
  let heads (cfg : Config ι E ε α τ) : Multiset (ℕ × Prog E ε α) :=
    Finset.univ.val.map (S.ahead cfg)
  refine Subrelation.wf (r := InvImage (Relation.CutExpand Less) heads) ?_
    (InvImage.wf heads wellFounded_less.cutExpand)
  rintro cfg' cfg ⟨i, hstep⟩
  obtain ⟨hless, hothers⟩ := hstep.less
  refine ⟨{S.ahead cfg' i}, S.ahead cfg i, fun a ha => ?_, ?_⟩
  · rwa [Multiset.mem_singleton.mp ha]
  · have hsplit : (Finset.univ : Finset ι).val = i ::ₘ (Finset.univ.val.erase i) :=
      (Multiset.cons_erase (Finset.mem_univ_val i)).symm
    have hrest : (Finset.univ.val.erase i).map (S.ahead cfg') =
        (Finset.univ.val.erase i).map (S.ahead cfg) := by
      refine Multiset.map_congr rfl fun j hj => hothers j ?_
      rintro rfl
      exact (Multiset.Nodup.notMem_erase Finset.univ.nodup) hj
    show heads cfg' + {S.ahead cfg i} = heads cfg + {S.ahead cfg' i}
    simp only [heads]
    rw [hsplit, Multiset.map_cons, Multiset.map_cons, hrest]
    simp only [← Multiset.singleton_add]
    ac_rfl

/-- Where fewer answers may come, what is reached can be reached in any case. -/
theorem Reach.of_answers
    {Answers : (ι → τ) → ι → ℕ → (c : E.Call) → E.Reply c → τ → Prop}
    (hanswers : ∀ {cells i r c x t}, Answers cells i r c x t → S.Answers cells i r c x t)
    {P : Config ι E ε α τ → ι → Prop} {cfg : Config ι E ε α τ}
    (h : ({ S with Answers } : System ι E ε α τ).Reach P cfg) : S.Reach P cfg := by
  induction h with
  | start => exact .start
  | step _ hP hstep ih =>
    refine ih.step hP ?_
    cases hstep with
    | call htree hx => exact .call htree (hanswers hx)
    | next htree hround => exact .next htree hround

/-! ## What every run comes to -/

variable (S) in
/-- Whatever step is taken next, and next again, a configuration with `Q` is reached. -/
inductive Inevitably (Q : Config ι E ε α τ → Prop) : Config ι E ε α τ → Prop where
  | now {cfg : Config ι E ε α τ} (h : Q cfg) : Inevitably Q cfg
  | later {cfg : Config ι E ε α τ} (can : ∃ i cfg', S.Step i cfg cfg')
    (all : ∀ i cfg', S.Step i cfg cfg' → Inevitably Q cfg') : Inevitably Q cfg

/-- The rule: some process can go on as long as `Q` is not reached. -/
theorem Reach.inevitably [Fintype ι] {Q : Config ι E ε α τ → Prop}
    (hprogress : ∀ cfg, S.Reach (fun _ _ => True) cfg → Q cfg ∨ ∃ i cfg', S.Step i cfg cfg')
    {cfg : Config ι E ε α τ} (hreach : S.Reach (fun _ _ => True) cfg) : S.Inevitably Q cfg := by
  induction cfg using S.wellFounded_step.induction with
  | _ cfg ih =>
    obtain h | hcan := hprogress cfg hreach
    · exact .now h
    · exact .later hcan fun i cfg' hstep => ih cfg' ⟨i, hstep⟩ (hreach.step trivial hstep)

end System

end OpenShmem
