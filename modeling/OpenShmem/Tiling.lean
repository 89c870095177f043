import OpenShmem.Ledger

/-!
# Tiling a ledger

A library, on how a lowest-fit allocator can be led to any ledger whose spans lie on a grid:
it enters the live spans from the bottom up, and fills the cells between them, so that the
next tile always goes at the lowest room; the filling is taken out in the end.
-/

namespace OpenShmem

namespace Ledger

/-- On a grid of step `d`: the capacity is, and the live spans are, proper and apart. -/
structure Proper (d : ℕ) (L : Ledger) : Prop where
  step : 0 < d
  whole : d ∣ L.capacity
  sound : ∀ t, L.Live t → 0 < t.len ∧ (d ∣ t.start ∧ d ∣ t.len) ∧ t.stop ≤ L.capacity
  apart : ∀ s t, L.Live s → L.Live t → s.start ≠ t.start → s.Disjoint t

/-- A cell of the grid that no live span covers. -/
def Vacant (d : ℕ) (L : Ledger) (o : ℕ) : Prop := d ∣ o ∧ ∀ t, L.Live t → o ∉ t

/-- No live span straddles `x`. -/
structure Boundary (d : ℕ) (L : Ledger) (x : ℕ) : Prop where
  dvd : d ∣ x
  le : x ≤ L.capacity
  clear : ∀ t, L.Live t → x ≤ t.start ∨ t.stop ≤ x

/-- The tile at a place: the live span that starts there, or a cell. -/
def tileAt (d : ℕ) (L : Ledger) (x : ℕ) : ℕ := (L.live x).getD d

open Classical in
/-- The ledger below `hi`, with its vacant cells from `lo` on filled. -/
noncomputable def tiled (d : ℕ) (L : Ledger) (lo hi : ℕ) : Ledger where
  capacity := L.capacity
  live o := if o < hi then
    if L.Vacant d o then if lo ≤ o then some d else none else L.live o
    else none

variable {L : Ledger} {d x o n lo hi : ℕ}

/-- Places of the grid are at least a step apart. -/
theorem step_le {a b : ℕ} (ha : d ∣ a) (hb : d ∣ b) (hab : a < b) : a + d ≤ b := by
  have := Nat.le_of_dvd (Nat.sub_pos_of_lt hab) (Nat.dvd_sub hb ha)
  omega

/-- Two ledgers with the same live spans. -/
theorem ext_live {M : Ledger} (hcap : L.capacity = M.capacity)
    (h : ∀ o n, L.live o = some n ↔ M.live o = some n) : L = M := by
  ext1
  · exact hcap
  · exact funext fun o => Option.ext fun n => h o n

/-- Nothing has been laid yet. -/
theorem tiled_zero (d : ℕ) (L : Ledger) : L.tiled d lo 0 = ⟨L.capacity, fun _ => none⟩ := by
  simp [tiled]

namespace Proper

variable (h : L.Proper d)

include h

theorem not_vacant (hlive : L.live o = some n) : ¬ L.Vacant d o := by
  rintro ⟨-, hout⟩
  have hpos : 0 < n := (h.sound ⟨o, n⟩ hlive).1
  exact hout ⟨o, n⟩ hlive ⟨le_refl _, Nat.lt_add_of_pos_right hpos⟩

/-- What lives in a tiled ledger. -/
theorem tiled_live :
    (L.tiled d lo hi).live o = some n ↔
      o < hi ∧ (L.live o = some n ∨ L.Vacant d o ∧ lo ≤ o ∧ n = d) := by
  classical
  show (if o < hi then if L.Vacant d o then if lo ≤ o then some d else none else L.live o
    else none) = some n ↔ _
  by_cases ho : o < hi
  · rw [if_pos ho]
    by_cases hv : L.Vacant d o
    · have hnone : L.live o ≠ some n := fun hlive => h.not_vacant hlive hv
      rw [if_pos hv]
      by_cases hlo : lo ≤ o
      · rw [if_pos hlo, Option.some.injEq]
        simp [ho, hnone, hv, hlo, eq_comm]
      · rw [if_neg hlo]
        simp [hnone, hlo]
    · rw [if_neg hv]
      simp [ho, hv]
  · rw [if_neg ho]
    simp [ho]

/-- Everything has been laid, and no filling is left. -/
theorem tiled_capacity : L.tiled d L.capacity L.capacity = L := by
  refine ext_live rfl fun o n => ?_
  rw [h.tiled_live]
  constructor
  · rintro ⟨ho, hlive | ⟨-, hle, -⟩⟩
    · exact hlive
    · exact absurd ho (Nat.not_lt_of_le hle)
  · intro hlive
    obtain ⟨hpos, -, hstop⟩ := h.sound ⟨o, n⟩ hlive
    exact ⟨lt_of_lt_of_le (Nat.lt_add_of_pos_right hpos) hstop, Or.inl hlive⟩

end Proper

namespace Boundary

theorem zero (d : ℕ) (L : Ledger) : L.Boundary d 0 :=
  ⟨Nat.dvd_zero d, Nat.zero_le _, fun _ _ => Or.inl (Nat.zero_le _)⟩

/-- A place where no live span starts, between tiles, is vacant. -/
theorem vacant (hx : L.Boundary d x) (hnone : L.live x = none) : L.Vacant d x := by
  refine ⟨hx.dvd, fun t ht hxt => ?_⟩
  obtain hle | hle := hx.clear t ht
  · have heq : t.start = x := Nat.le_antisymm hxt.1 hle
    rw [Live, heq, hnone] at ht
    cases ht
  · exact absurd hxt.2 (Nat.not_lt_of_le hle)

variable (h : L.Proper d) (hx : L.Boundary d x)

include h hx

/-- Within a tile, no other starts. -/
theorem within (hlt : x < o) (hin : o < x + L.tileAt d x) :
    L.live o = none ∧ ¬ L.Vacant d o := by
  rcases hlive : L.live x with _ | k
  · have hcell : ¬ d ∣ o := by
      intro hdvd
      rw [tileAt, hlive, Option.getD_none] at hin
      exact absurd hin (Nat.not_lt_of_le (step_le hx.dvd hdvd hlt))
    refine ⟨?_, fun hv => hcell hv.1⟩
    rcases hother : L.live o with _ | n
    · rfl
    · exact absurd (h.sound ⟨o, n⟩ hother).2.1.1 hcell
  · rw [tileAt, hlive, Option.getD_some] at hin
    have hmem : o ∈ (⟨x, k⟩ : Span) := ⟨Nat.le_of_lt hlt, hin⟩
    refine ⟨?_, fun hv => hv.2 ⟨x, k⟩ hlive hmem⟩
    rcases hother : L.live o with _ | n
    · rfl
    · have hpos : 0 < n := (h.sound ⟨o, n⟩ hother).1
      exact absurd ⟨le_refl _, Nat.lt_add_of_pos_right hpos⟩
        (h.apart ⟨x, k⟩ ⟨o, n⟩ hlive hother (Nat.ne_of_lt hlt) o hmem)

/-- The tile is proper, and another begins behind it. -/
theorem tile (hlt : x < L.capacity) :
    0 < L.tileAt d x ∧ d ∣ L.tileAt d x ∧ L.Boundary d (x + L.tileAt d x) := by
  have hsize : 0 < L.tileAt d x ∧ d ∣ L.tileAt d x ∧ x + L.tileAt d x ≤ L.capacity ∧
      ∀ t, L.Live t → t.start = x → t.len = L.tileAt d x := by
    rcases hlive : L.live x with _ | n
    · rw [tileAt, hlive, Option.getD_none]
      refine ⟨h.step, Nat.dvd_refl d, step_le hx.dvd h.whole hlt, fun t ht heq => ?_⟩
      rw [Live, heq, hlive] at ht
      cases ht
    · rw [tileAt, hlive, Option.getD_some]
      obtain ⟨hpos, ⟨-, hdn⟩, hstop⟩ := h.sound ⟨x, n⟩ hlive
      refine ⟨hpos, hdn, hstop, fun t ht heq => ?_⟩
      rw [Live, heq, hlive] at ht
      exact (Option.some.inj ht).symm
  obtain ⟨hpos, hdvd, hfit, hlen⟩ := hsize
  refine ⟨hpos, hdvd, Nat.dvd_add hx.dvd hdvd, hfit, fun t ht => ?_⟩
  obtain hle | hle := hx.clear t ht
  · obtain heq | hgt := Nat.eq_or_lt_of_le hle
    · right
      rw [Span.stop, hlen t ht heq.symm, heq]
    · left
      by_contra hnot
      have hnone := (hx.within h hgt (Nat.lt_of_not_le hnot)).1
      rw [Live, hnone] at ht
      cases ht
  · exact Or.inr (hle.trans (Nat.le_add_right _ _))

/-- **The next tile goes at the lowest room.** -/
theorem isLeast (hlt : x < L.capacity) :
    IsLeast {s | (L.tiled d 0 x).Room (L.tileAt d x) s} x := by
  obtain ⟨hpos, -, hnext⟩ := hx.tile h hlt
  refine ⟨⟨hnext.le, fun t ht y hy hyt => ?_⟩, fun s hs => ?_⟩
  · -- what has been laid ends at `x` or before
    obtain ⟨hbefore, hlive | ⟨hv, -, hn⟩⟩ := h.tiled_live.mp ht
    · obtain hle | hle := hx.clear t hlive
      · exact absurd hbefore (Nat.not_lt_of_le hle)
      · exact absurd hyt.2 (Nat.not_lt_of_le (hle.trans hy.1))
    · have hstep := step_le hv.1 hx.dvd hbefore
      rw [← hn] at hstep
      exact absurd hyt.2 (Nat.not_lt_of_le (hstep.trans hy.1))
  · -- below `x` everything is laid
    by_contra hnot
    have hsx : s < x := Nat.lt_of_not_le hnot
    have hmem : s ∈ (⟨s, L.tileAt d x⟩ : Span) := ⟨le_rfl, Nat.lt_add_of_pos_right hpos⟩
    have hout : ∀ t, L.Live t → s ∉ t := fun t ht hst =>
      hs.2 t (h.tiled_live.mpr ⟨lt_of_le_of_lt hst.1 hsx, Or.inl ht⟩) s hmem hst
    -- so the cell that `s` is in is vacant, and has been filled
    have hcell : s / d * d ≤ s := Nat.div_mul_le_self s d
    have hbehind : s < s / d * d + d := Nat.lt_div_mul_add h.step
    have hv : L.Vacant d (s / d * d) := by
      refine ⟨Nat.dvd_mul_left d _, fun t ht hct => hout t ht ?_⟩
      obtain ⟨-, ⟨hstart, hlen⟩, -⟩ := h.sound t ht
      have hstop := step_le (Nat.dvd_mul_left d _) (Nat.dvd_add hstart hlen) hct.2
      exact ⟨hct.1.trans hcell, lt_of_lt_of_le hbehind hstop⟩
    refine hs.2 ⟨s / d * d, d⟩ (h.tiled_live.mpr ⟨lt_of_le_of_lt hcell hsx, Or.inr ?_⟩) s hmem
      ⟨hcell, hbehind⟩
    exact ⟨hv, Nat.zero_le _, rfl⟩

/-- The ledger when the next tile has been laid. -/
theorem enter (hlt : x < L.capacity) :
    (L.tiled d 0 x).enter x (L.tileAt d x) = L.tiled d 0 (x + L.tileAt d x) := by
  obtain ⟨hpos, -, -⟩ := hx.tile h hlt
  refine ext_live rfl fun o n => ?_
  show Function.update (L.tiled d 0 x).live x (some (L.tileAt d x)) o = some n ↔ _
  by_cases ho : o = x
  · subst ho
    rw [Function.update_self, h.tiled_live, Option.some.injEq]
    rcases hlive : L.live o with _ | k
    · have hv := hx.vacant hlive
      simp [tileAt, hlive, hv, h.step, eq_comm]
    · have hv := h.not_vacant hlive
      have hk : 0 < k := (h.sound ⟨o, k⟩ hlive).1
      simp [tileAt, hlive, hv, hk]
  · rw [Function.update_of_ne ho, h.tiled_live, h.tiled_live]
    refine and_congr_left fun hlaid => ⟨fun hbefore => Nat.lt_add_right _ hbefore, fun hin => ?_⟩
    by_contra hnot
    obtain ⟨hnone, hv⟩ := hx.within h (Nat.lt_of_le_of_ne (Nat.le_of_not_lt hnot) (Ne.symm ho)) hin
    obtain hlive | ⟨hvacant, -⟩ := hlaid
    · rw [hnone] at hlive
      cases hlive
    · exact hv hvacant

end Boundary

/-- The ledger when the filling at `x`, if there is one, has been taken out. -/
theorem Proper.strike_tiled (h : L.Proper d) :
    (L.Vacant d x → (L.tiled d x hi).strike x = L.tiled d (x + 1) hi) ∧
      (¬ L.Vacant d x → L.tiled d x hi = L.tiled d (x + 1) hi) := by
  refine ⟨fun hv => ext_live rfl fun o n => ?_, fun hv => ext_live rfl fun o n => ?_⟩
  · show Function.update (L.tiled d x hi).live x none o = some n ↔ _
    by_cases ho : o = x
    · subst ho
      rw [Function.update_self, h.tiled_live]
      refine iff_of_false (fun h => by cases h) ?_
      rintro ⟨-, hlive | ⟨-, hle, -⟩⟩
      · exact h.not_vacant hlive hv
      · exact Nat.not_succ_le_self _ hle
    · rw [Function.update_of_ne ho, h.tiled_live, h.tiled_live]
      have : x ≤ o ↔ x + 1 ≤ o := by omega
      rw [this]
  · rw [h.tiled_live, h.tiled_live]
    by_cases ho : o = x
    · subst ho
      simp [hv]
    · have : x ≤ o ↔ x + 1 ≤ o := by omega
      rw [this]

end Ledger

end OpenShmem
