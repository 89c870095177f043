import Mathlib.Order.Interval.Finset.Nat
import Mathlib.Algebra.Group.Action.Defs
import Mathlib.Algebra.GroupWithZero.Nat
import Mathlib.Algebra.Order.BigOperators.Group.List
import OpenShmem.Span

/-!
# Counting spans

A library, on how much the spans of a list hold and how many they are. Spans that share
nothing hold as much as they cover; the spans of a tidy list are at most one more than the
places right behind them.
-/

namespace OpenShmem

variable {d n : ℕ} {l m : List Span}

/-- Of two spans that share nothing, one is behind the other. -/
theorem Span.Disjoint.le_or_le {s t : Span} (h : s.Disjoint t) (hs : 0 < s.len) (ht : 0 < t.len) :
    s.stop ≤ t.start ∨ t.stop ≤ s.start := by
  by_contra hnot
  push Not at hnot
  refine h (max s.start t.start) ⟨le_max_left _ _, ?_⟩ ⟨le_max_right _ _, ?_⟩
  · unfold stop at *
    omega
  · unfold stop at *
    omega

/-- How much the spans of a list hold. -/
def total (l : List Span) : ℕ := (l.map Span.len).sum

@[simp] theorem total_nil : total [] = 0 := rfl

@[simp] theorem total_cons (s : Span) (l : List Span) : total (s :: l) = s.len + total l := rfl

@[simp] theorem total_append (l m : List Span) : total (l ++ m) = total l + total m := by
  rw [total, List.map_append, List.sum_append]
  rfl

/-- Spans that share nothing hold as much as they cover. -/
theorem card_of_cover (h : l.Pairwise Span.Disjoint) {F : Finset ℕ}
    (hF : ∀ x, x ∈ F ↔ x ∈ cover l) : F.card = total l := by
  induction l generalizing F with
  | nil => exact Finset.card_eq_zero.mpr (Finset.eq_empty_of_forall_notMem fun x hx =>
      not_mem_cover_nil x ((hF x).mp hx))
  | cons s l ih =>
    obtain ⟨hs, hl⟩ := List.pairwise_cons.mp h
    have hrest : (F.filter fun x => x ∉ s).card = total l := by
      refine ih hl fun x => ?_
      rw [Finset.mem_filter, hF, mem_cover_cons]
      constructor
      · rintro ⟨hx | hx, hnot⟩
        · exact absurd hx hnot
        · exact hx
      · rintro ⟨t, ht, hx⟩
        exact ⟨Or.inr ⟨t, ht, hx⟩, fun hxs => hs t ht x hxs hx⟩
    have hfirst : F.filter (fun x => x ∈ s) = Finset.Ico s.start s.stop := by
      ext x
      rw [Finset.mem_filter, hF, mem_cover_cons, Finset.mem_Ico]
      exact ⟨fun h => h.2, fun h => ⟨Or.inl h, h⟩⟩
    rw [← Finset.card_filter_add_card_filter_not (fun x => x ∈ s), hrest, hfirst, Nat.card_Ico,
      total_cons, Span.stop, Nat.add_sub_cancel_left]

/-- Spans that together cover a range hold as much as it has. -/
theorem total_of_cover (h : l.Pairwise Span.Disjoint) (hcover : ∀ x, x ∈ cover l ↔ x < n) :
    total l = n := by
  rw [← card_of_cover h (F := Finset.range n) fun x => by rw [Finset.mem_range, hcover],
    Finset.card_range]

/-- What short spans hold. -/
theorem total_le {k : ℕ} (h : ∀ s ∈ l, s.len ≤ k) : total l ≤ l.length * k := by
  have hsum := List.sum_le_card_nsmul (l.map Span.len) k (List.forall_mem_map.mpr h)
  rwa [List.length_map, smul_eq_mul] at hsum

namespace Tidy

/-- Different spans of a tidy list end in different places. -/
theorem stops_nodup (h : Tidy d l) : (l.map Span.stop).Nodup := by
  rw [List.Nodup, List.pairwise_map]
  refine h.apart.imp_of_mem fun {a b} _ hb hab => ?_
  have := h.proper b hb
  unfold Span.stop at hab ⊢
  omega

/-- **As many spans as neighbours**: if right behind each span there is one of the places
`K`, or the end of the range, there is at most one span more than places. -/
theorem length_le (h : Tidy d l) {K : Finset ℕ} (hK : ∀ s ∈ l, s.stop ∈ K ∨ s.stop = n) :
    l.length ≤ K.card + 1 := by
  have hsub : (l.map Span.stop).toFinset ⊆ insert n K := by
    intro x hx
    obtain ⟨s, hs, rfl⟩ := List.mem_map.mp (List.mem_toFinset.mp hx)
    exact Finset.mem_insert.mpr (hK s hs).symm
  calc l.length = (l.map Span.stop).toFinset.card := by
        rw [List.toFinset_card_of_nodup h.stops_nodup, List.length_map]
    _ ≤ (insert n K).card := Finset.card_le_card hsub
    _ ≤ K.card + 1 := Finset.card_insert_le n K

end Tidy

end OpenShmem
