import Mathlib.Data.Set.Lattice
import Mathlib.Data.List.Basic
import Mathlib.Data.List.Pairwise
import Mathlib.Order.Bounds.Basic
import Mathlib.Algebra.Order.Group.Nat
import Mathlib.Tactic.Common

/-!
# Tidy lists of spans

A library about lists of runs of consecutive natural numbers, with no knowledge
of what the numbers address. A list is *tidy* for a grain `d` when it is sorted
with a gap between any two spans (so it is coalesced), no span is empty, and
all starts and lengths are multiples of `d`. Three operations keep a list tidy,
and the set it covers is known exactly after each:

* `push` — append a span that starts at or after everything present, joining it
  to the last span when they touch; `foldl push []` coalesces an ordered list;
* `carve` — cut a prefix off one span of the list;
* dropping a span altogether, which is `carve` of its full length.
-/

namespace OpenShmem

/-- A run of consecutive naturals. -/
structure Span where
  /-- the first one -/
  start : ℕ
  /-- how many there are -/
  len : ℕ
  deriving DecidableEq, Repr

namespace Span

/-- One past the last. -/
def stop (s : Span) : ℕ := s.start + s.len

instance : Membership ℕ Span where
  mem s x := s.start ≤ x ∧ x < s.stop

theorem mem_def {s : Span} {x : ℕ} : x ∈ s ↔ s.start ≤ x ∧ x < s.stop := Iff.rfl

theorem mem_mk {a n x : ℕ} : x ∈ (⟨a, n⟩ : Span) ↔ a ≤ x ∧ x < a + n := Iff.rfl

@[simp] theorem stop_mk (a n : ℕ) : (⟨a, n⟩ : Span).stop = a + n := rfl

instance (x : ℕ) (s : Span) : Decidable (x ∈ s) :=
  inferInstanceAs (Decidable (s.start ≤ x ∧ x < s.stop))

/-- No natural is in both spans. -/
def Disjoint (s t : Span) : Prop := ∀ x, x ∈ s → x ∉ t

theorem Disjoint.symm {s t : Span} (h : s.Disjoint t) : t.Disjoint s :=
  fun x ht hs => h x hs ht

/-- A nonempty span inside a half-open range lies between its ends. -/
theorem bounds_of_subset {s : Span} {lo hi : ℕ} (hs : 0 < s.len)
    (h : ∀ x, x ∈ s → lo ≤ x ∧ x < hi) : lo ≤ s.start ∧ s.stop ≤ hi := by
  have hfirst := h s.start ⟨le_refl _, by unfold stop; omega⟩
  have hlast := h (s.stop - 1) ⟨by unfold stop; omega, by unfold stop; omega⟩
  unfold stop at *
  omega

end Span

/-- What a list of spans covers. -/
def cover (l : List Span) : Set ℕ := {x | ∃ s ∈ l, x ∈ s}

theorem mem_cover {l : List Span} {x : ℕ} : x ∈ cover l ↔ ∃ s ∈ l, x ∈ s := Iff.rfl

@[simp] theorem not_mem_cover_nil (x : ℕ) : x ∉ cover [] := by
  simp [mem_cover]

@[simp] theorem mem_cover_cons {s : Span} {l : List Span} {x : ℕ} :
    x ∈ cover (s :: l) ↔ x ∈ s ∨ x ∈ cover l := by
  simp [mem_cover]

@[simp] theorem mem_cover_append {l m : List Span} {x : ℕ} :
    x ∈ cover (l ++ m) ↔ x ∈ cover l ∨ x ∈ cover m := by
  simp [mem_cover, or_and_right, exists_or]

/-- Covering does not depend on the order of the list. -/
theorem mem_cover_perm {l m : List Span} (h : l.Perm m) {x : ℕ} : x ∈ cover l ↔ x ∈ cover m := by
  simp [mem_cover, h.mem_iff]

/-! ## Tidy lists -/

/-- Sorted, coalesced, without empty spans, on the grid of step `d`. -/
structure Tidy (d : ℕ) (l : List Span) : Prop where
  /-- sorted, with a gap between any two -/
  apart : l.Pairwise fun a b => a.stop < b.start
  /-- no span is empty -/
  proper : ∀ s ∈ l, 0 < s.len
  /-- everything is a multiple of the grain -/
  grain : ∀ s ∈ l, d ∣ s.start ∧ d ∣ s.len

variable {d : ℕ} {l : List Span} {s : Span}

theorem tidy_nil : Tidy d [] :=
  ⟨List.Pairwise.nil, fun _ h => absurd h List.not_mem_nil, fun _ h => absurd h List.not_mem_nil⟩

theorem tidy_singleton (hs : 0 < s.len) (hd : d ∣ s.start ∧ d ∣ s.len) : Tidy d [s] :=
  ⟨List.pairwise_singleton _ _, by simpa using hs, by simpa using hd⟩

/-- Append `s`, joining it to the last span when that span ends where `s`
starts. -/
def push (l : List Span) (s : Span) : List Span :=
  match l.getLast? with
  | some last =>
    if last.stop = s.start then l.dropLast ++ [⟨last.start, last.len + s.len⟩] else l ++ [s]
  | none => l ++ [s]

@[simp] theorem push_nil (s : Span) : push [] s = [s] := rfl

theorem push_concat (l : List Span) (last s : Span) :
    push (l ++ [last]) s =
      if last.stop = s.start then l ++ [⟨last.start, last.len + s.len⟩] else l ++ [last] ++ [s] := by
  simp [push]

/-- `push` adds exactly the pushed span to what is covered. -/
theorem mem_cover_push {x : ℕ} : x ∈ cover (push l s) ↔ x ∈ cover l ∨ x ∈ s := by
  obtain rfl | ⟨m, last, rfl⟩ := List.eq_nil_or_concat' l
  · simp
  · rw [push_concat]
    split
    · next h =>
      have hjoin : x ∈ (⟨last.start, last.len + s.len⟩ : Span) ↔ x ∈ last ∨ x ∈ s := by
        simp only [Span.mem_def, Span.stop] at h ⊢
        omega
      simp [hjoin, or_assoc]
    · simp [or_assoc]

/-- After a `push`, every span ends no later than the pushed one. -/
theorem stop_le_of_mem_push {t : Span} (hl : ∀ t ∈ l, t.stop ≤ s.start) (ht : t ∈ push l s) :
    t.stop ≤ s.stop := by
  have hle : s.start ≤ s.stop := Nat.le_add_right _ _
  obtain rfl | ⟨m, last, rfl⟩ := List.eq_nil_or_concat' l
  · rw [push_nil, List.mem_singleton] at ht
    rw [ht]
  · rw [push_concat] at ht
    split at ht
    · next h =>
      rcases List.mem_append.mp ht with ht | ht
      · have := hl t (List.mem_append_left _ ht)
        omega
      · rw [List.mem_singleton.mp ht]
        simp only [Span.stop] at h ⊢
        omega
    · rcases List.mem_append.mp ht with ht | ht
      · have := hl t ht
        omega
      · rw [List.mem_singleton.mp ht]

/-- `push` keeps a list tidy. -/
theorem Tidy.push (h : Tidy d l) (hs : 0 < s.len) (hd : d ∣ s.start ∧ d ∣ s.len)
    (hl : ∀ t ∈ l, t.stop ≤ s.start) : Tidy d (push l s) := by
  obtain rfl | ⟨m, last, rfl⟩ := List.eq_nil_or_concat' l
  · exact tidy_singleton hs hd
  · obtain ⟨hapart, hproper, hgrain⟩ := h
    rw [List.pairwise_append] at hapart
    obtain ⟨hm, -, hmlast⟩ := hapart
    have hlast := hl last (by simp)
    rw [push_concat]
    split
    · -- joined: the gap before `last` is the gap before the longer span
      refine ⟨?_, ?_, ?_⟩
      · refine List.pairwise_append.mpr ⟨hm, List.pairwise_singleton _ _, ?_⟩
        intro a ha b hb
        rw [List.mem_singleton.mp hb]
        exact hmlast a ha last (by simp)
      · intro t ht
        rcases List.mem_append.mp ht with ht | ht
        · exact hproper t (List.mem_append_left _ ht)
        · rw [List.mem_singleton.mp ht]
          exact Nat.add_pos_right _ hs
      · intro t ht
        rcases List.mem_append.mp ht with ht | ht
        · exact hgrain t (List.mem_append_left _ ht)
        · rw [List.mem_singleton.mp ht]
          obtain ⟨hstart, hlen⟩ := hgrain last (by simp)
          exact ⟨hstart, Nat.dvd_add hlen hd.2⟩
    · -- kept apart: `last` ends strictly before `s`, and so does all before it
      next hne =>
      refine ⟨?_, ?_, ?_⟩
      · refine List.pairwise_append.mpr
          ⟨List.pairwise_append.mpr ⟨hm, List.pairwise_singleton _ _, hmlast⟩,
            List.pairwise_singleton _ _, ?_⟩
        intro a ha b hb
        rw [List.mem_singleton.mp hb]
        rcases List.mem_append.mp ha with ha | ha
        · have hgap := hmlast a ha last (by simp)
          have : last.start ≤ last.stop := Nat.le_add_right _ _
          omega
        · rw [List.mem_singleton.mp ha]
          omega
      · intro t ht
        rcases List.mem_append.mp ht with ht | ht
        · exact hproper t ht
        · rw [List.mem_singleton.mp ht]
          exact hs
      · intro t ht
        rcases List.mem_append.mp ht with ht | ht
        · exact hgrain t ht
        · rw [List.mem_singleton.mp ht]
          exact hd

/-- **Coalescing**: pushing an ordered list of proper spans one after the other
gives a tidy list with the same cover. The induction is on the spans still to
push, so the list built so far is arbitrary but must end before they start. -/
theorem foldl_push_tidy :
    ∀ (rest l : List Span), Tidy d l → rest.Pairwise (fun a b => a.stop ≤ b.start) →
      (∀ s ∈ rest, 0 < s.len) → (∀ s ∈ rest, d ∣ s.start ∧ d ∣ s.len) →
      (∀ t ∈ l, ∀ s ∈ rest, t.stop ≤ s.start) →
      Tidy d (rest.foldl push l) ∧
        ∀ x, x ∈ cover (rest.foldl push l) ↔ x ∈ cover l ∨ x ∈ cover rest := by
  intro rest
  induction rest with
  | nil =>
    intro l hl _ _ _ _
    exact ⟨hl, fun x => by simp⟩
  | cons s rest ih =>
    intro l hl hord hproper hgrain hbefore
    rw [List.pairwise_cons] at hord
    have hl' : ∀ t ∈ l, t.stop ≤ s.start := fun t ht => hbefore t ht s List.mem_cons_self
    have hpush : Tidy d (OpenShmem.push l s) :=
      hl.push (hproper s List.mem_cons_self) (hgrain s List.mem_cons_self) hl'
    obtain ⟨htidy, hcover⟩ := ih (OpenShmem.push l s) hpush hord.2
      (fun t ht => hproper t (List.mem_cons_of_mem _ ht))
      (fun t ht => hgrain t (List.mem_cons_of_mem _ ht))
      (fun t ht u hu => le_trans (stop_le_of_mem_push hl' ht) (hord.1 u hu))
    refine ⟨htidy, fun x => ?_⟩
    rw [List.foldl_cons, hcover, mem_cover_push, mem_cover_cons, or_assoc]

/-- Sorting disjoint proper spans by their start orders them end to start. -/
theorem ordered_of_sorted (hsort : l.Pairwise fun a b => a.start ≤ b.start)
    (hdis : l.Pairwise Span.Disjoint) (hproper : ∀ s ∈ l, 0 < s.len) :
    l.Pairwise fun a b => a.stop ≤ b.start := by
  refine (hsort.and hdis).imp_of_mem ?_
  rintro a b ha hb ⟨hle, hab⟩
  by_contra hlt
  have hbpos := hproper b hb
  refine hab b.start ⟨hle, by omega⟩ ⟨le_refl _, ?_⟩
  unfold Span.stop
  omega

/-- In a tidy list, the stop of a span is not covered: the next span starts
later. -/
theorem Tidy.stop_not_mem_cover {a : Span} (h : Tidy d l) (ha : a ∈ l) : a.stop ∉ cover l := by
  rintro ⟨t, ht, hmem⟩
  rw [Span.mem_def] at hmem
  obtain ⟨pre, post, rfl⟩ := List.append_of_mem ha
  have hapart := h.apart
  rw [List.pairwise_append, List.pairwise_cons] at hapart
  obtain ⟨-, ⟨hpost, -⟩, hcross⟩ := hapart
  rcases List.mem_append.mp ht with ht | ht
  · have := hcross t ht a List.mem_cons_self
    have : a.start ≤ a.stop := Nat.le_add_right _ _
    omega
  · rcases List.mem_cons.mp ht with rfl | ht
    · omega
    · have := hpost t ht
      omega

/-- A nonempty run of covered numbers lies in one span of a tidy list: it
cannot cross the gap after the span it starts in. -/
theorem Tidy.exists_span_of_subset {t : Span} (h : Tidy d l) (ht : 0 < t.len)
    (hsub : ∀ x, x ∈ t → x ∈ cover l) : ∃ s ∈ l, s.start ≤ t.start ∧ t.stop ≤ s.stop := by
  have hfirst : t.start ∈ t := ⟨le_refl _, by unfold Span.stop; omega⟩
  obtain ⟨s, hs, hmem⟩ := hsub _ hfirst
  rw [Span.mem_def] at hmem
  refine ⟨s, hs, hmem.1, ?_⟩
  by_contra hlt
  exact h.stop_not_mem_cover hs (hsub s.stop ⟨by omega, by omega⟩)

/-- **First fit is lowest fit**: the first span of a tidy list that is long
enough starts at the least position from which `n` covered numbers follow. -/
theorem Tidy.isLeast_firstFit {pre post : List Span} {b : Span} {n : ℕ}
    (h : Tidy d (pre ++ b :: post)) (hn : 0 < n) (hpre : ∀ a ∈ pre, a.len < n) (hb : n ≤ b.len) :
    IsLeast {o | ∀ x, x ∈ (⟨o, n⟩ : Span) → x ∈ cover (pre ++ b :: post)} b.start := by
  constructor
  · intro x hx
    rw [Span.mem_mk] at hx
    refine ⟨b, by simp, hx.1, ?_⟩
    unfold Span.stop
    omega
  · intro o ho
    obtain ⟨s, hs, hstart, hstop⟩ := h.exists_span_of_subset hn ho
    simp only [Span.stop] at hstart hstop
    have hapart := h.apart
    rw [List.pairwise_append, List.pairwise_cons] at hapart
    obtain ⟨-, ⟨hpost, -⟩, -⟩ := hapart
    rcases List.mem_append.mp hs with hs | hs
    · -- the spans before `b` are too short to hold the run
      have := hpre s hs
      omega
    · rcases List.mem_cons.mp hs with rfl | hs
      · exact hstart
      · have := hpost s hs
        have : b.start ≤ b.stop := Nat.le_add_right _ _
        omega

/-- If every span is too short, no `n` covered numbers follow one another. -/
theorem Tidy.no_fit {n : ℕ} (h : Tidy d l) (hn : 0 < n) (hshort : ∀ a ∈ l, a.len < n) (o : ℕ) :
    ¬ ∀ x, x ∈ (⟨o, n⟩ : Span) → x ∈ cover l := by
  intro ho
  obtain ⟨s, hs, hstart, hstop⟩ := h.exists_span_of_subset hn ho
  have := hshort s hs
  simp only [Span.stop] at hstart hstop
  omega

/-- In a tidy list, nothing covered lies before the first span. -/
theorem Tidy.start_le {a : Span} {x : ℕ} (h : Tidy d (a :: l)) (hx : x ∈ cover (a :: l)) :
    a.start ≤ x := by
  obtain ⟨t, ht, hmem⟩ := hx
  rw [Span.mem_def] at hmem
  rcases List.mem_cons.mp ht with rfl | ht
  · exact hmem.1
  · have := (List.pairwise_cons.mp h.apart).1 t ht
    have : a.start ≤ a.stop := Nat.le_add_right _ _
    omega

/-- The tail of a tidy list covers what the list covers past its first span. -/
theorem Tidy.mem_cover_tail {a : Span} {x : ℕ} (h : Tidy d (a :: l)) :
    x ∈ cover l ↔ x ∈ cover (a :: l) ∧ a.stop ≤ x := by
  rw [mem_cover_cons]
  constructor
  · rintro ⟨t, ht, hmem⟩
    have := (List.pairwise_cons.mp h.apart).1 t ht
    rw [Span.mem_def] at hmem
    exact ⟨Or.inr ⟨t, ht, hmem⟩, by omega⟩
  · rintro ⟨hmem | hmem, hle⟩
    · rw [Span.mem_def] at hmem
      omega
    · exact hmem

theorem Tidy.tail {a : Span} (h : Tidy d (a :: l)) : Tidy d l :=
  ⟨(List.pairwise_cons.mp h.apart).2, fun s hs => h.proper s (List.mem_cons_of_mem _ hs),
    fun s hs => h.grain s (List.mem_cons_of_mem _ hs)⟩

theorem Tidy.start_mem_cover {a : Span} (h : Tidy d (a :: l)) : a.start ∈ cover (a :: l) := by
  have := h.proper a List.mem_cons_self
  refine ⟨a, List.mem_cons_self, le_refl _, ?_⟩
  unfold Span.stop
  omega

/-- **A tidy list is determined by what it covers.** -/
theorem Tidy.ext {m : List Span} (hl : Tidy d l) (hm : Tidy d m)
    (h : ∀ x, x ∈ cover l ↔ x ∈ cover m) : l = m := by
  induction l generalizing m with
  | nil =>
    cases m with
    | nil => rfl
    | cons b m => exact absurd ((h b.start).mpr hm.start_mem_cover) (not_mem_cover_nil _)
  | cons a l ih =>
    cases m with
    | nil => exact absurd ((h a.start).mp hl.start_mem_cover) (not_mem_cover_nil _)
    | cons b m =>
      have hstart : a.start = b.start :=
        le_antisymm (hl.start_le ((h _).mpr hm.start_mem_cover))
          (hm.start_le ((h _).mp hl.start_mem_cover))
      have hapos := hl.proper a List.mem_cons_self
      have hbpos := hm.proper b List.mem_cons_self
      -- the first number past `a` is not covered, so `b` cannot reach past it
      have hba : b.stop ≤ a.stop := by
        by_contra hlt
        refine hl.stop_not_mem_cover List.mem_cons_self ((h _).mpr ⟨b, List.mem_cons_self, ?_⟩)
        simp only [Span.mem_def, Span.stop] at hlt ⊢
        omega
      have hab : a.stop ≤ b.stop := by
        by_contra hlt
        refine hm.stop_not_mem_cover List.mem_cons_self ((h _).mp ⟨a, List.mem_cons_self, ?_⟩)
        simp only [Span.mem_def, Span.stop] at hlt ⊢
        omega
      have hstop : a.stop = b.stop := le_antisymm hab hba
      have hab' : a = b := by
        cases a
        cases b
        simp only [Span.stop] at hstop hstart
        simp only [Span.mk.injEq]
        omega
      rw [hab', ih hl.tail hm.tail]
      intro x
      rw [hl.mem_cover_tail, hm.mem_cover_tail, h x, hstop]

/-! ## Carving -/

/-- What is left of `s` when its first `n` numbers are taken. -/
def carve (n : ℕ) (s : Span) : List Span :=
  if s.len = n then [] else [⟨s.start + n, s.len - n⟩]

theorem mem_carve {n : ℕ} {t : Span} (hn : n ≤ s.len) (ht : t ∈ carve n s) :
    t = ⟨s.start + n, s.len - n⟩ ∧ n < s.len := by
  unfold carve at ht
  split at ht
  · exact absurd ht List.not_mem_nil
  · exact ⟨List.mem_singleton.mp ht, by omega⟩

theorem mem_cover_carve {n x : ℕ} (hn : n ≤ s.len) :
    x ∈ cover (carve n s) ↔ x ∈ s ∧ s.start + n ≤ x := by
  unfold carve
  split
  · next h =>
    simp only [not_mem_cover_nil, Span.mem_def, Span.stop, false_iff]
    omega
  · simp only [mem_cover_cons, not_mem_cover_nil, or_false, Span.mem_def, Span.stop]
    omega

variable {pre post : List Span} {n : ℕ}

/-- Carving one span of a tidy list keeps it tidy. -/
theorem Tidy.carve (h : Tidy d (pre ++ s :: post)) (hn : n ≤ s.len) (hd : d ∣ n) :
    Tidy d (pre ++ carve n s ++ post) := by
  obtain ⟨hapart, hproper, hgrain⟩ := h
  have hs : s ∈ pre ++ s :: post := by simp
  rw [List.pairwise_append, List.pairwise_cons] at hapart
  obtain ⟨hpre, ⟨hspost, hpost⟩, hcross⟩ := hapart
  -- a carved span starts later and stops where `s` stopped
  have hleft : ∀ t ∈ OpenShmem.carve n s, s.start ≤ t.start ∧ t.stop = s.stop := by
    intro t ht
    obtain ⟨rfl, hlt⟩ := mem_carve hn ht
    simp only [Span.stop]
    omega
  refine ⟨?_, ?_, ?_⟩
  · refine List.pairwise_append.mpr ⟨List.pairwise_append.mpr ⟨hpre, ?_, ?_⟩, hpost, ?_⟩
    · unfold OpenShmem.carve
      split
      · exact List.Pairwise.nil
      · exact List.pairwise_singleton _ _
    · intro a ha t ht
      have := hcross a ha s List.mem_cons_self
      have := (hleft t ht).1
      omega
    · intro t ht b hb
      rcases List.mem_append.mp ht with ht | ht
      · exact hcross t ht b (List.mem_cons_of_mem _ hb)
      · rw [(hleft t ht).2]
        exact hspost b hb
  · intro t ht
    rcases List.mem_append.mp ht with ht | ht
    · rcases List.mem_append.mp ht with ht | ht
      · exact hproper t (List.mem_append_left _ ht)
      · obtain ⟨rfl, hlt⟩ := mem_carve hn ht
        exact Nat.sub_pos_of_lt hlt
    · exact hproper t (List.mem_append_right _ (List.mem_cons_of_mem _ ht))
  · intro t ht
    rcases List.mem_append.mp ht with ht | ht
    · rcases List.mem_append.mp ht with ht | ht
      · exact hgrain t (List.mem_append_left _ ht)
      · obtain ⟨rfl, -⟩ := mem_carve hn ht
        obtain ⟨hstart, hlen⟩ := hgrain s hs
        exact ⟨Nat.dvd_add hstart hd, Nat.dvd_sub hlen hd⟩
    · exact hgrain t (List.mem_append_right _ (List.mem_cons_of_mem _ ht))

/-- The cover after carving: the first `n` numbers of the span are gone, and
nothing else is. -/
theorem mem_cover_carved {x : ℕ} (h : Tidy d (pre ++ s :: post)) (hn : n ≤ s.len) :
    x ∈ cover (pre ++ carve n s ++ post) ↔
      x ∈ cover (pre ++ s :: post) ∧ x ∉ (⟨s.start, n⟩ : Span) := by
  have hapart := h.apart
  rw [List.pairwise_append, List.pairwise_cons] at hapart
  obtain ⟨-, ⟨hspost, -⟩, hcross⟩ := hapart
  have hpre : x ∈ cover pre → x < s.start := by
    rintro ⟨t, ht, hx⟩
    have := hcross t ht s List.mem_cons_self
    simp only [Span.mem_def] at hx
    omega
  have hpost : x ∈ cover post → s.stop < x := by
    rintro ⟨t, ht, hx⟩
    have := hspost t ht
    simp only [Span.mem_def] at hx
    omega
  simp only [mem_cover_append, mem_cover_cons, mem_cover_carve hn, Span.mem_def, Span.stop] at *
  by_cases h₁ : x ∈ cover pre
  · have := hpre h₁
    simp only [h₁, true_or, true_and, true_iff]
    omega
  · by_cases h₂ : x ∈ cover post
    · have := hpost h₂
      simp only [h₂, or_true, true_and, true_iff]
      omega
    · simp only [h₁, h₂, false_or, or_false]
      omega

end OpenShmem
