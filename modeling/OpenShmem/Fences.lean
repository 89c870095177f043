import OpenShmem.Flight

/-!
# Fences between writes

A library, over writes in flight. A process may fence: of what it issues on one channel, the
writes before the fence then land before those after it. Which these are is kept by number,
as a floor for each write: how many had been issued when its issuer last fenced.
-/

namespace OpenShmem

/-- Writes in flight, and the fences between them. -/
structure Fenced (ι χ κ : Type) : Type where
  flight : Flight ι χ κ
  /-- for each write, how many had been issued when its issuer last fenced -/
  floors : List ℕ
  /-- for each process, how many had been issued when it last fenced -/
  mark : ι → ℕ

namespace Fenced

variable {ι χ κ : Type} (F : Fenced ι χ κ)

/-- Nothing has happened. -/
def fresh (base : Memories κ) : Fenced ι χ κ := ⟨.fresh base, [], fun _ => 0⟩

/-- A write is issued. -/
def issue (w : Write ι χ κ) : Fenced ι χ κ :=
  { F with flight := F.flight.issue w, floors := F.floors ++ [F.mark w.issuer] }

/-- A process fences. -/
def fence [DecidableEq ι] (i : ι) : Fenced ι χ κ :=
  { F with mark := Function.update F.mark i F.flight.issued.length }

/-- Write number `m` was issued on the channel of write number `n`, by its issuer, before
the last fence of it. -/
structure Precedes (m n : ℕ) : Prop where
  floor : ∃ floor, F.floors[n]? = some floor ∧ m < floor
  channel : ∃ w w', F.flight.issued[m]? = some w ∧ F.flight.issued[n]? = some w' ∧
    w.issuer = w'.issuer ∧ w.channel = w'.channel

/-- What flies moves on: a write lands, if all that precede it have, or memories are changed
otherwise. -/
inductive Moves : Fenced ι χ κ → Fenced ι χ κ → Prop where
  | deliver {F : Fenced ι χ κ} (n : ℕ) (h : F.flight.InFlight n)
    (hready : ∀ m, F.Precedes m n → .write m ∈ F.flight.history) :
    Moves F { F with flight := F.flight.deliver n h.1 }
  | touch {F : Fenced ι χ κ} (change : Memories κ → Memories κ) :
    Moves F { F with flight := F.flight.touch change }

/-- What is in order: a write that has landed had all that precede it land before. -/
structure Ordered : Prop where
  length : F.floors.length = F.flight.issued.length
  mark_le : ∀ i, F.mark i ≤ F.flight.issued.length
  floor_le : ∀ n x : ℕ, F.floors[n]? = some x → x ≤ n
  order : ∀ before n after, F.flight.history = before ++ .write n :: after →
    ∀ m, F.Precedes m n → .write m ∈ before

namespace Ordered

variable {F} {G : Fenced ι χ κ}

theorem fresh (base : Memories κ) : (Fenced.fresh base : Fenced ι χ κ).Ordered where
  length := rfl
  mark_le _ := Nat.le_refl 0
  floor_le _ _ h := by cases h
  order before n after h :=
    absurd h.symm (List.append_ne_nil_of_right_ne_nil _ (List.cons_ne_nil _ _))

/-- What precedes a write that was known before does not change when more are issued. -/
theorem precedes_of_issue (h : F.Ordered) {w : Write ι χ κ} {m n : ℕ}
    (hn : n < F.flight.issued.length) (hm : (F.issue w).Precedes m n) : F.Precedes m n := by
  obtain ⟨⟨floor, hfloor, hlt⟩, v, v', hv, hv', hsame⟩ := hm
  have hold : F.floors[n]? = some floor := by
    rw [← hfloor]
    exact (List.getElem?_append_left (h.length ▸ hn)).symm
  have hmn : m < F.flight.issued.length := (hlt.trans_le (h.floor_le n floor hold)).trans hn
  refine ⟨⟨floor, hold, hlt⟩, v, v', ?_, ?_, hsame⟩
  · rw [← hv]
    exact (List.getElem?_append_left hmn).symm
  · rw [← hv']
    exact (List.getElem?_append_left hn).symm

theorem issue (h : F.Ordered) (w : Write ι χ κ) : (F.issue w).Ordered where
  length := by
    show (F.floors ++ [_]).length = (F.flight.issued ++ [w]).length
    rw [List.length_append, List.length_append, h.length]
    rfl
  mark_le i := by
    show F.mark i ≤ (F.flight.issued ++ [w]).length
    rw [List.length_append]
    exact (h.mark_le i).trans (Nat.le_add_right _ _)
  floor_le n x hn := by
    have hn : (F.floors ++ [F.mark w.issuer])[n]? = some x := hn
    obtain hlt | hge := Nat.lt_or_ge n F.floors.length
    · rw [List.getElem?_append_left hlt] at hn
      exact h.floor_le n x hn
    · rw [List.getElem?_append_right hge] at hn
      obtain rfl := List.mem_singleton.mp (List.mem_of_getElem? hn)
      exact (h.mark_le _).trans (h.length ▸ hge)
  order before n after hhistory m hm := by
    have hn : n < F.flight.issued.length := F.flight.known n (by
      rw [show F.flight.history = _ from hhistory]
      exact List.mem_append_right _ List.mem_cons_self)
    exact h.order before n after hhistory m (h.precedes_of_issue hn hm)

theorem fence [DecidableEq ι] (h : F.Ordered) (i : ι) : (F.fence i).Ordered where
  length := h.length
  mark_le j := by
    show Function.update F.mark i F.flight.issued.length j ≤ F.flight.issued.length
    by_cases hj : j = i
    · subst hj
      rw [Function.update_self]
    · rw [Function.update_of_ne hj]
      exact h.mark_le j
  floor_le := h.floor_le
  order before n after hhistory m hm := h.order before n after hhistory m ⟨hm.floor, hm.channel⟩

/-- What lands comes last. -/
theorem land (h : F.Ordered) {e : Landing κ} {f : Flight ι χ κ}
    (hissued : f.issued = F.flight.issued) (hhistory : f.history = F.flight.history ++ [e])
    (hready : ∀ n, e = .write n → ∀ m, F.Precedes m n → .write m ∈ F.flight.history) :
    ({ F with flight := f } : Fenced ι χ κ).Ordered where
  length := hissued ▸ h.length
  mark_le := hissued ▸ h.mark_le
  floor_le := h.floor_le
  order before n after hsplit m hm := by
    have hbefore : F.Precedes m n := ⟨hm.floor, hissued ▸ hm.channel⟩
    have hsplit : F.flight.history ++ [e] = before ++ .write n :: after := hhistory ▸ hsplit
    obtain rfl | ⟨after, last, rfl⟩ := List.eq_nil_or_concat' after
    · obtain ⟨rfl, rfl⟩ := List.append_singleton_inj.mp hsplit
      exact hready n rfl m hbefore
    · rw [← List.cons_append, ← List.append_assoc] at hsplit
      exact h.order before n after (List.append_singleton_inj.mp hsplit).1 m hbefore

theorem moves (h : F.Ordered) (hmoves : Moves F G) : G.Ordered := by
  cases hmoves with
  | deliver n hn hready =>
    refine h.land rfl rfl ?_
    rintro _ ⟨⟩
    exact hready
  | touch change => exact h.land rfl rfl fun n hn => by cases hn

end Ordered

theorem Moves.flight {F G : Fenced ι χ κ} (h : Moves F G) : F.flight.Moves G.flight := by
  cases h with
  | deliver n hn => exact .deliver n hn
  | touch change => exact .touch change

/-! ## As time goes on -/

/-- `G` is `F` some time later. -/
structure Later (F G : Fenced ι χ κ) : Prop where
  flight : F.flight.Later G.flight
  floors : F.floors <+: G.floors
  mark : ∀ i, F.mark i ≤ G.mark i

/-- A write that was issued after `F`, behind all the fences of its issuer before that. -/
def IssuedSince (F G : Fenced ι χ κ) (w : Write ι χ κ) : Prop :=
  ∃ n floor, F.flight.issued.length ≤ n ∧ G.flight.issued[n]? = some w ∧
    G.floors[n]? = some floor ∧ F.mark w.issuer ≤ floor

section Later

variable {F} {G H : Fenced ι χ κ}

@[refl] theorem Later.refl (F : Fenced ι χ κ) : F.Later F :=
  ⟨.refl _, List.prefix_rfl, fun _ => Nat.le_refl _⟩

theorem Later.trans (h : F.Later G) (h' : G.Later H) : F.Later H :=
  ⟨h.flight.trans h'.flight, h.floors.trans h'.floors, fun i => (h.mark i).trans (h'.mark i)⟩

theorem later_issue (F : Fenced ι χ κ) (w : Write ι χ κ) : F.Later (F.issue w) :=
  ⟨Flight.later_issue _ _, List.prefix_append .., fun _ => Nat.le_refl _⟩

theorem Ordered.later_fence [DecidableEq ι] (h : F.Ordered) (i : ι) : F.Later (F.fence i) := by
  refine ⟨.refl _, List.prefix_rfl, fun j => ?_⟩
  show F.mark j ≤ Function.update F.mark i F.flight.issued.length j
  by_cases hj : j = i
  · subst hj
    rw [Function.update_self]
    exact h.mark_le j
  · rw [Function.update_of_ne hj]

theorem Moves.later (h : Moves F G) : F.Later G := by
  refine ⟨h.flight.later, ?_, fun i => ?_⟩ <;> cases h
  · exact List.prefix_rfl
  · exact List.prefix_rfl
  · exact Nat.le_refl _
  · exact Nat.le_refl _

theorem Later.getElem?_floors (h : F.Later G) {n floor : ℕ} (hn : F.floors[n]? = some floor) :
    G.floors[n]? = some floor := by
  obtain ⟨rest, hrest⟩ := h.floors
  rw [← hrest, List.getElem?_append_left (List.getElem?_eq_some_iff.mp hn).1]
  exact hn

/-- A write goes behind the last fence of its issuer. -/
theorem Ordered.issuedSince_issue (h : F.Ordered) (w : Write ι χ κ) :
    IssuedSince F (F.issue w) w := by
  refine ⟨F.flight.issued.length, F.mark w.issuer, Nat.le_refl _, List.getElem?_concat_length, ?_,
    Nat.le_refl _⟩
  show (F.floors ++ [F.mark w.issuer])[F.flight.issued.length]? = _
  rw [← h.length]
  exact List.getElem?_concat_length

theorem IssuedSince.mono {F' G' : Fenced ι χ κ} {w : Write ι χ κ} (h : IssuedSince F' G w)
    (hF : F.Later F') (hG : G.Later G') : IssuedSince F G' w := by
  obtain ⟨n, floor, hn, hissued, hfloor, hmark⟩ := h
  exact ⟨n, floor, hF.flight.issued.length_le.trans hn, hG.flight.getElem? hissued,
    hG.getElem?_floors hfloor, (hF.mark _).trans hmark⟩

/-- What has landed by now had what precedes it land by now. -/
theorem Later.landed_of_precedes (h : F.Later G) (hordered : G.Ordered) {m n : ℕ}
    (hprecedes : G.Precedes m n) (hn : .write n ∈ F.flight.history) :
    .write m ∈ F.flight.history := by
  obtain ⟨rest, hrest⟩ := h.flight.history
  obtain ⟨before, after, hhistory⟩ := List.append_of_mem hn
  have hsplit : G.flight.history = before ++ .write n :: (after ++ rest) := by
    rw [← hrest, hhistory, List.append_assoc, List.cons_append]
  rw [hhistory]
  exact List.mem_append_left _ (hordered.order before n (after ++ rest) hsplit m hprecedes)

end Later

end Fenced

end OpenShmem
