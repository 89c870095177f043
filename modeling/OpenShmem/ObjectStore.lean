import OpenShmem.Memory

/-!
# Distributed objects

A library: what a partitioned global address space is for, without a word about
addresses. An object is created on all processing elements at once and has a part of the
same size on each; anyone may write into and read from any part. A write is sure to be
seen by reads once the objects have `settled`. What is in a new object is unspecified.

`Run.cell_eq` is the frame rule over whole runs: what no call of a run writes stays.
-/

namespace OpenShmem

/-- What a client knows of its objects. -/
structure Inventory : Type where
  /-- the size of each object, by its number; `none` if there is none, or none any more -/
  sizes : List (Option ℕ)
  /-- no write is in flight -/
  settled : Bool

/-- The objects of a job. -/
structure Objects (κ : Type) : Type extends Inventory where
  /-- what is in each object, on each processing element -/
  cell : ℕ → Memories κ

/-- A call on objects. -/
inductive ObjectCall (κ : Type) : Type where
  | create (size : ℕ)
  | destroy (which : ℕ)
  | write (which on start : ℕ) (cells : List κ)
  | read (which on start len : ℕ)
  | settle

/-- Its answer. -/
inductive ObjectAnswer (κ : Type) : Type where
  | done
  | refused
  | cells (cells : List κ)

/-- The call changes cell `a` of the part of object `which` on processing element `on`,
or there is no such object any more. -/
def ObjectCall.Changes {κ : Type} (which on a : ℕ) : ObjectCall κ → Prop
  | .destroy which' => which' = which
  | .write which' on' start cells =>
    which' = which ∧ on' = on ∧ a ∈ (⟨start, cells.length⟩ : Span)
  | _ => False

namespace Inventory

variable {κ : Type} (v : Inventory)

/-- Before the first call. -/
def empty : Inventory := ⟨[], false⟩

/-- The size of an object that is there. -/
def size (which : ℕ) : Option ℕ := v.sizes[which]?.join

/-- What a client may do: it keeps inside objects that are there, and reads when no write
is in flight. -/
def Allows : ObjectCall κ → Prop
  | .create _ | .settle => True
  | .destroy which => ∃ n, v.size which = some n
  | .write which _ start cells => ∃ n, v.size which = some n ∧ start + cells.length ≤ n
  | .read which _ start len => ∃ n, v.size which = some n ∧ start + len ≤ n ∧ v.settled = true

/-- One object more, if there is a size. -/
def add (size : Option ℕ) : Inventory := { v with sizes := v.sizes ++ [size] }

/-- One object less. -/
def remove (which : ℕ) : Inventory := { v with sizes := v.sizes.set which none }

variable {v} {which n : ℕ}

theorem size_lt (h : v.size which = some n) : which < v.sizes.length := by
  by_contra hge
  rw [size, List.getElem?_eq_none (Nat.le_of_not_lt hge)] at h
  cases h

theorem size_add_of_lt (x : Option ℕ) (h : which < v.sizes.length) :
    (v.add x).size which = v.size which := by
  rw [size, add, List.getElem?_append_left h]
  rfl

@[simp] theorem size_add_self (x : Option ℕ) : (v.add x).size v.sizes.length = x := by
  rw [size, add, List.getElem?_append_right le_rfl, Nat.sub_self]
  rfl

theorem size_add_eq_some {x : Option ℕ} : (v.add x).size which = some n ↔
    v.size which = some n ∨ which = v.sizes.length ∧ x = some n := by
  rcases lt_trichotomy which v.sizes.length with hlt | rfl | hgt
  · rw [size_add_of_lt x hlt]
    simp [hlt.ne]
  · rw [size_add_self]
    have hnone : v.size v.sizes.length = none := by simp [size]
    simp [hnone]
  · have hnone : v.size which = none := by simp [size, hgt.le]
    have hnone' : (v.add x).size which = none := by
      rw [size, add, List.getElem?_eq_none (by rw [List.length_append]; exact hgt)]
      rfl
    simp [hnone, hnone', hgt.ne']

theorem size_remove_of_ne {which' : ℕ} (h : which' ≠ which) :
    (v.remove which).size which' = v.size which' := by
  rw [size, remove, List.getElem?_set_ne (Ne.symm h)]
  rfl

theorem size_remove_self : (v.remove which).size which = none := by
  rw [size, remove]
  rcases lt_or_ge which v.sizes.length with hlt | hge
  · simp [List.getElem?_set_self hlt]
  · simp [hge]

theorem size_remove_eq_some {which' : ℕ} : (v.remove which).size which' = some n ↔
    which' ≠ which ∧ v.size which' = some n := by
  by_cases h : which' = which
  · subst h
    simp [size_remove_self]
  · simp [size_remove_of_ne h, h]

end Inventory

namespace Objects

variable {κ : Type}

/-- One call. -/
inductive Step : Objects κ → ObjectCall κ → ObjectAnswer κ → Objects κ → Prop where
  /-- a new object, with anything in it -/
  | create (o : Objects κ) (size : ℕ) (fresh : Memories κ) :
    Step o (.create size) .done
      ⟨o.add (some size), Function.update o.cell o.sizes.length fresh⟩
  | refuse (o : Objects κ) (size : ℕ) :
    Step o (.create size) .refused ⟨o.add none, o.cell⟩
  | destroy {o : Objects κ} {which : ℕ} (h : o.Allows (.destroy which : ObjectCall κ)) :
    Step o (.destroy which) .done ⟨o.remove which, o.cell⟩
  | write {o : Objects κ} {which on start : ℕ} {cells : List κ}
    (h : o.Allows (.write which on start cells)) :
    Step o (.write which on start cells) .done
      { o with
        cell := Function.update o.cell which ((o.cell which).write on start cells)
        settled := false }
  | read {o : Objects κ} {which on start len : ℕ}
    (h : o.Allows (.read which on start len : ObjectCall κ)) :
    Step o (.read which on start len) (.cells ((o.cell which).read on start len)) o
  | settle (o : Objects κ) : Step o .settle .done { o with settled := true }

/-- Many calls, with their answers. -/
inductive Run (o : Objects κ) : List (ObjectCall κ × ObjectAnswer κ) → Objects κ → Prop where
  | nil : Run o [] o
  | snoc {h : List (ObjectCall κ × ObjectAnswer κ)} {o' o'' : Objects κ} {c : ObjectCall κ}
    {a : ObjectAnswer κ} (hist : Run o h o') (hstep : Step o' c a o'') : Run o (h ++ [(c, a)]) o''

variable {o o' : Objects κ} {c : ObjectCall κ} {a : ObjectAnswer κ}
  {h : List (ObjectCall κ × ObjectAnswer κ)} {which n : ℕ}

/-! ## What a run leaves alone -/

/-- One call leaves alone what it does not change. -/
theorem Step.cell_eq (hstep : Step o c a o') (hsize : o.size which = some n) {on x : ℕ}
    (hc : ¬ c.Changes which on x) :
    o'.size which = some n ∧ o'.cell which on x = o.cell which on x := by
  cases hstep with
  | create size fresh =>
    refine ⟨Inventory.size_add_eq_some.mpr (Or.inl hsize), ?_⟩
    have hne : which ≠ o.sizes.length := (Inventory.size_lt hsize).ne
    exact congrFun (congrFun (Function.update_of_ne hne ..) on) x
  | refuse size => exact ⟨Inventory.size_add_eq_some.mpr (Or.inl hsize), rfl⟩
  | @destroy which' h =>
    have hne : which' ≠ which := hc
    exact ⟨Inventory.size_remove_eq_some.mpr ⟨hne.symm, hsize⟩, rfl⟩
  | @write which' on' start cells h =>
    refine ⟨hsize, ?_⟩
    by_cases hwhich : which = which'
    · subst hwhich
      refine (congrFun (congrFun (Function.update_self ..) on) x).trans ?_
      refine Memories.write_of_outside _ ?_
      rintro ⟨hon, hx⟩
      exact hc ⟨rfl, hon.symm, hx⟩
    · exact congrFun (congrFun (Function.update_of_ne hwhich ..) on) x
  | read h => exact ⟨hsize, rfl⟩
  | settle => exact ⟨hsize, rfl⟩

/-- **Frame rule**: a run leaves alone what none of its calls changes. -/
theorem Run.cell_eq (hrun : Run o h o') (hsize : o.size which = some n) {on x : ℕ}
    (hh : ∀ e ∈ h, ¬ e.1.Changes which on x) :
    o'.size which = some n ∧ o'.cell which on x = o.cell which on x := by
  induction hrun with
  | nil => exact ⟨hsize, rfl⟩
  | snoc _ hstep ih =>
    obtain ⟨hearlier, hlast⟩ := List.forall_mem_append.mp hh
    obtain ⟨hsize', hcell⟩ := ih hearlier
    obtain ⟨hsize'', hcell'⟩ := hstep.cell_eq hsize' (hlast _ (List.mem_singleton_self _))
    exact ⟨hsize'', hcell'.trans hcell⟩

/-- **What was written last is there**, whatever else happens to other cells: other
objects created and destroyed, other parts written. -/
theorem Run.read_written {o₁ o₂ : Objects κ} {on start : ℕ} {cells : List κ}
    (hwrite : Step o (.write which on start cells) a o₁) (hrun : Run o₁ h o₂)
    (hh : ∀ e ∈ h, ∀ x ∈ (⟨start, cells.length⟩ : Span), ¬ e.1.Changes which on x) :
    (o₂.cell which).read on start cells.length = cells := by
  cases hwrite with
  | write hallowed =>
    obtain ⟨n, hsize, -⟩ := hallowed
    conv_rhs => rw [← (o.cell which).read_write on start cells]
    refine List.map_congr_left fun i hi => ?_
    have hx : start + i ∈ (⟨start, cells.length⟩ : Span) :=
      Span.mem_mk.mpr ⟨Nat.le_add_right _ _, Nat.add_lt_add_left (List.mem_range.mp hi) _⟩
    obtain ⟨-, hcell⟩ := hrun.cell_eq (n := n) hsize fun e he => hh e he _ hx
    exact hcell.trans (congrFun (congrFun (Function.update_self ..) on) _)

end Objects

end OpenShmem
