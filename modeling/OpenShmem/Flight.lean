import Mathlib.Data.List.Infix
import OpenShmem.Memory

/-!
# Writes in flight

A library. Processes `ι` issue writes on channels `χ`; a write is in flight until
it lands in the memory of the process its channel leads to. Writes land in any
order, at any time, and memories are also changed otherwise.

A `Flight` keeps all that has happened: the writes issued, by number, and what has
landed. Both only grow (`Later`), which is what makes it stable that a channel has
been drained up to a mark. What was read between two flights was there at some time
between them (`Shown`); if a write had landed in the first of them, it is `Seen`.
-/

namespace OpenShmem

/-- A write, and who issued it on which channel. -/
structure Write (ι χ κ : Type) : Type where
  issuer : ι
  channel : χ
  address : ℕ
  cells : List κ

/-- What has happened to the memories: a write has landed, or they were changed
otherwise. -/
inductive Landing (κ : Type) : Type where
  | write (n : ℕ)
  | touched (f : Memories κ → Memories κ)

/-- The writes issued, and what has landed, oldest first. -/
structure Flight (ι χ κ : Type) : Type where
  /-- the memories at the beginning -/
  base : Memories κ
  issued : List (Write ι χ κ)
  history : List (Landing κ)
  /-- what has landed was issued -/
  known : ∀ n, .write n ∈ history → n < issued.length

namespace Flight

variable {ι χ κ : Type} (target : ι → χ → ℕ) (f g : Flight ι χ κ)

/-- Nothing has happened. -/
def fresh (base : Memories κ) : Flight ι χ κ := ⟨base, [], [], fun _ h => absurd h List.not_mem_nil⟩

/-- Write number `n` has been issued and has not landed. -/
def InFlight (n : ℕ) : Prop := n < f.issued.length ∧ .write n ∉ f.history

/-- Of the first `mark` writes, those of `i` on this channel have landed. -/
def Drained (i : ι) (channel : χ) (mark : ℕ) : Prop :=
  ∀ n < mark, ∀ w, f.issued[n]? = some w → w.issuer = i → w.channel = channel →
    .write n ∈ f.history

/-- Write number `n` has landed. -/
def hasLanded (n : ℕ) : Bool := f.history.any fun
  | .write m => m == n
  | .touched _ => false

/-- What a landing makes of the memories. -/
def applied (issued : List (Write ι χ κ)) (m : Memories κ) : Landing κ → Memories κ
  | .write n =>
    match issued[n]? with
    | some w => m.write (target w.issuer w.channel) w.address w.cells
    | none => m
  | .touched change => change m

/-- What the memories hold. -/
def memory : Memories κ := f.history.foldl (applied target f.issued) f.base

/-- A write is issued. -/
def issue (w : Write ι χ κ) : Flight ι χ κ where
  base := f.base
  issued := f.issued ++ [w]
  history := f.history
  known n hn := by
    rw [List.length_append]
    exact Nat.lt_add_right _ (f.known n hn)

/-- Write number `n` lands. -/
def deliver (n : ℕ) (h : n < f.issued.length) : Flight ι χ κ where
  base := f.base
  issued := f.issued
  history := f.history ++ [.write n]
  known m hm := by
    obtain hold | hnew := List.mem_append.mp hm
    · exact f.known m hold
    · cases List.mem_singleton.mp hnew
      exact h

/-- The memories are changed otherwise. -/
def touch (change : Memories κ → Memories κ) : Flight ι χ κ where
  base := f.base
  issued := f.issued
  history := f.history ++ [.touched change]
  known m hm := by
    obtain hold | hnew := List.mem_append.mp hm
    · exact f.known m hold
    · cases List.mem_singleton.mp hnew

/-- What flies moves on: a write lands, or memories are changed otherwise. -/
inductive Moves : Flight ι χ κ → Flight ι χ κ → Prop where
  | deliver {f : Flight ι χ κ} (n : ℕ) (h : f.InFlight n) : Moves f (f.deliver n h.1)
  | touch {f : Flight ι χ κ} (change : Memories κ → Memories κ) : Moves f (f.touch change)

/-- `g` is `f` some time later. -/
structure Later : Prop where
  base : g.base = f.base
  issued : f.issued <+: g.issued
  history : f.history <+: g.history

/-- `x` was read at an address of PE `k` with write number `n` in place: unless what
landed after the write changed the cell, it is what was written. -/
structure Sees (n k a : ℕ) (x : κ) : Prop where
  landed : .write n ∈ f.history
  read : x = f.memory target k a
  written : ∀ w before after y (hy : y < w.cells.length), f.issued[n]? = some w →
    k = target w.issuer w.channel → a = w.address + y →
      f.history = before ++ .write n :: after →
        (∀ e ∈ after, ∀ m, applied target f.issued m e k a = m k a) → x = w.cells[y]

/-- Each of these cells was at its address of PE `k` at some time between `f` and `g`. -/
def Shown (k a : ℕ) (cells : List κ) : Prop :=
  ∀ x (h : x < cells.length), ∃ f', f.Later f' ∧ f'.Later g ∧
    cells[x] = f'.memory target k (a + x)

/-- Each of these cells was read between `f` and `g`, with write number `n` in place. -/
def Seen (n k a : ℕ) (cells : List κ) : Prop :=
  ∀ x (h : x < cells.length), ∃ f', f.Later f' ∧ f'.Later g ∧ f'.Sees target n k (a + x) cells[x]

theorem hasLanded_iff {n : ℕ} : f.hasLanded n = true ↔ .write n ∈ f.history := by
  rw [hasLanded, List.any_eq_true]
  constructor
  · rintro ⟨m | change, hm, heq⟩
    · rwa [← eq_of_beq heq]
    · cases heq
  · exact fun h => ⟨.write n, h, beq_self_eq_true n⟩

instance (n : ℕ) : Decidable (f.InFlight n) :=
  decidable_of_iff (n < f.issued.length ∧ ¬ f.hasLanded n = true)
    (and_congr_right fun _ => not_congr f.hasLanded_iff)

section Later

variable {target} {f g} {h : Flight ι χ κ}

@[refl] theorem Later.refl (f : Flight ι χ κ) : f.Later f :=
  ⟨rfl, List.prefix_rfl, List.prefix_rfl⟩

theorem Later.trans (hfg : f.Later g) (hgh : g.Later h) : f.Later h :=
  ⟨hgh.base.trans hfg.base, hfg.issued.trans hgh.issued, hfg.history.trans hgh.history⟩

theorem later_issue (f : Flight ι χ κ) (w : Write ι χ κ) : f.Later (f.issue w) :=
  ⟨rfl, List.prefix_append .., List.prefix_rfl⟩

theorem later_deliver (f : Flight ι χ κ) (n : ℕ) (h : n < f.issued.length) :
    f.Later (f.deliver n h) :=
  ⟨rfl, List.prefix_rfl, List.prefix_append ..⟩

theorem later_touch (f : Flight ι χ κ) (change : Memories κ → Memories κ) :
    f.Later (f.touch change) :=
  ⟨rfl, List.prefix_rfl, List.prefix_append ..⟩

theorem Moves.later (h : Moves f g) : f.Later g := by
  cases h with
  | deliver n h => exact later_deliver f n h.1
  | touch change => exact later_touch f change

theorem Moves.issued_eq (h : Moves f g) : g.issued = f.issued := by
  cases h <;> rfl

/-- What has landed stays so. -/
theorem Later.landed (h : f.Later g) {e : Landing κ} (he : e ∈ f.history) : e ∈ g.history :=
  h.history.subset he

theorem Later.getElem? (h : f.Later g) {n : ℕ} {w : Write ι χ κ} (hn : f.issued[n]? = some w) :
    g.issued[n]? = some w := by
  obtain ⟨rest, hrest⟩ := h.issued
  obtain ⟨hlt, -⟩ := List.getElem?_eq_some_iff.mp hn
  rw [← hrest, List.getElem?_append_left hlt]
  exact hn

/-- A channel that was drained up to a mark stays so. -/
theorem Later.drained (h : f.Later g) {i : ι} {channel : χ} {mark : ℕ}
    (hmark : mark ≤ f.issued.length) (hf : f.Drained i channel mark) :
    g.Drained i channel mark := by
  intro n hn w hw hi hc
  -- the write was issued by then, so its number means the same write
  have hlt : n < f.issued.length := Nat.lt_of_lt_of_le hn hmark
  have hold := List.getElem?_eq_getElem hlt
  obtain rfl := Option.some.inj ((h.getElem? hold).symm.trans hw)
  exact h.landed (hf n hn _ hold hi hc)

theorem Drained.mono {i : ι} {channel : χ} {mark mark' : ℕ} (h : f.Drained i channel mark')
    (hle : mark ≤ mark') : f.Drained i channel mark :=
  fun n hn => h n (Nat.lt_of_lt_of_le hn hle)

/-- What was read between two flights was read between an earlier and a later one. -/
theorem Shown.mono {f' g' : Flight ι χ κ} {k a : ℕ} {cells : List κ}
    (h : f'.Shown target g k a cells) (hf : f.Later f') (hg : g.Later g') :
    f.Shown target g' k a cells := by
  intro x hx
  obtain ⟨h', hfirst, hlast, hread⟩ := h x hx
  exact ⟨h', hf.trans hfirst, hlast.trans hg, hread⟩

end Later

/-- A later landing that leaves the cell alone leaves it as it was. -/
theorem foldl_applied_eq {issued : List (Write ι χ κ)} {k a : ℕ} {after : List (Landing κ)}
    (h : ∀ e ∈ after, ∀ m, applied target issued m e k a = m k a) (m : Memories κ) :
    after.foldl (applied target issued) m k a = m k a := by
  induction after generalizing m with
  | nil => rfl
  | cons e after ih =>
    obtain ⟨he, hafter⟩ := List.forall_mem_cons.mp h
    rw [List.foldl_cons, ih hafter, he]

/-- **A write that has landed is seen.** -/
theorem sees_of_landed {n : ℕ} (h : .write n ∈ f.history) (k a : ℕ) :
    f.Sees target n k a (f.memory target k a) where
  landed := h
  read := rfl
  written w before after y hy hn hk ha hhistory hafter := by
    rw [memory, hhistory, List.foldl_append, List.foldl_cons, foldl_applied_eq target hafter]
    simp [applied, hn, hk, ha, Memories.write, hy]

/-- What is there may be read at once. -/
theorem Shown.now {f : Flight ι χ κ} {k a : ℕ} {cells : List κ}
    (h : ∀ x (hx : x < cells.length), cells[x] = f.memory target k (a + x)) :
    f.Shown target f k a cells :=
  fun x hx => ⟨f, .refl f, .refl f, h x hx⟩

/-- What was read after a write had landed was read with the write in place. -/
theorem Shown.seen {f g : Flight ι χ κ} {k a : ℕ} {cells : List κ} (h : f.Shown target g k a cells)
    {n : ℕ} (hn : .write n ∈ f.history) : f.Seen target g n k a cells := by
  intro x hx
  obtain ⟨h', hfirst, hlast, hread⟩ := h x hx
  refine ⟨h', hfirst, hlast, ?_⟩
  rw [hread]
  exact h'.sees_of_landed target (hfirst.landed hn) _ _

end Flight

end OpenShmem
