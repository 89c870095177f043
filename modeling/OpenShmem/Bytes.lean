import Mathlib.Data.Nat.Digits.Defs
import Mathlib.Data.Nat.Digits.Lemmas
import Mathlib.Tactic.Common
import Mathlib.Tactic.Ring

/-!
# Fixed-width bytes and exact chunks

A library. `leBytes n v` is the `n` bytes of `v`, least significant first, and
`Nat.ofDigits 256` reads them back. `chunksExact k` cuts a list into pieces of
length `k` and drops what is left over, as the slice method of that name does.
-/

namespace OpenShmem

/-! ## Bytes of a number -/

/-- The `n` lowest bytes of `v`, least significant first. -/
def leBytes : ℕ → ℕ → List UInt8
  | 0, _ => []
  | n + 1, v => UInt8.ofNat v :: leBytes n (v / 256)

/-- The number with these bytes, least significant first. -/
def ofLeBytes (bytes : List UInt8) : ℕ := Nat.ofDigits 256 (bytes.map UInt8.toNat)

@[simp] theorem length_leBytes (n v : ℕ) : (leBytes n v).length = n := by
  induction n generalizing v with
  | zero => rfl
  | succ n ih => rw [leBytes, List.length_cons, ih]

theorem ofLeBytes_cons (b : UInt8) (bs : List UInt8) :
    ofLeBytes (b :: bs) = b.toNat + 256 * ofLeBytes bs := by
  rw [ofLeBytes, List.map_cons, Nat.ofDigits_cons]
  rfl

theorem ofLeBytes_lt (bytes : List UInt8) : ofLeBytes bytes < 256 ^ bytes.length := by
  have hdigit : ∀ d ∈ bytes.map UInt8.toNat, d < 256 := by
    intro d hd
    obtain ⟨b, -, rfl⟩ := List.mem_map.mp hd
    exact b.toNat_lt
  have hlt := Nat.ofDigits_lt_base_pow_length (by decide : 1 < 256) hdigit
  rwa [List.length_map] at hlt

/-- Reading back `n` bytes gives the number, up to what `n` bytes can hold. -/
theorem ofLeBytes_leBytes (n v : ℕ) : ofLeBytes (leBytes n v) = v % 256 ^ n := by
  induction n generalizing v with
  | zero => rw [pow_zero, Nat.mod_one]; rfl
  | succ n ih =>
    have hbyte : (UInt8.ofNat v).toNat = v % 256 := UInt8.toNat_ofNat'
    rw [leBytes, ofLeBytes_cons, ih, hbyte, pow_succ', Nat.mod_mul]

/-- Bytes are determined by the number they spell. -/
theorem leBytes_ofLeBytes (bytes : List UInt8) : leBytes bytes.length (ofLeBytes bytes) = bytes := by
  induction bytes with
  | nil => rfl
  | cons b bs ih =>
    have hb : b.toNat < 256 := b.toNat_lt
    have hhead : UInt8.ofNat (b.toNat + 256 * ofLeBytes bs) = b := by
      apply UInt8.toNat_inj.mp
      rw [UInt8.toNat_ofNat', Nat.add_mul_mod_self_left, Nat.mod_eq_of_lt hb]
    have htail : (b.toNat + 256 * ofLeBytes bs) / 256 = ofLeBytes bs := by
      rw [Nat.add_mul_div_left _ _ (by decide), Nat.div_eq_of_lt hb, Nat.zero_add]
    rw [List.length_cons, leBytes, ofLeBytes_cons, hhead, htail, ih]

/-! ## Exact chunks -/

section Chunks

variable {α β : Type} {k : ℕ} {l : List α}

/-- `chunks_exact(k)`, for `0 < k`: the pieces `[i * k, i * k + k)` that fit. -/
def chunksExact (k : ℕ) (l : List α) : List (List α) :=
  (List.range (l.length / k)).map fun i => (l.drop (i * k)).take k

theorem length_of_mem_chunksExact {c : List α} (hc : c ∈ chunksExact k l) : c.length = k := by
  obtain ⟨i, hi, rfl⟩ := List.mem_map.mp hc
  have hfit : (i + 1) * k ≤ l.length :=
    (Nat.mul_le_mul_right k (List.mem_range.mp hi)).trans (Nat.div_mul_le_self _ _)
  rw [Nat.add_one_mul] at hfit
  rw [List.length_take, List.length_drop]
  omega

@[simp] theorem chunksExact_nil : chunksExact k ([] : List α) = [] := by
  simp [chunksExact]

/-- The first chunk is cut off the front. -/
theorem chunksExact_append {a : List α} (hk : 0 < k) (ha : a.length = k) (l : List α) :
    chunksExact k (a ++ l) = a :: chunksExact k l := by
  have hcount : (a ++ l).length / k = l.length / k + 1 := by
    rw [List.length_append, ha, Nat.add_div_left _ hk]
  rw [chunksExact, hcount, List.range_succ_eq_map, List.map_cons, List.map_map]
  congr 1
  · rw [Nat.zero_mul, List.drop_zero, ← ha, List.take_left']
    exact rfl
  · apply List.map_congr_left
    intro i _
    have hdrop : (i + 1) * k = a.length + i * k := by
      rw [ha, Nat.add_one_mul, Nat.add_comm]
    rw [Function.comp_apply, Nat.succ_eq_add_one, hdrop, List.drop_length_add_append]

/-- Chunks of equal length come back. -/
theorem chunksExact_flatten (hk : 0 < k) {cs : List (List α)} (hcs : ∀ c ∈ cs, c.length = k) :
    chunksExact k cs.flatten = cs := by
  induction cs with
  | nil => exact chunksExact_nil
  | cons c cs ih =>
    obtain ⟨hc, hrest⟩ := List.forall_mem_cons.mp hcs
    rw [List.flatten_cons, chunksExact_append hk hc, ih hrest]

/-- Nothing is dropped when `k` divides the length. -/
theorem flatten_chunksExact (hk : 0 < k) (hl : k ∣ l.length) : (chunksExact k l).flatten = l := by
  obtain ⟨n, hn⟩ := hl
  induction n generalizing l with
  | zero =>
    obtain rfl := List.length_eq_zero_iff.mp hn
    simp
  | succ n ih =>
    have hle : k ≤ l.length := by
      rw [hn]
      exact Nat.le_mul_of_pos_right k n.succ_pos
    have hfront : (l.take k).length = k := by
      rw [List.length_take, Nat.min_eq_left hle]
    have hrest : (l.drop k).length = k * n := by
      rw [List.length_drop, hn, Nat.mul_succ, Nat.add_sub_cancel]
    have hcut := chunksExact_append hk hfront (l.drop k)
    rw [List.take_append_drop] at hcut
    rw [hcut, List.flatten_cons, ih hrest, List.take_append_drop]

/-- What is left over is never looked at. -/
theorem chunksExact_take (hk : 0 < k) :
    chunksExact k (l.take (l.length / k * k)) = chunksExact k l := by
  have hlen : (l.take (l.length / k * k)).length = l.length / k * k := by
    rw [List.length_take, Nat.min_eq_left (Nat.div_mul_le_self _ _)]
  rw [chunksExact, hlen, Nat.mul_div_cancel _ hk, chunksExact]
  apply List.map_congr_left
  intro i hi
  have hfit : (i + 1) * k ≤ l.length / k * k := Nat.mul_le_mul_right k (List.mem_range.mp hi)
  rw [Nat.add_one_mul] at hfit
  rw [List.drop_take, List.take_take, Nat.min_eq_left (by omega)]

/-- Chunks are the pieces found at multiples of `k`. -/
theorem chunksExact_eq_ofFn {n : ℕ} {f : Fin n → List α} (hk : 0 < k) (hl : l.length = n * k)
    (h : ∀ i : Fin n, (l.drop (i * k)).take k = f i) : chunksExact k l = List.ofFn f := by
  have hcount : l.length / k = n := by rw [hl, Nat.mul_div_cancel _ hk]
  apply List.ext_getElem
  · rw [chunksExact, List.length_map, List.length_range, hcount, List.length_ofFn]
  · intro i hi hi'
    rw [List.length_ofFn] at hi'
    simp only [chunksExact, List.getElem_map, List.getElem_range, List.getElem_ofFn]
    exact h ⟨i, hi'⟩

/-- Cutting twice is cutting once: into pieces of length `m * k`, and those into
pieces of length `k`. -/
theorem flatMap_chunksExact {m n : ℕ} (hk : 0 < k) (hm : 0 < m) (hl : l.length = n * (m * k)) :
    (chunksExact (m * k) l).flatMap (chunksExact k) = chunksExact k l := by
  have hmk : 0 < m * k := Nat.mul_pos hm hk
  have houter : (chunksExact (m * k) l).flatten = l :=
    flatten_chunksExact hmk ⟨n, by rw [hl, Nat.mul_comm]⟩
  -- both sides are lists of pieces of length k with the same concatenation
  have hpieces : ∀ c ∈ (chunksExact (m * k) l).flatMap (chunksExact k), c.length = k := by
    intro c hc
    obtain ⟨big, -, hsmall⟩ := List.mem_flatMap.mp hc
    exact length_of_mem_chunksExact hsmall
  have hjoin : ((chunksExact (m * k) l).flatMap (chunksExact k)).flatten = l := by
    rw [List.flatMap_def, List.flatten_flatten]
    have hinner : (chunksExact (m * k) l).map (fun c => (chunksExact k c).flatten) =
        (chunksExact (m * k) l).map id := by
      apply List.map_congr_left
      intro c hc
      exact flatten_chunksExact hk ⟨m, by rw [length_of_mem_chunksExact hc, Nat.mul_comm]⟩
    rw [List.map_map]
    exact (congrArg List.flatten hinner).trans (by rw [List.map_id, houter])
  calc (chunksExact (m * k) l).flatMap (chunksExact k)
      = chunksExact k ((chunksExact (m * k) l).flatMap (chunksExact k)).flatten :=
        (chunksExact_flatten hk hpieces).symm
    _ = chunksExact k l := by rw [hjoin]

example : chunksExact 2 [1, 2, 3, 4, 5] = [[1, 2], [3, 4]] := by decide

end Chunks

end OpenShmem
