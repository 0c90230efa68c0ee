import Mathlib.Algebra.GroupWithZero.Nat
import Mathlib.Data.Nat.Count
import CominixFs.Lib.Buffers

/-!
# Bitmaps in buffers

A bitmap cut into buffers of `w` bits each, and the scan for its first zero bit. A bit is addressed
by its number in the whole map (`bitAt`).
-/

namespace Bitmap

/-- The scan from bit `j` on, for at most `n` bits. -/
def scan (f : Nat → Bool) : Nat → Nat → Nat
  | 0, j => j
  | n + 1, j => if f j then scan f n (j + 1) else j

/-- The first zero bit below `size`, or `size`. -/
def find_first_zero_bit (f : Nat → Bool) (size : Nat) : Nat := scan f size 0

lemma scan_spec (f : Nat → Bool) : ∀ n j, j ≤ scan f n j ∧ scan f n j ≤ j + n ∧
    (∀ i, j ≤ i → i < scan f n j → f i = true) ∧ (scan f n j < j + n → f (scan f n j) = false) := by
  intro n
  induction n with
  | zero => intro j; simp only [scan]; exact ⟨Nat.le_refl _, Nat.le_refl _, by omega, by omega⟩
  | succ n ih =>
    intro j
    simp only [scan]
    cases hf : f j with
    | false =>
      rw [if_neg Bool.false_ne_true]
      exact ⟨Nat.le_refl _, by omega, by omega, fun _ => hf⟩
    | true =>
      obtain ⟨h1, h2, h3, h4⟩ := ih (j + 1)
      rw [if_pos rfl]
      refine ⟨by omega, by omega, ?_, fun h => h4 (by omega)⟩
      intro i hi hlt
      by_cases he : i = j
      · rw [he, hf]
      · exact h3 i (by omega) hlt

/-- The scan stops at the first zero bit. -/
lemma find_first_zero_bit_spec (f : Nat → Bool) (size : Nat) :
    find_first_zero_bit f size ≤ size ∧ (∀ i < find_first_zero_bit f size, f i = true) ∧
      (find_first_zero_bit f size < size → f (find_first_zero_bit f size) = false) := by
  obtain ⟨-, h2, h3, h4⟩ := scan_spec f size 0
  rw [Nat.zero_add] at h2 h4
  exact ⟨h2, fun i hi => h3 i (Nat.zero_le _) hi, h4⟩

/-- Bit `n` of the whole map. -/
def bitAt (c : Buffers (Nat → Bool)) (w n : Nat) : Bool := c.mem (n / w) (n % w)

/-- The number of zero bits below `n`. -/
def zeros (f : Nat → Bool) (n : Nat) : Nat := Nat.count (fun k => f k = false) n

lemma zeros_congr {f g : Nat → Bool} {n : Nat} (h : ∀ k < n, f k = g k) : zeros f n = zeros g n := by
  unfold zeros
  rw [Nat.count_eq_card_filter_range, Nat.count_eq_card_filter_range]
  congr 1
  apply Finset.filter_congr
  intro k hk
  rw [h k (Finset.mem_range.1 hk)]

/-- The zero bits of `m` pieces of `w` bits are those of the whole. -/
lemma sum_zeros (f : Nat → Bool) (w m : Nat) :
    ((List.range m).map fun i => zeros (fun k => f (i * w + k)) w).sum = zeros f (m * w) := by
  induction m with
  | zero => simp [zeros]
  | succ m ih =>
    rw [List.range_succ, List.map_append, List.sum_append, ih, Nat.succ_mul]
    unfold zeros
    rw [Nat.count_add]
    simp

/-- The zero bits of the buffers are those of the whole map. -/
lemma sum_zeros_bitAt (c : Buffers (Nat → Bool)) {w : Nat} (hw : 0 < w) (m : Nat) :
    ((List.range m).map fun i => zeros (c.mem i) w).sum = zeros (bitAt c w) (m * w) := by
  rw [← sum_zeros]
  congr 1
  apply List.map_congr_left
  intro i _
  apply zeros_congr
  intro k hk
  rw [bitAt, Nat.mul_comm, Nat.mul_add_div hw, Nat.div_eq_of_lt hk, Nat.mul_add_mod,
    Nat.mod_eq_of_lt hk, Nat.add_zero]

/-- What is not set is zero. -/
lemma zeros_eq (f : Nat → Bool) (n : Nat) : n - Nat.count (fun k => f k = true) n = zeros f n := by
  have hsum : Nat.count (fun k => f k = true) n + zeros f n = n := by
    unfold zeros
    induction n with
    | zero => rfl
    | succ n ih =>
      rw [Nat.count_succ, Nat.count_succ]
      cases f n with
      | false => simp; omega
      | true => simp; omega
  omega

/-- Write bit `j` of buffer `i` and mark the buffer. -/
def assign (c : Buffers (Nat → Bool)) (i j : Nat) (b : Bool) : Buffers (Nat → Bool) :=
  (c.set i (Function.update (c.mem i) j b)).mark i

lemma bitAt_assign {c : Buffers (Nat → Bool)} {w i j n : Nat} {b : Bool} (hj : j < w) :
    bitAt (assign c i j b) w n = if n = i * w + j then b else bitAt c w n := by
  have hdm := Nat.div_add_mod' n w
  have hmod := Nat.mod_lt n (by omega : 0 < w)
  unfold bitAt assign
  rw [Buffers.mark_mem]
  by_cases hi : n / w = i
  · rw [hi, Buffers.set_mem_self]
    by_cases hm : n % w = j
    · rw [hm, Function.update_self, if_pos (by rw [← hdm, hi, hm])]
    · rw [Function.update_of_ne hm, if_neg fun e => hm (by rw [← hi] at e; omega)]
  · rw [Buffers.set_mem_of_ne _ _ hi, if_neg]
    intro e
    apply hi
    rw [e, Nat.mul_comm, Nat.mul_add_div (by omega), Nat.div_eq_of_lt hj, Nat.add_zero]

lemma assign_covered {c : Buffers (Nat → Bool)} {i j k : Nat} {b : Bool} (h : c.Covered k) :
    (assign c i j b).Covered k := by
  by_cases hk : k = i
  · subst hk
    exact .inl (by simp [assign])
  · exact h.congr (Buffers.set_mem_of_ne _ _ hk) rfl fun hd => Buffers.mark_dirty_of_dirty _ hd

end Bitmap
