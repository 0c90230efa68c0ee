import Mathlib.Tactic.Common
import Mathlib.Tactic.Linarith
import Mathlib.Tactic.Ring
import Mathlib.Data.List.Basic
import Mathlib.Logic.Function.Basic

/-!
# Byte memories

A byte memory is a function from offsets to bytes; it stands for one block, for a buffer in memory
or for a whole device read as one array. This file has little-endian numbers (`le`, `leBytes`),
copies into a memory (`memcpy`), slices of it (`slice`), and the view of an array of blocks as one
flat memory (`flat`).
-/

namespace Bytes

/-- A byte memory. -/
abbrev Mem := Nat → UInt8

/-- The little-endian number in the `n` bytes from `off`. -/
def le (m : Mem) : Nat → Nat → Nat
  | _, 0 => 0
  | off, n + 1 => (m off).toNat + 256 * le m (off + 1) n

/-- The `n` low bytes of `v`, least significant first. -/
def leBytes : Nat → Nat → List UInt8
  | 0, _ => []
  | n + 1, v => UInt8.ofNat v :: leBytes n (v / 256)

/-- A list of bytes as a memory, zero past its end. -/
def ofList (l : List UInt8) : Mem := fun i => l.getD i 0

/-- Copy `n` bytes of `src`, from index `c` on, to `off`. -/
def memcpy (m : Mem) (off : Nat) (src : Mem) (c n : Nat) : Mem :=
  fun i => if off ≤ i ∧ i < off + n then src (c + (i - off)) else m i

/-- The `n` bytes from `off`. -/
def slice (m : Mem) (off n : Nat) : List UInt8 :=
  (List.range n).map fun i => m (off + i)

/-- Blocks of `bs` bytes laid end to end. -/
def flat (bs : Nat) (blk : Nat → Mem) : Mem := fun a => blk (a / bs) (a % bs)

/-- The number read depends only on the bytes read. -/
lemma le_congr {m m' : Mem} {n : Nat} : ∀ {off}, (∀ i, off ≤ i → i < off + n → m i = m' i) →
    le m off n = le m' off n := by
  induction n with
  | zero => intro off _; rfl
  | succ n ih =>
    intro off h
    simp only [le]
    rw [h off (by omega) (by omega), ih (fun i h1 h2 => h i (by omega) (by omega))]

/-- Reading at a shifted offset is reading the shifted memory. -/
lemma le_shift (m : Mem) (c : Nat) (n : Nat) :
    ∀ off, le (fun i => m (c + i)) off n = le m (c + off) n := by
  induction n with
  | zero => intro off; rfl
  | succ n ih =>
    intro off
    simp only [le, ih]
    rw [show c + (off + 1) = c + off + 1 by omega]

lemma le_lt (m : Mem) (n : Nat) : ∀ off, le m off n < 256 ^ n := by
  induction n with
  | zero => intro off; simp [le]
  | succ n ih =>
    intro off
    have h1 := ih (off + 1)
    have h2 := (m off).toNat_lt
    simp only [le, pow_succ]
    omega

/-- Zero bytes are the number zero. -/
lemma le_zero (n : Nat) : ∀ off, le (fun _ => 0) off n = 0 := by
  induction n with
  | zero => intro off; rfl
  | succ n ih => intro off; simp [le, ih]

@[simp] lemma leBytes_length (n : Nat) : ∀ v, (leBytes n v).length = n := by
  induction n with
  | zero => intro v; rfl
  | succ n ih => intro v; simp [leBytes, ih]

/-- A number written little-endian anywhere in a list reads back modulo its width. -/
lemma le_ofList_append (n : Nat) : ∀ (pre post : List UInt8) (v : Nat),
    le (ofList (pre ++ leBytes n v ++ post)) pre.length n = v % 256 ^ n := by
  induction n with
  | zero => intro pre post v; simp [le, Nat.mod_one]
  | succ n ih =>
    intro pre post v
    have hhead : ofList (pre ++ leBytes (n + 1) v ++ post) pre.length = UInt8.ofNat v := by
      simp [ofList, leBytes]
    have htail := ih (pre ++ [UInt8.ofNat v]) post (v / 256)
    simp only [List.length_append, List.length_singleton] at htail
    have hassoc : pre ++ leBytes (n + 1) v ++ post
        = pre ++ [UInt8.ofNat v] ++ leBytes n (v / 256) ++ post := by
      simp [leBytes]
    simp only [le]
    rw [hhead, hassoc, htail, UInt8.toNat_ofNat', Nat.pow_succ 256, Nat.mul_comm (256 ^ n) 256,
      Nat.mod_mul]

lemma memcpy_of_mem {m src : Mem} {off c n i : Nat} (h1 : off ≤ i) (h2 : i < off + n) :
    memcpy m off src c n i = src (c + (i - off)) := by
  simp [memcpy, h1, h2]

lemma memcpy_of_not_mem {m src : Mem} {off c n i : Nat} (h : i < off ∨ off + n ≤ i) :
    memcpy m off src c n i = m i := by
  unfold memcpy
  rw [if_neg (by omega)]

@[simp] lemma memcpy_zero (m src : Mem) (off c : Nat) : memcpy m off src c 0 = m := by
  funext i
  exact memcpy_of_not_mem (by omega)

/-- Two copies that continue each other are one copy. -/
lemma memcpy_append (m src : Mem) (off c a b : Nat) :
    memcpy (memcpy m off src c a) (off + a) src (c + a) b = memcpy m off src c (a + b) := by
  funext i
  unfold memcpy
  by_cases h1 : off + a ≤ i ∧ i < off + a + b
  · rw [if_pos h1, if_pos (by omega)]
    congr 1
    omega
  · rw [if_neg h1]
    by_cases h2 : off ≤ i ∧ i < off + a
    · rw [if_pos h2, if_pos (by omega)]
    · rw [if_neg h2, if_neg (by omega)]

/-- A number copied in reads back as it reads in the source. -/
lemma le_memcpy {m s : Mem} {o c n k w : Nat} (h : k + w ≤ n) :
    le (memcpy m o s c n) (o + k) w = le s (c + k) w := by
  rw [← le_shift _ o w k, ← le_shift s c w k]
  apply le_congr
  intro i h1 h2
  rw [memcpy_of_mem (by omega) (by omega)]
  congr 1
  omega

/-- A number outside the copied range is unchanged. -/
lemma le_memcpy_disjoint {m src : Mem} {off c n a w : Nat} (h : a + w ≤ off ∨ off + n ≤ a) :
    le (memcpy m off src c n) a w = le m a w := by
  apply le_congr
  intro i h1 h2
  exact memcpy_of_not_mem (by omega)

/-- Store a little-endian number. -/
def put (m : Mem) (off n v : Nat) : Mem := memcpy m off (ofList (leBytes n v)) 0 n

lemma le_put {m : Mem} {off n v : Nat} (h : v < 256 ^ n) : le (put m off n v) off n = v := by
  have h1 := le_memcpy (m := m) (s := ofList (leBytes n v)) (o := off) (c := 0) (n := n)
    (k := 0) (w := n) (by omega)
  have h2 := le_ofList_append n [] [] v
  simp only [List.nil_append, List.append_nil, List.length_nil] at h2
  rw [Nat.add_zero, Nat.add_zero, h2, Nat.mod_eq_of_lt h] at h1
  exact h1

lemma le_put_disjoint {m : Mem} {off n v a w : Nat} (h : a + w ≤ off ∨ off + n ≤ a) :
    le (put m off n v) a w = le m a w :=
  le_memcpy_disjoint h

/-- Numbers determine their bytes. -/
lemma leBytes_le (m : Mem) (n : Nat) : ∀ off i, i < n →
    (leBytes n (le m off n)).getD i 0 = m (off + i) := by
  induction n with
  | zero => intro off i h; omega
  | succ n ih =>
    intro off i h
    have hlt := (m off).toNat_lt
    simp only [leBytes, le]
    cases i with
    | zero =>
      show UInt8.ofNat ((m off).toNat + 256 * le m (off + 1) n) = m off
      rw [← UInt8.toNat_inj, UInt8.toNat_ofNat']
      omega
    | succ i =>
      rw [List.getD_cons_succ, show ((m off).toNat + 256 * le m (off + 1) n) / 256
        = le m (off + 1) n by omega, ih (off + 1) i (by omega)]
      congr 1
      omega

/-- Storing the number that is there changes nothing. -/
lemma put_le {m : Mem} {off n v : Nat} (h : v = le m off n) : put m off n v = m := by
  funext i
  unfold put
  by_cases hi : off ≤ i ∧ i < off + n
  · rw [memcpy_of_mem hi.1 hi.2, ofList, h, leBytes_le m n off _ (by omega)]
    congr 1
    omega
  · exact memcpy_of_not_mem (by omega)

@[simp] lemma slice_length (m : Mem) (off n : Nat) : (slice m off n).length = n := by
  simp [slice]

lemma slice_congr {m m' : Mem} {off n : Nat} (h : ∀ i, off ≤ i → i < off + n → m i = m' i) :
    slice m off n = slice m' off n := by
  apply List.map_congr_left
  intro i hi
  rw [List.mem_range] at hi
  exact h _ (by omega) (by omega)

lemma slice_add (m : Mem) (off a b : Nat) :
    slice m off (a + b) = slice m off a ++ slice m (off + a) b := by
  simp [slice, List.range_add, Nat.add_assoc, Function.comp_def]

/-- The slice a copy from a list wrote is that part of the list. -/
lemma slice_memcpy_ofList {m : Mem} {l : List UInt8} {o k n : Nat} (h : k + n ≤ l.length) :
    slice (memcpy m o (ofList l) 0 l.length) (o + k) n = (l.drop k).take n := by
  apply List.ext_getElem
  · simp; omega
  · intro i h1 h2
    rw [slice_length] at h1
    simp only [slice, List.getElem_map, List.getElem_range]
    rw [memcpy_of_mem (by omega) (by omega)]
    simp [ofList, show o + k + i - o = k + i by omega,
      List.getElem?_eq_getElem (show k + i < l.length by omega)]

/-- Copying inside one block is copying inside the flat memory. -/
lemma flat_update {bs b off n c : Nat} {blk : Nat → Mem} {src : Mem} (h : off + n ≤ bs) :
    flat bs (Function.update blk b (memcpy (blk b) off src c n))
      = memcpy (flat bs blk) (b * bs + off) src c n := by
  funext a
  rcases Nat.eq_zero_or_pos bs with h0 | h0
  · obtain rfl : n = 0 := by omega
    simp [flat]
  have hdiv := Nat.div_add_mod a bs
  have hmod := Nat.mod_lt a h0
  by_cases hb : a / bs = b
  · subst hb
    have ha : a = a / bs * bs + a % bs := by rw [Nat.mul_comm]; exact hdiv.symm
    simp only [flat, Function.update_self, memcpy]
    by_cases hin : off ≤ a % bs ∧ a % bs < off + n
    · rw [if_pos hin, if_pos (by omega)]
      congr 1
      omega
    · rw [if_neg hin, if_neg (by omega)]
  · rw [memcpy_of_not_mem]
    · simp [flat, Function.update_of_ne hb]
    · rcases Nat.lt_or_gt_of_ne hb with hlt | hlt
      · left
        have := (Nat.div_lt_iff_lt_mul h0).1 hlt
        omega
      · right
        have h2 : (b + 1) * bs ≤ a := (Nat.le_div_iff_mul_le h0).1 hlt
        rw [Nat.add_mul, Nat.one_mul] at h2
        omega

end Bytes
