import Mathlib.Tactic.Common
import Mathlib.Data.List.Basic
import CominixFs.GearTable

/-!
# The content-defined cutter (`cdc.h`)

`cdc_get_chunk_size` reads a file byte by byte through `kernel_read` and cuts where the masked gear
hash is zero. When no read fails the size is a function of the bytes from the chunk's start to
the end of the file (`cdc_get_chunk_size_eq`), and cutting a file from any boundary on gives the
same chunks whatever lies before (`segments`).
-/

namespace CominixFs

/-- An open file of which the size is the number of its bytes. Its read number `k` fails
(`results k = none`) or, before the end, transfers at least one byte and at most `results k + 1`. -/
structure Filp where
  bytes : List UInt8
  results : Nat → Option Nat

def Filp.i_size (f : Filp) : Nat := f.bytes.length

/-- `kernel_read`: read number `call`, of `count` bytes at `pos`. -/
def kernel_read (f : Filp) (call pos count : Nat) : Option (List UInt8) :=
  (f.results call).map fun m => (f.bytes.drop pos).take (min (m + 1) count)

/-- No read fails. -/
def Filp.NoFail (f : Filp) : Prop := ∀ call, f.results call ≠ none

/-- Every read transfers all the bytes asked for, up to the end of the file. -/
def Filp.Full (f : Filp) : Prop :=
  ∀ call pos count, kernel_read f call pos count = some ((f.bytes.drop pos).take count)

def MaskS : UInt64 := 0x0003590703530000
def MaskL : UInt64 := 0x0003590703530000
def MinSize : Nat := 2 * 1024
def MaxSize : Nat := 64 * 1024
def NormalSize : Nat := 8 * 1024

/-- The locals of `cdc_get_chunk_size`, with the number of reads so far. -/
structure Scan where
  call : Nat
  pos : Nat
  b : UInt8
  fp : UInt64

/-- `kernel_read(filp, &b, 1, &pos)`: a read that fails leaves `b` and `pos`. -/
def Scan.read (f : Filp) (s : Scan) : Scan :=
  match kernel_read f s.call s.pos 1 with
  | some (b :: _) => { s with call := s.call + 1, pos := s.pos + 1, b := b }
  | _ => { s with call := s.call + 1 }

/-- `fp = (fp << 1) + gear_table[b]`. -/
def Scan.roll (s : Scan) : Scan :=
  { s with fp := (s.fp <<< 1) + gear_table.getD s.b.toNat 0 }

/-- One of the two loops, for `n` bytes from `i` on: where it returned, if it did. -/
def cdc_scan (f : Filp) (mask : UInt64) : Nat → Nat → Scan → Option Nat × Scan
  | 0, _, s => (none, s)
  | n + 1, i, s =>
    let s := (s.read f).roll
    if s.fp &&& mask = 0 then (some i, s) else cdc_scan f mask n (i + 1) s

/-- `cdc_get_chunk_size`: the size, and the number of reads so far. -/
def cdc_get_chunk_size (f : Filp) (call pos : Nat) : Nat × Nat :=
  let n := f.i_size - pos
  if n ≤ MinSize then (n, call)
  else
    let normal := if MaxSize ≤ n then NormalSize else min n NormalSize
    let n := min n MaxSize
    match cdc_scan f MaskS (normal - MinSize) MinSize ⟨call, pos + MinSize, 0, 0⟩ with
    | (some i, s) => (i, s.call)
    | (none, s) =>
      match cdc_scan f MaskL (n - normal) normal s with
      | (some i, s) => (i, s.call)
      | (none, s) => (n, s.call)

/-- The scan over the bytes themselves; the two masks are one. -/
def scan_bytes : List UInt8 → Nat → UInt64 → Option Nat × UInt64
  | [], _, fp => (none, fp)
  | b :: bs, i, fp =>
    let fp := (fp <<< 1) + gear_table.getD b.toNat 0
    if fp &&& MaskS = 0 then (some i, fp) else scan_bytes bs (i + 1) fp

/-- The size of the first chunk of these bytes. -/
def cut (rest : List UInt8) : Nat :=
  if rest.length ≤ MinSize then rest.length
  else ((scan_bytes ((rest.take MaxSize).drop MinSize) MinSize 0).1).getD (min rest.length MaxSize)

lemma scan_bytes_append (l l' : List UInt8) : ∀ i fp, scan_bytes (l ++ l') i fp =
    match scan_bytes l i fp with
    | (some j, fp) => (some j, fp)
    | (none, fp) => scan_bytes l' (i + l.length) fp := by
  induction l with
  | nil => intro i fp; rfl
  | cons b l ih =>
    intro i fp
    simp only [List.cons_append, scan_bytes]
    split
    · rfl
    · rw [ih, List.length_cons, Nat.add_assoc, Nat.add_comm 1]

/-- A cut lies among the bytes scanned. -/
lemma scan_bytes_bound (l : List UInt8) : ∀ {i j fp fp'}, scan_bytes l i fp = (some j, fp') →
    i ≤ j ∧ j < i + l.length := by
  induction l with
  | nil => intro i j fp fp' h; cases h
  | cons b l ih =>
    intro i j fp fp' h
    simp only [scan_bytes] at h
    rw [List.length_cons]
    split at h
    · cases h
      omega
    · have := ih h
      omega

lemma cut_bounds {rest : List UInt8} (h : rest ≠ []) :
    0 < cut rest ∧ cut rest ≤ rest.length ∧ cut rest ≤ MaxSize := by
  have hpos := List.length_pos_of_ne_nil h
  unfold cut
  have hmin : MinSize = 2048 := rfl
  have hmax : MaxSize = 65536 := rfl
  by_cases hlen : rest.length ≤ MinSize
  · rw [if_pos hlen]
    omega
  · rw [if_neg hlen]
    rcases hs : scan_bytes ((rest.take MaxSize).drop MinSize) MinSize 0 with ⟨_ | j, fp⟩
    · rw [Option.getD_none]
      omega
    · have := scan_bytes_bound _ hs
      rw [List.length_drop, List.length_take] at this
      rw [Option.getD_some]
      omega

/-- A read of one byte that does not fail is full. -/
lemma Filp.NoFail.byte {f : Filp} (hf : f.NoFail) (call pos : Nat) :
    kernel_read f call pos 1 = some ((f.bytes.drop pos).take 1) := by
  obtain ⟨m, hm⟩ := Option.ne_none_iff_exists'.1 (hf call)
  unfold kernel_read
  rw [hm, Option.map_some, Nat.min_eq_right (Nat.succ_pos m)]

lemma Filp.Full.noFail {f : Filp} (hf : f.Full) : f.NoFail := by
  intro call h
  have := hf call 0 0
  unfold kernel_read at this
  rw [h] at this
  cases this

/-- When no read fails the scan of the file is the scan of its bytes. -/
lemma cdc_scan_eq {f : Filp} (hf : f.NoFail) : ∀ n i s, s.pos + n ≤ f.i_size →
    ∃ s', cdc_scan f MaskS n i s = ((scan_bytes ((f.bytes.drop s.pos).take n) i s.fp).1, s') ∧
      s'.fp = (scan_bytes ((f.bytes.drop s.pos).take n) i s.fp).2 ∧
      ((scan_bytes ((f.bytes.drop s.pos).take n) i s.fp).1 = none → s'.pos = s.pos + n) := by
  intro n
  induction n with
  | zero => intro i s _; exact ⟨s, by simp [cdc_scan, scan_bytes]⟩
  | succ n ih =>
    intro i s hn
    have hlt : s.pos < f.bytes.length := by unfold Filp.i_size at hn; omega
    have hdrop := List.drop_eq_getElem_cons hlt
    have hread : s.read f = { s with call := s.call + 1, pos := s.pos + 1, b := f.bytes[s.pos] } := by
      unfold Scan.read
      rw [hf.byte, hdrop]
      rfl
    simp only [cdc_scan, hread, Scan.roll, hdrop, List.take_succ_cons, scan_bytes]
    split
    · exact ⟨_, rfl, rfl, fun h => by cases h⟩
    · obtain ⟨s', h1, h2, h3⟩ := ih (i + 1) ⟨s.call + 1, s.pos + 1, f.bytes[s.pos],
        (s.fp <<< 1) + gear_table.getD f.bytes[s.pos].toNat 0⟩ (by dsimp only; omega)
      exact ⟨s', h1, h2, fun h => by rw [h3 h]; dsimp only; omega⟩

/-- When no read fails the chunk size depends only on the bytes from its start to the end. -/
theorem cdc_get_chunk_size_eq {f : Filp} (hf : f.NoFail) (call pos : Nat) :
    (cdc_get_chunk_size f call pos).1 = cut (f.bytes.drop pos) := by
  have hmin : MinSize = 2048 := rfl
  have hmax : MaxSize = 65536 := rfl
  have hnorm : NormalSize = 8192 := rfl
  unfold cdc_get_chunk_size cut
  rw [List.length_drop, Filp.i_size]
  by_cases hlen : f.bytes.length - pos ≤ MinSize
  · rw [if_pos hlen]
    simp only [if_pos hlen]
  · rw [if_neg hlen]
    simp only [if_neg hlen]
    generalize hn : min (f.bytes.length - pos) MaxSize = n
    generalize hnormal : (if MaxSize ≤ f.bytes.length - pos then NormalSize
      else min (f.bytes.length - pos) NormalSize) = normal
    have hle : MinSize ≤ normal ∧ normal ≤ n := by
      rw [← hnormal]
      split <;> omega
    have hsplit : ((f.bytes.drop pos).take MaxSize).drop MinSize
        = (f.bytes.drop (pos + MinSize)).take (normal - MinSize)
          ++ (f.bytes.drop (pos + MinSize + (normal - MinSize))).take (n - normal) := by
      rw [← List.drop_drop (i := normal - MinSize), ← List.take_add, List.drop_take, List.drop_drop]
      apply List.take_eq_take_iff.2
      rw [List.length_drop]
      omega
    have hL : MaskL = MaskS := rfl
    obtain ⟨s₁, h1, h2, h3⟩ := cdc_scan_eq hf (normal - MinSize) MinSize
      ⟨call, pos + MinSize, 0, 0⟩ (by unfold Filp.i_size; dsimp only; omega)
    rw [h1, hsplit, scan_bytes_append]
    dsimp only at h2 h3 ⊢
    rcases hs : scan_bytes ((f.bytes.drop (pos + MinSize)).take (normal - MinSize)) MinSize 0 with
      ⟨_ | j, fp⟩
    · rw [hs] at h2 h3
      obtain ⟨s₂, h4, -, -⟩ := cdc_scan_eq hf (n - normal) normal s₁
        (by rw [h3 rfl]; unfold Filp.i_size; omega)
      have hpos := h3 rfl
      dsimp only at h2 hpos ⊢
      rw [hL, h4, hpos, h2, List.length_take, List.length_drop,
        show MinSize + min (normal - MinSize) (f.bytes.length - (pos + MinSize)) = normal by omega]
      rcases scan_bytes ((f.bytes.drop (pos + MinSize + (normal - MinSize))).take (n - normal))
        normal fp with ⟨_ | j, fp'⟩ <;> rfl
    · rfl

/-- The scan stops inside its range. -/
lemma cdc_scan_bound {f : Filp} {mask : UInt64} : ∀ {n i s j s'},
    cdc_scan f mask n i s = (some j, s') → i ≤ j ∧ j < i + n := by
  intro n
  induction n with
  | zero => intro i s j s' h; cases h
  | succ n ih =>
    intro i s j s' h
    simp only [cdc_scan] at h
    split at h
    · cases h
      omega
    · have := ih h
      omega

/-- Before the end a chunk is not empty and not longer than `MaxSize` or the rest of the file,
whatever the reads return. -/
lemma cdc_get_chunk_size_bounds {f : Filp} {pos : Nat} (call : Nat) (h : pos < f.i_size) :
    0 < (cdc_get_chunk_size f call pos).1 ∧ (cdc_get_chunk_size f call pos).1 ≤ MaxSize ∧
      pos + (cdc_get_chunk_size f call pos).1 ≤ f.i_size := by
  have hmin : MinSize = 2048 := rfl
  have hmax : MaxSize = 65536 := rfl
  have hnorm : NormalSize = 8192 := rfl
  unfold cdc_get_chunk_size
  generalize hn : f.i_size - pos = n
  by_cases hlen : n ≤ MinSize
  · simp only [if_pos hlen]
    omega
  · simp only [if_neg hlen]
    generalize hnormal : (if MaxSize ≤ n then NormalSize else min n NormalSize) = normal
    have hle : MinSize ≤ normal ∧ normal ≤ min n MaxSize := by
      rw [← hnormal]
      split <;> omega
    have hm : min n MaxSize ≤ n ∧ min n MaxSize ≤ MaxSize := ⟨Nat.min_le_left _ _, Nat.min_le_right _ _⟩
    generalize min n MaxSize = m at *
    rcases h1 : cdc_scan f MaskS (normal - MinSize) MinSize ⟨call, pos + MinSize, 0, 0⟩ with
      ⟨_ | i, s⟩
    · dsimp only
      rcases h2 : cdc_scan f MaskL (m - normal) normal s with ⟨_ | j, s'⟩
      · dsimp only
        omega
      · have := cdc_scan_bound h2
        dsimp only
        omega
    · have := cdc_scan_bound h1
      dsimp only
      omega

/-- The chunks of these bytes, for at most `n` of them. -/
def cutAll : Nat → List UInt8 → List (List UInt8)
  | 0, _ => []
  | n + 1, rest =>
    if rest = [] then [] else rest.take (cut rest) :: cutAll n (rest.drop (cut rest))

/-- The chunks of these bytes. -/
def segments (rest : List UInt8) : List (List UInt8) := cutAll rest.length rest

lemma cutAll_eq : ∀ {n} {rest : List UInt8}, rest.length ≤ n → cutAll n rest = segments rest := by
  have key : ∀ n m (rest : List UInt8), rest.length ≤ n → rest.length ≤ m →
      cutAll n rest = cutAll m rest := by
    intro n
    induction n with
    | zero =>
      intro m rest hn _
      obtain rfl : rest = [] := List.length_eq_zero_iff.1 (by omega)
      cases m <;> rfl
    | succ n ih =>
      intro m rest hn hm
      cases m with
      | zero =>
        obtain rfl : rest = [] := List.length_eq_zero_iff.1 (by omega)
        rfl
      | succ m =>
        simp only [cutAll]
        by_cases h : rest = []
        · rw [if_pos h, if_pos h]
        · have := (cut_bounds h).1
          have hpos := List.length_pos_of_ne_nil h
          rw [if_neg h, if_neg h, ih m _ (by rw [List.length_drop]; omega)
            (by rw [List.length_drop]; omega)]
  exact fun {n rest} h => key n _ rest h (Nat.le_refl _)

@[simp] lemma segments_nil : segments [] = [] := rfl

lemma segments_cons {rest : List UInt8} (h : rest ≠ []) :
    segments rest = rest.take (cut rest) :: segments (rest.drop (cut rest)) := by
  have hpos := List.length_pos_of_ne_nil h
  have := (cut_bounds h).1
  rw [← @cutAll_eq (rest.length - 1) (rest.drop (cut rest))
    (by rw [List.length_drop]; omega), segments]
  conv_lhs => rw [show rest.length = rest.length - 1 + 1 by omega]
  rw [cutAll, if_neg h]

end CominixFs
