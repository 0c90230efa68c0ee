import Mathlib.Algebra.Ring.Nat
import CominixFs.Cdc

/-!
# Where the cutter cuts

The size of a chunk is the least index at which the fingerprint of the bytes read so far has no bit
of the mask set (`cut_spec`), so the cutter partitions every file (`cutter_partitions`).
-/

namespace CominixFs

/-- The rolling fingerprint: one byte more. -/
def roll (fp : UInt64) (b : UInt8) : UInt64 := (fp <<< 1) + gear_table.getD b.toNat 0

/-- The fingerprint of these bytes. -/
def fingerprint (bytes : List UInt8) : UInt64 := bytes.foldl roll 0

/-- The fingerprint of bytes `MinSize` to `i` of what is left of a file has no bit of the mask. -/
def CutsAt (rest : List UInt8) (i : Nat) : Prop :=
  fingerprint ((rest.drop MinSize).take (i - MinSize + 1)) &&& MaskS = 0

/-- The scan stops at the first byte at which the fingerprint has no bit of the mask. -/
lemma scan_bytes_least (l : List UInt8) : ∀ i fp,
    (∀ j, (scan_bytes l i fp).1 = some j →
      i ≤ j ∧ j < i + l.length ∧ (l.take (j - i + 1)).foldl roll fp &&& MaskS = 0 ∧
        ∀ k, i ≤ k → k < j → (l.take (k - i + 1)).foldl roll fp &&& MaskS ≠ 0) ∧
    ((scan_bytes l i fp).1 = none →
      ∀ k, i ≤ k → k < i + l.length → (l.take (k - i + 1)).foldl roll fp &&& MaskS ≠ 0) := by
  induction l with
  | nil =>
    intro i fp
    refine ⟨fun j h => (by cases h), fun _ k h1 h2 => ?_⟩
    rw [List.length_nil] at h2
    omega
  | cons b l ih =>
    intro i fp
    have hstep : ∀ k, i < k → (((b :: l).take (k - i + 1)).foldl roll fp)
        = (l.take (k - (i + 1) + 1)).foldl roll (roll fp b) := by
      intro k hk
      rw [show k - i + 1 = (k - (i + 1) + 1) + 1 by omega, List.take_succ_cons, List.foldl_cons]
    have hfirst : ((b :: l).take (i - i + 1)).foldl roll fp = roll fp b := by
      rw [Nat.sub_self]
      rfl
    have hscan : scan_bytes (b :: l) i fp = if roll fp b &&& MaskS = 0 then (some i, roll fp b)
        else scan_bytes l (i + 1) (roll fp b) := rfl
    rw [hscan, List.length_cons]
    by_cases hcut : roll fp b &&& MaskS = 0
    · rw [if_pos hcut]
      refine ⟨fun j h => ?_, fun h => by cases h⟩
      cases h
      exact ⟨Nat.le_refl _, by omega, by rw [hfirst]; exact hcut, fun k h1 h2 => by omega⟩
    · rw [if_neg hcut]
      obtain ⟨h1, h2⟩ := ih (i + 1) (roll fp b)
      refine ⟨fun j h => ?_, fun h k hk1 hk2 => ?_⟩
      · obtain ⟨h3, h4, h5, h6⟩ := h1 j h
        refine ⟨by omega, by omega, by rw [hstep j (by omega)]; exact h5, fun k hk1 hk2 => ?_⟩
        rcases Nat.lt_or_eq_of_le hk1 with hlt | rfl
        · rw [hstep k hlt]
          exact h6 k hlt hk2
        · rw [hfirst]
          exact hcut
      · rcases Nat.lt_or_eq_of_le hk1 with hlt | rfl
        · rw [hstep k hlt]
          exact h2 h k hlt (by omega)
        · rw [hfirst]
          exact hcut

/-- The first chunk of a file longer than `MinSize` ends at the first cut, or at the end or after
`MaxSize` bytes when there is none. -/
lemma cut_spec {rest : List UInt8} (h : MinSize < rest.length) :
    (MinSize ≤ cut rest ∧ cut rest < min rest.length MaxSize ∧ CutsAt rest (cut rest) ∨
      cut rest = min rest.length MaxSize) ∧
    ∀ i, MinSize ≤ i → i < cut rest → ¬ CutsAt rest i := by
  have hmin : MinSize = 2048 := rfl
  have hmax : MaxSize = 65536 := rfl
  have hlen : ((rest.take MaxSize).drop MinSize).length = min rest.length MaxSize - MinSize := by
    rw [List.length_drop, List.length_take, Nat.min_comm]
  -- up to `MaxSize` the bytes scanned are those of the file
  have htake : ∀ i, MinSize ≤ i → i < min rest.length MaxSize →
      ((rest.take MaxSize).drop MinSize).take (i - MinSize + 1)
        = (rest.drop MinSize).take (i - MinSize + 1) := by
    intro i h1 h2
    rw [List.drop_take, List.take_take, Nat.min_eq_left (by omega)]
  obtain ⟨hsome, hnone⟩ := scan_bytes_least ((rest.take MaxSize).drop MinSize) MinSize 0
  unfold cut
  rw [if_neg (by omega)]
  cases hs : (scan_bytes ((rest.take MaxSize).drop MinSize) MinSize 0).1 with
  | some j =>
    obtain ⟨h1, h2, h3, h4⟩ := hsome j hs
    rw [htake j h1 (by omega)] at h3
    refine ⟨.inl ⟨h1, by rw [Option.getD_some]; omega, h3⟩, fun i hi hlt hcut => ?_⟩
    rw [Option.getD_some] at hlt
    have := h4 i hi hlt
    rw [htake i hi (by omega)] at this
    exact this hcut
  | none =>
    refine ⟨.inr rfl, fun i hi hlt hcut => ?_⟩
    rw [Option.getD_none] at hlt
    have := hnone hs i hi (by omega)
    rw [htake i hi hlt] at this
    exact this hcut

/-- The sizes the chunk loop gets from a position on; `call` is the number of reads before the
chunk at a position. -/
def chunk_sizes (f : Filp) (call : Nat → Nat) : Nat → Nat → Option (List Nat)
  | 0, _ => none
  | fuel + 1, pos =>
    if pos < f.i_size then
      let size := (cdc_get_chunk_size f (call pos) pos).1
      (chunk_sizes f call fuel (pos + size)).map (size :: ·)
    else some []

/-- A file cut into chunks: what their sizes are. -/
structure CutInto (total : Nat) (sizes : List Nat) : Prop where
  sum : sizes.sum = total
  pos : ∀ s ∈ sizes, 0 < s ∧ s ≤ MaxSize
  min : ∀ s ∈ sizes.dropLast, MinSize ≤ s

lemma chunk_sizes_spec {f : Filp} (hf : f.NoFail) (call : Nat → Nat) : ∀ {fuel pos},
    pos ≤ f.i_size → f.i_size - pos < fuel →
      ∃ sizes, chunk_sizes f call fuel pos = some sizes ∧ CutInto (f.i_size - pos) sizes := by
  intro fuel
  induction fuel with
  | zero => intro pos _ h; omega
  | succ fuel ih =>
    intro pos hle hfuel
    simp only [chunk_sizes]
    by_cases hlt : pos < f.i_size
    · rw [if_pos hlt]
      obtain ⟨h1, h2, h3⟩ := cdc_get_chunk_size_bounds (call pos) hlt
      have hcut := cdc_get_chunk_size_eq hf (call pos) pos
      generalize (cdc_get_chunk_size f (call pos) pos).1 = size at *
      obtain ⟨sizes, hsizes, p⟩ := @ih (pos + size) h3 (by omega)
      refine ⟨size :: sizes, by rw [hsizes]; rfl, ?_, List.forall_mem_cons.2 ⟨⟨h1, h2⟩, p.pos⟩, ?_⟩
      · rw [List.sum_cons, p.sum]
        omega
      · cases sizes with
        | nil => simp
        | cons s sizes =>
          -- a chunk below `MinSize` is the rest of the file
          refine List.forall_mem_cons.2 ⟨?_, p.min⟩
          have hsum := p.sum
          have hs := (p.pos s List.mem_cons_self).1
          rw [List.sum_cons] at hsum
          have hlen : (f.bytes.drop pos).length = f.i_size - pos := List.length_drop
          by_cases hshort : (f.bytes.drop pos).length ≤ MinSize
          · rw [cut, if_pos hshort] at hcut
            omega
          · have hmin : MinSize = 2048 := rfl
            have hmax : MaxSize = 65536 := rfl
            rcases (cut_spec (Nat.not_le.1 hshort)).1 with ⟨h4, -, -⟩ | h4
            · omega
            · omega
    · rw [if_neg hlt]
      exact ⟨[], rfl, by rw [List.sum_nil]; omega, by simp, by simp⟩

/-- The cutter returns the least index that cuts, and its chunks partition every file. -/
theorem cutter_partitions {f : Filp} (hf : f.NoFail) :
    (∀ call pos, pos < f.i_size →
      (f.i_size - pos ≤ 2048 → (cdc_get_chunk_size f call pos).1 = f.i_size - pos) ∧
      (2048 < f.i_size - pos →
        (2048 ≤ (cdc_get_chunk_size f call pos).1 ∧
            (cdc_get_chunk_size f call pos).1 < min (f.i_size - pos) 65536 ∧
            CutsAt (f.bytes.drop pos) (cdc_get_chunk_size f call pos).1 ∨
          (cdc_get_chunk_size f call pos).1 = min (f.i_size - pos) 65536) ∧
        ∀ i, 2048 ≤ i → i < (cdc_get_chunk_size f call pos).1 → ¬ CutsAt (f.bytes.drop pos) i)) ∧
    ∀ call, ∃ sizes, chunk_sizes f call (f.i_size + 1) 0 = some sizes ∧ CutInto f.i_size sizes := by
  refine ⟨fun call pos _ => ?_, fun call => chunk_sizes_spec hf call (Nat.zero_le _) (by omega)⟩
  have hlen : (f.bytes.drop pos).length = f.i_size - pos := List.length_drop
  rw [cdc_get_chunk_size_eq hf, ← hlen]
  exact ⟨fun h => if_pos h, fun h => cut_spec h⟩

/-- Zeros, and sevens of which one cuts. -/
def seven_file : Filp := ⟨List.replicate 2100 0 ++ List.replicate 60 7, fun _ => some 0⟩

lemma seven_file_noFail : seven_file.NoFail := fun _ => Option.some_ne_none 0

lemma seven_file_size : seven_file.i_size = 2160 := by
  unfold Filp.i_size seven_file
  rw [List.length_append, List.length_replicate, List.length_replicate]

/-- The first chunk ends where the content cuts, before the limit. -/
theorem cutter_partitions_sevens : (cdc_get_chunk_size seven_file 0 0).1 = 2114 ∧
    CutsAt seven_file.bytes 2114 ∧ (∀ i, 2048 ≤ i → i < 2114 → ¬ CutsAt seven_file.bytes i) ∧
    ∃ sizes, chunk_sizes seven_file (fun _ => 0) 2161 0 = some sizes ∧ CutInto 2160 sizes := by
  obtain ⟨hcut, hsizes⟩ := cutter_partitions seven_file_noFail
  have hsize : (cdc_get_chunk_size seven_file 0 0).1 = 2114 := by
    rw [cdc_get_chunk_size_eq seven_file_noFail]
    decide +kernel
  have hlen := seven_file_size
  obtain ⟨hend, hleast⟩ := (hcut 0 0 (by omega)).2 (by omega)
  rw [hsize, hlen] at hend
  rw [hsize] at hleast
  rw [hlen] at hsizes
  refine ⟨hsize, ?_, hleast, hsizes fun _ => 0⟩
  rcases hend with ⟨-, -, hat⟩ | hlimit
  · exact hat
  · exact absurd hlimit (by decide)

end CominixFs
