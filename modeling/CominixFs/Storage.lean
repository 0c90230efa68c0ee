import CominixFs.Device

/-!
# Storage as one array

`write_data_storage` and `read_data_storage` go through the device block by block. Seen as one array
of bytes they are one copy and one slice (`storage_flat`), as far as blocks have 32-bit numbers.
-/

namespace CominixFs
open Bytes

/-- `length` bytes of the device from a byte on, in blocks that have a number. -/
structure InDevice (d : Dev) (storage length : Nat) : Prop where
  pos : 0 < storage
  lt : storage < d.nblocks * d.bs
  fit : storage + length ≤ d.nblocks * d.bs
  lt32 : storage < 2 ^ 32 * d.bs
  fit32 : storage + length ≤ 2 ^ 32 * d.bs

/-- The bytes from `storage` on became those of `src`, no other byte changed, and every block that
changed is dirty. -/
structure Replaced (d d' : Dev) (storage : Nat) (src : Mem) (length : Nat) : Prop where
  bits : d'.s_blocksize_bits = d.s_blocksize_bits
  nblocks : d'.nblocks = d.nblocks
  disk : d'.bh.disk = d.bh.disk
  flat : ∀ a, d'.flat a = if storage ≤ a ∧ a < storage + length then src (a - storage) else d.flat a
  dirty : ∀ b i, i < d.bs → d'.bh.mem b i ≠ d.bh.mem b i → d'.bh.dirty b = true
  kept : ∀ b, d.bh.dirty b = true → d'.bh.dirty b = true

variable {d d' : Dev} {storage length start n : Nat} {src : Mem}

lemma Written.replaced (w : Written d d' (storage / d.bs) storage src 0 length) :
    Replaced d d' storage src length := by
  refine ⟨w.bits, w.nblocks, w.disk, fun a => ?_, fun b i hi hne => ?_, w.dirty_mono⟩
  · rw [w.flat, memcpy, Nat.zero_add]
  · apply w.dirty
    · by_contra hlt
      exact hne (congrFun (w.mem_out b (.inl (by omega))) i)
    · by_contra hout
      push Not at hout
      apply hne
      by_cases hlt : b < storage / d.bs
      · exact congrFun (w.mem_out b (.inl hlt)) i
      · exact congrFun (w.mem_out b (.inr ⟨by omega, hout.2⟩)) i

lemma Replaced.inDevice (h : Replaced d d' storage src length) (hin : InDevice d start n) :
    InDevice d' start n := by
  have hbs : d'.bs = d.bs := by rw [Dev.bs, h.bits, Dev.bs]
  refine ⟨hin.pos, ?_, ?_, ?_, ?_⟩
  · rw [h.nblocks, hbs]
    exact hin.lt
  · rw [h.nblocks, hbs]
    exact hin.fit
  · rw [hbs]
    exact hin.lt32
  · rw [hbs]
    exact hin.fit32

lemma InDevice.read (h : InDevice d start n) :
    read_data_storage d start n = some (slice d.flat start n) :=
  read_data_storage_below h.pos h.lt h.fit h.lt32 h.fit32

/-- Inside the bytes written, a slice is one of the source. -/
lemma Replaced.slice_in (h : Replaced d d' storage src length) (hle : storage ≤ start)
    (hfit : start + n ≤ storage + length) : slice d'.flat start n = slice src (start - storage) n := by
  apply List.map_congr_left
  intro i hi
  rw [List.mem_range] at hi
  rw [h.flat, if_pos ⟨by omega, by omega⟩]
  congr 1
  omega

/-- Apart from the bytes written, a slice is as before. -/
lemma Replaced.slice_out (h : Replaced d d' storage src length)
    (hout : start + n ≤ storage ∨ storage + length ≤ start) :
    slice d'.flat start n = slice d.flat start n := by
  apply slice_congr
  intro a h1 h2
  rw [h.flat, if_neg (by omega)]

/-- Writing is one copy into the flat device, reading one slice of it. -/
theorem storage_flat (data : Option Mem) (h : InDevice d storage length) :
    ∃ d', write_data_storage d storage data length = some d' ∧
      Replaced d d' storage (storage_src data) length ∧
      ∀ start n, InDevice d start n →
        read_data_storage d start n = some (slice d.flat start n) ∧
        read_data_storage d' start n = some (slice d'.flat start n) ∧
        (storage ≤ start → start + n ≤ storage + length →
          read_data_storage d' start n = some (slice (storage_src data) (start - storage) n)) ∧
        (start + n ≤ storage ∨ storage + length ≤ start →
          read_data_storage d' start n = read_data_storage d start n) := by
  obtain ⟨d', hd', w⟩ :=
    write_data_storage_below d storage length data h.pos h.lt h.fit h.lt32 h.fit32
  have hrep := w.replaced
  refine ⟨d', hd', hrep, fun start n hin => ?_⟩
  have hread := (hrep.inDevice hin).read
  refine ⟨hin.read, hread, fun hle hfit => ?_, fun hout => ?_⟩
  · rw [hread, hrep.slice_in hle hfit]
  · rw [hread, hrep.slice_out hout, hin.read]

/-- A device of ones, of one block more than have a number. -/
def large_dev : Dev := ⟨9, 2 ^ 32 + 1, ⟨fun _ _ => 1, fun _ _ => 1, fun _ => false⟩⟩

/-- A zero written at the start of the last block goes to the first byte of the device. -/
theorem storage_not_flat : 2 ^ 41 + 1 ≤ large_dev.nblocks * large_dev.bs ∧
    ∃ d', write_data_storage large_dev (2 ^ 41) none 1 = some d' ∧
      d'.flat (2 ^ 41) = 1 ∧ large_dev.flat 0 = 1 ∧ d'.flat 0 = 0 :=
  ⟨by decide, _, rfl, by decide, by decide, by decide⟩

/-- Three bytes across the end of a block of 512. -/
theorem storage_flat_across : ∃ d',
    write_data_storage ⟨9, 4, ⟨fun _ _ => 0, fun _ _ => 0, fun _ => false⟩⟩ 1022
      (some (ofList [1, 2, 3])) 3 = some d' ∧
    Replaced ⟨9, 4, ⟨fun _ _ => 0, fun _ _ => 0, fun _ => false⟩⟩ d' 1022
      (storage_src (some (ofList [1, 2, 3]))) 3 :=
  have ⟨d', hd', hrep, _⟩ := @storage_flat ⟨9, 4, ⟨fun _ _ => 0, fun _ _ => 0, fun _ => false⟩⟩ 1022 3
    (some (ofList [1, 2, 3])) ⟨by decide, by decide, by decide, by decide, by decide⟩
  ⟨d', hd', hrep⟩

end CominixFs
