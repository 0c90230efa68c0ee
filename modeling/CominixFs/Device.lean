import CominixFs.Lib.Buffers
import CominixFs.Lib.Bytes

/-!
# The block device under a mount

What the driver uses of the buffer layer: `sb_bread`, writes into `bh->b_data` and
`mark_buffer_dirty`, and the byte-offset access to storage of `chunk_handler.c`
(`load_blockoff`, `write_data_storage`, `read_data_storage`). `none` is a `BUG()`.

`write_data_storage_spec` and `read_data_storage_eq` relate the block-wise loops to one copy in the
device seen as a flat array (`Dev.flat`).
-/

namespace CominixFs
open Bytes

/-- The block device, through its buffer heads. -/
structure Dev where
  s_blocksize_bits : Nat
  nblocks : Nat
  bh : Buffers Mem

namespace Dev

/-- `s_blocksize`. -/
def bs (d : Dev) : Nat := 2 ^ d.s_blocksize_bits

lemma bs_pos (d : Dev) : 0 < d.bs := Nat.two_pow_pos _

/-- The device as one array of bytes. -/
def flat (d : Dev) : Mem := Bytes.flat d.bs d.bh.mem

/-- Store new contents in the buffer of a block; the buffer is not marked. -/
def store (d : Dev) (block : Nat) (m : Mem) : Dev := { d with bh := d.bh.set block m }

def mark_buffer_dirty (d : Dev) (block : Nat) : Dev := { d with bh := d.bh.mark block }

def bforget (d : Dev) (block : Nat) : Dev := { d with bh := d.bh.forget block }

@[simp] lemma store_bits (d : Dev) (b : Nat) (m : Mem) :
    (d.store b m).s_blocksize_bits = d.s_blocksize_bits := rfl
@[simp] lemma store_nblocks (d : Dev) (b : Nat) (m : Mem) : (d.store b m).nblocks = d.nblocks := rfl
@[simp] lemma store_bs (d : Dev) (b : Nat) (m : Mem) : (d.store b m).bs = d.bs := rfl
@[simp] lemma store_bh (d : Dev) (b : Nat) (m : Mem) : (d.store b m).bh = d.bh.set b m := rfl
@[simp] lemma mark_bits (d : Dev) (b : Nat) :
    (d.mark_buffer_dirty b).s_blocksize_bits = d.s_blocksize_bits := rfl
@[simp] lemma mark_nblocks (d : Dev) (b : Nat) : (d.mark_buffer_dirty b).nblocks = d.nblocks := rfl
@[simp] lemma mark_bs (d : Dev) (b : Nat) : (d.mark_buffer_dirty b).bs = d.bs := rfl
@[simp] lemma mark_bh (d : Dev) (b : Nat) : (d.mark_buffer_dirty b).bh = d.bh.mark b := rfl

@[simp] lemma flat_mark (d : Dev) (b : Nat) : (d.mark_buffer_dirty b).flat = d.flat := rfl

/-- A copy inside one block, seen flat. -/
lemma flat_store {d : Dev} {b off n c : Nat} {src : Mem} (h : off + n ≤ d.bs) :
    (d.store b (memcpy (d.bh.mem b) off src c n)).flat = memcpy d.flat (b * d.bs + off) src c n :=
  flat_update h

lemma flat_apply (d : Dev) (b i : Nat) (h : i < d.bs) : d.flat (b * d.bs + i) = d.bh.mem b i := by
  have h1 : (b * d.bs + i) / d.bs = b := by
    rw [Nat.mul_comm, Nat.mul_add_div d.bs_pos, Nat.div_eq_of_lt h, Nat.add_zero]
  have h2 : (b * d.bs + i) % d.bs = i := by
    rw [Nat.mul_comm, Nat.mul_add_mod, Nat.mod_eq_of_lt h]
  simp only [flat, Bytes.flat, h1, h2]

/-- Storing in a block and marking it leaves every block covered that was. -/
lemma store_mark_covered {d : Dev} {b b' : Nat} {m : Mem} (h : d.bh.Covered b') :
    ((d.store b m).mark_buffer_dirty b).bh.Covered b' := by
  by_cases hb : b' = b
  · subst hb
    exact .inl (by simp)
  · exact h.congr (by simp [Buffers.set_mem_of_ne _ _ hb]) (by simp)
      fun hd => Buffers.mark_dirty_of_dirty _ hd

/-- A number stored inside one block, seen flat. -/
lemma flat_store_put {d : Dev} {b off n v : Nat} (h : off + n ≤ d.bs) :
    (d.store b (put (d.bh.mem b) off n v)).flat = put d.flat (b * d.bs + off) n v :=
  flat_store h

/-- A number inside one block reads the same flat. -/
lemma le_mem (d : Dev) {a k w : Nat} (h : a % d.bs + k + w ≤ d.bs) :
    le (d.bh.mem (a / d.bs)) (a % d.bs + k) w = le d.flat (a + k) w := by
  have hdm := Nat.div_add_mod' a d.bs
  rw [show a + k = a / d.bs * d.bs + (a % d.bs + k) by omega, ← le_shift d.flat]
  apply le_congr
  intro i h1 h2
  rw [d.flat_apply _ _ (by omega)]

end Dev

/-- `block_no`: the block of a byte offset, as the 32-bit `block_t`. -/
def block_no (d : Dev) (off : Nat) : Nat := off / d.bs % 2 ^ 32

/-- `inblock_offset`. -/
def inblock_offset (d : Dev) (off : Nat) : Nat := off % d.bs

/-- `load_blockoff`: the block holding a byte offset, and the place in it. -/
def load_blockoff (d : Dev) (off : Nat) : Option (Nat × Nat) :=
  if off = 0 then none
  else if block_no d off < d.nblocks then some (block_no d off, inblock_offset d off) else none

/-- The `memcpy` or, for null data, the `memset` of `write_data_storage`. -/
def copy_or_zero (m : Mem) (off : Nat) (data : Option Mem) (cursor n : Nat) : Mem :=
  match data with
  | some src => memcpy m off src cursor n
  | none => memcpy m off (fun _ => 0) cursor n

/-- The loop of `write_data_storage`: `blk` is the block of `bh`, `cursor` the bytes written. -/
def write_next_blocks (data : Option Mem) : Nat → Dev → Nat → Nat → Nat → Option Dev
  | 0, _, _, _, _ => none
  | fuel + 1, d, blk, cursor, remaining =>
    if remaining = 0 then some (d.mark_buffer_dirty blk)
    else
      -- get_next_block, dirty
      let d := d.mark_buffer_dirty blk
      let next := (blk + 1) % 2 ^ 32
      if next < d.nblocks then
        let to_write := min d.bs remaining
        let d := d.store next (copy_or_zero (d.bh.mem next) 0 data cursor to_write)
        write_next_blocks data fuel d next (cursor + to_write) (remaining - to_write)
      else none

/-- `write_data_storage`: write `length` bytes at a byte offset; no data means zeroes. -/
def write_data_storage (d : Dev) (storage : Nat) (data : Option Mem) (length : Nat) : Option Dev :=
  match load_blockoff d storage with
  | none => none
  | some (blk, off) =>
    let to_write := min (d.bs - off) length
    let d := d.store blk (copy_or_zero (d.bh.mem blk) off data 0 to_write)
    write_next_blocks data (length + 1) d blk to_write (length - to_write)

/-- The loop of `read_data_storage`. -/
def read_next_blocks : Nat → Dev → Nat → Nat → Option (List UInt8)
  | 0, _, _, _ => none
  | fuel + 1, d, blk, remaining =>
    if remaining = 0 then some []
    else
      let next := (blk + 1) % 2 ^ 32
      if next < d.nblocks then
        let to_read := min d.bs remaining
        match read_next_blocks fuel d next (remaining - to_read) with
        | none => none
        | some rest => some (slice (d.bh.mem next) 0 to_read ++ rest)
      else none

/-- `read_data_storage`: the bytes copied to the reader. -/
def read_data_storage (d : Dev) (storage length : Nat) : Option (List UInt8) :=
  match load_blockoff d storage with
  | none => none
  | some (blk, off) =>
    let to_read := min (d.bs - off) length
    match read_next_blocks (length + 1) d blk (length - to_read) with
    | none => none
    | some rest => some (slice (d.bh.mem blk) off to_read ++ rest)

/-- The bytes `write_data_storage` writes: the data, or zeroes. -/
def storage_src (data : Option Mem) : Mem := data.getD fun _ => 0

lemma copy_or_zero_eq (m : Mem) (off : Nat) (data : Option Mem) (c n : Nat) :
    copy_or_zero m off data c n = memcpy m off (storage_src data) c n := by
  cases data <;> rfl

lemma block_no_eq {d : Dev} {off : Nat} (h : off < 2 ^ 32 * d.bs) : block_no d off = off / d.bs :=
  Nat.mod_eq_of_lt ((Nat.div_lt_iff_lt_mul d.bs_pos).2 h)

/-- An offset inside the device, below the `2 ^ 32` blocks that have a number, loads. -/
lemma load_blockoff_below {d : Dev} {off : Nat} (h0 : 0 < off) (hlt : off < d.nblocks * d.bs)
    (h32 : off < 2 ^ 32 * d.bs) : load_blockoff d off = some (off / d.bs, off % d.bs) := by
  have hb : off / d.bs < d.nblocks := (Nat.div_lt_iff_lt_mul d.bs_pos).2 hlt
  unfold load_blockoff
  rw [if_neg (by omega), block_no_eq h32, if_pos hb, inblock_offset]

/-- An offset inside a device of at most `2 ^ 32` blocks loads. -/
lemma load_blockoff_eq {d : Dev} {off : Nat} (h0 : 0 < off) (hlt : off < d.nblocks * d.bs)
    (hn : d.nblocks ≤ 2 ^ 32) : load_blockoff d off = some (off / d.bs, off % d.bs) :=
  load_blockoff_below h0 hlt (hlt.trans_le (Nat.mul_le_mul_right _ hn))

/-- What writing `length` bytes at `storage` does to the device, `blk` being the first buffer
in hand. -/
structure Written (d d' : Dev) (blk storage : Nat) (src : Mem) (c length : Nat) : Prop where
  bits : d'.s_blocksize_bits = d.s_blocksize_bits
  nblocks : d'.nblocks = d.nblocks
  disk : d'.bh.disk = d.bh.disk
  flat : d'.flat = memcpy d.flat storage src c length
  dirty : ∀ b, blk ≤ b → b = blk ∨ b * d.bs < storage + length → d'.bh.dirty b = true
  dirty_mono : ∀ b, d.bh.dirty b = true → d'.bh.dirty b = true
  dirty_out : ∀ b, b < blk → d'.bh.dirty b = d.bh.dirty b
  mem_out : ∀ b, b < blk ∨ blk < b ∧ storage + length ≤ b * d.bs → d'.bh.mem b = d.bh.mem b

lemma Written.bs {d d' : Dev} {blk st c n : Nat} {src : Mem} (w : Written d d' blk st src c n) :
    d'.bs = d.bs := by
  simp only [Dev.bs, w.bits]

/-- A write leaves every block covered that was. -/
lemma Written.covered {d d' : Dev} {blk st c n : Nat} {src : Mem} (w : Written d d' blk st src c n)
    {b : Nat} (h : d.bh.Covered b) : d'.bh.Covered b := by
  by_cases hin : blk ≤ b ∧ (b = blk ∨ b * d.bs < st + n)
  · exact .inl (w.dirty b hin.1 hin.2)
  · apply h.congr (w.mem_out b (by omega)) (by rw [w.disk])
    exact w.dirty_mono b

lemma write_next_blocks_spec {data : Option Mem} : ∀ {fuel : Nat} {d : Dev} {blk c n : Nat},
    n < fuel → blk < d.nblocks → (blk + 1) * d.bs + n ≤ d.nblocks * d.bs →
    (blk + 1) * d.bs + n ≤ 2 ^ 32 * d.bs →
    ∃ d', write_next_blocks data fuel d blk c n = some d' ∧
      Written d d' blk ((blk + 1) * d.bs) (storage_src data) c n := by
  intro fuel
  induction fuel with
  | zero => intro d blk c n h; omega
  | succ fuel ih =>
    intro d blk c n hf hblk hfit hn
    simp only [write_next_blocks]
    by_cases h0 : n = 0
    · subst h0
      rw [if_pos rfl]
      refine ⟨_, rfl, rfl, rfl, rfl, by simp, ?_, ?_, ?_, fun _ _ => rfl⟩
      · rintro b hb (rfl | hlt)
        · simp
        · have : b < blk + 1 := Nat.lt_of_mul_lt_mul_right hlt
          obtain rfl : b = blk := by omega
          simp
      · exact fun b hb => d.bh.mark_dirty_of_dirty hb
      · exact fun b hb => d.bh.mark_dirty_of_ne (by omega)
    · have hnext : blk + 1 < d.nblocks := by
        have : (blk + 1) * d.bs < d.nblocks * d.bs := by omega
        exact Nat.lt_of_mul_lt_mul_right this
      have h32 : blk + 1 < 2 ^ 32 := by
        have : (blk + 1) * d.bs < 2 ^ 32 * d.bs := by omega
        exact Nat.lt_of_mul_lt_mul_right this
      rw [if_neg h0, Nat.mod_eq_of_lt h32, Dev.mark_nblocks, if_pos hnext]
      have hmul : (blk + 1 + 1) * d.bs = (blk + 1) * d.bs + d.bs := by ring
      have hle : (blk + 1 + 1) * d.bs ≤ d.nblocks * d.bs := Nat.mul_le_mul_right _ hnext
      have htw : min d.bs n ≤ d.bs := Nat.min_le_left _ _
      have hpos := d.bs_pos
      generalize hd1 : (d.mark_buffer_dirty blk).store (blk + 1)
        (copy_or_zero ((d.mark_buffer_dirty blk).bh.mem (blk + 1)) 0 data c
          (min (d.mark_buffer_dirty blk).bs n)) = d1
      have hbs1 : d1.bs = d.bs := by subst hd1; rfl
      have hnb1 : d1.nblocks = d.nblocks := by subst hd1; rfl
      have hle32 : (blk + 1 + 1) * d.bs ≤ 2 ^ 32 * d.bs := Nat.mul_le_mul_right _ h32
      obtain ⟨d', hd', w⟩ := @ih d1 (blk + 1) (c + min d.bs n) (n - min d.bs n) (by omega)
        (by omega) (by rw [hbs1, hnb1]; omega) (by rw [hbs1]; omega)
      have hflat1 : d1.flat = memcpy d.flat ((blk + 1) * d.bs) (storage_src data) c (min d.bs n) := by
        subst hd1
        rw [copy_or_zero_eq, Dev.flat_store (by simp)]
        simp
      refine ⟨d', hd', ?_, ?_, ?_, ?_, ?_, ?_, ?_, ?_⟩
      · rw [w.bits, ← hd1]; rfl
      · rw [w.nblocks, hnb1]
      · rw [w.disk, ← hd1]; rfl
      · rw [w.flat, hflat1, hbs1]
        by_cases hlast : n ≤ d.bs
        · rw [Nat.min_eq_right hlast, Nat.sub_self, memcpy_zero]
        · rw [Nat.min_eq_left (by omega), hmul, memcpy_append]
          congr 1
          omega
      · rintro b hb h
        by_cases hbb : b = blk
        · subst hbb
          apply w.dirty_mono
          rw [← hd1]
          simp
        · apply w.dirty b (by omega)
          rw [hbs1]
          by_cases hb1 : b = blk + 1
          · exact .inl hb1
          · have : (blk + 1 + 1) * d.bs ≤ b * d.bs := Nat.mul_le_mul_right _ (by omega)
            omega
      · intro b hb
        apply w.dirty_mono
        rw [← hd1]
        exact d.bh.mark_dirty_of_dirty hb
      · intro b hb
        rw [w.dirty_out b (by omega), ← hd1]
        exact d.bh.mark_dirty_of_ne (by omega)
      · intro b hb
        have hne : b ≠ blk + 1 := by
          rintro rfl
          omega
        have hout : b < blk + 1 ∨ blk + 1 < b ∧
            (blk + 1 + 1) * d1.bs + (n - min d.bs n) ≤ b * d1.bs := by
          by_cases hb1 : b < blk + 1
          · exact .inl hb1
          · have : (blk + 1 + 1) * d.bs ≤ b * d.bs := Nat.mul_le_mul_right _ (by omega)
            rw [hbs1]
            omega
        rw [w.mem_out b hout, ← hd1]
        exact d.bh.set_mem_of_ne _ hne

/-- `write_data_storage` below the `2 ^ 32` blocks that have a number is one copy in the flat
device. -/
theorem write_data_storage_below (d : Dev) (storage length : Nat) (data : Option Mem)
    (h0 : 0 < storage) (hlt : storage < d.nblocks * d.bs)
    (hfit : storage + length ≤ d.nblocks * d.bs) (h32 : storage < 2 ^ 32 * d.bs)
    (hfit32 : storage + length ≤ 2 ^ 32 * d.bs) :
    ∃ d', write_data_storage d storage data length = some d' ∧
      Written d d' (storage / d.bs) storage (storage_src data) 0 length := by
  have hload := load_blockoff_below h0 hlt h32
  have hblk32 : storage / d.bs < 2 ^ 32 := (Nat.div_lt_iff_lt_mul d.bs_pos).2 h32
  have hle32 : (storage / d.bs + 1) * d.bs ≤ 2 ^ 32 * d.bs := Nat.mul_le_mul_right _ hblk32
  have hpos := d.bs_pos
  have hdm := Nat.div_add_mod' storage d.bs
  have hmod := Nat.mod_lt storage hpos
  have hblk : storage / d.bs < d.nblocks := (Nat.div_lt_iff_lt_mul hpos).2 hlt
  have hmul : (storage / d.bs + 1) * d.bs = storage / d.bs * d.bs + d.bs := by ring
  have hle : (storage / d.bs + 1) * d.bs ≤ d.nblocks * d.bs := Nat.mul_le_mul_right _ hblk
  generalize hblk' : storage / d.bs = blk at *
  generalize hoff : storage % d.bs = off at *
  simp only [write_data_storage, hload]
  generalize hd1 : d.store blk
    (copy_or_zero (d.bh.mem blk) off data 0 (min (d.bs - off) length)) = d1
  have hbs1 : d1.bs = d.bs := by subst hd1; rfl
  have hnb1 : d1.nblocks = d.nblocks := by subst hd1; rfl
  have hflat1 : d1.flat = memcpy d.flat storage (storage_src data) 0 (min (d.bs - off) length) := by
    subst hd1
    rw [copy_or_zero_eq, Dev.flat_store (by omega), hdm]
  obtain ⟨d', hd', w⟩ := @write_next_blocks_spec data (length + 1) d1 blk
    (min (d.bs - off) length) (length - min (d.bs - off) length) (by omega) (by omega)
    (by rw [hbs1, hnb1]; omega) (by rw [hbs1]; omega)
  refine ⟨d', hd', ?_, ?_, ?_, ?_, ?_, ?_, ?_, ?_⟩
  · rw [w.bits, ← hd1]; rfl
  · rw [w.nblocks, hnb1]
  · rw [w.disk, ← hd1]; rfl
  · rw [w.flat, hflat1, hbs1]
    by_cases hlast : length ≤ d.bs - off
    · rw [Nat.min_eq_right hlast, Nat.sub_self, memcpy_zero]
    · rw [Nat.min_eq_left (by omega), show (blk + 1) * d.bs = storage + (d.bs - off) by omega]
      have happ := memcpy_append d.flat (storage_src data) storage 0 (d.bs - off)
        (length - (d.bs - off))
      rw [Nat.zero_add] at happ
      rw [happ]
      congr 1
      omega
  · intro b hb h
    apply w.dirty b hb
    rw [hbs1]
    by_cases hbb : b = blk
    · exact .inl hbb
    · have : (blk + 1) * d.bs ≤ b * d.bs := Nat.mul_le_mul_right _ (by omega)
      omega
  · intro b hb
    apply w.dirty_mono
    rw [← hd1]
    exact hb
  · intro b hb
    rw [w.dirty_out b hb, ← hd1]
    rfl
  · intro b hb
    have hout : b < blk ∨ blk < b ∧
        (blk + 1) * d1.bs + (length - min (d.bs - off) length) ≤ b * d1.bs := by
      rcases hb with hb | ⟨hb, hle'⟩
      · exact .inl hb
      · have : (blk + 1) * d.bs ≤ b * d.bs := Nat.mul_le_mul_right _ hb
        rw [hbs1]
        omega
    rw [w.mem_out b hout, ← hd1]
    exact d.bh.set_mem_of_ne _ (by omega)

/-- `write_data_storage` is one copy in the flat device. -/
theorem write_data_storage_spec (d : Dev) (storage length : Nat) (data : Option Mem)
    (h0 : 0 < storage) (hlt : storage < d.nblocks * d.bs)
    (hfit : storage + length ≤ d.nblocks * d.bs) (hn : d.nblocks ≤ 2 ^ 32) :
    ∃ d', write_data_storage d storage data length = some d' ∧
      Written d d' (storage / d.bs) storage (storage_src data) 0 length := by
  have hle : d.nblocks * d.bs ≤ 2 ^ 32 * d.bs := Nat.mul_le_mul_right _ hn
  exact write_data_storage_below d storage length data h0 hlt hfit (hlt.trans_le hle)
    (hfit.trans hle)

lemma write_next_blocks_bits {data : Option Mem} : ∀ {fuel : Nat} {d d' : Dev} {blk c n : Nat},
    write_next_blocks data fuel d blk c n = some d' → d'.s_blocksize_bits = d.s_blocksize_bits := by
  intro fuel
  induction fuel with
  | zero => intro d d' blk c n h; cases h
  | succ fuel ih =>
    intro d d' blk c n h
    simp only [write_next_blocks] at h
    split at h
    · cases h
      rfl
    · split at h
      · have hbits := ih h
        exact hbits
      · cases h

/-- A write leaves the block size. -/
lemma write_data_storage_bits {d d' : Dev} {storage length : Nat} {data : Option Mem}
    (h : write_data_storage d storage data length = some d') :
    d'.s_blocksize_bits = d.s_blocksize_bits := by
  unfold write_data_storage at h
  split at h
  · cases h
  · have hbits := write_next_blocks_bits h
    exact hbits

lemma write_next_blocks_fits {data : Option Mem} : ∀ {fuel : Nat} {d d' : Dev} {blk c n : Nat},
    blk < d.nblocks → (blk + 1) * d.bs + n ≤ 2 ^ 32 * d.bs →
    write_next_blocks data fuel d blk c n = some d' →
    (blk + 1) * d.bs + n ≤ d.nblocks * d.bs := by
  intro fuel
  induction fuel with
  | zero => intro d d' blk c n _ _ h; cases h
  | succ fuel ih =>
    intro d d' blk c n hblk h32 h
    simp only [write_next_blocks] at h
    by_cases h0 : n = 0
    · subst h0
      exact Nat.mul_le_mul_right _ hblk
    · have hnext32 : blk + 1 < 2 ^ 32 := by
        have : (blk + 1) * d.bs < 2 ^ 32 * d.bs := by omega
        exact Nat.lt_of_mul_lt_mul_right this
      have hle32 : (blk + 1 + 1) * d.bs ≤ 2 ^ 32 * d.bs := Nat.mul_le_mul_right _ hnext32
      have hmul : (blk + 1 + 1) * d.bs = (blk + 1) * d.bs + d.bs := by ring
      rw [if_neg h0, Nat.mod_eq_of_lt hnext32, Dev.mark_nblocks] at h
      by_cases hnext : blk + 1 < d.nblocks
      · rw [if_pos hnext] at h
        generalize hd1 : (d.mark_buffer_dirty blk).store (blk + 1)
          (copy_or_zero ((d.mark_buffer_dirty blk).bh.mem (blk + 1)) 0 data c
            (min (d.mark_buffer_dirty blk).bs n)) = d1 at h
        have hbs1 : d1.bs = d.bs := by subst hd1; rfl
        have hnb1 : d1.nblocks = d.nblocks := by subst hd1; rfl
        have hle : (blk + 1 + 1) * d.bs ≤ d.nblocks * d.bs := Nat.mul_le_mul_right _ hnext
        have hrec := @ih d1 d' (blk + 1) (c + min d.bs n) (n - min d.bs n) (by omega)
          (by rw [hbs1]; omega) h
        rw [hbs1, hnb1] at hrec
        omega
      · rw [if_neg hnext] at h
        cases h

/-- A write that goes through lies inside the device. -/
lemma write_data_storage_fits {d d' : Dev} {storage length : Nat} {data : Option Mem}
    (h32 : storage < 2 ^ 32 * d.bs) (hfit32 : storage + length ≤ 2 ^ 32 * d.bs)
    (h : write_data_storage d storage data length = some d') :
    storage < d.nblocks * d.bs ∧ storage + length ≤ d.nblocks * d.bs := by
  have hdm := Nat.div_add_mod' storage d.bs
  have hmod := Nat.mod_lt storage d.bs_pos
  have hmul : (storage / d.bs + 1) * d.bs = storage / d.bs * d.bs + d.bs := by ring
  have hblk32 : storage / d.bs < 2 ^ 32 := (Nat.div_lt_iff_lt_mul d.bs_pos).2 h32
  have hle32 : (storage / d.bs + 1) * d.bs ≤ 2 ^ 32 * d.bs := Nat.mul_le_mul_right _ hblk32
  simp only [write_data_storage, load_blockoff, inblock_offset, block_no_eq h32] at h
  by_cases h0 : storage = 0
  · rw [if_pos h0] at h
    cases h
  · rw [if_neg h0] at h
    by_cases hblk : storage / d.bs < d.nblocks
    · rw [if_pos hblk] at h
      have hlt : storage < d.nblocks * d.bs := (Nat.div_lt_iff_lt_mul d.bs_pos).1 hblk
      have hfits : (storage / d.bs + 1) * d.bs + (length - min (d.bs - storage % d.bs) length)
          ≤ 2 ^ 32 * d.bs := by omega
      have hrest := @write_next_blocks_fits data (length + 1) (d.store (storage / d.bs) _) d'
        (storage / d.bs) _ _ hblk hfits h
      simp only [Dev.store_bs, Dev.store_nblocks] at hrest
      exact ⟨hlt, by omega⟩
    · rw [if_neg hblk] at h
      cases h

lemma read_next_blocks_eq : ∀ {fuel : Nat} {d : Dev} {blk n : Nat},
    n < fuel → blk < d.nblocks → (blk + 1) * d.bs + n ≤ d.nblocks * d.bs →
    (blk + 1) * d.bs + n ≤ 2 ^ 32 * d.bs →
    read_next_blocks fuel d blk n = some (slice d.flat ((blk + 1) * d.bs) n) := by
  intro fuel
  induction fuel with
  | zero => intro d blk n h; omega
  | succ fuel ih =>
    intro d blk n hf hblk hfit hn
    simp only [read_next_blocks]
    by_cases h0 : n = 0
    · subst h0
      rw [if_pos rfl]
      rfl
    · have hnext : blk + 1 < d.nblocks := by
        have : (blk + 1) * d.bs < d.nblocks * d.bs := by omega
        exact Nat.lt_of_mul_lt_mul_right this
      have h32 : blk + 1 < 2 ^ 32 := by
        have : (blk + 1) * d.bs < 2 ^ 32 * d.bs := by omega
        exact Nat.lt_of_mul_lt_mul_right this
      have hpos := d.bs_pos
      have hle : (blk + 1 + 1) * d.bs ≤ d.nblocks * d.bs := Nat.mul_le_mul_right _ hnext
      have hle32 : (blk + 1 + 1) * d.bs ≤ 2 ^ 32 * d.bs := Nat.mul_le_mul_right _ h32
      have hmul : (blk + 1 + 1) * d.bs = (blk + 1) * d.bs + d.bs := by ring
      rw [if_neg h0, Nat.mod_eq_of_lt h32, if_pos hnext, ih (by omega) hnext (by omega) (by omega)]
      have hfirst : slice (d.bh.mem (blk + 1)) 0 (min d.bs n)
          = slice d.flat ((blk + 1) * d.bs) (min d.bs n) := by
        apply List.map_congr_left
        intro i hi
        rw [List.mem_range] at hi
        rw [d.flat_apply _ _ (by omega), Nat.zero_add]
      have hsplit := slice_add d.flat ((blk + 1) * d.bs) (min d.bs n) (n - min d.bs n)
      rw [show min d.bs n + (n - min d.bs n) = n by omega] at hsplit
      simp only [hfirst]
      rw [hsplit]
      by_cases hlast : n ≤ d.bs
      · rw [Nat.min_eq_right hlast, Nat.sub_self]
        rfl
      · rw [Nat.min_eq_left (by omega), hmul]

/-- `read_data_storage` below the `2 ^ 32` blocks that have a number delivers a slice of the flat
device. -/
theorem read_data_storage_below {d : Dev} {storage length : Nat} (h0 : 0 < storage)
    (hlt : storage < d.nblocks * d.bs) (hfit : storage + length ≤ d.nblocks * d.bs)
    (h32 : storage < 2 ^ 32 * d.bs) (hfit32 : storage + length ≤ 2 ^ 32 * d.bs) :
    read_data_storage d storage length = some (slice d.flat storage length) := by
  have hload := load_blockoff_below h0 hlt h32
  have hpos := d.bs_pos
  have hdm := Nat.div_add_mod' storage d.bs
  have hmod := Nat.mod_lt storage hpos
  have hblk : storage / d.bs < d.nblocks := (Nat.div_lt_iff_lt_mul hpos).2 hlt
  have hblk32 : storage / d.bs < 2 ^ 32 := (Nat.div_lt_iff_lt_mul hpos).2 h32
  have hle : (storage / d.bs + 1) * d.bs ≤ d.nblocks * d.bs := Nat.mul_le_mul_right _ hblk
  have hle32 : (storage / d.bs + 1) * d.bs ≤ 2 ^ 32 * d.bs := Nat.mul_le_mul_right _ hblk32
  have hmul : (storage / d.bs + 1) * d.bs = storage / d.bs * d.bs + d.bs := by ring
  generalize storage / d.bs = blk at *
  generalize storage % d.bs = off at *
  simp only [read_data_storage, hload]
  rw [read_next_blocks_eq (by omega) hblk (by omega) (by omega)]
  have hfirst : slice (d.bh.mem blk) off (min (d.bs - off) length)
      = slice d.flat storage (min (d.bs - off) length) := by
    apply List.map_congr_left
    intro i hi
    rw [List.mem_range] at hi
    rw [← hdm, Nat.add_assoc, d.flat_apply _ _ (by omega)]
  have hsplit := slice_add d.flat storage (min (d.bs - off) length)
    (length - min (d.bs - off) length)
  rw [show min (d.bs - off) length + (length - min (d.bs - off) length) = length by omega] at hsplit
  simp only [hfirst]
  rw [hsplit]
  by_cases hlast : length ≤ d.bs - off
  · rw [Nat.min_eq_right hlast, Nat.sub_self]
    rfl
  · rw [Nat.min_eq_left (by omega), show (blk + 1) * d.bs = storage + (d.bs - off) by omega]

/-- `read_data_storage` delivers a slice of the flat device. -/
theorem read_data_storage_eq {d : Dev} {storage length : Nat} (h0 : 0 < storage)
    (hlt : storage < d.nblocks * d.bs) (hfit : storage + length ≤ d.nblocks * d.bs)
    (hn : d.nblocks ≤ 2 ^ 32) :
    read_data_storage d storage length = some (slice d.flat storage length) := by
  have hle : d.nblocks * d.bs ≤ 2 ^ 32 * d.bs := Nat.mul_le_mul_right _ hn
  exact read_data_storage_below h0 hlt hfit (hlt.trans_le hle) (hfit.trans hle)

end CominixFs
