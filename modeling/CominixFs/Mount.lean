import CominixFs.Area
import CominixFs.InodeTable

/-!
# Mounting (`inode.c`)

`cominix_fill_super` reads the superblock, takes the place of the hashtable and the heap from the
extra superblock or, on a first mount, from constants, gives the blocks from the hashtable on to
the chunk area, reads the bitmaps and the root inode, and on a first mount allocates the extra
superblock. `none` is a `BUG()`; memory allocations succeed. The superblock, the bitmaps and the
inode table have buffers of their own beside the other blocks of the device.
-/

namespace CominixFs
open Bytes Bitmap

/-- A block device: its size in bytes and what is on it. -/
structure Image where
  size : Nat
  bytes : Mem

/-- The device as it is read in blocks of `2 ^ bits` bytes. -/
def Image.dev (img : Image) (bits : Nat) : Dev where
  s_blocksize_bits := bits
  nblocks := img.size / 2 ^ bits
  bh := {
    mem := fun b i => img.bytes (b * 2 ^ bits + i)
    disk := fun b i => img.bytes (b * 2 ^ bits + i)
    dirty := fun _ => false }

/-- `struct cominix3_super_block`, as far as the driver reads it. -/
structure Cominix3SuperBlock where
  s_ninodes : Nat
  s_pad0 : Nat
  s_imap_blocks : Nat
  s_zmap_blocks : Nat
  s_firstdatazone : Nat
  s_log_zone_size : Nat
  s_pad1 : Nat
  s_max_size : Nat
  s_zones : Nat
  s_magic : Nat
  s_blocksize : Nat

def Cominix3SuperBlock.read (b_data : Mem) : Cominix3SuperBlock where
  s_ninodes := le b_data 0 4
  s_pad0 := le b_data 4 2
  s_imap_blocks := le b_data 6 2
  s_zmap_blocks := le b_data 8 2
  s_firstdatazone := le b_data 10 2
  s_log_zone_size := le b_data 12 2
  s_pad1 := le b_data 14 2
  s_max_size := le b_data 16 4
  s_zones := le b_data 20 4
  s_magic := le b_data 24 2
  s_blocksize := le b_data 28 2

def MINIX3_SUPER_MAGIC : Nat := 0x4d5a

/-- `sb_set_blocksize`, after `BLOCK_SIZE` was set: a size that is no power of two from 512 up to
the page size is turned down. -/
def set_blocksize_bits (size : Nat) : Nat :=
  if size = 512 then 9 else if size = 2048 then 11 else if size = 4096 then 12 else 10

/-- `struct cminix_extra_super_block`. -/
structure ExtraSuperBlock where
  hashtable_location : Nat
  hashtable_size : Nat
  heap_brk : Nat

def ExtraSuperBlock.read (b_data : Mem) : ExtraSuperBlock where
  hashtable_location := le b_data 0 8
  hashtable_size := le b_data 8 4
  heap_brk := le b_data 16 8

/-- The fields as they lie in a block that was zeroed. -/
def ExtraSuperBlock.bytes (esb : ExtraSuperBlock) : Mem :=
  put (put (put (fun _ => 0) 0 8 esb.hashtable_location) 8 4 esb.hashtable_size) 16 8 esb.heap_brk

/-- What `cominix_fill_super` takes from the superblock. -/
def sb_info (m3s : Cominix3SuperBlock) : SbInfo where
  s_ninodes := m3s.s_ninodes
  s_nzones := m3s.s_zones
  s_imap_blocks := m3s.s_imap_blocks
  s_zmap_blocks := m3s.s_zmap_blocks
  s_firstdatazone := m3s.s_firstdatazone
  s_log_zone_size := m3s.s_log_zone_size
  s_maxbytes := m3s.s_max_size
  extra_sb_location := m3s.s_pad1 * 2 ^ 16 + m3s.s_pad0
  hashtable := 0
  hashtable_size := 0
  heap_brk := 0
  max_brk := 0

def cominix_check_superblock (sbi : SbInfo) : Bool :=
  !(sbi.s_imap_blocks == 0 || sbi.s_zmap_blocks == 0)

/-- Where the hashtable goes on a first mount. -/
def first_hashtable : Nat := 40 * 2 ^ 20

/-- The size of the hashtable of a first mount. -/
def first_hashtable_size : Nat := 32 * 2 ^ 10

/-- `cminix_fill_extra_super`. -/
def cminix_fill_extra_super (sbi : SbInfo) (d : Dev) : Option SbInfo :=
  let esb_loc := sbi.extra_sb_location
  if esb_loc = 0 then
    some { sbi with
      hashtable := first_hashtable
      hashtable_size := first_hashtable_size
      heap_brk := first_hashtable + first_hashtable_size }
  else if esb_loc < d.nblocks then
    let esb := ExtraSuperBlock.read (d.bh.mem esb_loc)
    some { sbi with
      hashtable := esb.hashtable_location
      hashtable_size := esb.hashtable_size
      heap_brk := esb.heap_brk }
  else none

/-- Where `cominix_fill_super` splits the disk: the zones end where the hashtable starts. -/
def fill_nzones (sbi : SbInfo) (d : Dev) : Option SbInfo :=
  let new_nzones := sbi.hashtable / d.bs
  if sbi.s_nzones < new_nzones then none
  else some { sbi with max_brk := sbi.s_nzones * d.bs, s_nzones := new_nzones }

/-- `cominix_blocks_needed`, of 32-bit numbers. -/
def cominix_blocks_needed (bits blocksize : Nat) : Nat :=
  (bits % 2 ^ 32 + (blocksize * 8 - 1)) % 2 ^ 32 / (blocksize * 8)

/-- The bits of a bitmap block, least significant first. -/
def block_bits (b_data : Mem) (j : Nat) : Bool := (b_data (j / 8)).toNat.testBit (j % 8)

/-- The buffers of a bitmap that starts at a block. -/
def read_map (d : Dev) (block : Nat) : Buffers (Nat → Bool) where
  mem i := block_bits (d.bh.mem (block + i))
  disk i := block_bits (d.bh.mem (block + i))
  dirty _ := false

/-- `cominix_set_bit(0, ..)`: the buffer is not marked dirty. -/
def set_bit_zero (map : Buffers (Nat → Bool)) : Buffers (Nat → Bool) :=
  map.set 0 (Function.update (map.mem 0) 0 true)

/-- The buffer of the superblock, which is block 1 in blocks of `BLOCK_SIZE`. -/
def read_super (b_data : Mem) : Buffers Mem where
  mem _ := b_data
  disk _ := b_data
  dirty _ := false

/-- `struct super_block` once mounted: the volume, the inode bitmap and table, the buffer of the
superblock and the root. -/
structure SuperBlock where
  vol : Vol
  s_imap : Buffers (Nat → Bool)
  itable : Itable
  s_sbh : Buffers Mem
  s_root : Inode

/-- How `cominix_fill_super` ends. -/
inductive FillSuper where
  | failed (err : IgetErr)
  /-- The mount is given up, and `ret` is still the 0 of `cminix_fill_extra_super`. -/
  | refused
  | mounted (m : SuperBlock)

/-- What `cominix_fill_super` returns. -/
def FillSuper.ret : FillSuper → Int
  | failed IgetErr.EIO => -5
  | failed IgetErr.EINVAL => -22
  | failed IgetErr.ESTALE => -116
  | refused => 0
  | mounted _ => 0

/-- What `s_fs_info` points to afterwards. -/
def FillSuper.s_fs_info : FillSuper → Option SuperBlock
  | failed _ => none
  | refused => none
  | mounted m => some m

lemma FillSuper.s_fs_info_some {r : FillSuper} {m : SuperBlock} (h : r.s_fs_info = some m) :
    r = .mounted m := by
  cases r with
  | failed err => cases h
  | refused => cases h
  | mounted m' =>
    cases h
    rfl

/-- `cminix_alloc_extra_super`, and what it returns. -/
def cminix_alloc_extra_super (m : SuperBlock) : Option (SuperBlock × Int) :=
  if m.vol.sbi.extra_sb_location ≠ 0 then none
  else
    let (v, new) := cominix_new_block_sb m.vol
    let esb_loc := new % 2 ^ 32
    if esb_loc = 0 then some ({ m with vol := v }, -1)
    else if esb_loc < v.dev.nblocks then
      let sbi := { v.sbi with extra_sb_location := esb_loc }
      let esb : ExtraSuperBlock := ⟨sbi.hashtable, sbi.hashtable_size, sbi.heap_brk⟩
      match chunk_reset_hashtable { v with sbi := sbi, dev := v.dev.store esb_loc esb.bytes } with
      | none => none
      | some v =>
        let b_data := put (put (m.s_sbh.mem 1) 4 2 (esb_loc % 2 ^ 16)) 14 2 (esb_loc / 2 ^ 16)
        some ({ m with
          vol := { v with dev := v.dev.mark_buffer_dirty esb_loc }
          s_sbh := (m.s_sbh.set 1 b_data).mark 1 }, 0)
    else none

/-- What is mounted once the bitmaps and the root are read. -/
def set_up (sbi : SbInfo) (d : Dev) (bh : Mem) (rdonly : Bool) (s_root : Inode) : SuperBlock where
  vol := {
    sbi := sbi
    dev := d
    s_zmap := set_bit_zero (read_map d (2 + sbi.s_imap_blocks))
    printk := [] }
  s_imap := set_bit_zero (read_map d 2)
  itable := read_itable d
  s_sbh := if rdonly then read_super bh else (read_super bh).mark 1
  s_root := s_root

/-- The rest of `cominix_fill_super`, from the bitmaps on. -/
def fill_maps (sbi : SbInfo) (d : Dev) (bh : Mem) (rdonly : Bool) : Option FillSuper :=
  if d.nblocks < 2 + sbi.s_imap_blocks + sbi.s_zmap_blocks then some .refused
  else if sbi.s_imap_blocks < cominix_blocks_needed sbi.s_ninodes d.bs then some .refused
  else if sbi.s_zmap_blocks
      < cominix_blocks_needed (sbi.s_nzones + (2 ^ 64 - sbi.s_firstdatazone) + 1) d.bs then
    some .refused
  else
    match V2_cominix_iget sbi d (read_itable d) 1 with
    | .error err => some (.failed err)
    | .ok s_root =>
      let m := set_up sbi d bh rdonly s_root
      if sbi.extra_sb_location = 0 then
        -- the result is not looked at
        match cminix_alloc_extra_super m with
        | none => none
        | some (m, _) => some (.mounted m)
      else some (.mounted m)

/-- The bytes of the superblock, at offset 1024. -/
def Image.s_sbh (img : Image) : Mem := fun i => img.bytes (1024 + i)

def Image.super (img : Image) : Cominix3SuperBlock := .read img.s_sbh

/-- The device in the block size of the superblock. -/
def Image.sdev (img : Image) : Dev := img.dev (set_blocksize_bits img.super.s_blocksize)

/-- `cominix_fill_super`. -/
def cominix_fill_super (img : Image) (rdonly : Bool) : Option FillSuper :=
  if img.size < 2048 then some (.failed .EINVAL)
  else if img.super.s_magic ≠ MINIX3_SUPER_MAGIC then some (.failed .EINVAL)
  else if img.super.s_log_zone_size ≠ 0 then some (.failed .EINVAL)
  else if !cominix_check_superblock (sb_info img.super) then some (.failed .EINVAL)
  else
    match cminix_fill_extra_super (sb_info img.super) img.sdev with
    | none => none
    | some sbi =>
      match fill_nzones sbi img.sdev with
      | none => none
      | some sbi => fill_maps sbi img.sdev img.s_sbh rdonly

lemma cminix_alloc_extra_super_inv {m m' : SuperBlock} {e : Int}
    (h : cminix_alloc_extra_super m = some (m', e)) :
    m.vol.sbi.extra_sb_location = 0 ∧ ∃ v new, cominix_new_block m.vol = (v, new) ∧
      (new % 2 ^ 32 = 0 ∧ m' = { m with vol := v } ∨
      new % 2 ^ 32 ≠ 0 ∧ ∃ d,
        write_data_storage (v.dev.store (new % 2 ^ 32) (ExtraSuperBlock.bytes
          ⟨v.sbi.hashtable, v.sbi.hashtable_size, v.sbi.heap_brk⟩)) v.sbi.hashtable none
          v.sbi.hashtable_size = some d ∧
        m' = { m with
          vol := { v with
            sbi := { v.sbi with
              extra_sb_location := new % 2 ^ 32
              heap_brk := v.sbi.hashtable + v.sbi.hashtable_size }
            dev := d.mark_buffer_dirty (new % 2 ^ 32) }
          s_sbh := (m.s_sbh.set 1 (put (put (m.s_sbh.mem 1) 4 2 (new % 2 ^ 32 % 2 ^ 16)) 14 2
            (new % 2 ^ 32 / 2 ^ 16))).mark 1 }) := by
  unfold cminix_alloc_extra_super at h
  rw [cominix_new_block_sb_eq] at h
  by_cases hno : m.vol.sbi.extra_sb_location = 0
  · rw [if_neg (not_not.2 hno)] at h
    cases hnew : cominix_new_block m.vol with
    | mk v new =>
      refine ⟨hno, v, new, rfl, ?_⟩
      simp only [hnew] at h
      by_cases hz : new % 2 ^ 32 = 0
      · rw [if_pos hz] at h
        cases h
        exact .inl ⟨hz, rfl⟩
      · rw [if_neg hz] at h
        refine .inr ⟨hz, ?_⟩
        split at h
        · simp only [chunk_reset_hashtable] at h
          cases hw : write_data_storage (v.dev.store (new % 2 ^ 32) (ExtraSuperBlock.bytes
              ⟨v.sbi.hashtable, v.sbi.hashtable_size, v.sbi.heap_brk⟩)) v.sbi.hashtable none
              v.sbi.hashtable_size with
          | none =>
            simp only [hw] at h
            cases h
          | some d =>
            simp only [hw] at h
            cases h
            exact ⟨d, rfl, rfl⟩
        · cases h
  · rw [if_pos hno] at h
    cases h

/-- The bitmaps can be read and have the sizes that are asked for. -/
structure MapsFit (sbi : SbInfo) (d : Dev) : Prop where
  blocks : 2 + sbi.s_imap_blocks + sbi.s_zmap_blocks ≤ d.nblocks
  imap : cominix_blocks_needed sbi.s_ninodes d.bs ≤ sbi.s_imap_blocks
  zmap : cominix_blocks_needed (sbi.s_nzones + (2 ^ 64 - sbi.s_firstdatazone) + 1) d.bs
    ≤ sbi.s_zmap_blocks

lemma fill_maps_inv {sbi : SbInfo} {d : Dev} {bh : Mem} {rdonly : Bool} {r : FillSuper}
    (h : fill_maps sbi d bh rdonly = some r) (h0 : r.ret = 0) :
    r = .refused ∧ ¬ MapsFit sbi d ∨
    ∃ s_root m, r = .mounted m ∧ MapsFit sbi d ∧
      (sbi.extra_sb_location ≠ 0 ∧ m = set_up sbi d bh rdonly s_root ∨
      sbi.extra_sb_location = 0 ∧
        ∃ e, cminix_alloc_extra_super (set_up sbi d bh rdonly s_root) = some (m, e)) := by
  unfold fill_maps at h
  by_cases h1 : d.nblocks < 2 + sbi.s_imap_blocks + sbi.s_zmap_blocks
  · rw [if_pos h1] at h
    cases h
    exact .inl ⟨rfl, fun fit => absurd fit.blocks (by omega)⟩
  by_cases h2 : sbi.s_imap_blocks < cominix_blocks_needed sbi.s_ninodes d.bs
  · rw [if_neg h1, if_pos h2] at h
    cases h
    exact .inl ⟨rfl, fun fit => absurd fit.imap (by omega)⟩
  by_cases h3 : sbi.s_zmap_blocks
      < cominix_blocks_needed (sbi.s_nzones + (2 ^ 64 - sbi.s_firstdatazone) + 1) d.bs
  · rw [if_neg h1, if_neg h2, if_pos h3] at h
    cases h
    exact .inl ⟨rfl, fun fit => absurd fit.zmap (by omega)⟩
  rw [if_neg h1, if_neg h2, if_neg h3] at h
  have fit : MapsFit sbi d := ⟨by omega, by omega, by omega⟩
  cases hroot : V2_cominix_iget sbi d (read_itable d) 1 with
  | error err =>
    simp only [hroot] at h
    cases h
    cases err <;> cases h0
  | ok s_root =>
    simp only [hroot] at h
    by_cases hesb : sbi.extra_sb_location = 0
    · rw [if_pos hesb] at h
      cases hal : cminix_alloc_extra_super (set_up sbi d bh rdonly s_root) with
      | none =>
        simp only [hal] at h
        cases h
      | some me =>
        obtain ⟨m, e⟩ := me
        simp only [hal] at h
        cases h
        exact .inr ⟨s_root, m, rfl, fit, .inr ⟨hesb, e, hal⟩⟩
    · rw [if_neg hesb] at h
      cases h
      exact .inr ⟨s_root, _, rfl, fit, .inl ⟨hesb, rfl⟩⟩

/-- What an image passes when 0 is returned for it. -/
lemma cominix_fill_super_inv {img : Image} {rdonly : Bool} {r : FillSuper}
    (h : cominix_fill_super img rdonly = some r) (h0 : r.ret = 0) :
    cominix_check_superblock (sb_info img.super) = true ∧ ∃ s0 sbi,
      cminix_fill_extra_super (sb_info img.super) img.sdev = some s0 ∧
      fill_nzones s0 img.sdev = some sbi ∧ fill_maps sbi img.sdev img.s_sbh rdonly = some r := by
  unfold cominix_fill_super at h
  by_cases h1 : img.size < 2048
  · rw [if_pos h1] at h
    cases h
    cases h0
  by_cases h2 : img.super.s_magic ≠ MINIX3_SUPER_MAGIC
  · rw [if_neg h1, if_pos h2] at h
    cases h
    cases h0
  by_cases h3 : img.super.s_log_zone_size ≠ 0
  · rw [if_neg h1, if_neg h2, if_pos h3] at h
    cases h
    cases h0
  cases hcheck : cominix_check_superblock (sb_info img.super) with
  | false =>
    rw [if_neg h1, if_neg h2, if_neg h3, hcheck] at h
    cases h
    cases h0
  | true =>
    rw [if_neg h1, if_neg h2, if_neg h3, hcheck] at h
    cases hs0 : cminix_fill_extra_super (sb_info img.super) img.sdev with
    | none =>
      simp only [hs0] at h
      cases h
    | some s0 =>
      simp only [hs0] at h
      cases hsbi : fill_nzones s0 img.sdev with
      | none =>
        simp only [hsbi] at h
        cases h
      | some sbi =>
        simp only [hsbi] at h
        exact ⟨rfl, s0, sbi, rfl, hsbi, h⟩

end CominixFs
