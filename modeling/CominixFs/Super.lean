import CominixFs.Device

/-!
# The volume

The in-memory superblock (`struct cominix_sb_info` and the `super_block` fields the driver sets)
and a mounted volume: superblock, device and zone bitmap.
-/

namespace CominixFs
open Bytes

/-- `struct cominix_sb_info`, with `s_maxbytes` of the `super_block`. -/
structure SbInfo where
  s_ninodes : Nat
  s_nzones : Nat
  s_imap_blocks : Nat
  s_zmap_blocks : Nat
  s_firstdatazone : Nat
  s_log_zone_size : Nat
  s_maxbytes : Nat
  extra_sb_location : Nat
  hashtable : Nat
  hashtable_size : Nat
  heap_brk : Nat
  max_brk : Nat

/-- What the zone bitmap code prints about a zone it is asked to free. -/
inductive Msg where
  | notInDatazone (block : Nat)
  | nonexistentBitmapBuffer (block : Nat)
  | bitAlreadyCleared (block : Nat)
deriving DecidableEq, Repr

/-- A mounted volume. -/
structure Vol where
  sbi : SbInfo
  dev : Dev
  s_zmap : Buffers (Nat → Bool)
  printk : List Msg

/-- What every operation on a mounted volume leaves alone: the superblock but the heap break, the
geometry and what is on the device. -/
structure SameMount (v v' : Vol) : Prop where
  sbi : v'.sbi = { v.sbi with heap_brk := v'.sbi.heap_brk }
  bits : v'.dev.s_blocksize_bits = v.dev.s_blocksize_bits
  nblocks : v'.dev.nblocks = v.dev.nblocks
  disk : v'.dev.bh.disk = v.dev.bh.disk
  zmap_disk : v'.s_zmap.disk = v.s_zmap.disk

namespace SameMount

variable {v v' v'' : Vol}

lemma refl (v : Vol) : SameMount v v := ⟨rfl, rfl, rfl, rfl, rfl⟩

lemma trans (h : SameMount v v') (h' : SameMount v' v'') : SameMount v v'' :=
  ⟨by rw [h'.sbi, h.sbi], h'.bits.trans h.bits, h'.nblocks.trans h.nblocks, h'.disk.trans h.disk,
    h'.zmap_disk.trans h.zmap_disk⟩

lemma bs (h : SameMount v v') : v'.dev.bs = v.dev.bs := by rw [Dev.bs, h.bits, Dev.bs]

lemma nzones (h : SameMount v v') : v'.sbi.s_nzones = v.sbi.s_nzones := by rw [h.sbi]

lemma first (h : SameMount v v') : v'.sbi.s_firstdatazone = v.sbi.s_firstdatazone := by rw [h.sbi]

lemma zmap_blocks (h : SameMount v v') : v'.sbi.s_zmap_blocks = v.sbi.s_zmap_blocks := by
  rw [h.sbi]

end SameMount

end CominixFs
