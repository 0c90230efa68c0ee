import CominixFs.File
import CominixFs.Mount

/-!
# The file system

A mounted file system: the volume, the inode table and the inodes that are there, in memory or not.
A step is what one caller asks of the driver: a new inode, a block of a file mapped or written, a
size set by the VFS, a truncation, a file chunked, an inode evicted or written back, or an unmount
followed by a mount. `none` is a `BUG()`, or a step the VFS does not take.
-/

namespace CominixFs
open Bytes

/-- The buffer of the superblock. It was read in blocks of `BLOCK_SIZE`, and `attached` says whether
it is still the buffer of the block after `sb_set_blocksize`. -/
structure Sbh where
  bh : Buffers Mem
  attached : Bool

/-- What a mount reads after an unmount: what was written to a buffer that is no longer that of the
block is not on the device. -/
def Sbh.sync (s_sbh : Sbh) (keep : Nat → Bool) : Sbh :=
  if s_sbh.attached then { s_sbh with bh := s_sbh.bh.sync keep }
  else { s_sbh with bh := ⟨s_sbh.bh.disk, s_sbh.bh.disk, fun _ => false⟩ }

/-- A mounted file system. An inode that is not in memory is the one `cominix_iget` would read. -/
structure Fs where
  vol : Vol
  itable : Itable
  s_sbh : Sbh
  inodes : Nat → Option Inode

/-- What a caller asks for. -/
inductive FsOp where
  | new_inode (ino : Nat) (mode : Ftype) (rdev : Nat)
  | set_nlink (ino nlink : Nat)
  | get_block (ino block : Nat) (getblk : Nat → Bool)
  | write (ino block : Nat) (data : Mem)
  | set_size (ino size : Nat)
  | truncate (ino : Nat)
  | chunk (ino : Nat) (results : Nat → Option Nat)
  | evict (ino : Nat)
  | write_inode (ino : Nat)
  | remount (keep : Nat → Bool)

/-- The bytes of a file, as `kernel_read` gives them. -/
def file_bytes (v : Vol) (inode : Inode) : List UInt8 :=
  (List.range inode.i_size).map fun pos => file_byte v inode (pos / v.dev.bs) (pos % v.dev.bs)

/-- The pieces of these bytes, of these sizes. -/
def pieces : List UInt8 → List Nat → List (List UInt8)
  | _, [] => []
  | bytes, size :: sizes => bytes.take size :: pieces (bytes.drop size) sizes

/-- The chunks a file is cut into when it is chunked. -/
def chunks_of (f : Filp) (md5 : List UInt8 → UInt64) (v : Vol) : List (List UInt8) :=
  match chunk_file f md5 v with
  | none => []
  | some (_, _, c) => pieces f.bytes (c.log.map fun p => p.1.size)

namespace Fs

/-- The inode with this number becomes another one. -/
def set_inode (s : Fs) (ino : Nat) (inode : Inode) : Fs :=
  { s with inodes := Function.update s.inodes ino (some inode) }

/-- `cominix_new_inode`, after a free number was found, and `cominix_set_inode` with a device number
that passed `old_valid_dev`. -/
def cominix_new_inode (s : Fs) (ino : Nat) (mode : Ftype) (rdev : Nat) : Option Fs :=
  if ino = 0 ∨ s.vol.sbi.s_ninodes < ino
      ∨ s.vol.sbi.s_imap_blocks ≤ ino / 2 ^ (s.vol.dev.s_blocksize_bits + 3) ∨ 2 ^ 16 ≤ rdev then none
  else
    match s.inodes ino with
    | some _ => none
    | none => some (s.set_inode ino (cominix_set_inode {
        i_mode := mode
        i_nlink := 1
        i_size := 0
        i_rdev := 0
        i_data := fun _ => 0
        i_fop := .other
        a_ops := .empty_aops
        dirty := true } rdev))

/-- The VFS sets a link count that fits the inode on disk. -/
def set_nlink (s : Fs) (ino nlink : Nat) : Option Fs :=
  match s.inodes ino with
  | none => none
  | some inode =>
    if nlink < 2 ^ 16 then some (s.set_inode ino { inode with i_nlink := nlink, dirty := true })
    else none

/-- `cominix_get_block` with `create`, for a page of the file. The VFS zeroes a block that is new. -/
def cominix_get_block (s : Fs) (ino block : Nat) (getblk : Nat → Bool) : Option Fs :=
  match s.inodes ino with
  | none => none
  | some inode =>
    if inode.a_ops = .cominix_aops ∧ block * s.vol.dev.bs < 2 ^ 63 then
      match CominixFs.get_block getblk s.vol inode block true with
      | none => none
      | some (vol, inode, .mapped nr true) => some { s.set_inode ino inode with
          vol := { vol with dev := (vol.dev.store nr fun _ => 0).mark_buffer_dirty nr } }
      | some (vol, inode, _) => some { s.set_inode ino inode with vol := vol }
    else none

/-- A page of a file is written to the block it is mapped to. -/
def write (s : Fs) (ino block : Nat) (data : Mem) : Option Fs :=
  match s.inodes ino with
  | none => none
  | some inode =>
    if inode.a_ops = .cominix_aops ∧ block * s.vol.dev.bs < 2 ^ 63 then
      match CominixFs.get_block (fun _ => true) s.vol inode block false with
      | some (vol, _, .mapped nr _) =>
        some { s with vol := { vol with dev := (vol.dev.store nr data).mark_buffer_dirty nr } }
      | _ => none
    else none

/-- The VFS sets the size of a file: after a write, or for the `setattr` the driver does not have. -/
def set_size (s : Fs) (ino size : Nat) : Option Fs :=
  match s.inodes ino with
  | none => none
  | some inode =>
    if size ≤ s.vol.sbi.s_maxbytes then
      some (s.set_inode ino { inode with i_size := size, dirty := true })
    else none

/-- `cominix_truncate`. -/
def truncate (s : Fs) (ino : Nat) : Option Fs :=
  match s.inodes ino with
  | none => none
  | some inode =>
    match cominix_truncate s.vol inode with
    | none => none
    | some (vol, inode) => some { s.set_inode ino inode with vol := vol }

/-- `chunk_and_replace`, for a file `cminix_proc_write` does not turn down. -/
def chunk (md5 : List UInt8 → UInt64) (s : Fs) (ino : Nat) (results : Nat → Option Nat) :
    Option Fs :=
  match s.inodes ino with
  | none => none
  | some inode =>
    if inode.i_mode = .reg ∧ inode.i_fop = .cominix_file_operations then
      let f : Filp := ⟨file_bytes s.vol inode, results⟩
      match chunk_and_replace f md5 ⟨s.vol, s.itable, ino, inode⟩ with
      | none => none
      | some (_, r) => some { s.set_inode ino r.inode with vol := r.vol, itable := r.itable }
    else none

/-- `cominix_clear_inode`. -/
def cominix_clear_inode (s : Fs) (ino : Nat) : Itable :=
  match cominix_V2_raw_inode s.vol.sbi s.vol.dev ino with
  | none => s.itable
  | some (block, slot) =>
    let raw_inode := { s.itable.mem block slot with i_nlinks := 0, i_mode := .other }
    (s.itable.set block (Function.update (s.itable.mem block) slot raw_inode)).mark block

/-- `cominix_free_inode`, the inode bitmap apart. -/
def cominix_free_inode (s : Fs) (ino : Nat) : Itable :=
  if ino < 1 ∨ s.vol.sbi.s_ninodes < ino then s.itable
  else if s.vol.sbi.s_imap_blocks ≤ ino / 2 ^ (s.vol.dev.s_blocksize_bits + 3) then s.itable
  else s.cominix_clear_inode ino

/-- What `cominix_iget` finds. -/
def cominix_iget (s : Fs) (ino : Nat) : Option Inode :=
  match V2_cominix_iget s.vol.sbi s.vol.dev s.itable ino with
  | .error _ => none
  | .ok inode => some inode

/-- `cominix_evict_inode`: without links the inode is freed. With links it is dropped once it was
written back, and read again when it is next asked for. -/
def cominix_evict_inode (s : Fs) (ino : Nat) : Option Fs :=
  match s.inodes ino with
  | none => none
  | some inode =>
    if inode.i_nlink = 0 then
      match cominix_truncate s.vol { inode with i_size := 0 } with
      | none => none
      | some (vol, _) => some { s with
          vol := vol
          itable := { s with vol := vol }.cominix_free_inode ino
          inodes := Function.update s.inodes ino none }
    else if inode.dirty then none
    else some { s with inodes := Function.update s.inodes ino (s.cominix_iget ino) }

/-- `cominix_write_inode`, for an inode that is marked. -/
def write_inode (s : Fs) (ino : Nat) : Option Fs :=
  match s.inodes ino with
  | none => none
  | some inode =>
    match cominix_write_inode s.vol.sbi s.vol.dev s.itable ino inode with
    | none => none
    | some itable => some { s.set_inode ino { inode with dirty := false } with itable := itable }

/-- Every marked inode is written back. -/
def sync_inodes (s : Fs) : Fs :=
  (List.range (s.vol.sbi.s_ninodes + 1)).foldl (fun (s : Fs) (ino : Nat) =>
    match s.inodes ino with
    | none => s
    | some inode => if inode.dirty then (s.write_inode ino).getD s else s) s

/-- Every marked buffer is written, and the others may be dropped. -/
def sync_buffers (s : Fs) (keep : Nat → Bool) : Fs :=
  { s with
    vol := { s.vol with
      dev := { s.vol.dev with bh := s.vol.dev.bh.sync keep }
      s_zmap := s.vol.s_zmap.sync keep }
    itable := s.itable.sync keep
    s_sbh := s.s_sbh.sync keep }

/-- `cominix_fill_super` on the buffers, from the extra superblock on, when there is one. `none` is a
mount that fails, too. -/
def fill_super (s : Fs) : Option Fs :=
  match cminix_fill_extra_super (sb_info (.read (s.s_sbh.bh.mem 1))) s.vol.dev with
  | none => none
  | some sbi =>
    match fill_nzones sbi s.vol.dev with
    | none => none
    | some sbi =>
      if s.vol.dev.nblocks < 2 + sbi.s_imap_blocks + sbi.s_zmap_blocks
          ∨ sbi.s_imap_blocks < cominix_blocks_needed sbi.s_ninodes s.vol.dev.bs
          ∨ sbi.s_zmap_blocks < cominix_blocks_needed
              (sbi.s_nzones + (2 ^ 64 - sbi.s_firstdatazone) + 1) s.vol.dev.bs
          ∨ sbi.extra_sb_location = 0 then none
      else
        let s := { s with
          vol := { s.vol with sbi := sbi, s_zmap := set_bit_zero s.vol.s_zmap, printk := [] }
          s_sbh := { s.s_sbh with bh := s.s_sbh.bh.mark 1 } }
        match V2_cominix_iget sbi s.vol.dev s.itable 1 with
        | .error _ => none
        | .ok _ => some { s with inodes := s.cominix_iget }

/-- An unmount and a mount. The VFS unmounts when no inode without links is left: one that is still
open keeps the file system busy. -/
def remount (s : Fs) (keep : Nat → Bool) : Option Fs :=
  if (List.range (s.vol.sbi.s_ninodes + 1)).all fun ino =>
      (s.inodes ino).all fun inode => inode.i_nlink != 0 then
    (s.sync_inodes.sync_buffers keep).fill_super
  else none

/-- One step. -/
def step (md5 : List UInt8 → UInt64) (s : Fs) : FsOp → Option Fs
  | .new_inode ino mode rdev => s.cominix_new_inode ino mode rdev
  | .set_nlink ino nlink => s.set_nlink ino nlink
  | .get_block ino block getblk => s.cominix_get_block ino block getblk
  | .write ino block data => s.write ino block data
  | .set_size ino size => s.set_size ino size
  | .truncate ino => s.truncate ino
  | .chunk ino results => s.chunk md5 ino results
  | .evict ino => s.cominix_evict_inode ino
  | .write_inode ino => s.write_inode ino
  | .remount keep => s.remount keep

end Fs

/-- The file system a mount leaves. `survives` says whether the buffer of the superblock survives a
change of the block size. -/
def SuperBlock.fs (m : SuperBlock) (survives : Bool) : Fs :=
  let s_sbh : Sbh := ⟨m.s_sbh, m.vol.dev.s_blocksize_bits == 10 || survives⟩
  let s : Fs := ⟨m.vol, m.itable, s_sbh, fun _ => none⟩
  { s with inodes := s.cominix_iget }

end CominixFs
