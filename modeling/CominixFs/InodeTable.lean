import CominixFs.Inode

/-!
# The inode table (`inode.c`, `bitmap.c`)

A block of the inode table is a buffer of inode slots. `V2_cominix_iget` reads an inode from its
slot, `cominix_write_inode` writes it back and marks the buffer.
-/

namespace CominixFs
open Bytes

/-- `struct cominix2_inode`, as far as the driver looks at it. -/
structure RawInode where
  i_mode : Ftype
  i_nlinks : Nat
  i_size : Nat
  i_zone : Nat → Nat

/-- The blocks of the inode table, each an array of slots. -/
abbrev Itable := Buffers (Nat → RawInode)

/-- The type bits of `i_mode`. -/
def mode_type (i_mode : Nat) : Ftype :=
  match i_mode / 4096 with
  | 8 => .reg
  | 4 => .dir
  | 10 => .lnk
  | 2 | 6 => .dev
  | _ => .other

/-- The inode at an offset of a block. -/
def RawInode.read (b_data : Mem) (off : Nat) : RawInode where
  i_mode := mode_type (le b_data off 2)
  i_nlinks := le b_data (off + 2) 2
  i_size := le b_data (off + 8) 4
  i_zone k := le b_data (off + 24 + 4 * k) 4

/-- The inode table as it lies on a device. -/
def read_itable (d : Dev) : Itable where
  mem b i := RawInode.read (d.bh.mem b) (64 * i)
  disk b i := RawInode.read (d.bh.disk b) (64 * i)
  dirty _ := false

/-- What `cominix_iget` and `cominix_fill_super` fail with. -/
inductive IgetErr where
  | EIO
  | EINVAL
  | ESTALE
deriving DecidableEq, Repr

/-- `cominix_V2_raw_inode`: the block and the slot of an inode. -/
def cominix_V2_raw_inode (sbi : SbInfo) (d : Dev) (ino : Nat) : Option (Nat × Nat) :=
  if ino = 0 ∨ sbi.s_ninodes < ino then none
  else
    let cominix2_inodes_per_block := d.bs / 64
    let block := 2 + sbi.s_imap_blocks + sbi.s_zmap_blocks + (ino - 1) / cominix2_inodes_per_block
    if block < d.nblocks then some (block, (ino - 1) % cominix2_inodes_per_block) else none

/-- `V2_cominix_iget`. -/
def V2_cominix_iget (sbi : SbInfo) (d : Dev) (t : Itable) (ino : Nat) : Except IgetErr Inode :=
  match cominix_V2_raw_inode sbi d ino with
  | none => .error IgetErr.EIO
  | some (block, slot) =>
    let raw_inode := t.mem block slot
    if raw_inode.i_nlinks = 0 then .error .ESTALE
    else .ok (cominix_set_inode {
      i_mode := raw_inode.i_mode
      i_nlink := raw_inode.i_nlinks
      i_size := raw_inode.i_size
      i_rdev := 0
      i_data := fun k => if k < 10 then raw_inode.i_zone k else 0
      i_fop := .other
      a_ops := .empty_aops
      dirty := false } (raw_inode.i_zone 0))

/-- What `V2_cominix_update_inode` stores over a raw inode: of a device only the first zone word. -/
def RawInode.update (raw_inode : RawInode) (inode : Inode) : RawInode where
  i_mode := inode.i_mode
  i_nlinks := inode.i_nlink % 2 ^ 16
  i_size := inode.i_size % 2 ^ 32
  i_zone k :=
    match inode.i_mode with
    | .dev => if k = 0 then inode.i_rdev else raw_inode.i_zone k
    | _ => inode.i_data k

/-- `cominix_write_inode` without a sync: the inode goes to its slot, and the buffer is marked.
`none` is `-EIO`. -/
def cominix_write_inode (sbi : SbInfo) (d : Dev) (t : Itable) (ino : Nat) (inode : Inode) :
    Option Itable :=
  match cominix_V2_raw_inode sbi d ino with
  | none => none
  | some (block, slot) =>
    let raw_inode := (t.mem block slot).update inode
    some ((t.set block (Function.update (t.mem block) slot raw_inode)).mark block)

end CominixFs
