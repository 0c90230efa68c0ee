import CominixFs.Super

/-!
# Inodes in memory (`cominix.h`, `inode.c`)

What the driver reads and sets of a `struct inode` and of its ten zone words. After chunking the
words 0 and 9 are markers and the words 1 to 3 hold the list of chunk entries.
-/

namespace CominixFs

/-- The type in `i_mode`: regular, directory, symbolic link, character or block device, or another. -/
inductive Ftype where
  | reg
  | dir
  | lnk
  | dev
  | other
deriving DecidableEq, Repr

inductive FileOps where
  | cominix_file_operations
  | chunked_file_operations
  | cominix_dir_operations
  | other
deriving DecidableEq, Repr

inductive AddressSpaceOps where
  | empty_aops
  | cominix_aops
deriving DecidableEq, Repr

/-- `struct cominix_inode_info`. A device number is kept as it is encoded on disk. -/
structure Inode where
  i_mode : Ftype
  i_nlink : Nat
  i_size : Nat
  i_rdev : Nat
  i_data : Nat → Nat
  i_fop : FileOps
  a_ops : AddressSpaceOps
  dirty : Bool

/-- `(u32)-1`. -/
def chunk_mark : Nat := 4294967295

def switch_inode_to_chunked (inode : Inode) : Inode :=
  { inode with i_data := fun k => if k = 0 ∨ k = 9 then chunk_mark else inode.i_data k }

def inode_is_chunked (inode : Inode) : Bool :=
  inode.i_data 0 == chunk_mark && inode.i_data 9 == chunk_mark

/-- `cominix_set_inode`. -/
def cominix_set_inode (inode : Inode) (rdev : Nat) : Inode :=
  match inode.i_mode with
  | .reg =>
    if inode_is_chunked inode then
      { inode with i_fop := .chunked_file_operations, a_ops := .empty_aops }
    else { inode with i_fop := .cominix_file_operations, a_ops := .cominix_aops }
  | .dir => { inode with i_fop := .cominix_dir_operations, a_ops := .cominix_aops }
  | .lnk => { inode with a_ops := .cominix_aops }
  | .dev => { inode with i_fop := .other, i_rdev := rdev }
  | .other => { inode with i_fop := .other }

/-- `mark_inode_dirty`. -/
def mark_inode_dirty (inode : Inode) : Inode := { inode with dirty := true }

end CominixFs
