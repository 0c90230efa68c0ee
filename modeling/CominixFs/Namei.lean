import CominixFs.DirEntries
import CominixFs.Lib.Bitmap
import CominixFs.Lib.Runs

/-!
# Names and inodes (`namei.c`, `bitmap.c`)

The inodes of a mounted volume with the directories they hold, the inode bitmap, and the operations
on names. `call` is an operation as the VFS makes it: it looks the names up, checks what it checks
before it calls the driver, and marks a removed directory. The driver is passed how each change of a
page goes (`Commit`), in the order the changes are made, and whether memory for a new inode is there.
-/

namespace CominixFs
open Bitmap

/-- What the operations look at of a `struct inode`, with the directory it holds. -/
structure Node where
  i_mode : Ftype
  i_nlink : Nat
  S_DEAD : Bool
  dir : Directory

/-- A mounted volume as the operations on names see it. -/
structure NameFs where
  sbi : SbInfo
  s_blocksize_bits : Nat
  s_imap : Buffers (Nat → Bool)
  inodes : Nat → Option Node

def MINIX_ROOT_INO : Nat := 1

/-- `MINIX2_LINK_MAX`. -/
def s_max_links : Nat := 65530

namespace NameFs

/-- Bits in one block of the inode bitmap. -/
def bits_per_zone (s : NameFs) : Nat := 8 * 2 ^ s.s_blocksize_bits

/-- The bit of an inode. -/
def ibit (s : NameFs) (ino : Nat) : Bool := bitAt s.s_imap s.bits_per_zone ino

def modify (s : NameFs) (ino : Nat) (f : Node → Node) : NameFs :=
  { s with inodes := Function.update s.inodes ino ((s.inodes ino).map f) }

/-- The directory an inode holds. -/
def dir (s : NameFs) (ino : Nat) : Directory :=
  match s.inodes ino with
  | some inode => inode.dir
  | none => .new

/-- The outcome of an operation on the directory of an inode. -/
def on_dir (s : NameFs) (ino : Nat) (r : Directory × Option DirErr) : NameFs × Option DirErr :=
  (s.modify ino fun inode => { inode with dir := r.1 }, r.2)

def S_ISDIR (s : NameFs) (ino : Nat) : Bool :=
  match s.inodes ino with
  | some inode => inode.i_mode == .dir
  | none => false

def i_nlink (s : NameFs) (ino : Nat) : Nat :=
  match s.inodes ino with
  | some inode => inode.i_nlink
  | none => 0

/-- A directory that has not been removed. -/
def live (s : NameFs) (ino : Nat) : Bool :=
  match s.inodes ino with
  | some inode => inode.i_mode == .dir && !inode.S_DEAD
  | none => false

end NameFs

/-! ## The inode bitmap -/

/-- The loop of `cominix_new_inode`: the first zero bit of the first block that has one. -/
def new_inode_loop (s : NameFs) : Option (Nat × Nat) :=
  (List.range s.sbi.s_imap_blocks).findSome? fun i =>
    let j := find_first_zero_bit (s.s_imap.mem i) s.bits_per_zone
    if j < s.bits_per_zone then some (i, j) else none

/-- `cominix_new_inode`; `memory` says whether the VFS has a new inode to give. A bit found past
the last inode stays set. -/
def cominix_new_inode (s : NameFs) (mode : Ftype) (memory : Bool) : NameFs × Except DirErr Nat :=
  if !memory then (s, .error .ENOMEM)
  else
    match new_inode_loop s with
    | none => (s, .error .ENOSPC)
    | some (i, j) =>
      if s.s_imap.mem i j then (s, .error .ENOSPC)
      else
        let s := { s with s_imap := assign s.s_imap i j true }
        let ino := j + i * s.bits_per_zone
        if ino = 0 ∨ s.sbi.s_ninodes < ino then (s, .error .ENOSPC)
        else
          let inode : Node := { i_mode := mode, i_nlink := 1, S_DEAD := false, dir := .new }
          ({ s with inodes := Function.update s.inodes ino (some inode) }, .ok ino)

/-- `cominix_free_inode`, the inode on disk apart. -/
def cominix_free_inode (s : NameFs) (ino : Nat) : NameFs :=
  if ino < 1 ∨ s.sbi.s_ninodes < ino then s
  else
    let k := s.s_blocksize_bits + 3
    let bit := ino % 2 ^ k
    let ino := ino / 2 ^ k
    if s.sbi.s_imap_blocks ≤ ino then s
    else { s with s_imap := assign s.s_imap ino bit false }

/-- `cominix_evict_inode`: an inode without links is freed; one with links stays on the disk. -/
def cominix_evict_inode (s : NameFs) (ino : Nat) : NameFs :=
  if s.i_nlink ino = 0 then
    let s := { s with inodes := Function.update s.inodes ino none }
    cominix_free_inode s ino
  else s

/-! ## Link counts -/

def inc_nlink (i_nlink : Nat) : Nat := (i_nlink + 1) % 2 ^ 32

def drop_nlink (i_nlink : Nat) : Nat := (i_nlink + (2 ^ 32 - 1)) % 2 ^ 32

def inode_inc_link_count (s : NameFs) (ino : Nat) : NameFs :=
  s.modify ino fun inode => { inode with i_nlink := inc_nlink inode.i_nlink }

def inode_dec_link_count (s : NameFs) (ino : Nat) : NameFs :=
  s.modify ino fun inode => { inode with i_nlink := drop_nlink inode.i_nlink }

/-! ## The operations of the driver -/

/-- `add_nondir`. -/
def add_nondir (s : NameFs) (dir : Nat) (name : List UInt8) (ino : Nat) (io : Commit) :
    NameFs × Option DirErr :=
  match s.on_dir dir (cominix_add_link (s.dir dir) name ino io) with
  | (s, none) => (s, none)
  | (s, some err) => (cominix_evict_inode (inode_dec_link_count s ino) ino, some err)

/-- The device numbers that fit in 16 bits. -/
def old_valid_dev (rdev : Nat) : Bool := rdev / 2 ^ 20 < 256 && rdev % 2 ^ 20 < 256

def cominix_mknod (s : NameFs) (dir : Nat) (name : List UInt8) (mode : Ftype) (rdev : Nat)
    (memory : Bool) (io : Commit) : NameFs × Option DirErr :=
  if !old_valid_dev rdev then (s, some .EINVAL)
  else
    match cominix_new_inode s mode memory with
    | (s, .error err) => (s, some err)
    | (s, .ok ino) => add_nondir s dir name ino io

def cominix_create (s : NameFs) (dir : Nat) (name : List UInt8) (mode : Ftype) (memory : Bool)
    (io : Commit) : NameFs × Option DirErr :=
  cominix_mknod s dir name mode 0 memory io

/-- `cominix_symlink`; `page_symlink` is what storing the text of the link returns. -/
def cominix_symlink (s : NameFs) (dir : Nat) (name symname : List UInt8) (memory : Bool)
    (page_symlink : Option DirErr) (io : Commit) : NameFs × Option DirErr :=
  if 2 ^ s.s_blocksize_bits < symname.length + 1 then (s, some .ENAMETOOLONG)
  else
    match cominix_new_inode s .lnk memory with
    | (s, .error err) => (s, some err)
    | (s, .ok ino) =>
      match page_symlink with
      | some err => (cominix_evict_inode (inode_dec_link_count s ino) ino, some err)
      | none => add_nondir s dir name ino io

def cominix_link (s : NameFs) (ino dir : Nat) (name : List UInt8) (io : Commit) :
    NameFs × Option DirErr :=
  add_nondir (inode_inc_link_count s ino) dir name ino io

/-- `out_fail` of `cominix_mkdir`. -/
def mkdir_fail (s : NameFs) (dir ino : Nat) : NameFs :=
  let s := inode_dec_link_count s ino
  let s := inode_dec_link_count s ino
  let s := cominix_evict_inode s ino
  inode_dec_link_count s dir

def cominix_mkdir (s : NameFs) (dir : Nat) (name : List UInt8) (memory : Bool)
    (make add : Commit) : NameFs × Option DirErr :=
  match cominix_new_inode s .dir memory with
  | (s, .error err) => (s, some err)
  | (s, .ok ino) =>
    let s := inode_inc_link_count s dir
    let s := inode_inc_link_count s ino
    match s.on_dir ino (cominix_make_empty (s.dir ino) ino dir make) with
    | (s, some err) => (mkdir_fail s dir ino, some err)
    | (s, none) =>
      match s.on_dir dir (cominix_add_link (s.dir dir) name ino add) with
      | (s, some err) => (mkdir_fail s dir ino, some err)
      | (s, none) => (s, none)

def cominix_unlink (s : NameFs) (dir : Nat) (name : List UInt8) (ino : Nat) (io : Commit) :
    NameFs × Option DirErr :=
  match cominix_find_entry (s.dir dir) name with
  | none => (s, some .ENOENT)
  | some (n, k) =>
    match s.on_dir dir (cominix_delete_entry (s.dir dir) n k io) with
    | (s, some err) => (s, some err)
    | (s, none) => (inode_dec_link_count s ino, none)

def cominix_rmdir (s : NameFs) (dir : Nat) (name : List UInt8) (ino : Nat) (io : Commit) :
    NameFs × Option DirErr :=
  if cominix_empty_dir (s.dir ino) ino then
    match cominix_unlink s dir name ino io with
    | (s, some err) => (s, some err)
    | (s, none) => (inode_dec_link_count (inode_dec_link_count s dir) ino, none)
  else (s, some .ENOTEMPTY)

/-- The part of `cominix_rename` about the new name: the entry there is made to name the inode, or a
new one is added. -/
def rename_target (s : NameFs) (is_dir : Bool) (old_ino new_dir : Nat) (new_name : List UInt8)
    (new_ino : Option Nat) (io : Commit) : NameFs × Option DirErr :=
  match new_ino with
  | some new_ino =>
    if is_dir && !cominix_empty_dir (s.dir new_ino) new_ino then (s, some .ENOTEMPTY)
    else
      match cominix_find_entry (s.dir new_dir) new_name with
      | none => (s, some .ENOENT)
      | some (n, k) =>
        match s.on_dir new_dir (cominix_set_link (s.dir new_dir) n k old_ino io) with
        | (s, some err) => (s, some err)
        | (s, none) =>
          let s := if is_dir then inode_dec_link_count s new_ino else s
          (inode_dec_link_count s new_ino, none)
  | none =>
    match s.on_dir new_dir (cominix_add_link (s.dir new_dir) new_name old_ino io) with
    | (s, some err) => (s, some err)
    | (s, none) => (if is_dir then inode_inc_link_count s new_dir else s, none)

/-- The part of `cominix_rename` about the old name, whose entry is at `n`, `k`: it goes, and `..` of
a directory is made to name the new one above. -/
def rename_source (s : NameFs) (is_dir : Bool) (old_dir n k old_ino new_dir : Nat)
    (delete above : Commit) : NameFs × Option DirErr :=
  match s.on_dir old_dir (cominix_delete_entry (s.dir old_dir) n k delete) with
  | (s, some err) => (s, some err)
  | (s, none) =>
    if is_dir then
      let dir_de := cominix_dotdot
      match s.on_dir old_ino
          (cominix_set_link (s.dir old_ino) dir_de.1 dir_de.2 new_dir above) with
      | (s, some err) => (s, some err)
      | (s, none) => (inode_dec_link_count s old_dir, none)
    else (s, none)

/-- `cominix_rename`; of the flags only `RENAME_NOREPLACE` is known. -/
def cominix_rename (s : NameFs) (old_dir : Nat) (old_name : List UInt8) (old_ino new_dir : Nat)
    (new_name : List UInt8) (new_ino : Option Nat) (flags : Nat) (target delete above : Commit) :
    NameFs × Option DirErr :=
  if flags / 2 ≠ 0 then (s, some .EINVAL)
  else
    match cominix_find_entry (s.dir old_dir) old_name with
    | none => (s, some .ENOENT)
    | some (n, k) =>
      let is_dir := s.S_ISDIR old_ino
      match rename_target s is_dir old_ino new_dir new_name new_ino target with
      | (s, some err) => (s, some err)
      | (s, none) => rename_source s is_dir old_dir n k old_ino new_dir delete above

/-! ## The operations as the VFS makes them -/

/-- An operation on names, with the outcome of what can fail in it. `evict` is the VFS dropping an
inode that nothing refers to any more. -/
inductive NameOp where
  | create (dir : Nat) (name : List UInt8) (memory : Bool) (io : Commit)
  | mknod (dir : Nat) (name : List UInt8) (mode : Ftype) (rdev : Nat) (memory : Bool) (io : Commit)
  | symlink (dir : Nat) (name symname : List UInt8) (memory : Bool) (page_symlink : Option DirErr)
      (io : Commit)
  | link (ino dir : Nat) (name : List UInt8) (io : Commit)
  | mkdir (dir : Nat) (name : List UInt8) (memory : Bool) (make add : Commit)
  | unlink (dir : Nat) (name : List UInt8) (io : Commit)
  | rmdir (dir : Nat) (name : List UInt8) (io : Commit)
  | rename (old_dir : Nat) (old_name : List UInt8) (new_dir : Nat) (new_name : List UInt8)
      (flags : Nat) (target delete above : Commit)
  | evict (ino : Nat)

namespace NameFs

/-- The inode of a name, 0 when there is none. -/
def lookup (s : NameFs) (dir : Nat) (name : List UInt8) : Nat :=
  cominix_inode_by_name (s.dir dir) name

/-- A name that is free in a directory that is there. -/
def may_create (s : NameFs) (dir : Nat) (name : List UInt8) : Prop :=
  s.live dir = true ∧ ValidName name ∧ s.lookup dir name = 0

/-- A name in a directory that is there, and its inode. -/
def may_delete (s : NameFs) (dir : Nat) (name : List UInt8) : Prop :=
  s.live dir = true ∧ ValidName name ∧ s.lookup dir name ≠ 0 ∧
    (s.inodes (s.lookup dir name)).isSome = true

instance (s : NameFs) (dir : Nat) (name : List UInt8) : Decidable (s.may_create dir name) :=
  inferInstanceAs (Decidable (_ ∧ _))

instance (s : NameFs) (dir : Nat) (name : List UInt8) : Decidable (s.may_delete dir name) :=
  inferInstanceAs (Decidable (_ ∧ _))

/-- The directory above, as `..` names it. -/
def parent (s : NameFs) (dir : Nat) : Nat := ((s.dir dir).slot 1).inode

/-- One directory is another or above it. -/
def d_ancestor (s : NameFs) (above dir : Nat) : Bool :=
  (List.range (s.sbi.s_ninodes + 1)).any fun k => s.parent^[k] dir == above

/-- The VFS lets an inode take the place of another of its kind. -/
def may_replace (s : NameFs) (old_ino new_ino flags : Nat) : Prop :=
  flags % 2 = 0 ∧ (s.inodes new_ino).isSome = true ∧ new_ino ≠ old_ino ∧
    s.S_ISDIR new_ino = s.S_ISDIR old_ino

instance (s : NameFs) (old_ino new_ino flags : Nat) :
    Decidable (s.may_replace old_ino new_ino flags) := inferInstanceAs (Decidable (_ ∧ _))

/-- What the VFS checks before it renames. -/
def may_rename (s : NameFs) (old_dir : Nat) (old_name : List UInt8) (new_dir : Nat)
    (new_name : List UInt8) (flags : Nat) : Prop :=
  s.may_delete old_dir old_name ∧
    s.live new_dir = true ∧ ValidName new_name ∧
    (s.lookup new_dir new_name ≠ 0 →
      s.may_replace (s.lookup old_dir old_name) (s.lookup new_dir new_name) flags) ∧
    (s.S_ISDIR (s.lookup old_dir old_name) = true →
      s.d_ancestor (s.lookup old_dir old_name) new_dir = false) ∧
    (s.S_ISDIR (s.lookup old_dir old_name) = true → s.lookup new_dir new_name = 0 →
      new_dir ≠ old_dir → s.i_nlink new_dir < s_max_links)

instance (s : NameFs) (old_dir : Nat) (old_name : List UInt8) (new_dir : Nat)
    (new_name : List UInt8) (flags : Nat) :
    Decidable (s.may_rename old_dir old_name new_dir new_name flags) :=
  inferInstanceAs (Decidable (_ ∧ _))

/-- `S_DEAD` is set on a directory that an operation removed. -/
def set_dead (ino : Nat) (r : NameFs × Option DirErr) : NameFs × Option DirErr :=
  match r with
  | (s, none) => (s.modify ino fun inode => { inode with S_DEAD := true }, none)
  | (s, some err) => (s, some err)

/-- An operation and what it returns; `none` when the VFS does not call the driver. -/
def call (s : NameFs) : NameOp → Option (NameFs × Option DirErr)
  | .create dir name memory io =>
    if s.may_create dir name then some (cominix_create s dir name .reg memory io) else none
  | .mknod dir name mode rdev memory io =>
    if s.may_create dir name ∧ mode ≠ .dir then
      some (cominix_mknod s dir name mode rdev memory io)
    else none
  | .symlink dir name symname memory page_symlink io =>
    if s.may_create dir name then
      some (cominix_symlink s dir name symname memory page_symlink io)
    else none
  | .link ino dir name io =>
    if s.may_create dir name ∧ s.S_ISDIR ino = false ∧ s.i_nlink ino ≠ 0 ∧
        s.i_nlink ino < s_max_links then
      some (cominix_link s ino dir name io)
    else none
  | .mkdir dir name memory make add =>
    if s.may_create dir name ∧ s.i_nlink dir < s_max_links then
      some (cominix_mkdir s dir name memory make add)
    else none
  | .unlink dir name io =>
    let ino := s.lookup dir name
    if s.may_delete dir name ∧ s.S_ISDIR ino = false then
      some (cominix_unlink s dir name ino io)
    else none
  | .rmdir dir name io =>
    let ino := s.lookup dir name
    if s.may_delete dir name ∧ s.S_ISDIR ino = true then
      some (set_dead ino (cominix_rmdir s dir name ino io))
    else none
  | .rename old_dir old_name new_dir new_name flags target delete above =>
    let old_ino := s.lookup old_dir old_name
    let new_ino := s.lookup new_dir new_name
    if s.may_rename old_dir old_name new_dir new_name flags then
      let r := cominix_rename s old_dir old_name old_ino new_dir new_name
        (if new_ino = 0 then none else some new_ino) flags target delete above
      some (if new_ino ≠ 0 ∧ s.S_ISDIR old_ino = true then set_dead new_ino r else r)
    else none
  | .evict ino =>
    if (s.inodes ino).isSome = true then some (cominix_evict_inode s ino, none) else none

/-- The state after an operation. -/
def step (s : NameFs) (op : NameOp) : Option NameFs := (s.call op).map (·.1)

end NameFs

end CominixFs
