import CominixFs.Lib.Scan
import CominixFs.InodeTable

/-!
# Directories (`dir.c`)

A directory is its size and the pages of its page cache, each an array of entries of 64 bytes: an
inode number, 0 in a free slot, and a name of 60 bytes. The operations scan page by page; `slot`
numbers the entries of the whole directory, and every operation is characterised by what it does to
the slots. A page read succeeds; `Commit` says how a change of a page goes.
-/

namespace CominixFs

/-- `struct cominix3_dir_entry`. -/
structure Dirent where
  inode : Nat
  name : List UInt8
deriving DecidableEq

/-- The size of a directory and its pages. -/
structure Directory where
  i_size : Nat
  page : Nat → Nat → Dirent

def PAGE_SIZE : Nat := 4096

def s_dirsize : Nat := 64

def s_namelen : Nat := 60

/-- A name as an entry stores it: filled up with zero bytes. -/
def pad (name : List UInt8) : List UInt8 := name ++ List.replicate (s_namelen - name.length) 0

def dot : List UInt8 := [46]

def dotdot : List UInt8 := [46, 46]

/-- A new directory: no entry, and pages of zeros. -/
def Directory.new : Directory := ⟨0, fun _ _ => ⟨0, pad []⟩⟩

/-- What the functions of `dir.c` and `namei.c` fail with. -/
inductive DirErr where
  | EIO
  | ENOENT
  | ENOMEM
  | EEXIST
  | EINVAL
  | ENOSPC
  | ENAMETOOLONG
  | ENOTEMPTY
deriving DecidableEq, Repr

/-- How the change of a page goes: `cominix_prepare_chunk` fails before the page changes, or
`cominix_handle_dirsync` after it has changed. -/
inductive Commit where
  | done
  | prepare_failed (err : DirErr)
  | dirsync_failed (err : DirErr)
deriving DecidableEq

/-- `cominix_last_byte`. -/
def cominix_last_byte (d : Directory) (page_nr : Nat) : Nat :=
  if page_nr = d.i_size / PAGE_SIZE then d.i_size % PAGE_SIZE else PAGE_SIZE

/-- `dir_pages`. -/
def dir_pages (d : Directory) : Nat := (d.i_size + PAGE_SIZE - 1) / PAGE_SIZE

/-- `namecompare`. -/
def namecompare (len maxlen : Nat) (name buffer : List UInt8) : Bool :=
  if len < maxlen ∧ buffer.getD len 0 ≠ 0 then false
  else name.take len == buffer.take len

/-- `cominix_find_entry`: the page and the place in it of the first live entry of that name. -/
def cominix_find_entry (d : Directory) (name : List UInt8) : Option (Nat × Nat) :=
  (List.range (dir_pages d)).findSome? fun n =>
    (List.range (cominix_last_byte d n / s_dirsize)).findSome? fun k =>
      let de := d.page n k
      if de.inode = 0 then none
      else if namecompare name.length s_namelen name de.name then some (n, k)
      else none

/-- Store an entry in a page. -/
def Directory.store (d : Directory) (n k : Nat) (de : Dirent) : Directory :=
  { d with page := Function.update d.page n (Function.update (d.page n) k de) }

/-- `dir_commit_chunk`. -/
def dir_commit_chunk (d : Directory) (pos len : Nat) : Directory :=
  if d.i_size < pos + len then { d with i_size := pos + len } else d

/-- The change of one entry: `cominix_prepare_chunk`, the store, `dir_commit_chunk` and
`cominix_handle_dirsync`. -/
def commit_entry (d : Directory) (n k : Nat) (de : Dirent) (io : Commit) :
    Directory × Option DirErr :=
  let pos := n * PAGE_SIZE + k * s_dirsize
  match io with
  | .prepare_failed err => (d, some err)
  | .done => (dir_commit_chunk (d.store n k de) pos s_dirsize, none)
  | .dirsync_failed err => (dir_commit_chunk (d.store n k de) pos s_dirsize, some err)

/-- Why the scan of `cominix_add_link` stops at an entry. -/
inductive Stop where
  | dir_end
  | unused
  | EEXIST
deriving DecidableEq

/-- The scan of `cominix_add_link`, which goes one page past the end. -/
def add_link_scan (d : Directory) (name : List UInt8) : Option (Nat × Nat × Stop) :=
  (List.range (dir_pages d + 1)).findSome? fun n =>
    (List.range (PAGE_SIZE / s_dirsize)).findSome? fun k =>
      let de := d.page n k
      if k * s_dirsize = cominix_last_byte d n then some (n, k, .dir_end)
      else if de.inode = 0 then some (n, k, .unused)
      else if namecompare name.length s_namelen name de.name then some (n, k, .EEXIST)
      else none

/-- `cominix_add_link`. A scan that never stops ends in `BUG()`. -/
def cominix_add_link (d : Directory) (name : List UInt8) (i_ino : Nat) (io : Commit) :
    Directory × Option DirErr :=
  match add_link_scan d name with
  | none => (d, some .EINVAL)
  | some (_, _, .EEXIST) => (d, some .EEXIST)
  | some (n, k, .unused) => commit_entry d n k ⟨i_ino, pad name⟩ io
  | some (n, k, .dir_end) =>
    -- the entry is cleared before `cominix_prepare_chunk` can fail
    commit_entry (d.store n k { d.page n k with inode := 0 }) n k ⟨i_ino, pad name⟩ io

/-- `cominix_delete_entry`. -/
def cominix_delete_entry (d : Directory) (n k : Nat) (io : Commit) : Directory × Option DirErr :=
  commit_entry d n k { d.page n k with inode := 0 } io

/-- `cominix_set_link`. -/
def cominix_set_link (d : Directory) (n k i_ino : Nat) (io : Commit) :
    Directory × Option DirErr :=
  commit_entry d n k { d.page n k with inode := i_ino } io

/-- `cominix_make_empty`. -/
def cominix_make_empty (d : Directory) (i_ino parent : Nat) (io : Commit) :
    Directory × Option DirErr :=
  let page : Nat → Dirent
    | 0 => ⟨i_ino, pad dot⟩
    | 1 => ⟨parent, pad dotdot⟩
    | _ => ⟨0, pad []⟩
  let made := dir_commit_chunk { d with page := Function.update d.page 0 page } 0 (2 * s_dirsize)
  match io with
  | .prepare_failed err => (d, some err)
  | .done => (made, none)
  | .dirsync_failed err => (made, some err)

/-- `cominix_empty_dir`: the live entries are `.`, naming the directory itself, and `..`. -/
def cominix_empty_dir (d : Directory) (i_ino : Nat) : Bool :=
  (List.range (dir_pages d)).all fun n =>
    (List.range (cominix_last_byte d n / s_dirsize)).all fun k =>
      let de := d.page n k
      if de.inode = 0 then true
      else if de.name.getD 0 0 ≠ 46 then false
      else if de.name.getD 1 0 = 0 then de.inode == i_ino
      else if de.name.getD 1 0 ≠ 46 then false
      else de.name.getD 2 0 == 0

/-- `cominix_dotdot`: the second entry of the first page. -/
def cominix_dotdot : Nat × Nat := (0, 1)

/-- `cominix_inode_by_name`. -/
def cominix_inode_by_name (d : Directory) (name : List UInt8) : Nat :=
  match cominix_find_entry d name with
  | none => 0
  | some (n, k) => (d.page n k).inode

end CominixFs
