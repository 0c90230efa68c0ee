import CominixFs.Inode
import CominixFs.ZoneBitmap

/-!
# The block tree of an inode (`itree_v2.c`, `itree_common.c`)

`get_block` finds or allocates the zone of a logical block, `truncate` frees the blocks past the
end of the file. A pointer into a tree is a word of `i_data` or of an indirect block. `none` is a
`BUG()`, or a `get_block` that rereads its branch for ever.
-/

namespace CominixFs
open Bytes

/-- Where an `Indirect` points: into `i_data`, or into the block of its buffer head. -/
inductive Ptr where
  | i_data (k : Nat)
  | word (bh k : Nat)
deriving DecidableEq

/-- `Indirect`. -/
structure Indirect where
  p : Ptr
  key : Nat

inductive Errno where
  | EIO
  | EAGAIN
  | ENOSPC
  | ENOMEM
deriving DecidableEq, Repr

/-- A 32-bit word of a block. -/
def Dev.word (d : Dev) (bh k : Nat) : Nat := le (d.bh.mem bh) (4 * k) 4

/-- `*p`. -/
def Ptr.get (v : Vol) (inode : Inode) : Ptr → Nat
  | .i_data k => inode.i_data k
  | .word bh k => v.dev.word bh k

/-- Store a word in the buffer of a block; the buffer is not marked. -/
def Dev.set_word (d : Dev) (bh k x : Nat) : Dev := d.store bh (put (d.bh.mem bh) (4 * k) 4 x)

/-- Store a zone word. -/
def Inode.set_data (inode : Inode) (k x : Nat) : Inode :=
  { inode with i_data := Function.update inode.i_data k x }

/-- `*p = x`. -/
def Ptr.set (v : Vol) (inode : Inode) (x : Nat) : Ptr → Vol × Inode
  | .i_data k => (v, inode.set_data k x)
  | .word bh k => ({ v with dev := v.dev.set_word bh k x }, inode)

def INDIRCOUNT (v : Vol) : Nat := 2 ^ (v.dev.s_blocksize_bits - 2)

/-- `block_to_path`: the offsets, none for a block past the largest size. An offset is an `int`. -/
def block_to_path (v : Vol) (block : Nat) : List Nat :=
  let n := INDIRCOUNT v
  if v.sbi.s_maxbytes ≤ block * v.dev.bs % 2 ^ 64 then []
  else if block < 7 then [block]
  else if block - 7 < n then [7, block - 7]
  else if block - 7 - n < n * n then [8, (block - 7 - n) / n, (block - 7 - n) % n]
  else
    let block := block - 7 - n - n * n
    [9, block / n / n % 2 ^ 32, block / n % n, block % n]

def verify_chain (v : Vol) (inode : Inode) (chain : List Indirect) : Bool :=
  chain.all fun c => c.key == c.p.get v inode

/-- What `get_branch` leaves: the chain up to the last entry read, whether that is the whole path,
and the error. -/
structure Branch where
  chain : List Indirect
  found : Bool
  err : Option Errno

/-- The loop of `get_branch`: `p` is the entry last read, `chain` those before it. -/
def get_branch_loop (v : Vol) (inode : Inode) : List Indirect → Indirect → List Nat → Branch
  | chain, p, [] => ⟨chain ++ [p], p.key != 0, none⟩
  | chain, p, off :: offsets =>
    if p.key = 0 then ⟨chain ++ [p], false, none⟩
    else if v.dev.nblocks ≤ p.key then ⟨chain ++ [p], false, some Errno.EIO⟩
    else if verify_chain v inode (chain ++ [p]) then
      get_branch_loop v inode (chain ++ [p]) ⟨.word p.key off, v.dev.word p.key off⟩ offsets
    else ⟨chain ++ [p], false, some .EAGAIN⟩

def get_branch (v : Vol) (inode : Inode) (offsets : List Nat) : Branch :=
  get_branch_loop v inode [] ⟨.i_data (offsets.headD 0), inode.i_data (offsets.headD 0)⟩ offsets.tail

/-- `bforget` of the buffer an entry points into. -/
def bforget_entry (v : Vol) (c : Indirect) : Vol :=
  match c.p with
  | .i_data _ => v
  | .word bh _ => { v with dev := v.dev.bforget bh }

/-- The end of a failed `alloc_branch` and of a failed `splice_branch`. -/
def free_branch (v : Vol) (branch : List Indirect) : Vol :=
  branch.foldl (fun v c => cominix_free_block v c.key) (branch.tail.foldl bforget_entry v)

/-- The loop of `alloc_branch`. `getblk` says for which blocks `sb_getblk` gets a buffer. -/
def alloc_loop (getblk : Nat → Bool) :
    List Nat → Vol → Nat → List Indirect → Vol × List Indirect × Option Errno
  | [], v, _, branch => (v, branch, none)
  | off :: offsets, v, parent, branch =>
    let (v, nr) := cominix_new_block v
    if nr = 0 then (v, branch, some .ENOSPC)
    else if getblk parent then
      let d := v.dev.store parent (put (fun _ => 0) (4 * off) 4 nr)
      alloc_loop getblk offsets { v with dev := d.mark_buffer_dirty parent } nr
        (branch ++ [⟨.word parent off, nr⟩])
    else (cominix_free_block v nr, branch, some .ENOMEM)

/-- `alloc_branch`: `where_` is the entry to hang the branch on, `offsets` those below it. -/
def alloc_branch (getblk : Nat → Bool) (v : Vol) (where_ : Indirect) (offsets : List Nat) :
    Vol × List Indirect × Option Errno :=
  let (v, parent) := cominix_new_block v
  if parent = 0 then (v, [], some .ENOSPC)
  else
    match alloc_loop getblk offsets v parent [⟨where_.p, parent⟩] with
    | (v, branch, none) => (v, branch, none)
    | (v, branch, some err) => (free_branch v branch, branch, some err)

/-- `mark_buffer_dirty_inode` of the buffer an entry points into. -/
def mark_entry (v : Vol) (p : Ptr) : Vol :=
  match p with
  | .i_data _ => v
  | .word bh _ => { v with dev := v.dev.mark_buffer_dirty bh }

/-- `splice_branch`: false when the place is no longer vacant. -/
def splice_branch (v : Vol) (inode : Inode) (chain branch : List Indirect) (where_ : Indirect) :
    Vol × Inode × Bool :=
  if verify_chain v inode chain && where_.p.get v inode == 0 then
    let (v, inode) := where_.p.set v inode where_.key
    (mark_entry v where_.p, mark_inode_dirty inode, true)
  else (free_branch v branch, inode, false)

/-- What `get_block` returns. -/
inductive GetBlock where
  | mapped (nr : Nat) (new : Bool)
  | hole
  | failed (err : Errno)
deriving DecidableEq, Repr

/-- `get_block` from `reread` on. -/
def get_block_loop (getblk : Nat → Bool) (create : Bool) (offsets : List Nat) :
    Nat → Vol → Inode → Option (Vol × Inode × GetBlock)
  | 0, _, _ => none
  | fuel + 1, v, inode =>
    if inode.i_data 0 = 1 ∨ inode.i_data 1 = 1 then none
    else
      let b := get_branch v inode offsets
      let partial_ := b.chain.getLastD ⟨.i_data 0, 0⟩
      if b.found then some (v, inode, .mapped partial_.key false)
      else if !create || b.err == some Errno.EIO then
        some (v, inode, match b.err with | none => .hole | some err => .failed err)
      else if b.err == some .EAGAIN then get_block_loop getblk create offsets fuel v inode
      else
        match alloc_branch getblk v partial_ (offsets.drop b.chain.length) with
        | (v, _, some err) => some (v, inode, .failed err)
        | (v, branch, none) =>
          let where_ := branch.headD ⟨.i_data 0, 0⟩
          match splice_branch v inode b.chain.dropLast branch where_ with
          | (v, inode, false) => get_block_loop getblk create offsets fuel v inode
          | (v, inode, true) =>
            some (v, inode, .mapped (branch.getLastD ⟨.i_data 0, 0⟩).key true)

/-- `get_block`. -/
def get_block (getblk : Nat → Bool) (v : Vol) (inode : Inode) (block : Nat) (create : Bool) :
    Option (Vol × Inode × GetBlock) :=
  match block_to_path v block with
  | [] => some (v, inode, .failed Errno.EIO)
  | offsets => get_block_loop getblk create offsets (2 ^ 32) v inode

/-- `all_zeroes`, from the start of a block to a word. -/
def all_zeroes (d : Dev) (bh : Nat) : Nat → Bool
  | 0 => true
  | k + 1 => d.word bh k == 0 && all_zeroes d bh k

/-- The loop of `find_shared`, over the entries of the chain from the last one up. -/
def climb (v : Vol) : List Indirect → List Indirect
  | c :: c' :: cs =>
    match c.p with
    | .word bh k => if all_zeroes v.dev bh k then climb v (c' :: cs) else c :: c' :: cs
    | .i_data _ => c :: c' :: cs
  | cs => cs

/-- The loop that sets `k` in `find_shared`: trailing zero offsets are dropped, but not the first. -/
def strip_zeroes : List Nat → List Nat
  | [] => []
  | k :: ks => k :: (ks.reverse.dropWhile (· == 0)).reverse

/-- `find_shared`: the chain up to the entry returned, the last one first, and `*top`. -/
def find_shared (v : Vol) (inode : Inode) (offsets : List Nat) :
    Vol × Inode × List Indirect × Nat :=
  let path := strip_zeroes offsets
  let b := get_branch v inode path
  let partial_ := b.chain.getLastD ⟨.i_data 0, 0⟩
  if partial_.key = 0 ∧ partial_.p.get v inode ≠ 0 then (v, inode, b.chain.reverse, 0)
  else
    match climb v b.chain.reverse with
    | [] => (v, inode, [], 0)
    | p :: rest =>
      if p.p matches .word _ _ ∧ (p :: rest).length = path.length then
        match p.p with
        | .word bh k => (v, inode, { p with p := .word bh (k - 1) } :: rest, 0)
        | .i_data _ => (v, inode, p :: rest, 0)
      else
        let top := p.p.get v inode
        let (v, inode) := p.p.set v inode 0
        (v, inode, p :: rest, top)

/-- The loops of `free_branches` and `free_data` over the `n` words of a block from `k` on: a
nonzero word is cleared and what it points to is freed by `f`. -/
def free_words (f : Vol → Nat → Vol) (bh : Nat) : Nat → Nat → Vol → Vol
  | 0, _, v => v
  | n + 1, k, v =>
    let nr := v.dev.word bh k
    if nr = 0 then free_words f bh n (k + 1) v
    else free_words f bh n (k + 1) (f { v with dev := v.dev.set_word bh k 0 } nr)

/-- `free_branches` for the one word `nr`, which the caller has cleared; at depth 0, `free_data`. -/
def free_branches : Nat → Vol → Nat → Vol
  | 0, v, nr => cominix_free_block v nr
  | depth + 1, v, nr =>
    if v.dev.nblocks ≤ nr then v
    else
      let v := free_words (free_branches depth) nr (v.dev.bs / 4) 0 v
      cominix_free_block { v with dev := v.dev.bforget nr } nr

/-- The loop that clears the ends of the indirect blocks on the shared branch; `depth` is that of
the trees below the words of the first entry. -/
def clear_ends : List Indirect → Nat → Vol → Vol
  | c :: c' :: cs, depth, v =>
    match c.p with
    | .word bh k =>
      let v := free_words (free_branches depth) bh (v.dev.bs / 4 - (k + 1)) (k + 1) v
      clear_ends (c' :: cs) (depth + 1) { v with dev := v.dev.mark_buffer_dirty bh }
    | .i_data _ => clear_ends (c' :: cs) (depth + 1) v
  | _, _, v => v

/-- `free_data` for `n` zone words of the inode from `k` on. -/
def free_idata : Nat → Nat → Vol → Inode → Vol × Inode
  | 0, _, v, inode => (v, inode)
  | n + 1, k, v, inode =>
    let nr := inode.i_data k
    if nr = 0 then free_idata n (k + 1) v inode
    else free_idata n (k + 1) (cominix_free_block v nr) (inode.set_data k 0)

/-- `do_indirects`, for the last `n` of the three indirect words. -/
def do_indirects : Nat → Vol → Inode → Vol × Inode
  | 0, v, inode => (v, inode)
  | n + 1, v, inode =>
    let k := 10 - (n + 1)
    let nr := inode.i_data k
    if nr = 0 then do_indirects n v inode
    else do_indirects n (free_branches (k - 6) v nr) (inode.set_data k 0)

/-- `block_truncate_page`: the rest of a block in which the file ends is zeroed. -/
def block_truncate_page (v : Vol) (inode : Inode) : Option Vol :=
  let length := inode.i_size % v.dev.bs
  if length = 0 then some v
  else
    match get_block (fun _ => true) v inode (inode.i_size / v.dev.bs) false with
    | none => none
    | some (v, _, .mapped nr _) =>
      if v.dev.nblocks ≤ nr then some v
      else
        let d := v.dev.store nr
          (memcpy (v.dev.bh.mem nr) length (fun _ => 0) 0 (v.dev.bs - length))
        some { v with dev := d.mark_buffer_dirty nr }
    | some (v, _, _) => some v

/-- `truncate`, after `block_truncate_page`. -/
def truncate_tree (v : Vol) (inode : Inode) (offsets : List Nat) : Vol × Inode :=
  match offsets with
  | [] => (v, inode)
  | [k] =>
    let (v, inode) := free_idata (7 - k) k v inode
    let (v, inode) := do_indirects 3 v inode
    (v, mark_inode_dirty inode)
  | k :: ks =>
    let (v, inode, chain, nr) := find_shared v inode (k :: ks)
    let p := chain.headD ⟨.i_data 0, 0⟩
    let depth := ks.length - (chain.length - 1)
    let v := if nr = 0 then v else free_branches depth (mark_entry v p.p) nr
    let v := clear_ends chain depth v
    let (v, inode) := do_indirects (9 - k) v inode
    (v, mark_inode_dirty inode)

/-- `truncate`. -/
def truncate (v : Vol) (inode : Inode) : Option (Vol × Inode) :=
  let iblock := (inode.i_size + v.dev.bs - 1) / v.dev.bs
  match block_truncate_page v inode with
  | none => none
  | some v => some (truncate_tree v inode (block_to_path v iblock))

/-- `cominix_truncate`: a chunked inode is left as it is. -/
def cominix_truncate (v : Vol) (inode : Inode) : Option (Vol × Inode) :=
  if inode_is_chunked inode then some (v, inode)
  else
    match inode.i_mode with
    | .reg | .dir | .lnk => truncate v inode
    | _ => some (v, inode)

end CominixFs
