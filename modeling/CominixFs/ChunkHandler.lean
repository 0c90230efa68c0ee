import CominixFs.Super

/-!
# The chunk heap and its hashtable (`chunk_handler.c`)

`chunk_alloc` moves the heap break, `chunk_search_hashtable` walks a bucket chain through the
chunk headers on disk, `chunk_fill_hashtable` allocates a chunk, puts it in front of its bucket and
writes it. `none` is a `BUG()`, or a walk that never ends: a walk of more than `2 ^ 64` steps visits
a location twice.
-/

namespace CominixFs
open Bytes

/-- `struct chunk_head`, of 24 bytes. -/
structure ChunkHead where
  hash : Nat
  length : Nat
  refcount : Nat
  flags : Nat
  next : Nat

/-- The header as it lies in memory. -/
def ChunkHead.bytes (h : ChunkHead) : List UInt8 :=
  leBytes 8 h.hash ++ leBytes 4 h.length ++ leBytes 2 h.refcount ++ leBytes 2 h.flags
    ++ leBytes 8 h.next

/-- `update_brk_on_disk`: `heap_brk` is at offset 16 of `struct cminix_extra_super_block`. -/
def update_brk_on_disk (v : Vol) (new_brk : Nat) : Option Vol :=
  let b := v.sbi.extra_sb_location
  if b < v.dev.nblocks then
    let d := v.dev.store b (put (v.dev.bh.mem b) 16 8 new_brk)
    some { v with dev := d.mark_buffer_dirty b }
  else none

/-- The round-up of `chunk_alloc`: block numbers and the shift are 32-bit. -/
def round_brk (d : Dev) (brk : Nat) : Nat :=
  if block_no d brk ≠ block_no d ((brk + 23) % 2 ^ 64) then
    (block_no d brk + 1) * d.bs % 2 ^ 32
  else brk

/-- `chunk_alloc`: the volume with the break moved, and the location of the new chunk. -/
def chunk_alloc (v : Vol) (size : Nat) : Option (Vol × Nat) :=
  if size = 0 ∨ 2 ^ 63 ≤ size then none
  else if v.sbi.heap_brk ≤ v.sbi.s_nzones * v.dev.bs then none
  else
    let new := round_brk v.dev v.sbi.heap_brk
    let brk := (new + (24 + size)) % 2 ^ 64
    if v.sbi.max_brk ≤ brk then none
    else
      match update_brk_on_disk { v with sbi := { v.sbi with heap_brk := brk } } brk with
      | none => none
      | some v => some (v, new)

/-- `hashtable_hash`; the remainder by zero buckets is a fault. -/
def hashtable_hash (sbi : SbInfo) (chunk_hash : Nat) : Option Nat :=
  if sbi.hashtable_size / 8 = 0 then none else some (chunk_hash % (sbi.hashtable_size / 8))

/-- The `while` of `chunk_search_hashtable`. -/
def search_chain (d : Dev) (chunk_hash : Nat) : Nat → Nat → Option Nat
  | 0, _ => none
  | fuel + 1, chunk_location =>
    if chunk_location = 0 then some 0
    else
      match load_blockoff d chunk_location with
      | none => none
      | some (blk, off) =>
        if le (d.bh.mem blk) off 8 = chunk_hash then some chunk_location
        else search_chain d chunk_hash fuel (le (d.bh.mem blk) (off + 16) 8)

/-- `chunk_search_hashtable`: the location of the chunk with this hash, or 0. -/
def chunk_search_hashtable (v : Vol) (chunk_hash : Nat) : Option Nat :=
  match hashtable_hash v.sbi chunk_hash with
  | none => none
  | some index =>
    match load_blockoff v.dev (v.sbi.hashtable + index * 8) with
    | none => none
    | some (blk, off) =>
      if v.dev.bs - off < 8 then none
      else search_chain v.dev chunk_hash (2 ^ 64) (le (v.dev.bh.mem blk) off 8)

/-- `copy_chunk_into_storage`. -/
def copy_chunk_into_storage (d : Dev) (storage : Nat) (metadata : ChunkHead) (data : Mem) :
    Option Dev :=
  match write_data_storage d storage (some (ofList metadata.bytes)) 24 with
  | none => none
  | some d => write_data_storage d (storage + 24) (some data) metadata.length

/-- `chunk_reset_hashtable`. -/
def chunk_reset_hashtable (v : Vol) : Option Vol :=
  let sbi := { v.sbi with heap_brk := v.sbi.hashtable + v.sbi.hashtable_size }
  match write_data_storage v.dev sbi.hashtable none sbi.hashtable_size with
  | none => none
  | some d => some { v with sbi := sbi, dev := d }

/-- `chunk_fill_hashtable`: the volume with the chunk stored, and its location. -/
def chunk_fill_hashtable (v : Vol) (metadata : ChunkHead) (data : Mem) : Option (Vol × Nat) :=
  match chunk_alloc v metadata.length with
  | none => none
  | some (v, fresh_chunk) =>
    match hashtable_hash v.sbi metadata.hash with
    | none => none
    | some index =>
      match load_blockoff v.dev (v.sbi.hashtable + index * 8) with
      | none => none
      | some (blk, off) =>
        let metadata := { metadata with next := le (v.dev.bh.mem blk) off 8 }
        let d := v.dev.store blk (put (v.dev.bh.mem blk) off 8 fresh_chunk)
        match copy_chunk_into_storage (d.mark_buffer_dirty blk) fresh_chunk metadata data with
        | none => none
        | some d => some ({ v with dev := d }, fresh_chunk)

end CominixFs
