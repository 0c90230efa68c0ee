import Mathlib.Data.List.Nodup
import CominixFs.Hashtable

/-!
# The hashtable as a finite map

Runs of "search for a hash, fill when it is not found" from `chunk_reset_hashtable`, as
`chunk_and_replace` does them. After any such run the table is the map from the hashes filled to the
locations they were filled at (`hashtable_refines`): the chain of each bucket, read through the
buffers as `chunk_search_hashtable` reads it, is the list of the chunks filled in that bucket.
-/

namespace CominixFs
open Bytes

/-- The volume, and the hashes filled with their locations, the last one first. -/
structure FillRun where
  vol : Vol
  filled : List (UInt64 × Nat)

/-- Search for the hash of a chunk and fill when it is not found. -/
def fill_step (s : FillRun) (c : UInt64 × List UInt8) : Option FillRun :=
  match search_or_fill s.vol c.1 c.2 with
  | none => none
  | some (vol, location, true) => some ⟨vol, (c.1, location) :: s.filled⟩
  | some (vol, _, false) => some ⟨vol, s.filled⟩

/-- The word of bucket `i`. -/
def bucket_entry (v : Vol) (i : Nat) : Option Nat :=
  match load_blockoff v.dev (v.sbi.hashtable + i * 8) with
  | none => none
  | some (blk, off) => some (le (v.dev.bh.mem blk) off 8)

/-- The hash in the header at a location. -/
def header_hash (d : Dev) (location : Nat) : Option Nat :=
  match load_blockoff d location with
  | none => none
  | some (blk, off) => some (le (d.bh.mem blk) off 8)

/-- The locations from one on, following the `next` fields up to 0. -/
inductive Chain (d : Dev) : Nat → List Nat → Prop where
  | nil : Chain d 0 []
  | cons {loc blk off locs} :
    loc ≠ 0 →
    load_blockoff d loc = some (blk, off) →
    Chain d (le (d.bh.mem blk) (off + 16) 8) locs →
    Chain d loc (loc :: locs)

/-- The chunks of a bucket, of those filled. -/
def inBucket (nb i : Nat) (filled : List (UInt64 × Nat)) : List (UInt64 × Nat) :=
  filled.filter fun p => p.1.toNat % nb = i

/-- The table of a volume is the finite map given by the list of hashes filled. -/
structure Refines (v : Vol) (filled : List (UInt64 × Nat)) : Prop where
  nodup : (filled.map Prod.fst).Nodup
  nonzero : ∀ p ∈ filled, p.2 ≠ 0
  header : ∀ p ∈ filled, header_hash v.dev p.2 = some p.1.toNat
  chain : ∀ i < v.sbi.buckets, ∃ entry, bucket_entry v i = some entry ∧
    Chain v.dev entry ((inBucket v.sbi.buckets i filled).map Prod.snd)
  descending : ∀ i < v.sbi.buckets,
    ((inBucket v.sbi.buckets i filled).map Prod.snd).Pairwise (· > ·)
  search : ∀ h : UInt64, chunk_search_hashtable v h.toNat = some ((filled.lookup h).getD 0)

/-- A stored chunk as an entry of the map. -/
def Stored.entry (c : Stored) : UInt64 × Nat := (UInt64.ofNat c.hash, c.loc)

lemma Stored.entry_hash {c : Stored} (h : c.hash < 2 ^ 64) : c.entry.1.toNat = c.hash := by
  rw [entry, UInt64.toNat_ofNat', Nat.mod_eq_of_lt h]

lemma HeapInv.header {v : Vol} {cs : List Stored} (lay : HeapLayout v) (inv : HeapInv v cs)
    {c : Stored} (hc : c ∈ cs) : header_hash v.dev c.loc = some c.hash := by
  obtain ⟨h0, hhead, hstop⟩ := inv.place lay c hc
  unfold Stored.stop at hstop
  have hword := v.dev.le_mem (a := c.loc) (k := 0) (w := 8) (by omega)
  rw [Nat.add_zero, Nat.add_zero, (inv.holds c hc).hash] at hword
  simp only [header_hash, load_blockoff_eq h0 (by omega) lay.nblocks, hword]

/-- The chain from a bucket is the list of the chunks stored in it. -/
lemma Linked.chain {d : Dev} {nb i : Nat} {cs : List Stored} (hn : d.nblocks ≤ 2 ^ 32)
    (linked : Linked d.flat nb cs)
    (place : ∀ c ∈ cs, 0 < c.loc ∧ c.loc % d.bs + 24 ≤ d.bs ∧ c.stop ≤ d.nblocks * d.bs) :
    Chain d (bucketHead nb i cs) ((cs.filter fun c => c.hash % nb = i).map Stored.loc) := by
  induction cs with
  | nil => exact .nil
  | cons c cs ih =>
    rw [List.forall_mem_cons] at place
    have ih := ih linked.2 place.2
    simp only [bucketHead]
    by_cases hb : c.hash % nb = i
    · obtain ⟨h0, hhead, hstop⟩ := place.1
      unfold Stored.stop at hstop
      rw [if_pos hb, List.filter_cons_of_pos (by simpa using hb), List.map_cons]
      refine .cons (by omega) (load_blockoff_eq h0 (by omega) hn) ?_
      rw [d.le_mem (by omega), linked.1, hb]
      exact ih
    · rw [if_neg hb, List.filter_cons_of_neg (by simpa using hb)]
      exact ih

lemma lookup_entry {cs : List Stored} (lt : ∀ c ∈ cs, c.hash < 2 ^ 64) (h : UInt64) :
    lookup h.toNat cs = ((cs.map Stored.entry).lookup h).getD 0 := by
  induction cs with
  | nil => rfl
  | cons c cs ih =>
    rw [List.forall_mem_cons] at lt
    have hiff : c.hash = h.toNat ↔ h = c.entry.1 := by
      rw [← UInt64.toNat_inj, c.entry_hash lt.1]
      exact eq_comm
    simp only [lookup, List.map_cons]
    by_cases hc : c.hash = h.toNat
    · rw [if_pos hc, hiff.1 hc, List.lookup_cons_self]
      rfl
    · rw [if_neg hc, ih lt.2, List.lookup_cons, beq_false_of_ne fun e => hc (hiff.2 e)]

/-- A heap that holds the chunks refines the map of their hashes to their locations. -/
lemma HeapInv.refines {v : Vol} {cs : List Stored} (lay : HeapLayout v) (inv : HeapInv v cs) :
    Refines v (cs.map Stored.entry) := by
  have hbucket : ∀ i, (inBucket v.sbi.buckets i (cs.map Stored.entry)).map Prod.snd
      = (cs.filter fun c => c.hash % v.sbi.buckets = i).map Stored.loc := by
    intro i
    rw [inBucket, List.filter_map, List.map_map]
    congr 1
    apply List.filter_congr
    intro c hc
    rw [Function.comp_apply, c.entry_hash (inv.hash_lt c hc)]
  refine ⟨?_, ?_, ?_, ?_, ?_, ?_⟩
  · apply List.Nodup.of_map UInt64.toNat
    rw [List.map_map, List.map_map, List.map_congr_left fun c hc => c.entry_hash (inv.hash_lt c hc)]
    exact inv.nodup
  · rw [List.forall_mem_map]
    intro c hc
    exact (inv.place lay c hc).1.ne'
  · rw [List.forall_mem_map]
    intro c hc
    rw [c.entry_hash (inv.hash_lt c hc)]
    exact inv.header lay hc
  · intro i hi
    refine ⟨bucketHead v.sbi.buckets i cs, ?_, ?_⟩
    · simp only [bucket_entry, (lay.load_bucket hi).1, inv.bucket_word lay hi]
    · rw [hbucket]
      exact inv.linked.chain lay.nblocks (inv.place lay)
  · intro i _
    rw [hbucket, List.pairwise_map]
    apply List.Pairwise.filter
    apply inv.apart.imp
    intro c c' h
    unfold Stored.stop at h
    omega
  · intro h
    rw [chunk_search_hashtable_eq lay inv, lookup_entry inv.hash_lt]

/-- Everything a step that returns has done: it found the hash, or stored one more chunk. -/
lemma fill_step_inv {s s' : FillRun} {cs : List Stored} {c : UInt64 × List UInt8}
    (lay : HeapLayout s.vol) (inv : HeapInv s.vol cs)
    (hsize : 0 < c.2.length ∧ c.2.length < 2 ^ 32) (h : fill_step s c = some s') :
    s' = s ∨ ∃ loc, s'.filled = (c.1, loc) :: s.filled ∧ HeapLayout s'.vol ∧
      HeapInv s'.vol (⟨loc, c.1.toNat, c.2⟩ :: cs) := by
  unfold fill_step at h
  cases hr : search_or_fill s.vol c.1 c.2 with
  | none => simp [hr] at h
  | some r =>
    obtain ⟨v', loc, filled⟩ := r
    rw [hr] at h
    rcases inv.search_or_fill lay hsize hr with ⟨rfl, rfl, -, -⟩ | ⟨rfl, -, -, hlay, hinv⟩
    · exact .inl (Option.some.inj h).symm
    · cases h
      exact .inr ⟨loc, rfl, hlay, hinv⟩

/-- The layout holds and the heap is the list of hashes filled. -/
def FillInv (s : FillRun) : Prop :=
  HeapLayout s.vol ∧ ∃ cs, HeapInv s.vol cs ∧ s.filled = cs.map Stored.entry

lemma FillInv.step {s s' : FillRun} {c : UInt64 × List UInt8}
    (hsize : 0 < c.2.length ∧ c.2.length < 2 ^ 32) (inv : FillInv s)
    (h : fill_step s c = some s') : FillInv s' := by
  obtain ⟨lay, cs, hinv, hfilled⟩ := inv
  rcases fill_step_inv lay hinv hsize h with rfl | ⟨loc, hf', lay', hinv'⟩
  · exact ⟨lay, cs, hinv, hfilled⟩
  · refine ⟨lay', _, hinv', ?_⟩
    rw [hf', hfilled, List.map_cons]
    simp [Stored.entry]

/-- After any run of search-or-fill steps from an empty hashtable, the table refines the map from
the hashes filled to their locations, and a further step changes the search of no other hash. -/
theorem hashtable_refines {v v0 : Vol} (lay : TableLayout v) (hreset : chunk_reset_hashtable v = some v0)
    {chunks : List (UInt64 × List UInt8)} {s : FillRun}
    (run : Run fill_step (fun _ c => 0 < c.2.length ∧ c.2.length < 2 ^ 32) ⟨v0, []⟩ chunks s) :
    Refines s.vol s.filled ∧
      ∀ c s', 0 < c.2.length ∧ c.2.length < 2 ^ 32 → fill_step s c = some s' →
        ∀ h : UInt64, h ≠ c.1 →
          chunk_search_hashtable s'.vol h.toNat = chunk_search_hashtable s.vol h.toNat := by
  obtain ⟨v', hv', -, -, -, lay0, inv0⟩ := chunk_reset_hashtable_spec lay
  obtain rfl : v0 = v' := by
    rw [hreset] at hv'
    exact Option.some.inj hv'
  have hinv : FillInv s :=
    run.inv (P := FillInv) (fun hsize inv h => inv.step hsize h) ⟨lay0, [], inv0, rfl⟩
  obtain ⟨slay, cs, sinv, hfilled⟩ := hinv
  refine ⟨hfilled ▸ sinv.refines slay, fun c s' hsize hstep h hne => ?_⟩
  rcases fill_step_inv slay sinv hsize hstep with rfl | ⟨loc, -, slay', sinv'⟩
  · rfl
  · rw [chunk_search_hashtable_eq slay sinv, chunk_search_hashtable_eq slay' sinv']
    simp only [lookup]
    rw [if_neg fun e => hne (UInt64.toNat_inj.1 e.symm)]

/-- A volume of 64 blocks with a hashtable of two buckets. -/
def vol64K : Vol where
  sbi := {
    s_ninodes := 32, s_nzones := 8, s_imap_blocks := 1, s_zmap_blocks := 1
    s_firstdatazone := 6, s_log_zone_size := 0, s_maxbytes := 2147483647
    extra_sb_location := 7, hashtable := 8192, hashtable_size := 16
    heap_brk := 0, max_brk := 65536 }
  dev := { s_blocksize_bits := 10, nblocks := 64, bh := ⟨fun _ _ => 0, fun _ _ => 0, fun _ => false⟩ }
  s_zmap := ⟨fun _ _ => false, fun _ _ => false, fun _ => false⟩
  printk := []

lemma vol64K_layout : TableLayout vol64K :=
  ⟨⟨by decide, by decide, by decide, by decide, by decide, by decide, by decide, by decide⟩,
    by decide, by decide, by decide, by decide⟩

/-- Two chunks of one bucket, the first offered twice. -/
theorem hashtable_refines_vol64K : ∃ v0 s, chunk_reset_hashtable vol64K = some v0 ∧
    Run fill_step (fun _ c => 0 < c.2.length ∧ c.2.length < 2 ^ 32) ⟨v0, []⟩
      [(5, [1, 2]), (7, [3]), (5, [1, 2])] s ∧
    s.filled = [(7, 8234), (5, 8208)] ∧ Refines s.vol s.filled := by
  have h : ((chunk_reset_hashtable vol64K).bind fun v0 => (fill_step ⟨v0, []⟩ (5, [1, 2])).bind
      fun s => (fill_step s (7, [3])).bind fun s => (fill_step s (5, [1, 2])).map fun s =>
        s.filled) = some [(7, 8234), (5, 8208)] := by
    decide +kernel
  simp only [Option.bind_eq_some_iff, Option.map_eq_some_iff] at h
  obtain ⟨v0, h0, s1, h1, s2, h2, s3, h3, hfilled⟩ := h
  have run : Run fill_step (fun _ c => 0 < c.2.length ∧ c.2.length < 2 ^ 32) ⟨v0, []⟩
      [(5, [1, 2]), (7, [3]), (5, [1, 2])] s3 :=
    .cons (by decide) h1 (.cons (by decide) h2 (.cons (by decide) h3 (.nil _)))
  exact ⟨v0, s3, h0, run, hfilled, (hashtable_refines vol64K_layout h0 run).1⟩

end CominixFs
