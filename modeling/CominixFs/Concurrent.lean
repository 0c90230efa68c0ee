import Mathlib.Data.Fintype.Basic
import CominixFs.HashtableMap

/-!
# Runs of `chunk_and_replace` side by side

Each run searches for and fills in the chunks of its own file. `cminix_proc_write` locks the inode
and nothing locks the hashtable, so the steps of the runs interleave: one bucket read, one chain
read, one (locked) allocation, one bucket write, one header write, one data write. The writes of one
chunk are three steps, the bucket first.

`lost_chunk` is an interleaving of two runs that loses a chunk. `no_loss` says that in every run of
orderly steps (`Orderly`) nothing is lost, stored twice or read too early. From the bucket write to
the header write the chain of a bucket is broken behind the new chunk, in orderly runs too.
-/

namespace CominixFs
open Bytes

/-- Where a run is with its chunk. -/
inductive Pc where
  | search
  | chain (chunk_location : Nat)
  | alloc
  | entry (fresh_chunk : Nat)
  | publish (fresh_chunk next : Nat)
  | header (fresh_chunk next : Nat)
  | data (fresh_chunk : Nat)
deriving DecidableEq

/-- A run of `chunk_and_replace`: the chunks to come, the one in hand first. -/
structure ChunkRun where
  pc : Pc
  todo : List (UInt64 × List UInt8)

/-- Where a walk goes on: at a location, or past the end of the chain. -/
def walk (chunk_location : Nat) : Pc := if chunk_location = 0 then .alloc else .chain chunk_location

/-- The place of the bucket word of a hash. -/
def load_bucket (v : Vol) (hash : Nat) : Option (Nat × Nat) :=
  match hashtable_hash v.sbi hash with
  | none => none
  | some index => load_blockoff v.dev (v.sbi.hashtable + index * 8)

/-- One step of `chunk_search_hashtable` or `chunk_fill_hashtable`: the volume, and where the run is
then, or that it is done with the chunk. -/
def chunk_step (v : Vol) (hash : UInt64) (data : List UInt8) : Pc → Option (Vol × Option Pc)
  | .search =>
    match load_bucket v hash.toNat with
    | none => none
    | some (blk, off) =>
      if v.dev.bs - off < 8 then none else some (v, some (walk (le (v.dev.bh.mem blk) off 8)))
  | .chain chunk_location =>
    match load_blockoff v.dev chunk_location with
    | none => none
    | some (blk, off) =>
      if le (v.dev.bh.mem blk) off 8 = hash.toNat then some (v, none)
      else some (v, some (walk (le (v.dev.bh.mem blk) (off + 16) 8)))
  | .alloc =>
    match chunk_alloc v (chunk_metadata hash data).length with
    | none => none
    | some (v, fresh_chunk) => some (v, some (.entry fresh_chunk))
  | .entry fresh_chunk =>
    match load_bucket v hash.toNat with
    | none => none
    | some (blk, off) => some (v, some (.publish fresh_chunk (le (v.dev.bh.mem blk) off 8)))
  | .publish fresh_chunk next =>
    match load_bucket v hash.toNat with
    | none => none
    | some (blk, off) =>
      let d := v.dev.store blk (put (v.dev.bh.mem blk) off 8 fresh_chunk)
      some ({ v with dev := d.mark_buffer_dirty blk }, some (.header fresh_chunk next))
  | .header fresh_chunk next =>
    let metadata := { chunk_metadata hash data with next := next }
    match write_data_storage v.dev fresh_chunk (some (ofList metadata.bytes)) 24 with
    | none => none
    | some d => some ({ v with dev := d }, some (.data fresh_chunk))
  | .data fresh_chunk =>
    let length := (chunk_metadata hash data).length
    match write_data_storage v.dev (fresh_chunk + 24) (some (ofList data)) length with
    | none => none
    | some d => some ({ v with dev := d }, none)

variable {ι : Type}

/-- One mount and the runs on it. The logs have the chunks whose bucket was written, the last one
first, those of them whose fill has completed, and the bucket entry that each run's search read. -/
structure Mount (ι : Type) where
  vol : Vol
  runs : ι → ChunkRun
  published : List Stored
  filled : List Stored
  searched : ι → Nat

/-- One step of run `i`. -/
def Mount.step [DecidableEq ι] (s : Mount ι) (i : ι) : Option (Mount ι) :=
  match (s.runs i).todo with
  | [] => none
  | (hash, data) :: todo =>
    match chunk_step s.vol hash data (s.runs i).pc with
    | none => none
    | some (v, some pc) =>
      some { s with
        vol := v
        runs := Function.update s.runs i ⟨pc, (hash, data) :: todo⟩
        published :=
          match (s.runs i).pc with
          | .publish fresh_chunk _ => ⟨fresh_chunk, hash.toNat, data⟩ :: s.published
          | _ => s.published
        searched :=
          match (s.runs i).pc with
          | .search => Function.update s.searched i
              ((bucket_entry s.vol (hash.toNat % s.vol.sbi.buckets)).getD 0)
          | _ => s.searched }
    | some (v, none) =>
      some { s with
        vol := v
        runs := Function.update s.runs i ⟨.search, todo⟩
        filled :=
          match (s.runs i).pc with
          | .data fresh_chunk => ⟨fresh_chunk, hash.toNat, data⟩ :: s.filled
          | _ => s.filled }

/-- The chunk in hand, when its place is allocated and it is not yet written in full. -/
def ChunkRun.own (r : ChunkRun) : Option Stored :=
  match r.todo, r.pc with
  | (hash, data) :: _, .entry loc => some ⟨loc, hash.toNat, data⟩
  | (hash, data) :: _, .publish loc _ => some ⟨loc, hash.toNat, data⟩
  | (hash, data) :: _, .header loc _ => some ⟨loc, hash.toNat, data⟩
  | (hash, data) :: _, .data loc => some ⟨loc, hash.toNat, data⟩
  | _, _ => none

/-- The chunk in hand, when it is in its bucket and not yet written in full. -/
def ChunkRun.publishing (r : ChunkRun) : Option Stored :=
  match r.todo, r.pc with
  | (hash, data) :: _, .header loc _ => some ⟨loc, hash.toNat, data⟩
  | (hash, data) :: _, .data loc => some ⟨loc, hash.toNat, data⟩
  | _, _ => none

/-- The chunk in hand, when it is in its bucket and has no header yet. -/
def ChunkRun.unheaded (r : ChunkRun) : Option Stored :=
  match r.todo, r.pc with
  | (hash, data) :: _, .header loc _ => some ⟨loc, hash.toNat, data⟩
  | _, _ => none

/-- The steps that keep out of each other's way. A search reads its bucket while no run is
publishing there; a bucket is written while it has the entry that the search of the run began from;
an allocation does not wrap. -/
def Orderly (s : Mount ι) (i : ι) : Prop :=
  match (s.runs i).todo, (s.runs i).pc with
  | (hash, _) :: _, .search => ∀ j, ∀ c ∈ (s.runs j).publishing,
      c.hash % s.vol.sbi.buckets ≠ hash.toNat % s.vol.sbi.buckets
  | (hash, _) :: _, .publish _ next =>
      next = s.searched i ∧ bucket_entry s.vol (hash.toNat % s.vol.sbi.buckets) = some next
  | _, .alloc => RoundFits s.vol
  | _, _ => True

instance [Fintype ι] (s : Mount ι) (i : ι) : Decidable (Orderly s i) := by
  unfold Orderly
  split <;> infer_instance

/-- The `next` field of the header at a location. -/
def header_next (d : Dev) (location : Nat) : Option Nat :=
  match load_blockoff d location with
  | none => none
  | some (blk, off) => some (le (d.bh.mem blk) (off + 16) 8)

/-- A location lies on the chain from another, by the headers on the device. -/
inductive Reach (d : Dev) (location : Nat) : Nat → Prop where
  | here : Reach d location location
  | next {l n} :
    header_next d l = some n →
    Reach d location n →
    Reach d location l

/-- No chunk is lost, stored twice or followed before it is written. A chunk is out of reach only
while a run has written its bucket and not yet the header of what it put there. -/
structure NoLoss (s : Mount ι) : Prop where
  reachable : ∀ c ∈ s.filled,
    (∀ i, ∀ c' ∈ (s.runs i).unheaded, c'.hash % s.vol.sbi.buckets ≠ c.hash % s.vol.sbi.buckets) →
    ∃ entry, bucket_entry s.vol (c.hash % s.vol.sbi.buckets) = some entry ∧
      Reach s.vol.dev c.loc entry
  once : (s.published.map Stored.hash).Nodup
  written : ∀ i loc, (s.runs i).pc = .chain loc → ∃ c ∈ s.filled, c.loc = loc ∧ Holds s.vol.dev.flat c

/-- The hashtable and the heap lie inside the device, on a volume of any size. -/
structure HeapArea (v : Vol) : Prop extends TableArea v where
  max_le : v.sbi.max_brk ≤ v.dev.nblocks * v.dev.bs
  brk_ge : v.sbi.hashtable + v.sbi.hashtable_size ≤ v.sbi.heap_brk
  brk_le : v.sbi.heap_brk ≤ v.dev.nblocks * v.dev.bs

/-- Everything allocated: chunks one above the other between the hashtable and the break. -/
structure Regions (v : Vol) (as : List Stored) : Prop where
  area : HeapArea v
  apart : as.Pairwise fun c c' => c'.stop ≤ c.loc
  above : ∀ c ∈ as, v.sbi.hashtable + v.sbi.hashtable_size ≤ c.loc
  below : ∀ c ∈ as, c.stop ≤ v.sbi.heap_brk
  head : ∀ c ∈ as, c.loc % v.dev.bs + 24 ≤ v.dev.bs

/-- Who holds which chunk. -/
structure Roles (s : Mount ι) (as : List Stored) : Prop where
  idle : ∀ i, (s.runs i).todo = [] → (s.runs i).pc = .search
  size : ∀ i, ∀ c ∈ (s.runs i).todo, 0 < c.2.length ∧ c.2.length < 2 ^ 32
  own : ∀ i c, (s.runs i).own = some c → c ∈ as
  own_inj : ∀ i j c, (s.runs i).own = some c → (s.runs j).own = some c → i = j
  published : ∀ c ∈ s.published, c ∈ as
  once : (s.published.map Stored.hash).Nodup
  filled : ∀ c ∈ s.filled, c ∈ s.published
  status : ∀ c ∈ s.published, c ∈ s.filled ∨ ∃ i, (s.runs i).publishing = some c
  publishing : ∀ i c, (s.runs i).publishing = some c → c ∈ s.published ∧ c ∉ s.filled

/-- What follows a location in its chain: what its header says or, before the header is written,
what the run that publishes it will write there. -/
def Follows (runs : ι → ChunkRun) (m : Mem) (loc next : Nat) : Prop :=
  (∃ i, (runs i).pc = .header loc next) ∨
    (∀ i n, (runs i).pc ≠ .header loc n) ∧ le m (loc + 16) 8 = next

/-- What the device holds of the chunks. -/
structure Contents (s : Mount ι) : Prop where
  holds : ∀ c ∈ s.filled, Holds s.vol.dev.flat c
  bucket : ∀ i < s.vol.sbi.buckets,
    le s.vol.dev.flat (s.vol.sbi.hashtable + i * 8) 8 = bucketHead s.vol.sbi.buckets i s.published
  linked : ∀ c cs, c :: cs <:+ s.published →
    Follows s.runs s.vol.dev.flat c.loc (bucketHead s.vol.sbi.buckets (c.hash % s.vol.sbi.buckets) cs)
  headed : ∀ i c, (s.runs i).own = some c → (s.runs i).pc = .data c.loc →
    le s.vol.dev.flat c.loc 8 = c.hash ∧ le s.vol.dev.flat (c.loc + 8) 4 = c.data.length

/-- Where the search for the chunk in hand has come to. -/
def Pc.walked : Pc → Option Nat
  | .chain chunk_location => some chunk_location
  | .alloc => some 0
  | .entry _ => some 0
  | .publish _ _ => some 0
  | _ => none

/-- A search has come past chunks of other hashes (`pre`) to a part of its chain (`cs`) that is
written in full. -/
def Walked (s : Mount ι) (i : ι) (hash w : Nat) : Prop :=
  ∃ pre cs, pre ++ cs <:+ s.published ∧
    s.searched i = bucketHead s.vol.sbi.buckets (hash % s.vol.sbi.buckets) (pre ++ cs) ∧
    w = bucketHead s.vol.sbi.buckets (hash % s.vol.sbi.buckets) cs ∧
    (∀ c ∈ pre, c.hash ≠ hash) ∧
    ∀ c ∈ cs, c.hash % s.vol.sbi.buckets = hash % s.vol.sbi.buckets → c ∈ s.filled

/-- How far the searches have come. -/
structure Walks (s : Mount ι) : Prop where
  nonzero : ∀ i loc, (s.runs i).pc = .chain loc → loc ≠ 0
  walked : ∀ i hash data todo w, (s.runs i).todo = (hash, data) :: todo →
    (s.runs i).pc.walked = some w → Walked s i hash.toNat w

/-- The invariant of orderly runs. -/
structure ConcOk (s : Mount ι) (as : List Stored) : Prop where
  regions : Regions s.vol as
  roles : Roles s as
  contents : Contents s
  walks : Walks s

section Regions

variable {v v' : Vol} {as : List Stored}

lemma Stored.lt_stop (c : Stored) : c.loc + 24 ≤ c.stop := by
  unfold Stored.stop
  omega

/-- Two chunks do not overlap. -/
lemma Regions.disjoint (reg : Regions v as) {c c' : Stored} (hc : c ∈ as) (hc' : c' ∈ as)
    (hne : c ≠ c') : c.stop ≤ c'.loc ∨ c'.stop ≤ c.loc := by
  have hp := reg.apart
  clear reg
  induction as with
  | nil => cases hc
  | cons a as ih =>
    obtain ⟨hfirst, hrest⟩ := List.pairwise_cons.1 hp
    cases hc with
    | head =>
      cases hc' with
      | head => exact absurd rfl hne
      | tail _ hc' => exact .inr (hfirst _ hc')
    | tail _ hc =>
      cases hc' with
      | head => exact .inl (hfirst _ hc)
      | tail _ hc' => exact ih hc hc' hrest

/-- Chunks at one location are the same. -/
lemma Regions.eq_of_loc (reg : Regions v as) {c c' : Stored} (hc : c ∈ as) (hc' : c' ∈ as)
    (h : c.loc = c'.loc) : c = c' := by
  by_contra hne
  have h1 := c.lt_stop
  have h2 := c'.lt_stop
  have := reg.disjoint hc hc' hne
  omega

/-- Writing inside a chunk leaves the others as they are. -/
lemma Regions.kept (reg : Regions v as) {c c' : Stored} (hc : c ∈ as) (hc' : c' ∈ as) (hne : c ≠ c')
    {m src : Mem} {dst n a : Nat} (hlo : c'.loc ≤ dst) (hhi : dst + n ≤ c'.stop) (h1 : c.loc ≤ a)
    (h2 : a < c.stop) : memcpy m dst src 0 n a = m a := by
  have h := reg.disjoint hc hc' hne
  exact memcpy_of_not_mem (by omega)

/-- A chunk lies inside the device and its location fits 64 bits. -/
lemma Regions.place (reg : Regions v as) {c : Stored} (hc : c ∈ as) :
    0 < c.loc ∧ c.stop ≤ v.dev.nblocks * v.dev.bs ∧ c.loc < 2 ^ 64 := by
  have h1 := reg.above c hc
  have h2 := reg.below c hc
  have h3 := reg.area.table_pos
  have h4 := reg.area.brk_le
  have h5 : v.dev.nblocks * v.dev.bs ≤ 2 ^ 32 * 4096 :=
    Nat.mul_le_mul reg.area.nblocks (Dev.bs_bounds reg.area.bits).2.1
  have h6 := c.lt_stop
  omega

/-- The header of a chunk is read from one block. -/
lemma Regions.load (reg : Regions v as) {c : Stored} (hc : c ∈ as) :
    load_blockoff v.dev c.loc = some (c.loc / v.dev.bs, c.loc % v.dev.bs) ∧
      ∀ k w, k + w ≤ 24 →
        le (v.dev.bh.mem (c.loc / v.dev.bs)) (c.loc % v.dev.bs + k) w = le v.dev.flat (c.loc + k) w := by
  obtain ⟨h0, hstop, -⟩ := reg.place hc
  have hhead := reg.head c hc
  have hlt := c.lt_stop
  exact ⟨load_blockoff_eq h0 (by omega) reg.area.nblocks, fun k w hk => v.dev.le_mem (by omega)⟩

/-- The bucket word of a hash is read from one block. -/
lemma TableArea.load_hash (area : TableArea v) (hash : Nat) : ∃ blk off,
    CominixFs.load_bucket v hash = some (blk, off) ∧ off + 8 ≤ v.dev.bs ∧
      blk * v.dev.bs + off = v.sbi.bucket_off hash ∧
      le (v.dev.bh.mem blk) off 8 = le v.dev.flat (v.sbi.bucket_off hash) 8 ∧
      bucket_entry v (hash % v.sbi.buckets) = some (le v.dev.flat (v.sbi.bucket_off hash) 8) := by
  have hi : hash % v.sbi.buckets < v.sbi.buckets := Nat.mod_lt _ area.buckets_pos
  obtain ⟨hload, hfit⟩ := area.load_bucket hi
  have hword := v.dev.le_mem (a := v.sbi.hashtable + hash % v.sbi.buckets * 8) (k := 0) (w := 8)
    (by omega)
  rw [Nat.add_zero, Nat.add_zero] at hword
  refine ⟨_, _, ?_, hfit, Nat.div_add_mod' _ _, hword, ?_⟩
  · have hb : v.sbi.hashtable_size / 8 = v.sbi.buckets := rfl
    unfold CominixFs.load_bucket hashtable_hash
    rw [hb, if_neg (by have := area.buckets_pos; omega)]
    exact hload
  · unfold bucket_entry
    rw [hload]
    exact congrArg some hword

/-- The regions depend on the superblock and the geometry only. -/
lemma Regions.congr (reg : Regions v as) (hsbi : v'.sbi = v.sbi)
    (hbits : v'.dev.s_blocksize_bits = v.dev.s_blocksize_bits)
    (hn : v'.dev.nblocks = v.dev.nblocks) : Regions v' as := by
  obtain ⟨sbi, ⟨bits, nblocks, bh⟩, s_zmap, printk⟩ := v
  obtain ⟨sbi', ⟨bits', nblocks', bh'⟩, s_zmap', printk'⟩ := v'
  dsimp only at hsbi hbits hn
  subst hsbi hbits hn
  have area := reg.area
  exact ⟨⟨⟨area.bits, area.nblocks, area.table_pos, area.table_aligned, area.table_size,
    area.buckets_pos, area.table_in, area.esb_below⟩, area.max_le, area.brk_ge, area.brk_le⟩,
    reg.apart, reg.above, reg.below, reg.head⟩

/-- An allocation adds one region. -/
lemma Regions.alloced {loc : Nat} {c : Stored} (reg : Regions v as)
    (al : Alloced v v' loc c.data.length) (hloc : c.loc = loc) : Regions v' (c :: as) := by
  have hge := al.ge
  have hroom := al.room
  have hhead := al.head
  have hmax := reg.area.max_le
  have hbrk := reg.area.brk_ge
  have area := reg.area
  have hstop : c.stop = loc + (24 + c.data.length) := by rw [Stored.stop, hloc]
  rw [al.vol]
  refine ⟨⟨⟨area.bits, area.nblocks, area.table_pos, area.table_aligned, area.table_size,
    area.buckets_pos, area.table_in, area.esb_below⟩, hmax, by dsimp only; omega,
    (Nat.le_of_lt hroom).trans hmax⟩, ?_, ?_, ?_, ?_⟩
  · exact List.pairwise_cons.2 ⟨fun c' hc' => (reg.below c' hc').trans (by omega), reg.apart⟩
  · exact List.forall_mem_cons.2 ⟨by dsimp only; omega, reg.above⟩
  · refine List.forall_mem_cons.2 ⟨by dsimp only; omega, fun c' hc' => ?_⟩
    have := reg.below c' hc'
    dsimp only
    omega
  · exact List.forall_mem_cons.2 ⟨by rw [hloc]; exact hhead, reg.head⟩

end Regions

section Invariant

variable {s : Mount ι} {as : List Stored} {i : ι}

/-- Only the owner of a chunk is about to write its header. -/
lemma ConcOk.eq_of_pending (ok : ConcOk s as) {j : ι} {c : Stored} {n : Nat}
    (hi : (s.runs i).own = some c) (hj : (s.runs j).pc = .header c.loc n) : j = i := by
  rcases htodo : (s.runs j).todo with _ | ⟨⟨hash, data⟩, todo⟩
  · have := ok.roles.idle j htodo
    rw [hj] at this
    cases this
  · have hown : (s.runs j).own = some ⟨c.loc, hash.toNat, data⟩ := by
      unfold ChunkRun.own
      rw [htodo, hj]
    have := ok.regions.eq_of_loc (ok.roles.own j _ hown) (ok.roles.own i c hi) rfl
    exact ok.roles.own_inj j i c (this ▸ hown) hi

/-- The chunks of a bucket lie below `2 ^ 64`. -/
lemma ConcOk.bucketHead_lt (ok : ConcOk s as) {k : Nat} {cs : List Stored}
    (hcs : cs ⊆ s.published) : bucketHead s.vol.sbi.buckets k cs < 2 ^ 64 := by
  by_cases h0 : bucketHead s.vol.sbi.buckets k cs = 0
  · omega
  · obtain ⟨c, hc, hloc, -⟩ := bucketHead_mem h0
    rw [← hloc]
    exact (ok.regions.place (ok.roles.published c (hcs hc))).2.2

/-- The first chunk of a bucket, those before it and those behind it. -/
lemma bucketHead_split {nb k : Nat} {cs : List Stored} (h : bucketHead nb k cs ≠ 0) :
    ∃ l c cs', cs = l ++ c :: cs' ∧ (∀ c' ∈ l, c'.hash % nb ≠ k) ∧ c.loc = bucketHead nb k cs ∧
      c.hash % nb = k := by
  induction cs with
  | nil => exact absurd rfl h
  | cons c cs ih =>
    simp only [bucketHead] at h ⊢
    by_cases hc : c.hash % nb = k
    · rw [if_pos hc]
      exact ⟨[], c, cs, rfl, by simp, rfl, hc⟩
    · rw [if_neg hc] at h ⊢
      obtain ⟨l, c', cs', rfl, hl, hc'⟩ := ih h
      exact ⟨c :: l, c', cs', rfl, List.forall_mem_cons.2 ⟨hc, hl⟩, hc'⟩

/-- Chunks put in front are in other buckets, or one of them is the first of its bucket. -/
lemma bucketHead_append {nb k : Nat} {news cs : List Stored} :
    (∀ c ∈ news, c.hash % nb ≠ k) ∧ bucketHead nb k (news ++ cs) = bucketHead nb k cs ∨
      ∃ c ∈ news, c.loc = bucketHead nb k (news ++ cs) := by
  induction news with
  | nil => exact .inl ⟨by simp, rfl⟩
  | cons c news ih =>
    rw [List.cons_append]
    simp only [bucketHead]
    by_cases hc : c.hash % nb = k
    · rw [if_pos hc]
      exact .inr ⟨c, List.mem_cons_self, rfl⟩
    · rw [if_neg hc]
      rcases ih with ⟨h, heq⟩ | ⟨c', hc', hloc⟩
      · exact .inl ⟨List.forall_mem_cons.2 ⟨hc, h⟩, heq⟩
      · exact .inr ⟨c', List.mem_cons_of_mem _ hc', hloc⟩

/-- The chunk a run is publishing is the one it is about to write the header of. -/
lemma ConcOk.not_pending (ok : ConcOk s as) {c : Stored} (hc : c ∈ s.filled) {n : Nat} :
    (s.runs i).pc ≠ .header c.loc n := by
  intro hp
  rcases htodo : (s.runs i).todo with _ | ⟨⟨hash, data⟩, todo⟩
  · have := ok.roles.idle i htodo
    rw [hp] at this
    cases this
  · have hpub : (s.runs i).publishing = some ⟨c.loc, hash.toNat, data⟩ := by
      unfold ChunkRun.publishing
      rw [htodo, hp]
    obtain ⟨h1, h2⟩ := ok.roles.publishing i _ hpub
    have := ok.regions.eq_of_loc (ok.roles.published _ h1) (ok.roles.published c (ok.roles.filled c hc)) rfl
    exact h2 (this ▸ hc)

/-- What a published chunk is followed by is in its header, once no header of its bucket is still
to be written. -/
lemma ConcOk.header_next (ok : ConcOk s as) {c : Stored} {n : Nat} (hc : c ∈ s.published)
    (hno : ∀ i, ∀ c' ∈ (s.runs i).unheaded,
      c'.hash % s.vol.sbi.buckets ≠ c.hash % s.vol.sbi.buckets)
    (h : Follows s.runs s.vol.dev.flat c.loc n) : header_next s.vol.dev c.loc = some n := by
  rcases h with ⟨i, hi⟩ | ⟨-, hle⟩
  · rcases htodo : (s.runs i).todo with _ | ⟨⟨hash, data⟩, todo⟩
    · have := ok.roles.idle i htodo
      rw [hi] at this
      cases this
    · have hpub : (s.runs i).publishing = some ⟨c.loc, hash.toNat, data⟩ := by
        unfold ChunkRun.publishing
        rw [htodo, hi]
      have hun : (s.runs i).unheaded = some ⟨c.loc, hash.toNat, data⟩ := by
        unfold ChunkRun.unheaded
        rw [htodo, hi]
      have heq := ok.regions.eq_of_loc (ok.roles.published _ (ok.roles.publishing i _ hpub).1)
        (ok.roles.published c hc) rfl
      rw [heq] at hun
      exact absurd rfl (hno i c hun)
  · obtain ⟨hload, hword⟩ := ok.regions.load (ok.roles.published c hc)
    unfold CominixFs.header_next
    rw [hload, ← hle]
    exact congrArg some (hword 16 8 (by omega))

/-- Every chunk of a bucket lies on the chain from its first one. -/
lemma ConcOk.reach (ok : ConcOk s as) {k : Nat} {c : Stored} (hk : c.hash % s.vol.sbi.buckets = k)
    (hno : ∀ i, ∀ c' ∈ (s.runs i).unheaded, c'.hash % s.vol.sbi.buckets ≠ k) :
    ∀ {cs}, cs <:+ s.published → c ∈ cs →
      Reach s.vol.dev c.loc (bucketHead s.vol.sbi.buckets k cs) := by
  intro cs
  induction cs with
  | nil =>
    intro _ hc
    cases hc
  | cons c' cs ih =>
    intro hsuf hc
    have hrest := (List.suffix_cons c' cs).trans hsuf
    simp only [bucketHead]
    by_cases hb : c'.hash % s.vol.sbi.buckets = k
    · rw [if_pos hb]
      cases hc with
      | head => exact .here
      | tail _ hc =>
        have hlink := ok.contents.linked c' cs hsuf
        rw [hb] at hlink
        refine .next (ok.header_next (hsuf.subset List.mem_cons_self) ?_ hlink) (ih hrest hc)
        rw [hb]
        exact hno
    · rw [if_neg hb]
      cases hc with
      | head => exact absurd hk hb
      | tail _ hc => exact ih hrest hc

/-- Where a walk is on its chain there is a chunk that is written in full, and what it has come
past with this chunk is one chunk more. -/
lemma ConcOk.on_chain (ok : ConcOk s as) {hash : UInt64} {loc : Nat} (h0 : loc ≠ 0)
    (h : Walked s i hash.toNat loc) : ∃ c ∈ s.filled, c.loc = loc ∧ ∃ n,
      Follows s.runs s.vol.dev.flat loc n ∧ (c.hash ≠ hash.toNat → Walked s i hash.toNat n) := by
  obtain ⟨pre, cs, hcs, hhead, hloc, hpre, hfilled⟩ := h
  obtain ⟨l, c, cs', rfl, hl, hc, hb⟩ := bucketHead_split (hloc ▸ h0)
  have hmem := hfilled c (by simp) hb
  have hsuf : c :: cs' <:+ s.published :=
    (List.suffix_append (pre ++ l) (c :: cs')).trans (by rwa [List.append_assoc])
  have hlink := ok.contents.linked c cs' hsuf
  rw [hb, hc, ← hloc] at hlink
  refine ⟨c, hmem, hc.trans hloc.symm, _, hlink, fun hne => ⟨pre ++ l ++ [c], cs', ?_, ?_, rfl,
    fun x hx => ?_, fun x hx => hfilled x (by simp [hx])⟩⟩
  · simpa using hcs
  · simpa using hhead
  · simp only [List.mem_append, List.mem_singleton] at hx
    rcases hx with (hx | hx) | rfl
    · exact hpre x hx
    · intro e
      exact hl x hx (by rw [e])
    · exact hne

/-- What a search has come past stays so when chunks are put in front and filled in. -/
lemma Walked.mono {s' : Mount ι} {hash w : Nat} (h : Walked s i hash w)
    (hnb : s'.vol.sbi.buckets = s.vol.sbi.buckets) (hpub : s.published <:+ s'.published)
    (hfill : s.filled ⊆ s'.filled) (hsearched : s'.searched i = s.searched i) :
    Walked s' i hash w := by
  obtain ⟨pre, cs, hcs, hhead, hw, hpre, hfilled⟩ := h
  unfold Walked
  rw [hnb, hsearched]
  exact ⟨pre, cs, hcs.trans hpub, hhead, hw, hpre, fun c hc hb => hfill (hfilled c hc hb)⟩

/-- A header that a run has written stays while its chunk is left alone. -/
lemma ConcOk.headed (ok : ConcOk s as) {m : Mem} {j : ι} {c : Stored} (ho : (s.runs j).own = some c)
    (hd : (s.runs j).pc = .data c.loc) (h : ∀ a, c.loc ≤ a → a < c.stop → m a = s.vol.dev.flat a) :
    le m c.loc 8 = c.hash ∧ le m (c.loc + 8) 4 = c.data.length := by
  have hlt := c.lt_stop
  obtain ⟨h1, h2⟩ := ok.contents.headed j c ho hd
  rw [← h1, ← h2]
  exact ⟨le_congr fun a h3 h4 => h a h3 (by omega), le_congr fun a h3 h4 => h a (by omega) (by omega)⟩

/-- The invariant says that no chunk is lost. -/
lemma ConcOk.noLoss (ok : ConcOk s as) : NoLoss s := by
  refine ⟨fun c hc hno => ?_, ok.roles.once, fun i loc hp => ?_⟩
  · obtain ⟨_, _, -, -, -, -, hword⟩ := ok.regions.area.load_hash c.hash
    refine ⟨_, hword, ?_⟩
    rw [show s.vol.sbi.bucket_off c.hash = s.vol.sbi.hashtable + c.hash % s.vol.sbi.buckets * 8 from rfl,
      ok.contents.bucket _ (Nat.mod_lt _ ok.regions.area.buckets_pos)]
    exact ok.reach rfl hno (List.suffix_refl _) (ok.roles.filled c hc)
  · rcases htodo : (s.runs i).todo with _ | ⟨⟨hash, data⟩, todo⟩
    · have := ok.roles.idle i htodo
      rw [hp] at this
      cases this
    · obtain ⟨c, hc, hloc, -⟩ := ok.on_chain (ok.walks.nonzero i loc hp)
        (ok.walks.walked i hash data todo loc htodo (by rw [hp]; rfl))
      exact ⟨c, hc, hloc, ok.contents.holds c hc⟩

/-- A bucket that still has the entry a search began from has no chunk that the search did not see. -/
lemma ConcOk.not_published (ok : ConcOk s as) {hash : UInt64} (h : Walked s i hash.toNat 0)
    (hentry : s.searched i
      = bucketHead s.vol.sbi.buckets (hash.toNat % s.vol.sbi.buckets) s.published) :
    ∀ c ∈ s.published, c.hash ≠ hash.toNat := by
  obtain ⟨pre, cs, ⟨news, hnews⟩, hhead, hzero, hpre, -⟩ := h
  rw [hhead] at hentry
  have hpos : ∀ c ∈ s.published, c.loc ≠ 0 := by
    intro c hc
    have := (ok.regions.place (ok.roles.published c hc)).1
    omega
  have hnone : ∀ c ∈ cs, c.hash % s.vol.sbi.buckets ≠ hash.toNat % s.vol.sbi.buckets := by
    rcases @bucketHead_append s.vol.sbi.buckets (hash.toNat % s.vol.sbi.buckets) cs [] with h | h
    · exact h.1
    · obtain ⟨c, hc, hloc⟩ := h
      rw [List.append_nil, ← hzero] at hloc
      exact absurd hloc (hpos c (by rw [← hnews]; simp [hc]))
  intro c hc he
  have hb : c.hash % s.vol.sbi.buckets = hash.toNat % s.vol.sbi.buckets := by rw [he]
  rcases @bucketHead_append s.vol.sbi.buckets (hash.toNat % s.vol.sbi.buckets) news (pre ++ cs)
    with h | h
  · rw [← hnews, List.mem_append, List.mem_append] at hc
    rcases hc with hc | hc | hc
    · exact h.1 c hc hb
    · exact hpre c hc he
    · exact hnone c hc hb
  · -- a chunk put in the bucket since then would be its first
    obtain ⟨c₁, hc₁, hloc₁⟩ := h
    have hmem₁ : c₁ ∈ s.published := by
      rw [← hnews]
      exact List.mem_append_left _ hc₁
    rw [hnews, ← hentry] at hloc₁
    obtain ⟨c₂, hc₂, hloc₂, -⟩ := bucketHead_mem (hloc₁ ▸ hpos c₁ hmem₁)
    have hmem₂ : c₂ ∈ s.published := by
      rw [← hnews]
      exact List.mem_append_right _ hc₂
    have heq := ok.regions.eq_of_loc (ok.roles.published _ hmem₁) (ok.roles.published _ hmem₂)
      (hloc₁.trans hloc₂.symm)
    have hnd := ok.roles.once
    rw [← hnews, List.map_append, List.nodup_append] at hnd
    exact hnd.2.2 _ (List.mem_map_of_mem hc₁) _ (List.mem_map_of_mem hc₂) (by rw [heq])

/-- A mounted volume with its chunks, before any run has taken a step. -/
lemma ConcOk.start {v : Vol} {cs : List Stored} {runs : ι → ChunkRun} {searched : ι → Nat}
    (area : HeapArea v)
    (inv : HeapInv v cs) (hpc : ∀ i, (runs i).pc = .search)
    (hsize : ∀ i, ∀ c ∈ (runs i).todo, 0 < c.2.length ∧ c.2.length < 2 ^ 32) :
    ConcOk ⟨v, runs, cs, cs, searched⟩ cs := by
  have hown : ∀ i, (runs i).own = none ∧ (runs i).publishing = none := by
    intro i
    rcases hrun : runs i with ⟨pc, todo⟩
    have hp := hpc i
    rw [hrun] at hp
    subst hp
    cases todo <;> exact ⟨rfl, rfl⟩
  have hsz := area.table_size
  refine ⟨⟨area, inv.apart, fun c hc => hsz ▸ inv.above c hc, inv.below, inv.head⟩,
    ⟨fun i _ => hpc i, hsize, fun i c h => ?_, fun i j c h => ?_, fun c hc => hc, inv.nodup,
      fun c hc => hc, fun c hc => .inl hc, fun i c h => ?_⟩,
    ⟨inv.holds, inv.bucket, fun c cs' hcs => .inr ⟨fun i n h => ?_, ?_⟩, fun i c h => ?_⟩,
    ⟨fun i loc h => ?_, fun i hash data todo w _ h => ?_⟩⟩
  · rw [(hown i).1] at h
    cases h
  · rw [(hown i).1] at h
    cases h
  · rw [(hown i).2] at h
    cases h
  · rw [hpc i] at h
    cases h
  · have hl := inv.linked
    dsimp only at hcs
    clear * - hl hcs
    obtain ⟨pre, rfl⟩ := hcs
    induction pre with
    | nil => exact hl.1
    | cons a pre ih => exact ih hl.2
  · rw [(hown i).1] at h
    cases h
  · rw [hpc i] at h
    cases h
  · rw [hpc i] at h
    cases h

end Invariant

section Steps

variable [DecidableEq ι] {s : Mount ι} {as as' : List Stored} {i : ι} {r : ChunkRun}

/-- The other runs, and the one that took the step. -/
lemma runs_update (runs : ι → ChunkRun) (j : ι) :
    Function.update runs i r j = if j = i then r else runs j := Function.update_apply ..

/-- A chunk being published is a chunk in hand. -/
lemma ChunkRun.own_of_publishing {c : Stored} (h : r.publishing = some c) : r.own = some c := by
  obtain ⟨pc, todo⟩ := r
  cases todo with
  | nil => cases pc <;> cases h
  | cons t todo => cases pc <;> first | exact h | cases h

/-- What is to do and what is in hand when one run has moved on. -/
lemma Roles.hands (h : Roles s as) (has : as ⊆ as') (hidle : r.todo = [] → r.pc = .search)
    (htodo : r.todo ⊆ (s.runs i).todo)
    (hown : ∀ c, r.own = some c → c ∈ as' ∧ ∀ j, (s.runs j).own = some c → j = i) :
    (∀ j, (Function.update s.runs i r j).todo = [] → (Function.update s.runs i r j).pc = .search) ∧
    (∀ j, ∀ c ∈ (Function.update s.runs i r j).todo, 0 < c.2.length ∧ c.2.length < 2 ^ 32) ∧
    (∀ j c, (Function.update s.runs i r j).own = some c → c ∈ as') ∧
    ∀ j k c, (Function.update s.runs i r j).own = some c → (Function.update s.runs i r k).own = some c →
      j = k := by
  refine ⟨fun j => ?_, fun j => ?_, fun j c => ?_, fun j k c => ?_⟩
  · rw [runs_update]
    split
    · exact hidle
    · exact h.idle j
  · rw [runs_update]
    split
    · exact fun c hc => h.size i c (htodo hc)
    · exact h.size j
  · rw [runs_update]
    split
    · exact fun hc => (hown c hc).1
    · exact fun hc => has (h.own j c hc)
  · rw [runs_update, runs_update]
    split <;> split
    · next hj hk => exact fun _ _ => hj.trans hk.symm
    · next hj hk => exact fun h1 h2 => hj.trans ((hown c h1).2 k h2).symm
    · next hj hk => exact fun h1 h2 => ((hown c h2).2 j h1).trans hk.symm
    · exact h.own_inj j k c

/-- A step that takes up or puts down a chunk, but publishes none. -/
lemma Roles.move {vol : Vol} {searched : ι → Nat} (h : Roles s as) (has : as ⊆ as')
    (hidle : r.todo = [] → r.pc = .search) (htodo : r.todo ⊆ (s.runs i).todo)
    (hown : ∀ c, r.own = some c → c ∈ as' ∧ ∀ j, (s.runs j).own = some c → j = i)
    (hpub : r.publishing = (s.runs i).publishing) :
    Roles { s with vol := vol, runs := Function.update s.runs i r, searched := searched } as' := by
  have hpubs : ∀ j, (Function.update s.runs i r j).publishing = (s.runs j).publishing := by
    intro j
    rw [runs_update]
    split
    · next hj => rw [hj, hpub]
    · rfl
  obtain ⟨h1, h2, h3, h4⟩ := h.hands has hidle htodo hown
  refine ⟨h1, h2, h3, h4, fun c hc => has (h.published c hc), h.once, h.filled, fun c hc => ?_,
    fun j c => ?_⟩
  · simp only [hpubs]
    exact h.status c hc
  · simp only [hpubs]
    exact h.publishing j c

/-- The walks of the other runs, and of the one that took the step. -/
lemma Walks.move {s' : Mount ι} (h : Walks s) (hruns : s'.runs = Function.update s.runs i r)
    (hnb : s'.vol.sbi.buckets = s.vol.sbi.buckets) (hpub : s.published <:+ s'.published)
    (hfill : s.filled ⊆ s'.filled) (hsearched : ∀ j, j ≠ i → s'.searched j = s.searched j)
    (hnonzero : ∀ loc, r.pc = .chain loc → loc ≠ 0)
    (hwalk : ∀ hash data todo w, r.todo = (hash, data) :: todo → r.pc.walked = some w →
      Walked s' i hash.toNat w) : Walks s' := by
  refine ⟨fun j loc => ?_, fun j hash data todo w => ?_⟩
  · rw [hruns, runs_update]
    split
    · exact hnonzero loc
    · exact h.nonzero j loc
  · rw [hruns, runs_update]
    split
    · next hj =>
      subst hj
      exact hwalk hash data todo w
    · next hj =>
      exact fun ht hw => (h.walked j hash data todo w ht hw).mono hnb hpub hfill (hsearched j hj)

/-- A link does not depend on a run that is elsewhere, nor on bytes outside the header. -/
lemma Follows.frame {runs : ι → ChunkRun} {m m' : Mem} {loc n : Nat} (h : Follows runs m loc n)
    (hi : ∀ n, (runs i).pc ≠ .header loc n) (hr : ∀ n, r.pc ≠ .header loc n)
    (hm : ∀ a, loc ≤ a → a < loc + 24 → m' a = m a) :
    Follows (Function.update runs i r) m' loc n := by
  rcases h with ⟨j, hj⟩ | ⟨hno, hle⟩
  · have hji : j ≠ i := fun e => hi n (e ▸ hj)
    exact .inl ⟨j, by rwa [Function.update_of_ne hji]⟩
  · refine .inr ⟨fun j n' => ?_, ?_⟩
    · rw [runs_update]
      split
      · exact hr n'
      · exact hno j n'
    · rw [← hle]
      exact le_congr fun a h1 h2 => hm a (by omega) (by omega)

/-- A step that writes nothing in the chunk area. -/
lemma ConcOk.move {v' : Vol} {searched : ι → Nat} (ok : ConcOk s as) (reg : Regions v' as')
    (hsbi : v'.sbi = { s.vol.sbi with heap_brk := v'.sbi.heap_brk })
    (hflat : ∀ a, s.vol.sbi.hashtable ≤ a → v'.dev.flat a = s.vol.dev.flat a)
    (has : as ⊆ as') (hidle : r.todo = [] → r.pc = .search) (htodo : r.todo ⊆ (s.runs i).todo)
    (hown : ∀ c, r.own = some c → c ∈ as' ∧ ∀ j, (s.runs j).own = some c → j = i)
    (hpub : r.publishing = (s.runs i).publishing)
    (hpc : ∀ l n, (s.runs i).pc ≠ .header l n) (hr : ∀ l n, r.pc ≠ .header l n)
    (hrd : ∀ l, r.pc ≠ .data l)
    (hsearched : ∀ j, j ≠ i → searched j = s.searched j)
    (hnonzero : ∀ loc, r.pc = .chain loc → loc ≠ 0)
    (hwalk : ∀ hash data todo w, r.todo = (hash, data) :: todo → r.pc.walked = some w →
      Walked { s with searched := searched } i hash.toNat w) :
    ConcOk { s with vol := v', runs := Function.update s.runs i r, searched := searched } as' := by
  have hnb : v'.sbi.buckets = s.vol.sbi.buckets := by rw [hsbi]; rfl
  have hht : v'.sbi.hashtable = s.vol.sbi.hashtable := by rw [hsbi]
  have hin : ∀ c ∈ as, ∀ a, c.loc ≤ a → v'.dev.flat a = s.vol.dev.flat a := by
    intro c hc a ha
    have := ok.regions.above c hc
    exact hflat a (by omega)
  refine ⟨reg, ok.roles.move has hidle htodo hown hpub, ⟨fun c hc => ?_, fun k hk => ?_,
    fun c cs hcs => ?_, fun j c => ?_⟩, ok.walks.move rfl hnb (List.suffix_refl _)
    (List.Subset.refl _) hsearched hnonzero fun hash data todo w ht hw =>
      (hwalk hash data todo w ht hw).mono hnb (List.suffix_refl _) (List.Subset.refl _) rfl⟩
  · exact (ok.contents.holds c hc).congr fun a h1 _ =>
      hin c (ok.roles.published c (ok.roles.filled c hc)) a h1
  · dsimp only at hk ⊢
    rw [hnb] at hk
    rw [hnb, hht, ← ok.contents.bucket k hk]
    exact le_congr fun a h1 _ => hflat a (by omega)
  · dsimp only
    rw [hnb]
    refine (ok.contents.linked c cs hcs).frame (hpc c.loc) (hr c.loc) fun a h1 _ => ?_
    exact hin c (ok.roles.published c (hcs.subset List.mem_cons_self)) a h1
  · dsimp only
    rw [runs_update]
    split
    · exact fun _ hd => absurd hd (hrd _)
    · exact fun ho hd => ok.headed ho hd fun a h1 _ => hin c (ok.roles.own j c ho) a h1

/-- Putting a chunk in front of its bucket. -/
lemma ConcOk.publish {v' : Vol} {fresh next : Nat} {hash : UInt64} {data : List UInt8}
    {todo : List (UInt64 × List UInt8)} (ok : ConcOk s as)
    (hrun : s.runs i = ⟨.publish fresh next, (hash, data) :: todo⟩)
    (hentry : bucket_entry s.vol (hash.toNat % s.vol.sbi.buckets) = some next)
    (hsearched : next = s.searched i) (hsbi : v'.sbi = s.vol.sbi)
    (hbits : v'.dev.s_blocksize_bits = s.vol.dev.s_blocksize_bits)
    (hn : v'.dev.nblocks = s.vol.dev.nblocks)
    (hflat : v'.dev.flat = put s.vol.dev.flat (s.vol.sbi.bucket_off hash.toNat) 8 fresh) :
    ConcOk { s with
      vol := v'
      runs := Function.update s.runs i ⟨.header fresh next, (hash, data) :: todo⟩
      published := ⟨fresh, hash.toNat, data⟩ :: s.published } as := by
  have hown : (s.runs i).own = some ⟨fresh, hash.toNat, data⟩ := by rw [hrun]; rfl
  have hpub : (s.runs i).publishing = none := by rw [hrun]; rfl
  have hc := ok.roles.own i _ hown
  have hnb0 := ok.regions.area.buckets_pos
  have hk : hash.toNat % s.vol.sbi.buckets < s.vol.sbi.buckets := Nat.mod_lt _ hnb0
  have hsz := ok.regions.area.table_size
  have hoff : s.vol.sbi.bucket_off hash.toNat
      = s.vol.sbi.hashtable + hash.toNat % s.vol.sbi.buckets * 8 := rfl
  have hk8 : (hash.toNat % s.vol.sbi.buckets + 1) * 8 ≤ s.vol.sbi.buckets * 8 :=
    Nat.mul_le_mul_right _ hk
  have hin : ∀ c ∈ as, ∀ a, c.loc ≤ a → v'.dev.flat a = s.vol.dev.flat a := by
    intro c hc a ha
    have := ok.regions.above c hc
    rw [hflat, put, memcpy_of_not_mem (by omega)]
  have hnext : next = bucketHead s.vol.sbi.buckets (hash.toNat % s.vol.sbi.buckets) s.published := by
    obtain ⟨_, _, -, -, -, -, hword⟩ := ok.regions.area.load_hash hash.toNat
    rw [hentry, Option.some.injEq, hoff, ok.contents.bucket _ hk] at hword
    exact hword
  have hnew := ok.not_published (ok.walks.walked i hash data todo 0 (by rw [hrun]) (by rw [hrun]; rfl))
    (hsearched.symm.trans hnext)
  have hnotin : (⟨fresh, hash.toNat, data⟩ : Stored) ∉ s.published := fun h => hnew _ h rfl
  obtain ⟨h1, h2, h3, h4⟩ := @Roles.hands ι _ s as as i ⟨.header fresh next, (hash, data) :: todo⟩
    ok.roles (List.Subset.refl _) (fun h => absurd h (List.cons_ne_nil _ _))
    (by rw [hrun]; exact List.Subset.refl _) (fun c' hc' => by
      cases hc'
      exact ⟨hc, fun j hj => ok.roles.own_inj j i _ hj hown⟩)
  refine ⟨ok.regions.congr hsbi hbits hn, ⟨h1, h2, h3, h4, ?_, ?_,
    fun c' hc' => List.mem_cons_of_mem _ (ok.roles.filled c' hc'), ?_, fun j c' => ?_⟩,
    ⟨fun c' hc' => ?_, fun k hk' => ?_, fun c' cs hcs => ?_, fun j c' => ?_⟩,
    ok.walks.move rfl (by rw [hsbi]) (List.suffix_cons _ _) (List.Subset.refl _) (fun _ _ => rfl)
      (fun loc h => by cases h) fun hash' data' todo' w _ h => by cases h⟩
  · exact List.forall_mem_cons.2 ⟨hc, ok.roles.published⟩
  · rw [List.map_cons, List.nodup_cons]
    refine ⟨fun hmem => ?_, ok.roles.once⟩
    obtain ⟨c', hc', he⟩ := List.mem_map.1 hmem
    exact hnew c' hc' he
  · refine List.forall_mem_cons.2 ⟨.inr ⟨i, ?_⟩, fun c' hc' => ?_⟩
    · dsimp only
      rw [Function.update_self]
      rfl
    · rcases ok.roles.status c' hc' with hf | ⟨j, hj⟩
      · exact .inl hf
      · have hji : j ≠ i := by
          rintro rfl
          rw [hpub] at hj
          cases hj
        refine .inr ⟨j, ?_⟩
        dsimp only
        rwa [Function.update_of_ne hji]
  · dsimp only
    rw [runs_update]
    split
    · rintro ⟨⟩
      exact ⟨List.mem_cons_self, fun h => hnotin (ok.roles.filled _ h)⟩
    · intro h
      exact ⟨List.mem_cons_of_mem _ (ok.roles.publishing j c' h).1, (ok.roles.publishing j c' h).2⟩
  · exact (ok.contents.holds c' hc').congr fun a h1 _ =>
      hin c' (ok.roles.published c' (ok.roles.filled c' hc')) a h1
  · have h64 := (ok.regions.place hc).2.2
    dsimp only at hk' ⊢
    rw [hsbi] at hk' ⊢
    rw [hflat, hoff]
    simp only [bucketHead]
    by_cases hki : hash.toNat % s.vol.sbi.buckets = k
    · rw [if_pos hki, ← hki, le_put]
      exact h64
    · rw [if_neg hki, le_put_disjoint (by omega), ok.contents.bucket k hk']
  · dsimp only at hcs ⊢
    rw [hsbi]
    rcases List.suffix_cons_iff.1 hcs with heq | hsuf
    · obtain ⟨rfl, rfl⟩ := List.cons.inj heq
      refine .inl ⟨i, ?_⟩
      rw [Function.update_self, ← hnext]
    · have hmem := hsuf.subset List.mem_cons_self
      refine (ok.contents.linked c' cs hsuf).frame (by rw [hrun]; simp) (fun n he => ?_)
        fun a h1 _ => hin c' (ok.roles.published c' hmem) a h1
      simp only [Pc.header.injEq] at he
      exact hnotin (ok.regions.eq_of_loc hc (ok.roles.published c' hmem) he.1 ▸ hmem)
  · dsimp only
    rw [runs_update]
    split
    · exact fun _ hd => absurd hd (by simp)
    · exact fun ho hd => ok.headed ho hd fun a h1 _ => hin c' (ok.roles.own j c' ho) a h1

/-- Writing the header of a chunk that is in its bucket. -/
lemma ConcOk.header {v' : Vol} {fresh next : Nat} {hash : UInt64} {data : List UInt8}
    {todo : List (UInt64 × List UInt8)} {md : ChunkHead} (ok : ConcOk s as)
    (hrun : s.runs i = ⟨.header fresh next, (hash, data) :: todo⟩)
    (hmd : md.hash = hash.toNat ∧ md.length = data.length ∧ md.next = next)
    (hsbi : v'.sbi = s.vol.sbi) (hbits : v'.dev.s_blocksize_bits = s.vol.dev.s_blocksize_bits)
    (hn : v'.dev.nblocks = s.vol.dev.nblocks)
    (hflat : v'.dev.flat = memcpy s.vol.dev.flat fresh (ofList md.bytes) 0 24) :
    ConcOk { s with
      vol := v'
      runs := Function.update s.runs i ⟨.data fresh, (hash, data) :: todo⟩ } as := by
  have hown : (s.runs i).own = some ⟨fresh, hash.toNat, data⟩ := by rw [hrun]; rfl
  have hpub : (s.runs i).publishing = some ⟨fresh, hash.toNat, data⟩ := by rw [hrun]; rfl
  have hc := ok.roles.own i _ hown
  have hsize := ok.roles.size i (hash, data) (by rw [hrun]; simp)
  have hsz := ok.regions.area.table_size
  have hfresh := ok.regions.above _ hc
  dsimp only at hsize hfresh
  -- the header is inside the chunk
  have hin : ∀ c ∈ as, c ≠ ⟨fresh, hash.toNat, data⟩ → ∀ a, c.loc ≤ a → a < c.stop →
      v'.dev.flat a = s.vol.dev.flat a := by
    intro c hca hne a h1 h2
    rw [hflat]
    exact ok.regions.kept hca hc hne (Nat.le_refl _) (Stored.lt_stop ⟨fresh, _, _⟩) h1 h2
  have hhead : ∀ k w, k + w ≤ 24 → le v'.dev.flat (fresh + k) w = le (ofList md.bytes) k w := by
    intro k w hk
    rw [hflat, le_memcpy hk, Nat.zero_add]
  have hneq : ∀ c ∈ s.filled, c ≠ ⟨fresh, hash.toNat, data⟩ := by
    rintro c hcf rfl
    exact (ok.roles.publishing i _ hpub).2 hcf
  refine ⟨ok.regions.congr hsbi hbits hn, ok.roles.move (List.Subset.refl _) (fun h => by cases h)
    (by rw [hrun]; exact List.Subset.refl _) (fun c' hc' => ?_) (by rw [hpub]; rfl),
    ⟨fun c' hc' => ?_, fun k hk' => ?_, fun c' cs hcs => ?_, fun j c' => ?_⟩,
    ok.walks.move rfl (by rw [hsbi]) (List.suffix_refl _) (List.Subset.refl _) (fun _ _ => rfl)
      (fun loc h => by cases h) fun hash' data' todo' w _ h => by cases h⟩
  · cases hc'
    exact ⟨hc, fun j hj => ok.roles.own_inj j i _ hj hown⟩
  · exact (ok.contents.holds c' hc').congr
      (hin c' (ok.roles.published c' (ok.roles.filled c' hc')) (hneq c' hc'))
  · dsimp only at hk' ⊢
    rw [hsbi] at hk' ⊢
    have hk8 : (k + 1) * 8 ≤ s.vol.sbi.buckets * 8 := Nat.mul_le_mul_right _ hk'
    rw [hflat, le_memcpy_disjoint (by omega), ok.contents.bucket k hk']
  · dsimp only at hcs ⊢
    rw [hsbi]
    have hmem := hcs.subset List.mem_cons_self
    have hlink := ok.contents.linked c' cs hcs
    by_cases hceq : c' = ⟨fresh, hash.toNat, data⟩
    · subst hceq
      -- the link is the one this run was about to write
      have hlt := ok.bucketHead_lt (k := hash.toNat % s.vol.sbi.buckets)
        fun x hx => hcs.subset (List.mem_cons_of_mem _ hx)
      rcases hlink with ⟨j, hj⟩ | ⟨hno, -⟩
      · obtain rfl := ok.eq_of_pending hown hj
        rw [hrun] at hj
        simp only [Pc.header.injEq, true_and] at hj
        refine .inr ⟨fun k n => ?_, ?_⟩
        · rw [runs_update]
          split
          · simp
          · next hk => exact fun hp => hk (ok.eq_of_pending hown hp)
        · rw [hhead 16 8 (by omega), md.le_next, hmd.2.2, hj]
          exact Nat.mod_eq_of_lt hlt
      · exact absurd (by rw [hrun]) (hno i next)
    · refine hlink.frame (fun n he => hceq ?_) (by simp) fun a h1 h2 =>
        hin c' (ok.roles.published c' hmem) hceq a h1 (by have := c'.lt_stop; omega)
      rw [hrun] at he
      simp only [Pc.header.injEq] at he
      exact ok.regions.eq_of_loc (ok.roles.published c' hmem) hc he.1.symm
  · dsimp only
    rw [runs_update]
    split
    · rintro ⟨⟩ -
      have h1 := hhead 0 8 (by omega)
      rw [Nat.add_zero, md.le_hash, hmd.1, Nat.mod_eq_of_lt hash.toNat_lt] at h1
      have h2 := hhead 8 4 (by omega)
      rw [md.le_length, hmd.2.1, Nat.mod_eq_of_lt hsize.2] at h2
      exact ⟨h1, h2⟩
    · next hj =>
      intro ho hd
      refine ok.headed ho hd (hin c' (ok.roles.own j c' ho) ?_)
      rintro rfl
      exact hj (ok.roles.own_inj j i _ ho hown)

/-- Writing the data of a chunk completes its fill. -/
lemma ConcOk.data {v' : Vol} {fresh : Nat} {hash : UInt64} {data : List UInt8}
    {todo : List (UInt64 × List UInt8)} (ok : ConcOk s as)
    (hrun : s.runs i = ⟨.data fresh, (hash, data) :: todo⟩) (hsbi : v'.sbi = s.vol.sbi)
    (hbits : v'.dev.s_blocksize_bits = s.vol.dev.s_blocksize_bits)
    (hn : v'.dev.nblocks = s.vol.dev.nblocks)
    (hflat : v'.dev.flat = memcpy s.vol.dev.flat (fresh + 24) (ofList data) 0 data.length) :
    ConcOk { s with
      vol := v'
      runs := Function.update s.runs i ⟨.search, todo⟩
      filled := ⟨fresh, hash.toNat, data⟩ :: s.filled } as := by
  have hown : (s.runs i).own = some ⟨fresh, hash.toNat, data⟩ := by rw [hrun]; rfl
  have hpub : (s.runs i).publishing = some ⟨fresh, hash.toNat, data⟩ := by rw [hrun]; rfl
  have hc := ok.roles.own i _ hown
  have hsz := ok.regions.area.table_size
  have hfresh := ok.regions.above _ hc
  have hnone : (⟨.search, todo⟩ : ChunkRun).own = none := by cases todo <;> rfl
  have hnonep : (⟨.search, todo⟩ : ChunkRun).publishing = none := by cases todo <;> rfl
  dsimp only at hfresh
  have hin : ∀ c ∈ as, c ≠ ⟨fresh, hash.toNat, data⟩ → ∀ a, c.loc ≤ a → a < c.stop →
      v'.dev.flat a = s.vol.dev.flat a := by
    intro c hca hne a h1 h2
    rw [hflat]
    exact ok.regions.kept hca hc hne (Nat.le_add_right _ _) (Nat.add_assoc fresh 24 _).le h1 h2
  have hhead : ∀ a, a < fresh + 24 → v'.dev.flat a = s.vol.dev.flat a := by
    intro a ha
    rw [hflat, memcpy_of_not_mem (.inl ha)]
  have hne : ∀ j c', j ≠ i → (s.runs j).own = some c' → c' ≠ ⟨fresh, hash.toNat, data⟩ := by
    rintro j c' hj ho rfl
    exact hj (ok.roles.own_inj j i _ ho hown)
  obtain ⟨h1, h2, h3, h4⟩ := @Roles.hands ι _ s as as i ⟨.search, todo⟩ ok.roles
    (List.Subset.refl _) (fun _ => rfl) (by rw [hrun]; exact List.subset_cons_self _ _)
    (fun c' hc' => by rw [hnone] at hc'; cases hc')
  refine ⟨ok.regions.congr hsbi hbits hn,
    ⟨h1, h2, h3, h4, ok.roles.published, ok.roles.once, ?_, fun c' hc' => ?_, fun j c' => ?_⟩,
    ⟨fun c' hc' => ?_, fun k hk' => ?_, fun c' cs hcs => ?_, fun j c' => ?_⟩,
    ok.walks.move rfl (by rw [hsbi]) (List.suffix_refl _) (List.subset_cons_self _ _) (fun _ _ => rfl)
      (fun loc h => by cases h) fun hash' data' todo' w _ h => by cases h⟩
  · exact List.forall_mem_cons.2 ⟨(ok.roles.publishing i _ hpub).1, ok.roles.filled⟩
  · rcases ok.roles.status c' hc' with h | ⟨j, hj⟩
    · exact .inl (List.mem_cons_of_mem _ h)
    · by_cases hji : j = i
      · subst hji
        rw [hpub, Option.some.injEq] at hj
        exact .inl (hj ▸ List.mem_cons_self)
      · refine .inr ⟨j, ?_⟩
        dsimp only
        rwa [Function.update_of_ne hji]
  · dsimp only
    rw [runs_update]
    split
    · rw [hnonep]
      exact fun h => by cases h
    · next hj =>
      intro h
      obtain ⟨h1, h2⟩ := ok.roles.publishing j c' h
      refine ⟨h1, fun hmem => ?_⟩
      rcases List.mem_cons.1 hmem with heq | hmem
      · exact hne j c' hj (ChunkRun.own_of_publishing h) heq
      · exact h2 hmem
  · rcases List.mem_cons.1 hc' with rfl | hc'
    · obtain ⟨h1, h2⟩ := ok.contents.headed i _ hown (by rw [hrun])
      refine ⟨?_, ?_, ?_⟩
      · rw [← h1]
        exact le_congr fun a _ h3 => hhead a (by dsimp only at h3; omega)
      · rw [← h2]
        exact le_congr fun a _ h3 => hhead a (by dsimp only at h3; omega)
      · have hslice := slice_memcpy_ofList (m := s.vol.dev.flat) (l := data) (o := fresh + 24) (k := 0)
          (n := data.length) (by omega)
        rw [← hflat] at hslice
        simpa using hslice
    · refine (ok.contents.holds c' hc').congr
        (hin c' (ok.roles.published c' (ok.roles.filled c' hc')) ?_)
      rintro rfl
      exact (ok.roles.publishing i _ hpub).2 hc'
  · dsimp only at hk' ⊢
    rw [hsbi] at hk' ⊢
    have hk8 : (k + 1) * 8 ≤ s.vol.sbi.buckets * 8 := Nat.mul_le_mul_right _ hk'
    rw [hflat, le_memcpy_disjoint (by omega), ok.contents.bucket k hk']
  · dsimp only at hcs ⊢
    rw [hsbi]
    have hmem := hcs.subset List.mem_cons_self
    refine (ok.contents.linked c' cs hcs).frame (by rw [hrun]; simp) (by simp) fun a h1 h2 => ?_
    by_cases hceq : c' = ⟨fresh, hash.toNat, data⟩
    · subst hceq
      exact hhead a h2
    · exact hin c' (ok.roles.published c' hmem) hceq a h1 (by have := c'.lt_stop; omega)
  · dsimp only
    rw [runs_update]
    split
    · rw [hnone]
      exact fun h => by cases h
    · next hj =>
      exact fun ho hd => ok.headed ho hd (hin c' (ok.roles.own j c' ho) (hne j c' hj ho))

/-- Where a walk is when it is still on its chain. -/
lemma walk_chain {w loc : Nat} (h : walk w = .chain loc) : w ≠ 0 ∧ loc = w := by
  unfold walk at h
  split at h
  · cases h
  · next h0 => exact ⟨h0, (Pc.chain.inj h).symm⟩

lemma walk_walked {w : Nat} : (walk w).walked = some w := by
  unfold walk
  split
  · next h0 =>
    rw [h0]
    rfl
  · rfl

lemma walk_ne {w : Nat} : (∀ l n, walk w ≠ .header l n) ∧ (∀ l, walk w ≠ .data l) ∧
    ∀ todo, (⟨walk w, todo⟩ : ChunkRun).own = none ∧ (⟨walk w, todo⟩ : ChunkRun).publishing = none := by
  unfold walk
  split
  · exact ⟨by simp, by simp, fun todo => by cases todo <;> exact ⟨rfl, rfl⟩⟩
  · exact ⟨by simp, by simp, fun todo => by cases todo <;> exact ⟨rfl, rfl⟩⟩

/-- The step of a run that goes on with its walk, or is done with it. -/
lemma ConcOk.walk_on {pc : Pc} {todo : List (UInt64 × List UInt8)} {searched : ι → Nat}
    (ok : ConcOk s as) (hi : (s.runs i).publishing = none) (hpc : ∀ l n, (s.runs i).pc ≠ .header l n)
    (htodo : todo ⊆ (s.runs i).todo) (hidle : todo = [] → pc = .search)
    (hsearched : ∀ j, j ≠ i → searched j = s.searched j)
    (hwalk : pc = .search ∨ ∃ w, pc = walk w ∧ ∀ hash data rest, todo = (hash, data) :: rest →
      Walked { s with searched := searched } i hash.toNat w) :
    ConcOk { s with
      vol := s.vol, runs := Function.update s.runs i ⟨pc, todo⟩, searched := searched } as := by
  have hr : (∀ l n, pc ≠ .header l n) ∧ (∀ l, pc ≠ .data l) ∧
      (⟨pc, todo⟩ : ChunkRun).own = none ∧ (⟨pc, todo⟩ : ChunkRun).publishing = none := by
    rcases hwalk with rfl | ⟨w, rfl, -⟩
    · exact ⟨by simp, by simp, by cases todo <;> exact ⟨rfl, rfl⟩⟩
    · obtain ⟨h1, h2, h3⟩ := walk_ne (w := w)
      exact ⟨h1, h2, h3 todo⟩
  obtain ⟨h1, h2, h3, h4⟩ := hr
  refine ok.move ok.regions rfl (fun _ _ => rfl) (List.Subset.refl _) hidle htodo (fun c hc => ?_)
    (h4.trans hi.symm) hpc h1 h2 hsearched (fun loc hp => ?_) fun hash data rest w ht hp => ?_
  · rw [h3] at hc
    cases hc
  · rcases hwalk with rfl | ⟨w, rfl, -⟩
    · cases hp
    · obtain ⟨h0, rfl⟩ := walk_chain hp
      exact h0
  · rcases hwalk with rfl | ⟨w', rfl, hw⟩
    · cases hp
    · rw [walk_walked, Option.some.injEq] at hp
      exact hp ▸ hw hash data rest ht

/-- An orderly step keeps the invariant. -/
lemma ConcOk.step {s' : Mount ι} (ok : ConcOk s as) (hord : Orderly s i) (h : s.step i = some s') :
    ∃ as', ConcOk s' as' := by
  have h4096 := (Dev.bs_bounds ok.regions.area.bits).2.1
  have hnb := Nat.mul_le_mul ok.regions.area.nblocks h4096
  have hbrk := ok.regions.area.brk_le
  unfold Mount.step at h
  rcases hrun : s.runs i with ⟨pc, _ | ⟨⟨hash, data⟩, todo⟩⟩
  · simp [hrun] at h
  have hsize := ok.roles.size i (hash, data) (by rw [hrun]; simp)
  have hlen : (chunk_metadata hash data).length = data.length := chunk_metadata_length hsize.2
  have hself : (hash, data) :: todo ⊆ (s.runs i).todo := by
    rw [hrun]
    exact List.Subset.refl _
  unfold Orderly at hord
  rw [hrun] at h hord
  dsimp only at h hord
  obtain ⟨blk, off, hload, hfit, hplace, hword, hentry⟩ := ok.regions.area.load_hash hash.toNat
  -- what was searched in vain stays so until the bucket is written
  have hwalk : pc.walked = some 0 → ∀ hash' data' rest w, (hash, data) :: todo = (hash', data') :: rest →
      some 0 = some w → Walked s i hash'.toNat w := by
    intro hpc hash' data' rest w ht hw
    refine ok.walks.walked i hash' data' rest w ?_ ?_
    · rw [hrun]
      exact ht
    · rw [hrun]
      exact hpc.trans hw
  cases pc with
  | search =>
    simp only [chunk_step, hload, hword] at h
    rw [if_neg (by omega)] at h
    cases h
    refine ⟨as, ok.walk_on (by rw [hrun]; rfl) (by rw [hrun]; simp) hself (fun h => by cases h)
      (fun j hj => Function.update_of_ne hj ..) (.inr ⟨_, rfl, ?_⟩)⟩
    rintro _ _ _ ⟨⟩
    have hhead := ok.contents.bucket _ (Nat.mod_lt hash.toNat ok.regions.area.buckets_pos)
    refine ⟨[], s.published, List.suffix_refl _, ?_, hhead, by simp, fun c hc hb => ?_⟩
    · dsimp only
      rw [Function.update_self, hentry]
      exact hhead
    · rcases ok.roles.status c hc with hf | ⟨j, hj⟩
      · exact hf
      · exact absurd hb (hord j c hj)
  | chain loc =>
    obtain ⟨c, hcf, hc, n, hlink, hnext⟩ := ok.on_chain (ok.walks.nonzero i loc (by rw [hrun]))
      (ok.walks.walked i hash data todo loc (by rw [hrun]) (by rw [hrun]; rfl))
    obtain ⟨hld, hwd⟩ := ok.regions.load (ok.roles.published c (ok.roles.filled c hcf))
    rw [hc] at hld hwd
    have hhash := hwd 0 8 (by omega)
    have hn : le s.vol.dev.flat (loc + 16) 8 = n := by
      rcases hlink with ⟨j, hj⟩ | ⟨-, hle⟩
      · exact absurd (hc ▸ hj) (ok.not_pending hcf)
      · exact hle
    rw [Nat.add_zero, Nat.add_zero, ← hc, (ok.contents.holds c hcf).hash, hc] at hhash
    simp only [chunk_step, hld, hwd 16 8 (by omega), hn, hhash] at h
    by_cases hfound : c.hash = hash.toNat
    · rw [if_pos hfound] at h
      cases h
      exact ⟨as, ok.walk_on (by rw [hrun]; rfl) (by rw [hrun]; simp)
        (fun x hx => hself (List.mem_cons_of_mem _ hx)) (fun _ => rfl) (fun _ _ => rfl) (.inl rfl)⟩
    · rw [if_neg hfound] at h
      cases h
      refine ⟨as, ok.walk_on (by rw [hrun]; rfl) (by rw [hrun]; simp) hself (fun h => by cases h)
        (fun _ _ => rfl) (.inr ⟨n, rfl, ?_⟩)⟩
      rintro _ _ _ ⟨⟩
      exact hnext hfound
  | alloc =>
    simp only [chunk_step, hlen] at h
    cases halloc : chunk_alloc s.vol data.length with
    | none => simp [halloc] at h
    | some p =>
      obtain ⟨v', loc⟩ := p
      rw [halloc] at h
      cases h
      have al := RoundFits.alloced hord ok.regions.area.bits (by omega) halloc
      have hge := al.ge
      refine ⟨⟨loc, hash.toNat, data⟩ :: as, ok.move (ok.regions.alloced al rfl) (by rw [al.vol])
        (fun a ha => al.flat ok.regions.area.toTableArea ha) (List.subset_cons_self _ _)
        (fun h => by cases h) hself (fun c hc => ?_) (by rw [hrun]; rfl) (by rw [hrun]; simp)
        (by simp) (by simp) (fun _ _ => rfl) (fun _ h => by cases h) (hwalk rfl)⟩
      cases hc
      refine ⟨List.mem_cons_self, fun j hj => ?_⟩
      -- nothing allocated before lies above the break
      have h1 := ok.regions.below _ (ok.roles.own j _ hj)
      have h2 := Stored.lt_stop ⟨loc, hash.toNat, data⟩
      dsimp only at h2
      omega
  | entry fresh =>
    simp only [chunk_step, hload] at h
    cases h
    refine ⟨as, ok.move ok.regions rfl (fun _ _ => rfl) (List.Subset.refl _) (fun h => by cases h)
      hself (fun c hc => ?_) (by rw [hrun]; rfl) (by rw [hrun]; simp) (by simp) (by simp)
      (fun _ _ => rfl) (fun _ h => by cases h) (hwalk rfl)⟩
    have hown : (s.runs i).own = some c := by rw [hrun]; exact hc
    exact ⟨ok.roles.own i c hown, fun j hj => ok.roles.own_inj j i c hj hown⟩
  | publish fresh next =>
    simp only [chunk_step, hload] at h
    cases h
    exact ⟨as, ok.publish hrun hord.2 hord.1 rfl rfl rfl (by
      dsimp only
      rw [Dev.flat_mark, Dev.flat_store_put hfit, hplace])⟩
  | header fresh next =>
    have hc := ok.roles.own i ⟨fresh, hash.toNat, data⟩ (by rw [hrun]; rfl)
    obtain ⟨hpos, hstop, -⟩ := ok.regions.place hc
    unfold Stored.stop at hstop
    dsimp only at hpos hstop
    simp only [chunk_step] at h
    generalize hmd : ({ chunk_metadata hash data with next := next } : ChunkHead) = md at h
    have hfields : md.hash = hash.toNat ∧ md.length = data.length ∧ md.next = next := by
      rw [← hmd]
      exact ⟨rfl, hlen, rfl⟩
    obtain ⟨d, hd, w⟩ := write_data_storage_spec s.vol.dev fresh 24 (some (ofList md.bytes)) hpos
      (by omega) (by omega) ok.regions.area.nblocks
    rw [hd] at h
    cases h
    exact ⟨as, ok.header hrun hfields rfl w.bits w.nblocks w.flat⟩
  | data fresh =>
    have hc := ok.roles.own i ⟨fresh, hash.toNat, data⟩ (by rw [hrun]; rfl)
    obtain ⟨hpos, hstop, -⟩ := ok.regions.place hc
    unfold Stored.stop at hstop
    dsimp only at hpos hstop hsize
    obtain ⟨d, hd, w⟩ := write_data_storage_spec s.vol.dev (fresh + 24) data.length
      (some (ofList data)) (by omega) (by omega) (by omega) ok.regions.area.nblocks
    simp only [chunk_step, hlen, hd] at h
    cases h
    exact ⟨as, ok.data hrun rfl w.bits w.nblocks w.flat⟩

end Steps

/-- In every interleaving of orderly steps no chunk is lost, stored twice or followed before it is
written. -/
theorem no_loss [DecidableEq ι] {v : Vol} {cs : List Stored} {runs : ι → ChunkRun}
    {searched : ι → Nat} (area : HeapArea v) (inv : HeapInv v cs) (hpc : ∀ i, (runs i).pc = .search)
    (hsize : ∀ i, ∀ c ∈ (runs i).todo, 0 < c.2.length ∧ c.2.length < 2 ^ 32) {is : List ι}
    {s : Mount ι} (run : Run Mount.step Orderly ⟨v, runs, cs, cs, searched⟩ is s) : NoLoss s := by
  have hstep : ∀ {s : Mount ι} {i s'}, Orderly s i → (∃ as, ConcOk s as) → s.step i = some s' →
      ∃ as, ConcOk s' as := by
    intro s i s' hord hok h
    obtain ⟨as, ok⟩ := hok
    exact ok.step hord h
  obtain ⟨as, ok⟩ := run.inv hstep ⟨cs, .start area inv hpc hsize⟩
  exact ok.noLoss

/-- Two files of one chunk each, in one bucket of `vol64K`. -/
def twoFiles (i : Bool) : ChunkRun := ⟨.search, [(if i then 7 else 5, [1])]⟩

/-- The second run reads its bucket when the chunk of the first is written. -/
theorem no_loss_vol64K : ∃ v0 s, chunk_reset_hashtable vol64K = some v0 ∧
    Run Mount.step Orderly ⟨v0, twoFiles, [], [], fun _ => 0⟩
      [false, false, false, false, false, false, true, true, true, true, true, true, true] s ∧
    s.filled.map Stored.loc = [8233, 8208] ∧ NoLoss s := by
  have h : ((chunk_reset_hashtable vol64K).bind fun v0 =>
      (List.foldlM (fun s i => if Orderly s i then s.step i else none)
        (⟨v0, twoFiles, [], [], fun _ => 0⟩ : Mount Bool)
        [false, false, false, false, false, false, true, true, true, true, true, true, true]).map
          fun s => s.filled.map Stored.loc) = some [8233, 8208] := by
    decide +kernel
  simp only [Option.bind_eq_some_iff, Option.map_eq_some_iff] at h
  obtain ⟨v0, h0, s, hs, hfilled⟩ := h
  obtain ⟨v', hv', -, -, -, lay, inv⟩ := chunk_reset_hashtable_spec vol64K_layout
  obtain rfl : v0 = v' := by
    rw [h0] at hv'
    exact Option.some.inj hv'
  have area : HeapArea v0 := ⟨lay.toTableArea, lay.max_le, lay.brk_ge, lay.brk_le⟩
  have run : Run Mount.step Orderly ⟨v0, twoFiles, [], [], fun _ => 0⟩ _ s := .of_foldlM hs
  refine ⟨v0, s, h0, run, hfilled, no_loss area inv (fun i => rfl) (fun i c hc => ?_) run⟩
  cases i <;> · rw [List.mem_singleton.1 hc]; decide

/-- Both runs find their bucket empty and read its entry before either writes it. -/
theorem lost_chunk : ∃ v0 s, chunk_reset_hashtable vol64K = some v0 ∧
    Run Mount.step (fun _ _ => True) ⟨v0, twoFiles, [], [], fun _ => 0⟩
      [false, true, false, true, false, true, false, true, false, true, false, true] s ∧
    (∀ i, (s.runs i).todo = []) ∧ s.filled.map Stored.loc = [8233, 8208] ∧ ¬ NoLoss s := by
  have h : ((chunk_reset_hashtable vol64K).bind fun v0 =>
      (List.foldlM (fun s i => if True then s.step i else none)
        (⟨v0, twoFiles, [], [], fun _ => 0⟩ : Mount Bool)
        [false, true, false, true, false, true, false, true, false, true, false, true]).map fun s =>
          (s.filled.map fun c => (c.loc, c.hash),
            [s.vol.sbi.buckets, (s.runs false).todo.length, (s.runs true).todo.length],
            [bucket_entry s.vol 1, header_next s.vol.dev 8233]))
      = some ([(8233, 7), (8208, 5)], [2, 0, 0], [some 8233, some 0]) := by
    decide +kernel
  simp only [Option.bind_eq_some_iff, Option.map_eq_some_iff, Prod.mk.injEq, List.cons.injEq,
    and_true, List.length_eq_zero_iff] at h
  obtain ⟨v0, h0, s, hs, hfilled, ⟨hnb, htodo⟩, hentry, hnext⟩ := h
  have hidle : ∀ i, (s.runs i).todo = [] := by
    intro i
    cases i
    · exact htodo.1
    · exact htodo.2
  have hmem : ∃ c ∈ s.filled, c.loc = 8208 ∧ c.hash = 5 := by
    have : (8208, 5) ∈ s.filled.map fun c => (c.loc, c.hash) := by
      rw [hfilled]
      decide
    obtain ⟨c, hc, he⟩ := List.mem_map.1 this
    exact ⟨c, hc, (Prod.mk.inj he).1, (Prod.mk.inj he).2⟩
  refine ⟨v0, s, h0, .of_foldlM hs, hidle, ?_, fun safe => ?_⟩
  · have := congrArg (List.map Prod.fst) hfilled
    rwa [List.map_map] at this
  · obtain ⟨c, hc, hloc, hhash⟩ := hmem
    have hnone : ∀ i, (s.runs i).unheaded = none := by
      intro i
      unfold ChunkRun.unheaded
      rw [hidle i]
    obtain ⟨entry, he, hreach⟩ := safe.reachable c hc fun i c' hc' => by
      rw [hnone i] at hc'
      cases hc'
    rw [hhash, hnb, hentry, Option.some.injEq] at he
    rw [hloc, ← he] at hreach
    -- the bucket leads to the second chunk, which leads nowhere
    cases hreach with
    | next hn hrest =>
      rw [hnext, Option.some.injEq] at hn
      subst hn
      cases hrest with
      | next hn' _ => cases hn'

end CominixFs
