import CominixFs.Heap

/-!
# Searching and filling the hashtable

`chunk_reset_hashtable`, `chunk_search_hashtable` and `chunk_fill_hashtable` on a volume whose heap
holds a list of chunks (`HeapInv`): the reset empties it (`chunk_reset_hashtable_spec`), the search
returns what the list says (`chunk_search_hashtable_eq`), the fill adds one chunk (`HeapInv.fill`).
`HeapFrame` is what all of them leave alone.
-/

namespace CominixFs
open Bytes

/-- The number of buckets. -/
def SbInfo.buckets (sbi : SbInfo) : Nat := sbi.hashtable_size / 8

/-- The hashtable lies inside the device, above the extra superblock. -/
structure TableArea (v : Vol) : Prop where
  bits : 10 ≤ v.dev.s_blocksize_bits ∧ v.dev.s_blocksize_bits ≤ 12
  nblocks : v.dev.nblocks ≤ 2 ^ 32
  table_pos : 0 < v.sbi.hashtable
  table_aligned : v.sbi.hashtable % 8 = 0
  table_size : v.sbi.hashtable_size = v.sbi.buckets * 8
  buckets_pos : 0 < v.sbi.buckets
  table_in : v.sbi.hashtable + v.sbi.hashtable_size ≤ v.dev.nblocks * v.dev.bs
  esb_below : (v.sbi.extra_sb_location + 1) * v.dev.bs ≤ v.sbi.hashtable

/-- The layout of the chunk area on a mounted volume of less than 4 GiB. -/
structure TableLayout (v : Vol) : Prop extends TableArea v where
  max_lt : v.sbi.max_brk < 2 ^ 32
  max_le : v.sbi.max_brk ≤ v.dev.nblocks * v.dev.bs
  max_blocks : v.sbi.max_brk % v.dev.bs = 0
  table_fits : ((v.sbi.hashtable + v.sbi.hashtable_size) / v.dev.bs + 1) * v.dev.bs < 2 ^ 32

/-- The break lies above the hashtable, where a round-up does not wrap. -/
structure HeapLayout (v : Vol) : Prop extends TableLayout v where
  brk_ge : v.sbi.hashtable + v.sbi.hashtable_size ≤ v.sbi.heap_brk
  brk_le : v.sbi.heap_brk ≤ v.dev.nblocks * v.dev.bs
  brk_fits : (v.sbi.heap_brk / v.dev.bs + 1) * v.dev.bs < 2 ^ 32

/-- The heap of a volume holds these chunks. -/
def HeapInv (v : Vol) (cs : List Stored) : Prop :=
  HeapOk v.dev.flat v.dev.bs v.sbi.hashtable v.sbi.buckets v.sbi.heap_brk cs

lemma ChunkHead.le_hash (h : ChunkHead) : le (ofList h.bytes) 0 8 = h.hash % 2 ^ 64 := by
  have := le_ofList_append 8 [] (leBytes 4 h.length ++ leBytes 2 h.refcount ++ leBytes 2 h.flags
    ++ leBytes 8 h.next) h.hash
  simpa [ChunkHead.bytes] using this

lemma ChunkHead.le_length (h : ChunkHead) : le (ofList h.bytes) 8 4 = h.length % 2 ^ 32 := by
  have := le_ofList_append 4 (leBytes 8 h.hash) (leBytes 2 h.refcount ++ leBytes 2 h.flags
    ++ leBytes 8 h.next) h.length
  simpa [ChunkHead.bytes] using this

lemma ChunkHead.le_next (h : ChunkHead) : le (ofList h.bytes) 16 8 = h.next % 2 ^ 64 := by
  have := le_ofList_append 8 (leBytes 8 h.hash ++ leBytes 4 h.length ++ leBytes 2 h.refcount
    ++ leBytes 2 h.flags) [] h.next
  simpa [ChunkHead.bytes] using this

/-- The block size is a multiple of 8. -/
lemma Dev.bs_eight {d : Dev} (h : 10 ≤ d.s_blocksize_bits) : d.bs % 8 = 0 :=
  Nat.mod_eq_zero_of_dvd (Nat.pow_dvd_pow 2 (by omega : 3 ≤ d.s_blocksize_bits))

/-- A bucket word lies in one block of the device. -/
lemma TableArea.load_bucket {v : Vol} (lay : TableArea v) {i : Nat} (hi : i < v.sbi.buckets) :
    load_blockoff v.dev (v.sbi.hashtable + i * 8) = some ((v.sbi.hashtable + i * 8) / v.dev.bs,
      (v.sbi.hashtable + i * 8) % v.dev.bs) ∧
    (v.sbi.hashtable + i * 8) % v.dev.bs + 8 ≤ v.dev.bs := by
  have h1 := lay.table_pos
  have h2 := lay.table_in
  have h3 := lay.table_size
  have h4 := lay.table_aligned
  have h5 : (i + 1) * 8 ≤ v.sbi.buckets * 8 := Nat.mul_le_mul_right _ hi
  have h6 := Dev.bs_eight lay.bits.1
  have h7 := Nat.mod_lt (v.sbi.hashtable + i * 8) v.dev.bs_pos
  have h8 : (v.sbi.hashtable + i * 8) % v.dev.bs % 8 = 0 := by
    rw [Nat.mod_mod_of_dvd _ (Nat.dvd_of_mod_eq_zero h6)]
    omega
  refine ⟨load_blockoff_eq (by omega) (by omega) lay.nblocks, by omega⟩

/-- Every stored chunk lies inside the device, with its header inside one block. -/
lemma HeapInv.place {v : Vol} {cs : List Stored} (lay : HeapLayout v) (inv : HeapInv v cs) :
    ∀ c ∈ cs, 0 < c.loc ∧ c.loc % v.dev.bs + 24 ≤ v.dev.bs ∧ c.stop ≤ v.dev.nblocks * v.dev.bs := by
  intro c hc
  have h1 := inv.above c hc
  have h2 := inv.below c hc
  have h3 := lay.table_pos
  have h4 := lay.brk_le
  exact ⟨by omega, inv.head c hc, by omega⟩

/-- The word of a bucket is the location of the last chunk stored in it. -/
lemma HeapInv.bucket_word {v : Vol} {cs : List Stored} (lay : HeapLayout v) (inv : HeapInv v cs)
    {i : Nat} (hi : i < v.sbi.buckets) :
    le (v.dev.bh.mem ((v.sbi.hashtable + i * 8) / v.dev.bs))
      ((v.sbi.hashtable + i * 8) % v.dev.bs) 8 = bucketHead v.sbi.buckets i cs := by
  obtain ⟨-, hfit⟩ := lay.load_bucket hi
  have hword := v.dev.le_mem (a := v.sbi.hashtable + i * 8) (k := 0) (w := 8) (by omega)
  rwa [Nat.add_zero, Nat.add_zero, inv.bucket _ hi] at hword

/-- The search returns the location the list of chunks gives. -/
lemma chunk_search_hashtable_eq {v : Vol} {cs : List Stored} (lay : HeapLayout v)
    (inv : HeapInv v cs) (h : Nat) : chunk_search_hashtable v h = some (lookup h cs) := by
  have hi : h % v.sbi.buckets < v.sbi.buckets := Nat.mod_lt _ lay.buckets_pos
  obtain ⟨hload, hfit⟩ := lay.load_bucket hi
  have hword := inv.bucket_word lay hi
  have hlen : cs.length < 2 ^ 64 := by
    have h1 := length_le_of_apart inv.apart inv.below
    have h2 := lay.brk_le
    have h3 : v.dev.nblocks * v.dev.bs ≤ 2 ^ 32 * 4096 :=
      Nat.mul_le_mul lay.nblocks (Dev.bs_bounds lay.bits).2.1
    omega
  have hwalk := search_chain_eq (h := h) lay.nblocks inv.linked inv.holds (inv.place lay) hlen
  unfold chunk_search_hashtable hashtable_hash
  have hb : v.sbi.hashtable_size / 8 = v.sbi.buckets := rfl
  rw [hb, if_neg (by have := lay.buckets_pos; omega)]
  simp only [hload, hword]
  rw [if_neg (by omega), hwalk]

/-- What `chunk_alloc` has done when its round-up does not wrap. -/
structure Alloced (v v' : Vol) (loc size : Nat) : Prop where
  ge : v.sbi.heap_brk ≤ loc
  head : loc % v.dev.bs + 24 ≤ v.dev.bs
  room : loc + (24 + size) < v.sbi.max_brk
  vol : v' = { v with
    sbi := { v.sbi with heap_brk := loc + (24 + size) }
    dev := (v.dev.store v.sbi.extra_sb_location
      (put (v.dev.bh.mem v.sbi.extra_sb_location) 16 8 (loc + (24 + size)))).mark_buffer_dirty
        v.sbi.extra_sb_location }

lemma RoundFits.alloced {v v' : Vol} {loc size : Nat} (hfit : RoundFits v)
    (bits : 10 ≤ v.dev.s_blocksize_bits ∧ v.dev.s_blocksize_bits ≤ 12)
    (h62 : v.sbi.heap_brk < 2 ^ 62) (h : chunk_alloc v size = some (v', loc)) :
    Alloced v v' loc size := by
  have h1024 := (Dev.bs_bounds bits).1
  obtain ⟨-, -, -, hloc, hroom, hupd⟩ := chunk_alloc_inv h62 h
  obtain ⟨hge, -, hhead⟩ := round_brk_spec (by omega) h62 hfit
  obtain ⟨-, hv'⟩ := update_brk_on_disk_inv hupd
  rw [← hloc] at hge hhead
  exact ⟨hge, hhead, hroom, hv'⟩

lemma HeapLayout.alloced {v v' : Vol} {loc size : Nat} (lay : HeapLayout v)
    (h : chunk_alloc v size = some (v', loc)) : Alloced v v' loc size := by
  have h62 : v.sbi.heap_brk < 2 ^ 62 := by
    have := Nat.lt_div_mul_add v.dev.bs_pos (a := v.sbi.heap_brk)
    have h4096 := (Dev.bs_bounds lay.bits).2.1
    have := lay.brk_fits
    rw [Nat.add_mul, Nat.one_mul] at this
    omega
  exact RoundFits.alloced (fun _ => lay.brk_fits) lay.bits h62 h

/-- The layout is kept, with the break moved up. -/
lemma Alloced.layout {v v' : Vol} {loc size : Nat} (al : Alloced v v' loc size)
    (lay : HeapLayout v) : HeapLayout v' := by
  have hge := al.ge
  have hroom := al.room
  have hmax := lay.max_le
  have hbrk := lay.brk_ge
  have hblocks := lay.max_blocks
  have hlt := lay.max_lt
  have hpos := v.dev.bs_pos
  have hfits : ((loc + (24 + size)) / v.dev.bs + 1) * v.dev.bs < 2 ^ 32 := by
    have hdm := Nat.div_add_mod' v.sbi.max_brk v.dev.bs
    have hq : (loc + (24 + size)) / v.dev.bs < v.sbi.max_brk / v.dev.bs := by
      rw [Nat.div_lt_iff_lt_mul hpos]
      omega
    have := Nat.mul_le_mul_right v.dev.bs (Nat.succ_le_of_lt hq)
    rw [Nat.succ_eq_add_one] at this
    omega
  rw [al.vol]
  exact ⟨⟨⟨lay.bits, lay.nblocks, lay.table_pos, lay.table_aligned, lay.table_size,
    lay.buckets_pos, lay.table_in, lay.esb_below⟩, lay.max_lt, lay.max_le, lay.max_blocks,
    lay.table_fits⟩, by dsimp only; omega,
    by dsimp only [Dev.store, Dev.mark_buffer_dirty, Dev.bs] at *; omega, hfits⟩

/-- The layout depends on the superblock and the geometry only. -/
lemma HeapLayout.congr {v v' : Vol} (lay : HeapLayout v) (hsbi : v'.sbi = v.sbi)
    (hbits : v'.dev.s_blocksize_bits = v.dev.s_blocksize_bits)
    (hn : v'.dev.nblocks = v.dev.nblocks) : HeapLayout v' := by
  obtain ⟨sbi, ⟨bits, nblocks, bh⟩, s_zmap, printk⟩ := v
  obtain ⟨sbi', ⟨bits', nblocks', bh'⟩, s_zmap', printk'⟩ := v'
  dsimp only at hsbi hbits hn
  subst hsbi hbits hn
  exact ⟨⟨⟨lay.bits, lay.nblocks, lay.table_pos, lay.table_aligned, lay.table_size,
    lay.buckets_pos, lay.table_in, lay.esb_below⟩, lay.max_lt, lay.max_le, lay.max_blocks,
    lay.table_fits⟩, lay.brk_ge, lay.brk_le, lay.brk_fits⟩

/-- The flat device after an allocation differs in the extra superblock only. -/
lemma Alloced.flat {v v' : Vol} {loc size a : Nat} (al : Alloced v v' loc size)
    (lay : TableArea v) (ha : v.sbi.hashtable ≤ a) : v'.dev.flat a = v.dev.flat a := by
  obtain ⟨h1024, -, -⟩ := Dev.bs_bounds lay.bits
  have hesb := lay.esb_below
  rw [Nat.add_mul, Nat.one_mul] at hesb
  rw [al.vol]
  dsimp only
  rw [Dev.flat_mark, Dev.flat_store_put (by omega)]
  exact memcpy_of_not_mem (by omega)

/-- What the writes in the chunk area leave alone: the blocks below the hashtable other than the
extra superblock, the zone bitmap, the device contents and what is printed. -/
structure HeapFrame (v v' : Vol) : Prop extends SameMount v v' where
  s_zmap : v'.s_zmap = v.s_zmap
  printk : v'.printk = v.printk
  covered : ∀ b, v.dev.bh.Covered b → v'.dev.bh.Covered b
  mem_low : ∀ b, (b + 1) * v.dev.bs ≤ v.sbi.hashtable → b ≠ v.sbi.extra_sb_location →
    v'.dev.bh.mem b = v.dev.bh.mem b ∧ v'.dev.bh.dirty b = v.dev.bh.dirty b

/-- What `chunk_fill_hashtable` does beside storing the chunk: it moves the break, in memory and in
the extra superblock, and leaves the older heap alone. -/
structure Filled (v v' : Vol) (loc size : Nat) : Prop extends HeapFrame v v' where
  ge : v.sbi.heap_brk ≤ loc
  room : loc + (24 + size) < v.sbi.max_brk
  brk : v'.sbi.heap_brk = loc + (24 + size)
  mem_esb : v'.dev.bh.mem v.sbi.extra_sb_location
    = put (v.dev.bh.mem v.sbi.extra_sb_location) 16 8 (loc + (24 + size))
  old : ∀ a, v.sbi.hashtable + v.sbi.hashtable_size ≤ a → a < v.sbi.heap_brk →
    v'.dev.flat a = v.dev.flat a

/-- A block below the hashtable is below every block a write in the chunk area reaches. -/
lemma low_block {bs b ht a : Nat} (hpos : 0 < bs) (hb : (b + 1) * bs ≤ ht) (ha : ht ≤ a) :
    b < a / bs := by
  rw [Nat.lt_iff_add_one_le, Nat.le_div_iff_mul_le hpos]
  omega

/-- Resetting the hashtable leaves an empty heap right above it. -/
lemma chunk_reset_hashtable_spec {v : Vol} (lay : TableLayout v) :
    ∃ v', chunk_reset_hashtable v = some v' ∧ HeapFrame v v' ∧
      v'.sbi = { v.sbi with heap_brk := v.sbi.hashtable + v.sbi.hashtable_size } ∧
      v'.dev.bh.mem v.sbi.extra_sb_location = v.dev.bh.mem v.sbi.extra_sb_location ∧
      HeapLayout v' ∧ HeapInv v' [] := by
  have hpos := v.dev.bs_pos
  have htab := lay.table_pos
  have hbpos := lay.buckets_pos
  have htsz := lay.table_size
  have hin := lay.table_in
  obtain ⟨d, hd, w⟩ := write_data_storage_spec v.dev v.sbi.hashtable v.sbi.hashtable_size none
    htab (by omega) hin lay.nblocks
  have hlow : ∀ b, (b + 1) * v.dev.bs ≤ v.sbi.hashtable →
      d.bh.mem b = v.dev.bh.mem b ∧ d.bh.dirty b = v.dev.bh.dirty b := by
    intro b hb
    have hlt := low_block hpos hb (le_refl _)
    exact ⟨w.mem_out b (.inl hlt), w.dirty_out b hlt⟩
  refine ⟨_, by simp only [chunk_reset_hashtable, hd]; rfl, ?_, rfl, ?_, ?_, ?_⟩
  · exact ⟨⟨rfl, w.bits, w.nblocks, w.disk, rfl⟩, rfl, rfl, fun b hb => w.covered hb,
      fun b hb _ => hlow b hb⟩
  · exact (hlow _ lay.esb_below).1
  · have hlay : HeapLayout { v with
        sbi := { v.sbi with heap_brk := v.sbi.hashtable + v.sbi.hashtable_size } } :=
      ⟨⟨⟨lay.bits, lay.nblocks, lay.table_pos, lay.table_aligned, lay.table_size,
        lay.buckets_pos, lay.table_in, lay.esb_below⟩, lay.max_lt, lay.max_le, lay.max_blocks,
        lay.table_fits⟩, le_refl _, lay.table_in, lay.table_fits⟩
    exact hlay.congr rfl w.bits w.nblocks
  · refine ⟨.nil, by simp, by simp, by simp, by simp, by simp, by simp, by simp, trivial, ?_⟩
    intro i hi
    have hi8 : (i + 1) * 8 ≤ v.sbi.buckets * 8 := Nat.mul_le_mul_right _ hi
    show le d.flat (v.sbi.hashtable + i * 8) 8 = 0
    rw [w.flat, le_memcpy (by omega), storage_src, Option.getD_none]
    exact le_zero 8 _

/-- The place of the bucket word of a hash. -/
def SbInfo.bucket_off (sbi : SbInfo) (hash : Nat) : Nat := sbi.hashtable + hash % sbi.buckets * 8

/-- The flat device after a fill: the bucket word, then the header, then the data. -/
def fill_flat (m : Mem) (off loc : Nat) (md : ChunkHead) (data : List UInt8) : Mem :=
  memcpy (memcpy (put m off 8 loc) loc (ofList { md with next := le m off 8 }.bytes) 0 24)
    (loc + 24) (ofList data) 0 data.length

/-- Once its space is allocated, a chunk is written and its bucket word with it. -/
lemma chunk_fill_hashtable_run {v v1 : Vol} {md : ChunkHead} {data : List UInt8} {loc : Nat}
    (lay : HeapLayout v) (hlen : md.length = data.length) (hdata : 0 < data.length)
    (halloc : chunk_alloc v md.length = some (v1, loc)) :
    ∃ v', chunk_fill_hashtable v md (ofList data) = some (v', loc) ∧
      Filled v v' loc data.length ∧ HeapLayout v' ∧
      v'.dev.flat = fill_flat v1.dev.flat (v.sbi.bucket_off md.hash) loc md data := by
  have al := lay.alloced (hlen ▸ halloc)
  have lay1 := al.layout lay
  have hge := al.ge
  have hroom := al.room
  have hmax := lay.max_le
  have hbrk := lay.brk_ge
  have htab := lay.table_pos
  have hn := lay.nblocks
  have hpos := v.dev.bs_pos
  have hbpos := lay.buckets_pos
  have htsz := lay.table_size
  have hdev : v1.dev.bs = v.dev.bs ∧ v1.dev.nblocks = v.dev.nblocks := by rw [al.vol]; exact ⟨rfl, rfl⟩
  have hsbi : v1.sbi = { v.sbi with heap_brk := loc + (24 + data.length) } := by rw [al.vol]
  have hnb : v1.sbi.buckets = v.sbi.buckets := by rw [hsbi]; rfl
  have hht : v1.sbi.hashtable = v.sbi.hashtable := by rw [hsbi]
  have hi : md.hash % v.sbi.buckets < v.sbi.buckets := Nat.mod_lt _ hbpos
  have hi8 : (md.hash % v.sbi.buckets + 1) * 8 ≤ v.sbi.buckets * 8 := Nat.mul_le_mul_right _ hi
  have hbkt := lay1.load_bucket (i := md.hash % v.sbi.buckets) (hnb ▸ hi)
  rw [hht, hdev.1] at hbkt
  unfold SbInfo.bucket_off
  -- the bucket word
  generalize hoff : v.sbi.hashtable + md.hash % v.sbi.buckets * 8 = off at hbkt
  obtain ⟨hload, hfit⟩ := hbkt
  have hdm := Nat.div_add_mod' off v.dev.bs
  have hword : le (v1.dev.bh.mem (off / v.dev.bs)) (off % v.dev.bs) 8 = le v1.dev.flat off 8 := by
    have := v1.dev.le_mem (a := off) (k := 0) (w := 8) (by rw [hdev.1]; omega)
    rwa [Nat.add_zero, Nat.add_zero, hdev.1] at this
  generalize hd2 : (v1.dev.store (off / v.dev.bs) (put (v1.dev.bh.mem (off / v.dev.bs))
    (off % v.dev.bs) 8 loc)).mark_buffer_dirty (off / v.dev.bs) = d2
  have hbs2 : d2.bs = v.dev.bs := by rw [← hd2]; exact hdev.1
  have hnb2 : d2.nblocks = v.dev.nblocks := by rw [← hd2]; exact hdev.2
  have hflat2 : d2.flat = put v1.dev.flat off 8 loc := by
    rw [← hd2, Dev.flat_mark, Dev.flat_store_put (by rw [hdev.1]; omega), hdev.1, hdm]
  -- the header and the data
  obtain ⟨d3, hd3, w3⟩ := write_data_storage_spec d2 loc 24
    (some (ofList { md with next := le v1.dev.flat off 8 }.bytes)) (by omega)
    (by rw [hbs2, hnb2]; omega) (by rw [hbs2, hnb2]; omega) (by omega)
  obtain ⟨d4, hd4, w4⟩ := write_data_storage_spec d3 (loc + 24) data.length (some (ofList data))
    (by omega) (by rw [w3.bs, w3.nblocks, hbs2, hnb2]; omega)
    (by rw [w3.bs, w3.nblocks, hbs2, hnb2]; omega) (by rw [w3.nblocks]; omega)
  have hfill : chunk_fill_hashtable v md (ofList data) = some ({ v1 with dev := d4 }, loc) := by
    have hb : v1.sbi.hashtable_size / 8 = v.sbi.buckets := hnb
    unfold chunk_fill_hashtable hashtable_hash copy_chunk_into_storage
    simp only [halloc, hb, hht]
    rw [if_neg (by omega)]
    simp only [hoff, hload, hword, hd2, hd3]
    simp only [hlen, hd4]
  have hflat : d4.flat = fill_flat v1.dev.flat off loc md data := by
    rw [w4.flat, w3.flat, hflat2]
    rfl
  have hlow : ∀ b, (b + 1) * v.dev.bs ≤ v.sbi.hashtable →
      d4.bh.mem b = v1.dev.bh.mem b ∧ d4.bh.dirty b = v1.dev.bh.dirty b := by
    intro b hb
    have h1 := low_block (a := off) hpos hb (by omega)
    have h2 := low_block (a := loc) hpos hb (by omega)
    have h3 := low_block (a := loc + 24) hpos hb (by omega)
    have hmem2 : d2.bh.mem b = v1.dev.bh.mem b ∧ d2.bh.dirty b = v1.dev.bh.dirty b := by
      rw [← hd2]
      exact ⟨v1.dev.bh.set_mem_of_ne _ (by omega), Buffers.mark_dirty_of_ne _ (by omega)⟩
    rw [← hbs2] at h2
    rw [← hbs2, ← w3.bs] at h3
    rw [w4.mem_out b (.inl h3), w3.mem_out b (.inl h2), w4.dirty_out b h3, w3.dirty_out b h2]
    exact hmem2
  have hb4 : d4.s_blocksize_bits = v1.dev.s_blocksize_bits := by
    rw [w4.bits, w3.bits, ← hd2]; rfl
  have hn4 : d4.nblocks = v1.dev.nblocks := by
    rw [w4.nblocks, w3.nblocks, hnb2, hdev.2]
  refine ⟨_, hfill, ?_, lay1.congr rfl hb4 hn4, hflat⟩
  refine ⟨⟨⟨?_, ?_, ?_, ?_, ?_⟩, ?_, ?_, ?_, ?_⟩, hge, hroom, by dsimp only; rw [hsbi], ?_, ?_⟩
  · show v1.sbi = { v.sbi with heap_brk := v1.sbi.heap_brk }
    rw [hsbi]
  · show d4.s_blocksize_bits = v.dev.s_blocksize_bits
    rw [hb4, al.vol]
    rfl
  · show d4.nblocks = v.dev.nblocks
    rw [hn4, hdev.2]
  · show d4.bh.disk = v.dev.bh.disk
    rw [w4.disk, w3.disk, ← hd2, al.vol]
    rfl
  · show v1.s_zmap.disk = v.s_zmap.disk
    rw [al.vol]
  · show v1.s_zmap = v.s_zmap
    rw [al.vol]
  · show v1.printk = v.printk
    rw [al.vol]
  · intro b hb
    refine w4.covered (w3.covered ?_)
    rw [← hd2]
    apply Dev.store_mark_covered
    rw [al.vol]
    exact Dev.store_mark_covered hb
  · intro b hb hne
    show d4.bh.mem b = _ ∧ d4.bh.dirty b = _
    rw [(hlow b hb).1, (hlow b hb).2, al.vol]
    exact ⟨v.dev.bh.set_mem_of_ne _ hne, Buffers.mark_dirty_of_ne _ hne⟩
  · show d4.bh.mem v.sbi.extra_sb_location = _
    rw [(hlow _ lay.esb_below).1, al.vol]
    simp
  · intro a h1 h2
    show d4.flat a = _
    rw [hflat, fill_flat, memcpy_of_not_mem (by omega), memcpy_of_not_mem (by omega), put,
      memcpy_of_not_mem (by omega), al.flat lay.toTableArea (by omega)]

/-- A chunk with a new hash that was filled in is one more chunk of the heap. -/
lemma HeapInv.fill {v v1 v' : Vol} {cs : List Stored} {md : ChunkHead} {data : List UInt8}
    {loc : Nat} (lay : HeapLayout v) (inv : HeapInv v cs) (hlen : md.length = data.length)
    (hsize : 0 < data.length ∧ data.length < 2 ^ 32) (hhash : md.hash < 2 ^ 64)
    (hnew : ∀ c ∈ cs, c.hash ≠ md.hash) (al : Alloced v v1 loc data.length)
    (hf : Filled v v' loc data.length)
    (hflat : v'.dev.flat = fill_flat v1.dev.flat (v.sbi.bucket_off md.hash) loc md data) :
    HeapInv v' (⟨loc, md.hash, data⟩ :: cs) := by
  have hge := al.ge
  have hbrk := lay.brk_ge
  have htsz := lay.table_size
  have hi : md.hash % v.sbi.buckets < v.sbi.buckets := Nat.mod_lt _ lay.buckets_pos
  have hi8 : (md.hash % v.sbi.buckets + 1) * 8 ≤ v.sbi.buckets * 8 := Nat.mul_le_mul_right _ hi
  have hoff : v.sbi.bucket_off md.hash = v.sbi.hashtable + md.hash % v.sbi.buckets * 8 := rfl
  generalize v.sbi.bucket_off md.hash = off at *
  have hlt := lay.max_lt
  have hroom := al.room
  have hword : le v1.dev.flat off 8 = bucketHead v.sbi.buckets (md.hash % v.sbi.buckets) cs := by
    rw [hoff, ← inv.bucket _ hi]
    exact le_congr fun a h1 h2 => al.flat lay.toTableArea (by omega)
  generalize hmd : ({ md with next := le v1.dev.flat off 8 } : ChunkHead) = md'
  have hmd' : md'.hash = md.hash ∧ md'.length = data.length ∧ md'.next = le v1.dev.flat off 8 := by
    rw [← hmd]; exact ⟨rfl, hlen, rfl⟩
  have hflat : v'.dev.flat = memcpy (memcpy (put v1.dev.flat off 8 loc) loc (ofList md'.bytes) 0 24)
      (loc + 24) (ofList data) 0 data.length := by rw [hflat, fill_flat, hmd]
  have hhead : ∀ k w, k + w ≤ 24 → le v'.dev.flat (loc + k) w = le (ofList md'.bytes) k w := by
    intro k w hk
    rw [hflat, le_memcpy_disjoint (by omega), le_memcpy hk, Nat.zero_add]
  have hpush : HeapOk v'.dev.flat v.dev.bs v.sbi.hashtable v.sbi.buckets
      (Stored.mk loc md.hash data).stop (⟨loc, md.hash, data⟩ :: cs) := by
    refine inv.push lay.buckets_pos (by omega) hge al.head hhash hsize hnew ⟨?_, ?_, ?_⟩ ?_ ?_ ?_
    · have := hhead 0 8 (by omega)
      rwa [Nat.add_zero, md'.le_hash, hmd'.1, Nat.mod_eq_of_lt hhash] at this
    · rw [hhead 8 4 (by omega), md'.le_length, hmd'.2.1, Nat.mod_eq_of_lt hsize.2]
    · have hslice := slice_memcpy_ofList (m := memcpy (put v1.dev.flat off 8 loc) loc
        (ofList md'.bytes) 0 24) (l := data) (o := loc + 24) (k := 0) (n := data.length) (by omega)
      rw [← hflat] at hslice
      simpa using hslice
    · rw [hhead 16 8 (by omega), md'.le_next, hmd'.2.2, ← hword]
      exact Nat.mod_eq_of_lt (le_lt _ 8 _)
    · dsimp only
      rw [← hoff, hflat, le_memcpy_disjoint (by omega), le_memcpy_disjoint (by omega), le_put]
      omega
    · intro a h1 h2 h3
      dsimp only at h3
      rw [hflat, memcpy_of_not_mem (by omega), memcpy_of_not_mem (by omega), put,
        memcpy_of_not_mem (by omega), al.flat lay.toTableArea h1]
  have hnb : v'.sbi.buckets = v.sbi.buckets := by rw [hf.sbi]; rfl
  have hht : v'.sbi.hashtable = v.sbi.hashtable := by rw [hf.sbi]
  unfold HeapInv
  rw [hnb, hht, hf.bs, hf.brk]
  exact hpush

/-- The `struct chunk` that `chunk_and_replace` makes up for a chunk of data. -/
def chunk_metadata (hash : UInt64) (data : List UInt8) : ChunkHead where
  hash := hash.toNat
  length := data.length % 2 ^ 32
  refcount := 0
  flags := 0
  next := 0

/-- `chunk_and_replace`: search for the hash of a chunk and fill when it is not found. The result is
the volume, the location and whether the chunk was filled. -/
def search_or_fill (v : Vol) (hash : UInt64) (data : List UInt8) : Option (Vol × Nat × Bool) :=
  match chunk_search_hashtable v hash.toNat with
  | none => none
  | some location =>
    if location ≠ 0 then some (v, location, false)
    else
      match chunk_fill_hashtable v (chunk_metadata hash data) (ofList data) with
      | none => none
      | some (v, location) => some (v, location, true)

/-- The metadata of a chunk of less than 4 GiB. -/
lemma chunk_metadata_length {h : UInt64} {data : List UInt8} (hd : data.length < 2 ^ 32) :
    (chunk_metadata h data).length = data.length := Nat.mod_eq_of_lt hd

/-- A fill that returns has allocated its space. -/
lemma chunk_fill_hashtable_alloc {v v' : Vol} {md : ChunkHead} {data : Mem} {loc : Nat}
    (h : chunk_fill_hashtable v md data = some (v', loc)) :
    ∃ v1 loc', chunk_alloc v md.length = some (v1, loc') := by
  cases halloc : chunk_alloc v md.length with
  | none => simp [chunk_fill_hashtable, halloc] at h
  | some p => exact ⟨p.1, p.2, rfl⟩

/-- Everything a search-or-fill that returns has done: it found a location, or filled the chunk in. -/
lemma search_or_fill_inv {v v' : Vol} {hash : UInt64} {data : List UInt8} {loc : Nat} {filled : Bool}
    (lay : HeapLayout v) (hsize : 0 < data.length ∧ data.length < 2 ^ 32)
    (h : search_or_fill v hash data = some (v', loc, filled)) :
    filled = false ∧ v' = v ∧ loc ≠ 0 ∧ chunk_search_hashtable v hash.toNat = some loc ∨
    filled = true ∧ chunk_search_hashtable v hash.toNat = some 0 ∧ Filled v v' loc data.length ∧
      HeapLayout v' ∧ ∀ cs, HeapInv v cs → (∀ c ∈ cs, c.hash ≠ hash.toNat) →
        HeapInv v' (⟨loc, hash.toNat, data⟩ :: cs) := by
  unfold search_or_fill at h
  cases hs : chunk_search_hashtable v hash.toNat with
  | none => simp [hs] at h
  | some location =>
    rw [hs] at h
    dsimp only at h
    by_cases h0 : location ≠ 0
    · rw [if_pos h0, Option.some.injEq, Prod.mk.injEq, Prod.mk.injEq] at h
      obtain ⟨rfl, rfl, rfl⟩ := h
      exact .inl ⟨rfl, rfl, h0, rfl⟩
    · obtain rfl : location = 0 := not_not.1 h0
      rw [if_neg h0] at h
      have hmd := chunk_metadata_length (h := hash) hsize.2
      cases hf : chunk_fill_hashtable v (chunk_metadata hash data) (ofList data) with
      | none => simp [hf] at h
      | some p =>
        rw [hf] at h
        dsimp only at h
        rw [Option.some.injEq, Prod.mk.injEq, Prod.mk.injEq] at h
        obtain ⟨rfl, rfl, rfl⟩ := h
        obtain ⟨v1, loc', halloc⟩ := @chunk_fill_hashtable_alloc v p.1 _ _ p.2 hf
        obtain ⟨v'', hrun, hfilled, hlay, hflat⟩ := chunk_fill_hashtable_run lay hmd hsize.1 halloc
        rw [hf, Option.some.injEq] at hrun
        rw [hrun]
        refine .inr ⟨rfl, rfl, hfilled, hlay, fun cs inv hnew => ?_⟩
        exact inv.fill lay hmd hsize hash.toNat_lt hnew (lay.alloced (hmd ▸ halloc)) hfilled hflat

lemma search_chain_lt {d : Dev} {h : Nat} : ∀ {fuel loc l}, search_chain d h fuel loc = some l →
    loc < 2 ^ 64 → l < 2 ^ 64 := by
  intro fuel
  induction fuel with
  | zero => intro loc l hs; cases hs
  | succ fuel ih =>
    intro loc l hs hlt
    simp only [search_chain] at hs
    by_cases h0 : loc = 0
    · rw [if_pos h0] at hs
      cases hs
      decide
    · rw [if_neg h0] at hs
      cases hl : load_blockoff d loc with
      | none => simp [hl] at hs
      | some p =>
        rw [hl] at hs
        dsimp only at hs
        split at hs
        · cases hs
          exact hlt
        · exact ih hs (le_lt _ 8 _)

/-- A location found is a 64-bit number, whatever the heap holds. -/
lemma chunk_search_hashtable_lt {v : Vol} {h loc : Nat}
    (hs : chunk_search_hashtable v h = some loc) : loc < 2 ^ 64 := by
  unfold chunk_search_hashtable at hs
  cases hh : hashtable_hash v.sbi h with
  | none => simp [hh] at hs
  | some i =>
    rw [hh] at hs
    dsimp only at hs
    cases hl : load_blockoff v.dev (v.sbi.hashtable + i * 8) with
    | none => simp [hl] at hs
    | some p =>
      rw [hl] at hs
      dsimp only at hs
      split at hs
      · cases hs
      · exact search_chain_lt hs (le_lt _ 8 _)

/-- On a heap that holds chunks the location is the one the list of chunks gives, or the chunk is
one more. -/
lemma HeapInv.search_or_fill {v v' : Vol} {cs : List Stored} {hash : UInt64} {data : List UInt8}
    {loc : Nat} {filled : Bool} (lay : HeapLayout v) (inv : HeapInv v cs)
    (hsize : 0 < data.length ∧ data.length < 2 ^ 32)
    (h : search_or_fill v hash data = some (v', loc, filled)) :
    filled = false ∧ v' = v ∧ loc ≠ 0 ∧ lookup hash.toNat cs = loc ∨
    filled = true ∧ (∀ c ∈ cs, c.hash ≠ hash.toNat) ∧ Filled v v' loc data.length ∧ HeapLayout v' ∧
      HeapInv v' (⟨loc, hash.toNat, data⟩ :: cs) := by
  rcases search_or_fill_inv lay hsize h with ⟨hfalse, hv, h0, hs⟩ | ⟨htrue, hs, hf, hlay, hinv⟩
  · rw [chunk_search_hashtable_eq lay inv, Option.some.injEq] at hs
    exact .inl ⟨hfalse, hv, h0, hs⟩
  · rw [chunk_search_hashtable_eq lay inv, Option.some.injEq] at hs
    have hnew : ∀ c ∈ cs, c.hash ≠ hash.toNat := by
      intro c hc he
      have hloc := lookup_eq_of_mem inv.nodup hc
      rw [he, hs] at hloc
      exact (inv.place lay c hc).1.ne hloc
    exact .inr ⟨htrue, hnew, hf, hlay, hinv cs inv hnew⟩

end CominixFs
