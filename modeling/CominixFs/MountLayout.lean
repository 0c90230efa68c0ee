import CominixFs.FirstMount

/-!
# The layout of the chunk area after a mount

The hashtable code divides by the number of buckets and reads a bucket from one block, and
`chunk_alloc` requires the break above the normal area; all of it rests on fields that
`cominix_fill_super` takes from the disk. It checks that the hashtable starts within the volume and
nothing else, so the layout is right exactly when the stored fields happen to be (`laid_out_iff`).
-/

namespace CominixFs
open Bytes Bitmap

/-- The layout of the chunk area. -/
structure LaidOut (m : SuperBlock) : Prop where
  esb : InArea m.vol m.vol.sbi.extra_sb_location
  size_pos : 8 ≤ m.vol.sbi.hashtable_size
  size_buckets : m.vol.sbi.hashtable_size % 8 = 0
  aligned : m.vol.sbi.hashtable % 8 = 0
  above : m.vol.sbi.s_firstdatazone * m.vol.dev.bs ≤ m.vol.sbi.hashtable
  brk_ge : m.vol.sbi.hashtable + m.vol.sbi.hashtable_size ≤ m.vol.sbi.heap_brk
  brk_le : m.vol.sbi.heap_brk ≤ m.vol.sbi.max_brk

/-- What the chunk code needs of the layout: every hash has a bucket, which lies in the table and in
one block, and the first allocation does not stop at its entry check. -/
structure ChunkReady (m : SuperBlock) : Prop where
  bucket : ∀ chunk_hash, ∃ i, hashtable_hash m.vol.sbi chunk_hash = some i ∧
    i * 8 + 8 ≤ m.vol.sbi.hashtable_size ∧
    (m.vol.sbi.hashtable + i * 8) % m.vol.dev.bs + 8 ≤ m.vol.dev.bs
  entry : m.vol.sbi.s_nzones * m.vol.dev.bs < m.vol.sbi.heap_brk

namespace Image

variable (img : Image)

/-- Where the extra superblock is said to be. -/
def esb_loc : Nat := (sb_info img.super).extra_sb_location

/-- What is stored there. -/
def esb : ExtraSuperBlock := .read (img.sdev.bh.mem img.esb_loc)

/-- The stored fields of the chunk area fit the volume and each other. -/
structure EsbFits : Prop where
  loc_ge : img.super.s_firstdatazone ≤ img.esb_loc
  loc_lt : img.esb_loc < img.esb.hashtable_location / img.bs
  size_pos : 8 ≤ img.esb.hashtable_size
  size_buckets : img.esb.hashtable_size % 8 = 0
  aligned : img.esb.hashtable_location % 8 = 0
  above : img.super.s_firstdatazone * img.bs ≤ img.esb.hashtable_location
  brk_ge : img.esb.hashtable_location + img.esb.hashtable_size ≤ img.esb.heap_brk
  brk_le : img.esb.heap_brk ≤ img.super.s_zones * img.bs

/-- The chunk area of a first mount fits the volume, and a zone is free for the extra superblock. -/
structure FirstFits : Prop where
  above : img.super.s_firstdatazone * img.bs ≤ first_hashtable
  room : first_hashtable + first_hashtable_size ≤ img.super.s_zones * img.bs
  free : img.super.s_firstdatazone = 0 ∨
    ∃ z, img.super.s_firstdatazone ≤ z ∧ z < img.first_nzones ∧ img.in_use z = false

end Image

/-- A layout as it should be is all the chunk code needs. -/
lemma LaidOut.ready {m : SuperBlock} (lay : LaidOut m) (hbs : 3 ≤ m.vol.dev.s_blocksize_bits)
    (hn : m.vol.sbi.s_nzones * m.vol.dev.bs ≤ m.vol.sbi.hashtable) : ChunkReady m := by
  have h1 := lay.size_pos
  have h2 := lay.size_buckets
  have h3 := lay.aligned
  have h4 := lay.brk_ge
  refine ⟨fun chunk_hash => ?_, by omega⟩
  have hb : 0 < m.vol.sbi.hashtable_size / 8 := by omega
  have hi := Nat.mod_lt chunk_hash hb
  refine ⟨_, by rw [hashtable_hash, if_neg (by omega)], by omega, ?_⟩
  generalize chunk_hash % (m.vol.sbi.hashtable_size / 8) = i at *
  have h8 : 8 ∣ m.vol.dev.bs := Nat.pow_dvd_pow 2 hbs
  have hmod : (m.vol.sbi.hashtable + i * 8) % m.vol.dev.bs % 8 = 0 := by
    rw [Nat.mod_mod_of_dvd _ h8]
    omega
  have hlt := Nat.mod_lt (m.vol.sbi.hashtable + i * 8) m.vol.dev.bs_pos
  omega

/-- The loop leaves superblock and device alone, and returns 0 or a zone of the normal area. -/
lemma new_block_loop_area {v v' : Vol} {z : Nat} : ∀ n i, new_block_loop v n i = (v', z) →
    v'.sbi = v.sbi ∧ v'.dev = v.dev ∧ (z = 0 ∨ InArea v z) := by
  intro n
  induction n with
  | zero =>
    intro i h
    cases h
    exact ⟨rfl, rfl, .inl rfl⟩
  | succ n ih =>
    intro i h
    simp only [new_block_loop] at h
    split at h
    · split at h
      · cases h
        exact ⟨rfl, rfl, .inl rfl⟩
      · rename_i hin
        cases h
        exact ⟨rfl, rfl, .inr ⟨by omega, by omega⟩⟩
    · exact ih (i + 1) h

/-- What `cminix_alloc_extra_super` leaves in the superblock in memory. -/
lemma cminix_alloc_extra_super_sbi {m m' : SuperBlock} {e : Int}
    (hbrk : m.vol.sbi.heap_brk = m.vol.sbi.hashtable + m.vol.sbi.hashtable_size)
    (hht : 0 < m.vol.sbi.hashtable) (h32 : m.vol.sbi.hashtable < 2 ^ 32 * m.vol.dev.bs)
    (hfit32 : m.vol.sbi.hashtable + m.vol.sbi.hashtable_size ≤ 2 ^ 32 * m.vol.dev.bs)
    (h : cminix_alloc_extra_super m = some (m', e)) :
    m'.vol.sbi = { m.vol.sbi with
      extra_sb_location := (cominix_new_block m.vol).2 % 2 ^ 32 } ∧
    m'.vol.dev.s_blocksize_bits = m.vol.dev.s_blocksize_bits := by
  obtain ⟨hno, v, new, hnew, hcase⟩ := cminix_alloc_extra_super_inv h
  obtain ⟨hsbi, hdev, -⟩ := new_block_loop_area _ _ hnew
  rw [hnew]
  rw [hsbi, hdev] at hcase
  rcases hcase with ⟨hz, rfl⟩ | ⟨-, d, hw, rfl⟩
  · refine ⟨?_, congrArg _ hdev⟩
    change v.sbi = _
    rw [hz, ← hno, hsbi]
  · generalize hd0 : m.vol.dev.store (new % 2 ^ 32) (ExtraSuperBlock.bytes
      ⟨m.vol.sbi.hashtable, m.vol.sbi.hashtable_size, m.vol.sbi.heap_brk⟩) = d0 at hw
    have hbs0 : d0.bs = m.vol.dev.bs := by rw [← hd0, Dev.store_bs]
    rw [← hbs0] at h32 hfit32
    obtain ⟨hlt, hfit⟩ := write_data_storage_fits h32 hfit32 hw
    obtain ⟨d', hd', w⟩ := write_data_storage_below d0 _ _ none hht hlt hfit h32 hfit32
    rw [hw] at hd'
    obtain rfl := Option.some.inj hd'
    refine ⟨?_, ?_⟩
    · change ({ m.vol.sbi with
        extra_sb_location := new % 2 ^ 32
        heap_brk := m.vol.sbi.hashtable + m.vol.sbi.hashtable_size } : SbInfo) = _
      rw [← hbrk]
    · change d.s_blocksize_bits = _
      rw [w.bits, ← hd0, Dev.store_bits]

/-- On a first mount the location is in the normal area exactly when a zone is free there. -/
lemma first_mount_esb {img : Image} {rdonly : Bool} {s_root : Inode}
    (fit : MapsFit (first_info img) img.sdev)
    (hcheck : cominix_check_superblock (sb_info img.super) = true) :
    InArea (first_set_up img rdonly s_root).vol
      ((cominix_new_block (first_set_up img rdonly s_root).vol).2 % 2 ^ 32) ↔
    img.super.s_firstdatazone = 0 ∨
      ∃ z, img.super.s_firstdatazone ≤ z ∧ z < img.first_nzones ∧ img.in_use z = false := by
  obtain ⟨hn0, hn⟩ := img.first_nzones_bounds
  generalize hv : (first_set_up img rdonly s_root).vol = v
  have hfirst : v.sbi.s_firstdatazone = img.super.s_firstdatazone := by rw [← hv]; rfl
  have hnz : v.sbi.s_nzones = img.first_nzones := by rw [← hv]; rfl
  have hbit : ∀ z, zbit v z = img.in_use z := fun z => by rw [← hv, first_set_up_zbit]
  rcases Nat.eq_zero_or_pos img.super.s_firstdatazone with h0 | hpos
  · refine ⟨fun _ => .inl h0, fun _ => ?_⟩
    cases hnew : cominix_new_block v with
    | mk v' z =>
      obtain ⟨-, -, hz⟩ := new_block_loop_area _ _ hnew
      have hlt : z < img.first_nzones := by
        rcases hz with rfl | hz
        · exact hn0
        · rw [← hnz]
          exact hz.2
      change v.sbi.s_firstdatazone ≤ z % 2 ^ 32 ∧ z % 2 ^ 32 < v.sbi.s_nzones
      omega
  · have ok : ZmapOk v := by
      rw [← hv]
      exact fit.zmapOk hcheck rfl rfl hpos (by change img.first_nzones ≤ _; omega)
    obtain ⟨v', z, hnew, -, -, hcase⟩ := cominix_new_block_spec ok
    rw [hnew]
    rcases hcase with ⟨-, ht, -⟩ | ⟨rfl, -, hall⟩
    · obtain ⟨⟨h1, h2⟩, hfree⟩ := ht.free z (List.mem_singleton_self z)
      have hm : z % 2 ^ 32 = z := Nat.mod_eq_of_lt (by omega)
      change InArea v (z % 2 ^ 32) ↔ _
      rw [hm]
      exact ⟨fun _ => .inr ⟨z, by omega, by omega, by rw [← hbit]; exact hfree⟩, fun _ => ⟨h1, h2⟩⟩
    · constructor
      · intro h
        have h1 : v.sbi.s_firstdatazone ≤ 0 := h.1
        omega
      · rintro (h0 | ⟨z, h1, h2, hfree⟩)
        · omega
        · have hset := hall z ⟨by omega, by omega⟩
          rw [hbit, hfree] at hset
          cases hset

/-- What a later mount takes from the superblock and the extra superblock. -/
def stored_info (img : Image) : SbInfo :=
  { sb_info img.super with
    hashtable := img.esb.hashtable_location
    hashtable_size := img.esb.hashtable_size
    heap_brk := img.esb.heap_brk
    max_brk := img.super.s_zones * img.bs
    s_nzones := img.esb.hashtable_location / img.bs }

/-- An image that is mounted is mounted for the first time or from its stored fields. -/
lemma cominix_fill_super_mounted {img : Image} {rdonly : Bool} {m : SuperBlock}
    (h : cominix_fill_super img rdonly = some (.mounted m)) :
    ∃ s_root,
      img.NoEsb ∧ cominix_check_superblock (sb_info img.super) = true ∧
        MapsFit (first_info img) img.sdev ∧
        (∃ e, cminix_alloc_extra_super (first_set_up img rdonly s_root) = some (m, e)) ∨
      ¬ img.NoEsb ∧ m = set_up (stored_info img) img.sdev img.s_sbh rdonly s_root := by
  obtain ⟨hcheck, s0, sbi, hs0, hsbi, hmaps⟩ := cominix_fill_super_inv h rfl
  simp only [fill_nzones] at hsbi
  split at hsbi
  · cases hsbi
  obtain rfl := Option.some.inj hsbi
  simp only [cminix_fill_extra_super] at hs0
  rcases fill_maps_inv hmaps rfl with ⟨hr, -⟩ | ⟨s_root, m', hm, fit, hcase⟩
  · cases hr
  cases hm
  refine ⟨s_root, ?_⟩
  by_cases hno : img.NoEsb
  · rw [if_pos (show (sb_info img.super).extra_sb_location = 0 from hno)] at hs0
    obtain rfl := Option.some.inj hs0
    rcases hcase with ⟨hne, -⟩ | ⟨-, hal⟩
    · exact absurd hno hne
    · exact .inl ⟨hno, hcheck, fit, hal⟩
  · rw [if_neg (show (sb_info img.super).extra_sb_location ≠ 0 from hno)] at hs0
    split at hs0
    · obtain rfl := Option.some.inj hs0
      rcases hcase with ⟨-, hm⟩ | ⟨h0, -⟩
      · exact .inr ⟨hno, hm⟩
      · exact absurd h0 hno
    · cases hs0

/-- After a first mount the layout is right exactly when the volume has room and a free zone. -/
lemma first_laid_out {img : Image} {rdonly : Bool} {s_root : Inode} {m : SuperBlock} {e : Int}
    (hcheck : cominix_check_superblock (sb_info img.super) = true)
    (fit : MapsFit (first_info img) img.sdev)
    (hal : cminix_alloc_extra_super (first_set_up img rdonly s_root) = some (m, e)) :
    (LaidOut m ∧ ChunkReady m) ↔ img.FirstFits := by
  have hbs : 512 ≤ img.bs := by
    rcases img.bs_cases with h | h | h | h <;> omega
  have hht : 0 < (first_set_up img rdonly s_root).vol.sbi.hashtable := by
    change 0 < first_hashtable
    decide
  have h32 : first_hashtable < 2 ^ 32 * img.bs := by
    unfold first_hashtable
    omega
  have hfit32 : first_hashtable + first_hashtable_size ≤ 2 ^ 32 * img.bs := by
    unfold first_hashtable first_hashtable_size
    omega
  obtain ⟨hsbi, hdev⟩ := cminix_alloc_extra_super_sbi rfl hht h32 hfit32 hal
  have hesb := @first_mount_esb img rdonly s_root fit hcheck
  have hbsm : m.vol.dev.bs = img.bs := congrArg (2 ^ ·) hdev
  generalize (cominix_new_block (first_set_up img rdonly s_root).vol).2 % 2 ^ 32 = loc at *
  have hsbi : m.vol.sbi = { first_info img with extra_sb_location := loc } := hsbi
  have harea : InArea m.vol m.vol.sbi.extra_sb_location ↔
      InArea (first_set_up img rdonly s_root).vol loc := by
    rw [InArea, hsbi]
    exact Iff.rfl
  constructor
  · rintro ⟨lay, -⟩
    have habove := lay.above
    have hle := lay.brk_le
    rw [hbsm, hsbi] at habove
    rw [hsbi] at hle
    exact ⟨habove, hle, hesb.1 (harea.1 lay.esb)⟩
  · intro fits
    have lay : LaidOut m := by
      refine ⟨harea.2 (hesb.2 fits.free), ?_, ?_, ?_, ?_, ?_, ?_⟩
      · rw [hsbi]
        exact (by decide : 8 ≤ first_hashtable_size)
      · rw [hsbi]
        exact (by decide : first_hashtable_size % 8 = 0)
      · rw [hsbi]
        exact (by decide : first_hashtable % 8 = 0)
      · rw [hbsm, hsbi]
        exact fits.above
      · rw [hsbi]
        exact Nat.le_refl _
      · rw [hsbi]
        exact fits.room
    have hbits : 3 ≤ m.vol.dev.s_blocksize_bits := by
      rw [hdev]
      exact le_trans (by decide) (set_blocksize_bits_bounds img.super.s_blocksize).1
    refine ⟨lay, lay.ready hbits ?_⟩
    rw [hbsm, hsbi]
    exact Nat.le_of_eq img.first_nzones_mul

/-- After a mount the chunk area is laid out as the chunk code needs it exactly when the stored
fields say so or, on a first mount, the volume has room and a free zone. -/
theorem laid_out_iff {img : Image} {rdonly : Bool} {m : SuperBlock}
    (h : cominix_fill_super img rdonly = some (.mounted m)) :
    (LaidOut m ∧ ChunkReady m) ↔ (img.NoEsb → img.FirstFits) ∧ (¬ img.NoEsb → img.EsbFits) := by
  obtain ⟨s_root, ⟨hno, hcheck, fit, e, hal⟩ | ⟨hno, rfl⟩⟩ := cominix_fill_super_mounted h
  · rw [first_laid_out hcheck fit hal]
    exact ⟨fun fits => ⟨fun _ => fits, fun hne => absurd hno hne⟩, fun fits => fits.1 hno⟩
  · have hbits : 3 ≤ img.sdev.s_blocksize_bits :=
      le_trans (by decide) (set_blocksize_bits_bounds img.super.s_blocksize).1
    constructor
    · rintro ⟨lay, -⟩
      exact ⟨fun h => absurd h hno, fun _ => ⟨lay.esb.1, lay.esb.2, lay.size_pos,
        lay.size_buckets, lay.aligned, lay.above, lay.brk_ge, lay.brk_le⟩⟩
    · rintro ⟨-, hfits⟩
      have fits := hfits hno
      have lay : LaidOut (set_up (stored_info img) img.sdev img.s_sbh rdonly s_root) :=
        ⟨⟨fits.loc_ge, fits.loc_lt⟩, fits.size_pos, fits.size_buckets, fits.aligned, fits.above,
          fits.brk_ge, fits.brk_le⟩
      exact ⟨lay, lay.ready hbits (Nat.div_mul_le_self _ _)⟩

/-- An image whose pads name the extra superblock in zone 12, with a hashtable of 1024 buckets. -/
def bucket_image : Image :=
  v3_image 32 1 6 11 [(1028, 2, 12), (3072, 1, 7), (12288, 8, 41943040), (12296, 8, 8192),
    (12304, 8, 41951232)]

/-- The small image is laid out by its first mount, the other one by its stored fields. -/
theorem laid_out_iff_small : ∃ m m', cominix_fill_super small_image false = some (.mounted m) ∧
    cominix_fill_super bucket_image false = some (.mounted m') ∧ ¬ bucket_image.NoEsb ∧
    (LaidOut m ∧ ChunkReady m) ∧ LaidOut m' ∧ ChunkReady m' := by
  obtain ⟨r, h, h0⟩ := small_image_mounts
  have hno : small_image.NoEsb := by decide +kernel
  have hesb : ¬ bucket_image.NoEsb := by decide +kernel
  have h' : ((cominix_fill_super bucket_image false).bind FillSuper.s_fs_info).isSome = true := by
    decide +kernel
  obtain ⟨m', h'⟩ := Option.isSome_iff_exists.1 h'
  obtain ⟨r', h', hr'⟩ := Option.bind_eq_some_iff.1 h'
  obtain rfl := FillSuper.s_fs_info_some hr'
  rcases small_image_v3.first_mount hno h h0 with ⟨-, hlt⟩ | ⟨s_root, m, rfl, -⟩
  · exact absurd hlt (by decide +kernel)
  · refine ⟨m, m', h, h', hesb, (laid_out_iff h).2 ⟨fun _ => ?_, fun hne => absurd hno hne⟩,
      (laid_out_iff h').2 ⟨fun he => absurd he hesb, fun _ => ?_⟩⟩
    · exact ⟨by decide +kernel, by decide +kernel,
        .inr ⟨12, by decide +kernel, by decide +kernel, by decide +kernel⟩⟩
    · exact ⟨by decide +kernel, by decide +kernel, by decide +kernel, by decide +kernel,
        by decide +kernel, by decide +kernel, by decide +kernel, by decide +kernel⟩

/-- An image whose extra superblock, in zone 12, tells of a hashtable without buckets. -/
def no_bucket_image : Image :=
  v3_image 32 1 6 11 [(1028, 2, 12), (3072, 1, 7), (12288, 8, 41943040), (12304, 8, 41975808)]

/-- It is mounted, and every look-up divides by zero. -/
theorem mount_no_bucket : ∃ img m, cominix_fill_super img false = some (.mounted m) ∧
    ¬ LaidOut m ∧ ∀ chunk_hash, hashtable_hash m.vol.sbi chunk_hash = none := by
  have h : ((cominix_fill_super no_bucket_image false).bind FillSuper.s_fs_info).map
      (fun m => m.vol.sbi.hashtable_size) = some 0 := by
    decide +kernel
  obtain ⟨m, h, hsize⟩ := Option.map_eq_some_iff.1 h
  obtain ⟨r, h, hr⟩ := Option.bind_eq_some_iff.1 h
  obtain rfl := FillSuper.s_fs_info_some hr
  refine ⟨no_bucket_image, m, h, fun lay => ?_, fun chunk_hash => ?_⟩
  · have hpos := lay.size_pos
    omega
  · rw [hashtable_hash, hsize, if_pos (by decide)]

end CominixFs
