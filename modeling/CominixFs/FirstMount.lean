import CominixFs.Mount

/-!
# The first mount

On an image without an extra superblock `cominix_fill_super` puts the hashtable at a fixed offset,
ends the normal area there and allocates the extra superblock below. Neither looks at what the zone
bitmap says: a zone in use from the hashtable on is overwritten (`first_mount_safe_iff`), and in a
full normal area no extra superblock is made though 0 is returned (`usable_esb_iff`).
-/

namespace CominixFs
open Bytes Bitmap

namespace Image

variable (img : Image)

/-- The block size. -/
def bs : Nat := img.sdev.bs

/-- A zone of the image. -/
def IsZone (z : Nat) : Prop := img.super.s_firstdatazone ≤ z ∧ z < img.super.s_zones

/-- The bit of a zone in the zone bitmap of the image. -/
def in_use (z : Nat) : Bool :=
  bitAt (read_map img.sdev (2 + img.super.s_imap_blocks)) (bits_per_zone img.sdev)
    (z - img.super.s_firstdatazone + 1)

/-- No extra superblock has been made. -/
def NoEsb : Prop := (sb_info img.super).extra_sb_location = 0

instance : Decidable img.NoEsb := inferInstanceAs (Decidable (_ = 0))

/-- Where a first mount ends the normal area. -/
def first_nzones : Nat := first_hashtable / img.bs

end Image

/-- A Minix V3 image: superblock, bitmaps, inode table and zones in this order on the device, the
bitmaps large enough. -/
structure V3Image (img : Image) : Prop where
  blocksize : img.super.s_blocksize = 1024 ∨ img.super.s_blocksize = 2048 ∨
    img.super.s_blocksize = 4096
  first : 2 + img.super.s_imap_blocks + img.super.s_zmap_blocks
    + (img.super.s_ninodes + (img.bs / 64 - 1)) / (img.bs / 64) ≤ img.super.s_firstdatazone
  zones : img.super.s_firstdatazone < img.super.s_zones
  imap : img.super.s_ninodes < img.super.s_imap_blocks * bits_per_zone img.sdev
  zmap : img.super.s_zones - img.super.s_firstdatazone
    < img.super.s_zmap_blocks * bits_per_zone img.sdev
  size : img.super.s_zones * img.bs ≤ img.size

/-- What a first mount takes from the superblock. -/
def first_info (img : Image) : SbInfo :=
  { sb_info img.super with
    hashtable := first_hashtable
    hashtable_size := first_hashtable_size
    heap_brk := first_hashtable + first_hashtable_size
    max_brk := img.super.s_zones * img.bs
    s_nzones := img.first_nzones }

lemma set_blocksize_bits_bounds (size : Nat) :
    9 ≤ set_blocksize_bits size ∧ set_blocksize_bits size ≤ 12 := by
  unfold set_blocksize_bits
  split
  · omega
  · split
    · omega
    · split <;> omega

/-- The numbers of a superblock have the width of their fields. -/
lemma Cominix3SuperBlock.read_bounds (m : Mem) :
    (Cominix3SuperBlock.read m).s_imap_blocks < 2 ^ 16 ∧
    (Cominix3SuperBlock.read m).s_zmap_blocks < 2 ^ 16 ∧
    (Cominix3SuperBlock.read m).s_firstdatazone < 2 ^ 16 ∧
    (Cominix3SuperBlock.read m).s_zones < 2 ^ 32 :=
  ⟨le_lt m 2 6, le_lt m 2 8, le_lt m 2 10, le_lt m 4 20⟩

namespace Image

variable {img : Image}

/-- The block size is one of four. -/
lemma bs_cases (img : Image) :
    img.bs = 512 ∨ img.bs = 1024 ∨ img.bs = 2048 ∨ img.bs = 4096 := by
  obtain ⟨h1, h2⟩ := set_blocksize_bits_bounds img.super.s_blocksize
  have hbs : img.bs = 2 ^ set_blocksize_bits img.super.s_blocksize := rfl
  rw [hbs]
  generalize set_blocksize_bits img.super.s_blocksize = bits at *
  obtain rfl | rfl | rfl | rfl : bits = 9 ∨ bits = 10 ∨ bits = 11 ∨ bits = 12 := by omega
  · exact .inl rfl
  · exact .inr (.inl rfl)
  · exact .inr (.inr (.inl rfl))
  · exact .inr (.inr (.inr rfl))

lemma bits_per_zone_eq (img : Image) : bits_per_zone img.sdev = 8 * img.bs := rfl

/-- The hashtable of a first mount starts a block. -/
lemma first_nzones_mul (img : Image) : img.first_nzones * img.bs = first_hashtable := by
  unfold first_nzones
  rcases img.bs_cases with h | h | h | h <;> rw [h] <;> rfl

lemma first_nzones_bounds (img : Image) : 0 < img.first_nzones ∧ img.first_nzones < 2 ^ 17 := by
  unfold first_nzones
  rcases img.bs_cases with h | h | h | h <;> rw [h] <;> decide

/-- Setting bit 0 of the bitmap leaves the bits of the zones. -/
lemma bitAt_set_bit_zero {map : Buffers (Nat → Bool)} {w n : Nat} :
    bitAt (set_bit_zero map) w n = if n = 0 then true else bitAt map w n := by
  have hdm := Nat.div_add_mod' n w
  unfold bitAt set_bit_zero
  by_cases hd : n / w = 0
  · rw [hd, Buffers.set_mem_self]
    rw [hd, Nat.zero_mul, Nat.zero_add] at hdm
    rw [hdm]
    by_cases hn : n = 0
    · subst hn
      rw [Function.update_self, if_pos rfl]
    · rw [Function.update_of_ne hn, if_neg hn]
  · rw [Buffers.set_mem_of_ne _ _ hd, if_neg]
    rintro rfl
    exact hd (Nat.zero_div w)

end Image

/-- A bitmap of the size that is asked for covers the normal area. -/
lemma blocks_needed_covers {bs nzones first blocks : Nat} (hbs : 0 < bs) (hbs' : bs ≤ 4096)
    (hn : nzones ≤ 2 ^ 31) (hf : first < 2 ^ 16) (hb : 0 < blocks)
    (h : cominix_blocks_needed (nzones + (2 ^ 64 - first) + 1) bs ≤ blocks) :
    nzones < first + blocks * (8 * bs) := by
  have hmul : 1 * (8 * bs) ≤ blocks * (8 * bs) := Nat.mul_le_mul_right _ hb
  by_cases hlt : nzones < first
  · omega
  · unfold cominix_blocks_needed at h
    have hm : (nzones + (2 ^ 64 - first) + 1) % 2 ^ 32 = nzones - first + 1 := by omega
    rw [hm, Nat.mod_eq_of_lt (by omega), Nat.mul_comm bs 8] at h
    have hdm := Nat.div_add_mod' (nzones - first + 1 + (8 * bs - 1)) (8 * bs)
    have hmod := Nat.mod_lt (nzones - first + 1 + (8 * bs - 1)) (by omega : 0 < 8 * bs)
    have hle := Nat.mul_le_mul_right (8 * bs) h
    omega

/-- Few bits need few blocks. -/
lemma blocks_needed_le {bs bits blocks : Nat} (hbs : 0 < bs) (hbs' : bs ≤ 4096)
    (h31 : bits % 2 ^ 32 ≤ 2 ^ 31) (h : bits % 2 ^ 32 ≤ blocks * (8 * bs)) :
    cominix_blocks_needed bits bs ≤ blocks := by
  unfold cominix_blocks_needed
  rw [Nat.mod_eq_of_lt (by omega), Nat.mul_comm bs 8]
  have hlt : bits % 2 ^ 32 + (8 * bs - 1) < (blocks + 1) * (8 * bs) := by
    rw [Nat.succ_mul blocks]
    omega
  exact Nat.lt_succ_iff.1 ((Nat.div_lt_iff_lt_mul (by omega)).2 hlt)

/-- A mounted bitmap covers the normal area. -/
lemma MapsFit.zmapOk {img : Image} {sbi : SbInfo} {rdonly : Bool} {s_root : Inode}
    (fit : MapsFit sbi img.sdev) (hcheck : cominix_check_superblock (sb_info img.super) = true)
    (hzmap : sbi.s_zmap_blocks = img.super.s_zmap_blocks)
    (hfirst : sbi.s_firstdatazone = img.super.s_firstdatazone)
    (hpos : 0 < img.super.s_firstdatazone) (hn : sbi.s_nzones ≤ 2 ^ 31) :
    ZmapOk (set_up sbi img.sdev img.s_sbh rdonly s_root).vol := by
  obtain ⟨-, hz16, hf16, -⟩ := Cominix3SuperBlock.read_bounds img.s_sbh
  have hbs : 0 < img.bs ∧ img.bs ≤ 4096 := by
    rcases img.bs_cases with h | h | h | h <;> omega
  have hblocks : 0 < img.super.s_zmap_blocks := by
    simp only [cominix_check_superblock, sb_info, Bool.not_eq_true', Bool.or_eq_false_iff,
      beq_eq_false_iff_ne] at hcheck
    omega
  have hw : bits_per_zone img.sdev = 8 * img.bs := img.bits_per_zone_eq
  have hle : img.super.s_zmap_blocks * (8 * img.bs) ≤ (2 ^ 16 - 1) * (8 * 4096) :=
    Nat.mul_le_mul (by change (Cominix3SuperBlock.read _).s_zmap_blocks ≤ _; omega) (by omega)
  have hf : img.super.s_firstdatazone < 2 ^ 16 := hf16
  have hfit := fit.zmap
  rw [hfirst, hzmap] at hfit
  refine ⟨?_, hn, ?_, ?_, ?_⟩
  · change 0 < sbi.s_firstdatazone
    omega
  · change sbi.s_firstdatazone + sbi.s_zmap_blocks * bits_per_zone img.sdev ≤ 2 ^ 32
    rw [hfirst, hzmap, hw]
    omega
  · change sbi.s_nzones < sbi.s_firstdatazone + sbi.s_zmap_blocks * bits_per_zone img.sdev
    rw [hfirst, hzmap, hw]
    exact blocks_needed_covers hbs.1 hbs.2 hn hf hblocks hfit
  · change bitAt (set_bit_zero _) (bits_per_zone img.sdev) 0 = true
    rw [Image.bitAt_set_bit_zero, if_pos rfl]

/-- The fields stored in the extra superblock are read back. -/
lemma ExtraSuperBlock.read_bytes {esb : ExtraSuperBlock} (h1 : esb.hashtable_location < 2 ^ 64)
    (h2 : esb.hashtable_size < 2 ^ 32) (h3 : esb.heap_brk < 2 ^ 64) :
    ExtraSuperBlock.read esb.bytes = esb := by
  have hloc : le esb.bytes 0 8 = esb.hashtable_location := by
    rw [ExtraSuperBlock.bytes, le_put_disjoint (.inl (by decide)), le_put_disjoint (.inl (by decide)),
      le_put h1]
  have hsize : le esb.bytes 8 4 = esb.hashtable_size := by
    rw [ExtraSuperBlock.bytes, le_put_disjoint (.inl (by decide)), le_put h2]
  have hbrk : le esb.bytes 16 8 = esb.heap_brk := le_put h3
  rw [ExtraSuperBlock.read, hloc, hsize, hbrk]

/-- The pads of the superblock hold the location that was put there. -/
lemma pads_read {m : Mem} {loc : Nat} (h : loc < 2 ^ 32) :
    (sb_info (.read (put (put m 4 2 (loc % 2 ^ 16)) 14 2 (loc / 2 ^ 16)))).extra_sb_location
      = loc := by
  have h0 : loc % 2 ^ 16 < 256 ^ 2 := by omega
  have h1 : loc / 2 ^ 16 < 256 ^ 2 := by omega
  simp only [sb_info, Cominix3SuperBlock.read]
  rw [le_put h1, le_put_disjoint (by omega), le_put h0]
  omega

/-- An extra superblock was made in a zone, and the hashtable cleared. -/
structure NewEsb (m m' : SuperBlock) (z : Nat) : Prop where
  sbi : m'.vol.sbi = { m.vol.sbi with
    extra_sb_location := z, heap_brk := m.vol.sbi.hashtable + m.vol.sbi.hashtable_size }
  bits : m'.vol.dev.s_blocksize_bits = m.vol.dev.s_blocksize_bits
  zbit : ∀ y, m.vol.sbi.s_firstdatazone ≤ y →
    zbit m'.vol y = if y = z then true else zbit m.vol y
  mem_out : ∀ b, b ≠ z → b < m.vol.sbi.hashtable / m.vol.dev.bs ∨
    m.vol.sbi.hashtable / m.vol.dev.bs < b ∧
      m.vol.sbi.hashtable + m.vol.sbi.hashtable_size ≤ b * m.vol.dev.bs →
    m'.vol.dev.bh.mem b = m.vol.dev.bh.mem b
  esb : m'.vol.dev.bh.mem z = ExtraSuperBlock.bytes
    ⟨m.vol.sbi.hashtable, m.vol.sbi.hashtable_size, m.vol.sbi.heap_brk⟩
  table : ∀ i, m.vol.sbi.hashtable ≤ i → i < m.vol.sbi.hashtable + m.vol.sbi.hashtable_size →
    m'.vol.dev.flat i = 0
  dirty : m'.vol.dev.bh.dirty z = true
  s_sbh : m'.s_sbh = (m.s_sbh.set 1
    (put (put (m.s_sbh.mem 1) 4 2 (z % 2 ^ 16)) 14 2 (z / 2 ^ 16))).mark 1

/-- No zone was free: nothing is made, and a bit past the last zone may have been set. -/
structure NoRoom (m m' : SuperBlock) : Prop where
  full : ∀ z, InArea m.vol z → zbit m.vol z = true
  sbi : m'.vol.sbi = m.vol.sbi
  dev : m'.vol.dev = m.vol.dev
  mono : ∀ z, m.vol.sbi.s_firstdatazone ≤ z → zbit m.vol z = true → zbit m'.vol z = true
  past : (∀ z, m.vol.sbi.s_firstdatazone ≤ z →
      z + 1 < m.vol.sbi.s_firstdatazone + m.vol.sbi.s_zmap_blocks * bits_per_zone m.vol.dev →
      zbit m.vol z = true) ∨
    ∃ y, m.vol.sbi.s_firstdatazone ≤ y ∧ m.vol.sbi.s_nzones ≤ y ∧ zbit m'.vol y = true ∧
      ∀ z, m.vol.sbi.s_firstdatazone ≤ z → z < y → zbit m.vol z = true

/-- `cminix_alloc_extra_super` makes an extra superblock exactly when a zone is free. -/
lemma cminix_alloc_extra_super_spec {m m' : SuperBlock} {e : Int} (ok : ZmapOk m.vol)
    (hbelow : m.vol.sbi.s_nzones * m.vol.dev.bs ≤ m.vol.sbi.hashtable)
    (h32 : m.vol.sbi.hashtable < 2 ^ 32 * m.vol.dev.bs)
    (hfit32 : m.vol.sbi.hashtable + m.vol.sbi.hashtable_size ≤ 2 ^ 32 * m.vol.dev.bs)
    (h : cminix_alloc_extra_super m = some (m', e)) :
    NoRoom m m' ∨ ∃ z, InArea m.vol z ∧ CominixFs.zbit m.vol z = false ∧ NewEsb m m' z := by
  obtain ⟨-, v, new, hnew, hcase⟩ := cminix_alloc_extra_super_inv h
  have hfirst := ok.first_pos
  have hcovers := ok.covers
  have hlt31 := ok.nzones_lt
  rcases cominix_new_block_first ok with
    ⟨heq, hall⟩ | ⟨v', y, heq, hdev, hsbi, -, hstep, hy, hfree, hbefore, hbit⟩
  · rw [heq] at hnew
    cases hnew
    rcases hcase with ⟨-, rfl⟩ | ⟨hne, -⟩
    · exact .inl ⟨fun z hz => hall z hz.1 (by have := hz.2; omega), rfl, rfl, fun _ _ => id, .inl hall⟩
    · exact absurd rfl hne
  have hmono : ∀ z, m.vol.sbi.s_firstdatazone ≤ z → CominixFs.zbit m.vol z = true →
      CominixFs.zbit v' z = true := by
    intro z hz hset
    rw [hbit z hz]
    split
    · rfl
    · exact hset
  rw [heq] at hnew
  by_cases hin : y < m.vol.sbi.s_nzones
  · rw [if_pos hin] at hnew
    obtain ⟨hv', hy'⟩ := Prod.mk.inj hnew
    subst v new
    rw [Nat.mod_eq_of_lt (by omega), hsbi, hdev] at hcase
    rcases hcase with ⟨h0, -⟩ | ⟨-, d, hw, rfl⟩
    · omega
    have hlow : y < m.vol.sbi.hashtable / m.vol.dev.bs :=
      hin.trans_le ((Nat.le_div_iff_mul_le m.vol.dev.bs_pos).2 hbelow)
    have hht : 0 < m.vol.sbi.hashtable := Nat.pos_of_ne_zero fun h0 => by simp [h0] at hlow
    generalize hd0 : m.vol.dev.store y (ExtraSuperBlock.bytes
      ⟨m.vol.sbi.hashtable, m.vol.sbi.hashtable_size, m.vol.sbi.heap_brk⟩) = d0 at hw
    have hbs0 : d0.bs = m.vol.dev.bs := by rw [← hd0, Dev.store_bs]
    rw [← hbs0] at h32 hfit32
    obtain ⟨hlt, hfit⟩ := write_data_storage_fits h32 hfit32 hw
    obtain ⟨d', hd', w⟩ := write_data_storage_below d0 _ _ none hht hlt hfit h32 hfit32
    rw [hw] at hd'
    obtain rfl := Option.some.inj hd'
    rw [hbs0] at w
    refine .inr ⟨y, ⟨hy, hin⟩, hfree, rfl, ?_, ?_, ?_, ?_, ?_, ?_, rfl⟩
    · change d.s_blocksize_bits = _
      rw [w.bits, ← hd0, Dev.store_bits]
    · intro z hz
      have hbits0 : bits_per_zone (d.mark_buffer_dirty y) = bits_per_zone v'.dev := by
        simp only [bits_per_zone, Dev.mark_bs, w.bs, hbs0, hdev]
      rw [← hbit z hz]
      change bitAt v'.s_zmap (bits_per_zone (d.mark_buffer_dirty y))
        (z - m.vol.sbi.s_firstdatazone + 1) = _
      rw [hbits0, CominixFs.zbit, hsbi]
    · intro b hb hout
      change d.bh.mem b = _
      rw [w.mem_out b (by rw [hbs0]; exact hout), ← hd0]
      exact Buffers.set_mem_of_ne _ _ hb
    · change d.bh.mem y = _
      rw [w.mem_out y (.inl hlow), ← hd0]
      exact Buffers.set_mem_self _ _ _
    · intro i h1 h2
      change d.flat i = 0
      rw [w.flat, memcpy_of_mem h1 h2]
      rfl
    · exact Buffers.mark_dirty_self _ _
  · rw [if_neg hin] at hnew
    cases hnew
    rcases hcase with ⟨-, rfl⟩ | ⟨hne, -⟩
    · refine .inl ⟨fun z hz => hbefore z hz.1 (by have := hz.2; omega), hsbi, hdev, hmono,
        .inr ⟨y, hy, by omega, ?_, hbefore⟩⟩
      rw [hbit y hy, if_pos rfl]
    · exact absurd rfl hne

/-- The mount of an image without extra superblock before one is made. -/
def first_set_up (img : Image) (rdonly : Bool) (s_root : Inode) : SuperBlock :=
  set_up (first_info img) img.sdev img.s_sbh rdonly s_root

/-- A mount reads the zone bitmap of the image. -/
lemma first_set_up_zbit (img : Image) (rdonly : Bool) (s_root : Inode) (z : Nat) :
    zbit (first_set_up img rdonly s_root).vol z = img.in_use z := by
  change bitAt (set_bit_zero _) (bits_per_zone img.sdev) _ = _
  rw [Image.bitAt_set_bit_zero, if_neg (Nat.succ_ne_zero _)]
  rfl

/-- A mount reads the superblock of the image. -/
lemma first_set_up_sbh (img : Image) (rdonly : Bool) (s_root : Inode) :
    (first_set_up img rdonly s_root).s_sbh.mem 1 = img.s_sbh ∧
      (first_set_up img rdonly s_root).s_sbh.disk 1 = img.s_sbh := by
  unfold first_set_up set_up
  cases rdonly <;> exact ⟨rfl, rfl⟩

/-- The bitmaps of a V3 image are large enough where the normal area is not empty. -/
lemma V3Image.mapsFit {img : Image} (hv : V3Image img)
    (hle : img.first_nzones ≤ img.super.s_zones)
    (hlt : img.super.s_firstdatazone ≤ img.first_nzones) : MapsFit (first_info img) img.sdev := by
  obtain ⟨hi16, -, hf16, -⟩ := Cominix3SuperBlock.read_bounds img.s_sbh
  have hbs : 0 < img.bs ∧ img.bs ≤ 4096 := by
    rcases img.bs_cases with h | h | h | h <;> omega
  have hw : bits_per_zone img.sdev = 8 * img.bs := img.bits_per_zone_eq
  have himap := hv.imap
  have hzmap := hv.zmap
  have hzones := hv.zones
  have hfirst := Nat.le_of_add_right_le hv.first
  have hn := img.first_nzones_bounds.2
  rw [hw] at himap hzmap
  refine ⟨?_, ?_, ?_⟩
  · have hsize : img.super.s_zones ≤ img.size / img.bs :=
      (Nat.le_div_iff_mul_le hbs.1).2 hv.size
    change 2 + img.super.s_imap_blocks + img.super.s_zmap_blocks ≤ img.size / img.bs
    omega
  · have hle : img.super.s_imap_blocks * (8 * img.bs) ≤ (2 ^ 16 - 1) * (8 * 4096) :=
      Nat.mul_le_mul (by change (Cominix3SuperBlock.read _).s_imap_blocks ≤ _; omega) (by omega)
    have hm : img.super.s_ninodes % 2 ^ 32 = img.super.s_ninodes := Nat.mod_eq_of_lt (by omega)
    apply blocks_needed_le hbs.1 hbs.2
    · change img.super.s_ninodes % 2 ^ 32 ≤ 2 ^ 31
      omega
    · change img.super.s_ninodes % 2 ^ 32 ≤ img.super.s_imap_blocks * (8 * img.bs)
      omega
  · have hf : img.super.s_firstdatazone < 2 ^ 16 := hf16
    have hm : (img.first_nzones + (2 ^ 64 - img.super.s_firstdatazone) + 1) % 2 ^ 32
        = img.first_nzones - img.super.s_firstdatazone + 1 := by omega
    apply blocks_needed_le hbs.1 hbs.2
    · change (img.first_nzones + (2 ^ 64 - img.super.s_firstdatazone) + 1) % 2 ^ 32 ≤ 2 ^ 31
      omega
    · change (img.first_nzones + (2 ^ 64 - img.super.s_firstdatazone) + 1) % 2 ^ 32
        ≤ img.super.s_zmap_blocks * (8 * img.bs)
      omega

/-- What the first mount of a V3 image has done when 0 is returned. -/
lemma V3Image.first_mount {img : Image} {rdonly : Bool} {r : FillSuper} (hv : V3Image img)
    (hno : img.NoEsb) (h : cominix_fill_super img rdonly = some r) (h0 : r.ret = 0) :
    r = .refused ∧ img.first_nzones < img.super.s_firstdatazone ∨
    ∃ s_root m, r = .mounted m ∧ ZmapOk (first_set_up img rdonly s_root).vol ∧
      (NoRoom (first_set_up img rdonly s_root) m ∨
      ∃ z, InArea (first_set_up img rdonly s_root).vol z ∧ img.in_use z = false ∧
        NewEsb (first_set_up img rdonly s_root) m z) := by
  obtain ⟨hcheck, s0, sbi, hs0, hsbi, hmaps⟩ := cominix_fill_super_inv h h0
  simp only [cminix_fill_extra_super] at hs0
  rw [if_pos (show (sb_info img.super).extra_sb_location = 0 from hno)] at hs0
  obtain rfl := Option.some.inj hs0
  simp only [fill_nzones] at hsbi
  split at hsbi
  · cases hsbi
  · rename_i hle
    obtain rfl := Option.some.inj hsbi
    have hle : img.first_nzones ≤ img.super.s_zones := Nat.le_of_not_lt hle
    rcases fill_maps_inv hmaps h0 with ⟨hr, hfit⟩ | ⟨s_root, m, hr, fit, hcase⟩
    · refine .inl ⟨hr, Nat.lt_of_not_le fun hlt => hfit (hv.mapsFit hle hlt)⟩
    · rcases hcase with ⟨hne, -⟩ | ⟨-, e, hal⟩
      · exact absurd hno hne
      · have hfirst := Nat.le_of_add_right_le hv.first
        have hn := img.first_nzones_bounds.2
        have ok : ZmapOk (first_set_up img rdonly s_root).vol :=
          fit.zmapOk hcheck rfl rfl (by omega) (by change img.first_nzones ≤ _; omega)
        have hbs : 512 ≤ img.bs := by
          rcases img.bs_cases with h | h | h | h <;> omega
        have hspec := cminix_alloc_extra_super_spec ok (Nat.le_of_eq img.first_nzones_mul)
          (by change first_hashtable < 2 ^ 32 * img.bs; unfold first_hashtable; omega)
          (by
            change first_hashtable + first_hashtable_size ≤ 2 ^ 32 * img.bs
            unfold first_hashtable first_hashtable_size
            omega) hal
        refine .inr ⟨s_root, m, hr, ok, ?_⟩
        rcases hspec with hfull | ⟨z, hz, hfree, hnew⟩
        · exact .inl hfull
        · exact .inr ⟨z, hz, (first_set_up_zbit img rdonly s_root z).symm.trans hfree, hnew⟩

/-- An extra superblock as the heap and the hashtable code rely on it. -/
structure UsableEsb (m : SuperBlock) : Prop where
  area : InArea m.vol m.vol.sbi.extra_sb_location
  ne_zero : m.vol.sbi.extra_sb_location ≠ 0
  bit : zbit m.vol m.vol.sbi.extra_sb_location = true
  stored : ExtraSuperBlock.read (m.vol.dev.bh.mem m.vol.sbi.extra_sb_location)
    = ⟨m.vol.sbi.hashtable, m.vol.sbi.hashtable_size, m.vol.sbi.heap_brk⟩
  pads : (sb_info (.read (m.s_sbh.mem 1))).extra_sb_location = m.vol.sbi.extra_sb_location
  marked : m.vol.dev.bh.dirty m.vol.sbi.extra_sb_location = true ∧ m.s_sbh.dirty 1 = true
  buckets : ∀ i < m.vol.sbi.hashtable_size / 8, le m.vol.dev.flat (m.vol.sbi.hashtable + i * 8) 8 = 0

/-- An extra superblock that was made is usable. -/
lemma NewEsb.usable {img : Image} {rdonly : Bool} {s_root : Inode} {m : SuperBlock} {z : Nat}
    (ok : ZmapOk (first_set_up img rdonly s_root).vol)
    (hz : InArea (first_set_up img rdonly s_root).vol z)
    (hnew : NewEsb (first_set_up img rdonly s_root) m z) : UsableEsb m := by
  have hfirst : 0 < img.super.s_firstdatazone := ok.first_pos
  have hn := img.first_nzones_bounds.2
  obtain ⟨h1, h2⟩ := hz
  have h1 : img.super.s_firstdatazone ≤ z := h1
  have h2 : z < img.first_nzones := h2
  have hesb : m.vol.sbi.extra_sb_location = z := by rw [hnew.sbi]
  refine ⟨?_, ?_, ?_, ?_, ?_, ?_, ?_⟩
  · rw [hesb, InArea, hnew.sbi]
    exact ⟨h1, h2⟩
  · omega
  · rw [hesb, hnew.zbit z h1, if_pos rfl]
  · have hht : first_hashtable < 2 ^ 64 := by decide
    have hsz : first_hashtable_size < 2 ^ 32 := by decide
    have hbrk : first_hashtable + first_hashtable_size < 2 ^ 64 := by decide
    rw [hesb, hnew.esb, hnew.sbi]
    exact ExtraSuperBlock.read_bytes hht hsz hbrk
  · rw [hesb, hnew.s_sbh, Buffers.mark_mem, Buffers.set_mem_self]
    exact pads_read (by omega)
  · rw [hesb, hnew.s_sbh]
    exact ⟨hnew.dirty, Buffers.mark_dirty_self _ _⟩
  · intro i hi
    rw [hnew.sbi] at hi ⊢
    rw [← le_zero 8 (first_hashtable + i * 8)]
    apply le_congr
    intro a ha1 ha2
    have hi : i < first_hashtable_size / 8 := hi
    have ha2 : a < first_hashtable + i * 8 + 8 := ha2
    have hin : a < first_hashtable + first_hashtable_size := by omega
    exact hnew.table a (le_trans (Nat.le_add_right _ _) ha1) hin

/-- The first mount of a V3 image that returns 0 leaves a usable extra superblock exactly when a zone
below the hashtable was free. -/
theorem usable_esb_iff {img : Image} {rdonly : Bool} {r : FillSuper} (hv : V3Image img)
    (hno : img.NoEsb) (h : cominix_fill_super img rdonly = some r) (h0 : r.ret = 0) :
    (∃ m, r = .mounted m ∧ UsableEsb m) ↔
      ∃ z, img.super.s_firstdatazone ≤ z ∧ z < img.first_nzones ∧ img.in_use z = false := by
  rcases hv.first_mount hno h h0 with ⟨rfl, hlt⟩ | ⟨s_root, m, rfl, ok, hcase⟩
  · constructor
    · rintro ⟨m, hm, -⟩
      cases hm
    · rintro ⟨z, h1, h2, -⟩
      omega
  · have hfirst : 0 < img.super.s_firstdatazone := ok.first_pos
    rcases hcase with hfull | ⟨z, hz, hfree, hnew⟩
    · constructor
      · rintro ⟨m', hm', hu⟩
        cases hm'
        have hloc : m.vol.sbi.extra_sb_location = 0 := by
          rw [hfull.sbi]
          exact hno
        exact absurd hloc hu.ne_zero
      · rintro ⟨z, h1, h2, hfree⟩
        have hset := hfull.full z ⟨h1, h2⟩
        rw [first_set_up_zbit, hfree] at hset
        cases hset
    · exact ⟨fun _ => ⟨z, hz.1, hz.2, hfree⟩, fun _ => ⟨m, rfl, hnew.usable ok hz⟩⟩

/-- A memory with these numbers in it: offset, width and value of each. -/
def put_all (fields : List (Nat × Nat × Nat)) : Mem :=
  fields.foldl (fun m (f : Nat × Nat × Nat) => put m f.1 f.2.1 f.2.2) fun _ => 0

/-- An image of 40992 blocks of 1024 bytes, with the root directory in its first zone: the numbers of
inodes, bitmap blocks and the first zone, and what else is on it (offset, width and value). -/
def v3_image (ninodes imap zmap first : Nat) (rest : List (Nat × Nat × Nat)) : Image where
  size := 41975808
  bytes :=
    let root := (2 + imap + zmap) * 1024
    put_all ([(1024, 4, ninodes), (1030, 2, imap), (1032, 2, zmap), (1034, 2, first), (1040, 4, 2147483647),
      (1044, 4, 40992), (1048, 2, MINIX3_SUPER_MAGIC), (1052, 2, 1024), (2048, 1, 3),
      ((2 + imap) * 1024, 1, 3), (root, 2, 0x41ed), (root + 2, 2, 2), (root + 8, 4, 128),
      (root + 24, 4, first)] ++ rest)

/-- Of 32 inodes, the root in use. -/
def small_image : Image := v3_image 32 1 6 11 []

lemma small_image_v3 : V3Image small_image :=
  ⟨by decide +kernel, by decide +kernel, by decide +kernel, by decide +kernel, by decide +kernel,
    by decide +kernel⟩

/-- The small image is mounted. -/
lemma small_image_mounts : ∃ r, cominix_fill_super small_image false = some r ∧ r.ret = 0 := by
  have h : (cominix_fill_super small_image false).map FillSuper.ret = some 0 := by decide +kernel
  exact Option.map_eq_some_iff.1 h

/-- The extra superblock of the small image. -/
theorem usable_esb_iff_small : ∃ r m, cominix_fill_super small_image false = some r ∧
    r = .mounted m ∧ UsableEsb m := by
  obtain ⟨r, h, h0⟩ := small_image_mounts
  obtain ⟨m, hm, hu⟩ := (usable_esb_iff small_image_v3 (by decide +kernel) h h0).2
    ⟨12, by decide +kernel, by decide +kernel, by decide +kernel⟩
  exact ⟨r, m, h, hm, hu⟩

/-- Of so many inodes that one zone is left below the hashtable: it holds the root directory. -/
def full_image : Image := v3_image 654016 80 1 40959 []

lemma full_image_v3 : V3Image full_image :=
  ⟨by decide +kernel, by decide +kernel, by decide +kernel, by decide +kernel, by decide +kernel,
    by decide +kernel⟩

/-- The full image is mounted, with no zone for the extra superblock. -/
lemma full_image_mounts : ∃ m, cominix_fill_super full_image false = some (.mounted m) ∧
    m.vol.sbi.extra_sb_location = 0 ∧ 0 < m.vol.sbi.s_firstdatazone := by
  have h : (cominix_fill_super full_image false).map FillSuper.ret = some 0 := by decide +kernel
  obtain ⟨r, h, h0⟩ := Option.map_eq_some_iff.1 h
  have hno : full_image.NoEsb := by decide +kernel
  have hused : ∀ i < 1, full_image.in_use (40959 + i) = true := by decide +kernel
  rcases full_image_v3.first_mount hno h h0 with ⟨-, hlt⟩ | ⟨s_root, m, rfl, ok, hcase⟩
  · exact absurd hlt (by decide +kernel)
  · rcases hcase with hfull | ⟨z, hz, hfree, -⟩
    · refine ⟨m, h, ?_, ?_⟩
      · rw [hfull.sbi]
        exact hno
      · rw [hfull.sbi]
        exact ok.first_pos
    · have hfirst : full_image.super.s_firstdatazone = 40959 := by decide +kernel
      have hlast : full_image.first_nzones = 40960 := by decide +kernel
      have h1 : full_image.super.s_firstdatazone ≤ z := hz.1
      have h2 : z < full_image.first_nzones := hz.2
      have hset := hused (z - 40959) (by omega)
      rw [show 40959 + (z - 40959) = z by omega, hfree] at hset
      cases hset

/-- The full image is mounted with 0 returned, but without an extra superblock. -/
theorem full_area_no_esb : ∃ img r, V3Image img ∧ img.NoEsb ∧
    cominix_fill_super img false = some r ∧ r.ret = 0 ∧
    ∃ m, r = .mounted m ∧ m.vol.sbi.extra_sb_location = 0 ∧ ¬ UsableEsb m := by
  obtain ⟨m, h, hloc, -⟩ := full_image_mounts
  exact ⟨full_image, .mounted m, full_image_v3, by decide +kernel, h, rfl, m, rfl, hloc,
    fun hu => hu.ne_zero hloc⟩

/-- What the first mount may do to an image in use: it changes free zones only, and no zone in use
lies in the chunk area. -/
structure FirstMountSafe (img : Image) (m : SuperBlock) : Prop where
  changed : ∀ b, m.vol.dev.bh.mem b ≠ img.sdev.bh.mem b → img.IsZone b ∧ img.in_use b = false
  below : ∀ z, img.IsZone z → zbit m.vol z = true → z < m.vol.sbi.s_nzones
  kept : ∀ z, img.IsZone z → img.in_use z = true →
    m.vol.dev.bh.mem z = img.sdev.bh.mem z ∧ (z + 1) * img.bs ≤ m.vol.sbi.hashtable

/-- The first mount of a V3 image with room for the hashtable is safe exactly when no zone in use
lies from the hashtable on and some zone below it is free. -/
theorem first_mount_safe_iff {img : Image} {rdonly : Bool} {m : SuperBlock} (hv : V3Image img)
    (hno : img.NoEsb) (hroom : first_hashtable + first_hashtable_size ≤ img.super.s_zones * img.bs)
    (h : cominix_fill_super img rdonly = some (.mounted m)) :
    FirstMountSafe img m ↔
      (∀ z, img.IsZone z → img.in_use z = true → z < img.first_nzones) ∧
      ∃ z, img.super.s_firstdatazone ≤ z ∧ z < img.first_nzones ∧ img.in_use z = false := by
  have hmul := img.first_nzones_mul
  have hbs : 0 < img.bs := by
    rcases img.bs_cases with h | h | h | h <;> omega
  have hlast : img.first_nzones < img.super.s_zones := by
    have : img.first_nzones * img.bs < img.super.s_zones * img.bs := by
      rw [hmul]
      exact lt_of_lt_of_le (by decide) hroom
    exact Nat.lt_of_mul_lt_mul_right this
  have hzones := hv.zones
  have hzmap := hv.zmap
  rcases hv.first_mount hno h rfl with ⟨hr, -⟩ | ⟨s_root, m', hm', ok, hcase⟩
  · cases hr
  cases hm'
  rcases hcase with hfull | ⟨z, hz, hfree, hnew⟩
  · -- the allocation failed, but took the first bit past the normal area
    constructor
    · intro safe
      exfalso
      have hnz : m.vol.sbi.s_nzones = img.first_nzones := by rw [hfull.sbi]; rfl
      have hclear : ∀ z, img.IsZone z → img.first_nzones ≤ z →
          zbit (first_set_up img rdonly s_root).vol z = true → False := by
        intro z hz hle hset
        have := safe.below z hz (hfull.mono z hz.1 hset)
        omega
      have hlastz : img.IsZone (img.super.s_zones - 1) := ⟨by omega, by omega⟩
      rcases hfull.past with hall | ⟨y, hy, hny, hset, hbefore⟩
      · refine hclear _ hlastz (by omega) (hall _ hlastz.1 ?_)
        change img.super.s_zones - 1 + 1 < img.super.s_firstdatazone
          + img.super.s_zmap_blocks * bits_per_zone img.sdev
        omega
      · have hyz : y < img.super.s_zones := by
          refine Nat.lt_of_not_le fun hle => hclear _ hlastz (by omega) (hbefore _ hlastz.1 (by omega))
        have hlt := safe.below y ⟨hy, hyz⟩ hset
        have hny : img.first_nzones ≤ y := hny
        omega
    · rintro ⟨-, z, h1, h2, hfree⟩
      have hset := hfull.full z ⟨h1, h2⟩
      rw [first_set_up_zbit, hfree] at hset
      cases hset
  · have h1 : img.super.s_firstdatazone ≤ z := hz.1
    have h2 : z < img.first_nzones := hz.2
    have hbits : ∀ y, img.super.s_firstdatazone ≤ y →
        zbit m.vol y = if y = z then true else img.in_use y := by
      intro y hy
      rw [hnew.zbit y hy, first_set_up_zbit]
    have hnz : m.vol.sbi.s_nzones = img.first_nzones := by rw [hnew.sbi]; rfl
    have hht : m.vol.sbi.hashtable = first_hashtable := by rw [hnew.sbi]; rfl
    constructor
    · intro safe
      refine ⟨fun y hy huse => ?_, z, h1, h2, hfree⟩
      have hset : zbit m.vol y = true := by
        rw [hbits y hy.1]
        split
        · rfl
        · exact huse
      have hlt := safe.below y hy hset
      omega
    · rintro ⟨hbelow, -⟩
      have hchanged : ∀ b, m.vol.dev.bh.mem b ≠ img.sdev.bh.mem b →
          img.IsZone b ∧ img.in_use b = false := by
        intro b hb
        by_cases hbz : b = z
        · subst hbz
          exact ⟨⟨h1, by omega⟩, hfree⟩
        · have hin : ¬ (b < img.first_nzones ∨ img.first_nzones < b ∧
              first_hashtable + first_hashtable_size ≤ b * img.bs) := fun hout =>
            hb (hnew.mem_out b hbz hout)
          have hlt : b * img.bs < img.super.s_zones * img.bs := by
            by_cases hbn : b = img.first_nzones
            · rw [hbn]
              exact Nat.mul_lt_mul_of_pos_right hlast hbs
            · omega
          have hbz : img.IsZone b := ⟨by omega, Nat.lt_of_mul_lt_mul_right hlt⟩
          refine ⟨hbz, ?_⟩
          cases huse : img.in_use b with
          | false => rfl
          | true => exact absurd (hbelow b hbz huse) (by omega)
      refine ⟨hchanged, fun y hy hset => ?_, fun y hy huse => ⟨?_, ?_⟩⟩
      · rw [hnz]
        rw [hbits y hy.1] at hset
        by_cases hyz : y = z
        · omega
        · rw [if_neg hyz] at hset
          exact hbelow y hy hset
      · by_contra hne
        rw [(hchanged y hne).2] at huse
        cases huse
      · rw [hht, ← hmul]
        exact Nat.mul_le_mul_right _ (hbelow y hy huse)

/-- The small image is safe to mount. -/
theorem first_mount_safe_iff_small : ∃ m, cominix_fill_super small_image false = some (.mounted m) ∧
    FirstMountSafe small_image m := by
  obtain ⟨r, h, h0⟩ := small_image_mounts
  rcases small_image_v3.first_mount (by decide +kernel) h h0 with ⟨-, hlt⟩ | ⟨s_root, m, rfl, -⟩
  · exact absurd hlt (by decide +kernel)
  · have hclear : ∀ i < 32, small_image.in_use (40960 + i) = false := by decide +kernel
    have hzones : small_image.super.s_zones = 40992 := by decide +kernel
    have hlast : small_image.first_nzones = 40960 := by decide +kernel
    refine ⟨m, h, (first_mount_safe_iff small_image_v3 (by decide +kernel) (by decide +kernel) h).2
      ⟨fun z hz huse => ?_, 12, by decide +kernel, by decide +kernel, by decide +kernel⟩⟩
    by_contra hge
    have hlt := hz.2
    have hfree := hclear (z - 40960) (by omega)
    rw [show 40960 + (z - 40960) = z by omega, huse] at hfree
    cases hfree

/-- The small image with a file in the zone of block 40960. -/
def high_image : Image :=
  v3_image 32 1 6 11 [(7 * 1024 + 1022, 1, 64), (40960 * 1024, 1, 7)]

lemma high_image_v3 : V3Image high_image :=
  ⟨by decide +kernel, by decide +kernel, by decide +kernel, by decide +kernel, by decide +kernel,
    by decide +kernel⟩

/-- The first mount clears a block of a file. -/
theorem first_mount_overwrites : ∃ img m, V3Image img ∧ img.NoEsb ∧
    first_hashtable + first_hashtable_size ≤ img.super.s_zones * img.bs ∧
    cominix_fill_super img false = some (.mounted m) ∧ ¬ FirstMountSafe img m := by
  have h : (cominix_fill_super high_image false).map FillSuper.ret = some 0 := by decide +kernel
  obtain ⟨r, h, h0⟩ := Option.map_eq_some_iff.1 h
  have hno : high_image.NoEsb := by decide +kernel
  have hfree : high_image.in_use 12 = false := by decide +kernel
  have hused : high_image.in_use 40960 = true := by decide +kernel
  have hbyte : high_image.sdev.bh.mem 40960 0 = 7 := by decide +kernel
  rcases high_image_v3.first_mount hno h h0 with ⟨-, hlt⟩ | ⟨s_root, m, rfl, -, hcase⟩
  · exact absurd hlt (by decide +kernel)
  · refine ⟨high_image, m, high_image_v3, hno, by decide +kernel, h, fun safe => ?_⟩
    rcases hcase with hfull | ⟨z, hz, -, hnew⟩
    · have h1 : high_image.super.s_firstdatazone ≤ 12 := by decide +kernel
      have h2 : 12 < high_image.first_nzones := by decide +kernel
      have hset := hfull.full 12 ⟨h1, h2⟩
      rw [first_set_up_zbit, hfree] at hset
      cases hset
    · have hkept := (safe.kept 40960 ⟨by decide +kernel, by decide +kernel⟩ hused).1
      have hbits : high_image.sdev.s_blocksize_bits = 10 := by decide +kernel
      have hbs : m.vol.dev.bs = 1024 := by
        rw [Dev.bs, hnew.bits]
        exact congrArg (2 ^ ·) hbits
      have hht : first_hashtable ≤ 40960 * 1024 := by decide
      have hend : 40960 * 1024 < first_hashtable + first_hashtable_size := by decide
      have hzero := hnew.table (40960 * 1024) hht hend
      have hflat := m.vol.dev.flat_apply 40960 0 m.vol.dev.bs_pos
      rw [hbs, Nat.add_zero, hzero, hkept, hbyte] at hflat
      cases hflat

end CominixFs
