import CominixFs.FsRemount

/-!
# The file system after the first mount

On a sound image that has no extra superblock yet (`SoundImage`) the first mount leaves a file
system in order: the inodes are those of the image, the heap is empty, and an unmount would lose
nothing (`FirstMount`).
-/

namespace CominixFs
open Bytes Bitmap

/-- An image as a first mount reads it, before the extra superblock is made. -/
def Image.fs (img : Image) : Fs :=
  Fs.opened ⟨⟨first_info img, img.sdev, read_map img.sdev (2 + img.super.s_imap_blocks), []⟩,
    read_itable img.sdev, ⟨read_super img.s_sbh, true⟩, fun _ => none⟩ (first_info img)

/-- A V3 image of less than 4 GiB that was not mounted yet, whose inodes are in order and not
chunked. -/
structure FreshImage (img : Image) : Prop extends V3Image img where
  no_esb : img.NoEsb
  small : img.super.s_zones * img.bs < 2 ^ 32
  device : img.size ≤ 2 ^ 32 * img.bs
  max_size : 0 < img.super.s_max_size
  bit_zero : block_bits (img.sdev.bh.mem (2 + img.super.s_imap_blocks)) 0 = true
  inodes : ∀ ino inode, img.fs.inodes ino = some inode → inode_is_chunked inode = false ∧
    InodeOk img.fs.vol inode ∧ inode.i_size ≤ img.super.s_max_size ∧
    (inode.i_mode = .dev → inode.i_rdev < 2 ^ 16)
  owned : Owned (InUse img.fs.vol) fun ino => ZonesOf img.fs.vol (img.fs.inodes ino)

/-- One with a free zone for the extra superblock. -/
structure SoundImage (img : Image) : Prop extends FreshImage img where
  free : ∃ z, img.super.s_firstdatazone ≤ z ∧ z < img.first_nzones ∧ img.in_use z = false

/-- The volume of an image whose extra superblock is said to be there. -/
def Image.vol_at (img : Image) (z : Nat) : Vol :=
  { img.fs.vol with sbi := { first_info img with extra_sb_location := z } }

/-- What the first mount of a sound image leaves. -/
structure FirstMount (md5 : List UInt8 → UInt64) (img : Image) (m : SuperBlock) (survives : Bool) :
    Prop where
  ok : FsOk (m.fs survives)
  durable : Durable (m.fs survives)
  held : Held md5 m.vol []
  inodes : (m.fs survives).inodes = img.fs.inodes
  bs : m.vol.dev.bs = img.bs
  used : ∀ x, InUse m.vol x ↔ InUse img.fs.vol x ∨ x = m.vol.sbi.extra_sb_location
  zones : ∀ ino x, ZonesOf m.vol ((m.fs survives).inodes ino) x ↔ ZonesOf img.fs.vol (img.fs.inodes ino) x
  reads : ∀ ino inode data, img.fs.inodes ino = some inode → Reads img.fs.vol inode data →
    Reads m.vol inode data

variable {img : Image} {m : SuperBlock} {rdonly : Bool} {s_root : Inode}
  {md5 : List UInt8 → UInt64} {survives : Bool}

/-! ## The extra superblock -/

/-- `cminix_alloc_extra_super` takes one zone, leaves what is below the hashtable alone but for this
zone, and leaves every block on the device or marked. -/
lemma cminix_alloc_extra_super_takes {m' : SuperBlock} {e : Int} {z : Nat} (ok : ZmapOk m.vol)
    (h32 : m.vol.sbi.hashtable < 2 ^ 32 * m.vol.dev.bs)
    (hfit32 : m.vol.sbi.hashtable + m.vol.sbi.hashtable_size ≤ 2 ^ 32 * m.vol.dev.bs)
    (hht : 0 < m.vol.sbi.hashtable) (h : cminix_alloc_extra_super m = some (m', e))
    (hz : m'.vol.sbi.extra_sb_location = z) (hz0 : z ≠ 0) :
    Takes { m.vol with sbi := { m.vol.sbi with extra_sb_location := z } } m'.vol [z] ∧
      (∀ b, b ≠ z → b < m.vol.sbi.hashtable / m.vol.dev.bs →
        m'.vol.dev.bh.mem b = m.vol.dev.bh.mem b ∧ m'.vol.dev.bh.dirty b = m.vol.dev.bh.dirty b) ∧
      (∀ b, m.vol.dev.bh.Covered b → m'.vol.dev.bh.Covered b) ∧ m'.itable = m.itable := by
  obtain ⟨hno, v, new, hnew, hcase⟩ := cminix_alloc_extra_super_inv h
  obtain ⟨v', nr, heq, hdev, hsbi, hspec⟩ := cominix_new_block_spec ok
  rw [heq] at hnew
  obtain ⟨rfl, rfl⟩ := Prod.mk.inj hnew
  rcases hcase with ⟨-, rfl⟩ | ⟨hne, d, hw, rfl⟩
  · -- nothing was made
    change v'.sbi.extra_sb_location = z at hz
    rw [hsbi, hno] at hz
    exact absurd hz.symm hz0
  · have hnr : nr ≠ 0 := by
      rintro rfl
      exact hne rfl
    rcases hspec with ⟨-, ht, -⟩ | ⟨h0, -⟩
    · have hlt := (ht.free nr (List.mem_singleton_self nr)).1.2
      have h31 := ok.nzones_lt
      have hm : nr % 2 ^ 32 = nr := Nat.mod_eq_of_lt (by omega)
      rw [hm] at hz hw ⊢
      change nr = z at hz
      subst hz
      rw [hdev, hsbi] at hw
      generalize hd0 : m.vol.dev.store nr (ExtraSuperBlock.bytes
        ⟨m.vol.sbi.hashtable, m.vol.sbi.hashtable_size, m.vol.sbi.heap_brk⟩) = d0 at hw
      have hbs0 : d0.bs = m.vol.dev.bs := by rw [← hd0, Dev.store_bs]
      rw [← hbs0] at h32 hfit32
      obtain ⟨hlt0, hfit0⟩ := write_data_storage_fits h32 hfit32 hw
      obtain ⟨d', hd', w⟩ := write_data_storage_below d0 _ _ none hht hlt0 hfit0 h32 hfit32
      rw [hw] at hd'
      obtain rfl := Option.some.inj hd'
      have hbits : d.s_blocksize_bits = m.vol.dev.s_blocksize_bits := by
        rw [w.bits, ← hd0, Dev.store_bits]
      have hbpz : bits_per_zone (d.mark_buffer_dirty nr) = bits_per_zone v'.dev := by
        simp only [bits_per_zone, Dev.mark_bs, w.bs, hbs0, hdev]
      refine ⟨⟨⟨⟨?_, hbits, ?_, ?_, ht.zmap_disk⟩, ht.covered, ht.bit_zero⟩, ht.printk, ht.nodup, ht.free,
        fun x hx => ?_⟩, fun b hbz hlow => ?_, fun b hb => ?_, rfl⟩
      · change ({ v'.sbi with
          extra_sb_location := nr
          heap_brk := v'.sbi.hashtable + v'.sbi.hashtable_size } : SbInfo) = _
        rw [hsbi]
      · change d.nblocks = _
        rw [w.nblocks, ← hd0, Dev.store_nblocks]
      · change d.bh.disk = _
        rw [w.disk, ← hd0]
        rfl
      · refine Iff.trans (Eq.to_iff ?_) (ht.zbit x hx)
        unfold zbit
        dsimp only
        rw [hbpz]
      · rw [← hbs0] at hlow
        constructor
        · change d.bh.mem b = _
          rw [w.mem_out b (.inl hlow), ← hd0]
          exact Buffers.set_mem_of_ne _ _ hbz
        · refine (Buffers.mark_dirty_of_ne _ hbz).trans ?_
          rw [w.dirty_out b hlow, ← hd0]
          rfl
      · by_cases hbz : b = nr
        · subst hbz
          exact .inl (Buffers.mark_dirty_self _ _)
        · have hb0 : d0.bh.Covered b := by
            rw [← hd0]
            exact hb.congr (Buffers.set_mem_of_ne _ _ hbz) rfl fun h => h
          exact (w.covered hb0).congr rfl rfl fun hd =>
            (Buffers.mark_dirty_of_ne _ hbz).trans hd
    · exact absurd h0 hnr

/-- What is left of the superblock when its pads were written. -/
lemma pads_info (bh : Mem) {z : Nat} (h : z < 2 ^ 32) :
    sb_info (.read (put (put bh 4 2 (z % 2 ^ 16)) 14 2 (z / 2 ^ 16)))
      = { sb_info (.read bh) with extra_sb_location := z } := by
  have hread : ∀ a w, a + w ≤ 4 ∨ 6 ≤ a ∧ a + w ≤ 14 ∨ 16 ≤ a →
      le (put (put bh 4 2 (z % 2 ^ 16)) 14 2 (z / 2 ^ 16)) a w = le bh a w := by
    intro a w haw
    rw [le_put_disjoint (by omega), le_put_disjoint (by omega)]
  have hpads := pads_read (m := bh) h
  have heq : ∀ i : SbInfo, i.extra_sb_location = z → i = { i with extra_sb_location := z } := by
    rintro i rfl
    rfl
  rw [heq _ hpads]
  unfold sb_info Cominix3SuperBlock.read
  simp only [hread 0 4 (by omega), hread 6 2 (by omega), hread 8 2 (by omega),
    hread 10 2 (by omega), hread 12 2 (by omega), hread 16 4 (by omega), hread 20 4 (by omega)]

/-! ## Inodes -/

/-- An inode that was read is in its slot. -/
lemma Fs.iget_slot {s : Fs} {ino : Nat} {inode : Inode} (hi : s.cominix_iget ino = some inode) :
    (ino ≠ 0 ∧ ino ≤ s.vol.sbi.s_ninodes) ∧ inode.dirty = false ∧ OpsOk inode ∧
      ∃ raw, s.raw ino = some raw ∧ raw.i_nlinks ≠ 0 ∧ raw.Keeps inode := by
  unfold Fs.cominix_iget V2_cominix_iget at hi
  unfold Fs.raw
  cases hp : cominix_V2_raw_inode s.vol.sbi s.vol.dev ino with
  | none =>
    rw [hp] at hi
    cases hi
  | some p =>
    have hnum : ino ≠ 0 ∧ ino ≤ s.vol.sbi.s_ninodes := by
      unfold cominix_V2_raw_inode at hp
      split at hp
      · cases hp
      · omega
    simp only [hp] at hi
    rw [Option.map_some]
    generalize s.itable.mem p.1 p.2 = raw at *
    by_cases h0 : raw.i_nlinks = 0
    · simp only [h0, if_true] at hi
      cases hi
    · simp only [h0, if_false, Option.some.injEq] at hi
      generalize hi₀ : (⟨raw.i_mode, raw.i_nlinks, raw.i_size, 0,
        fun k => if k < 10 then raw.i_zone k else 0, .other, .empty_aops, false⟩ : Inode) = i₀ at hi
      obtain ⟨i_fop, a_ops, i_rdev, heq, hdev⟩ := cominix_set_inode_eq i₀ (raw.i_zone 0)
      have hops := set_inode_ops i₀ (raw.i_zone 0) fun _ => by rw [← hi₀]
      rw [hi] at heq hops
      rw [heq]
      refine ⟨hnum, ?_, heq ▸ hops, raw, rfl, h0, ?_, ?_, ?_, fun h => ?_, fun _ k hk => ?_⟩
      · rw [← hi₀]
      · rw [← hi₀]
      · rw [← hi₀]
      · rw [← hi₀]
      · exact (hdev h).symm
      · rw [← hi₀]
        exact (if_pos hk).symm

/-- A slot that is not found has no links. -/
lemma Fs.iget_none {s : Fs} {ino : Nat} {raw : RawInode} (hi : s.cominix_iget ino = none)
    (hraw : s.raw ino = some raw) : raw.i_nlinks = 0 := by
  unfold Fs.cominix_iget V2_cominix_iget at hi
  unfold Fs.raw at hraw
  cases hp : cominix_V2_raw_inode s.vol.sbi s.vol.dev ino with
  | none =>
    rw [hp] at hraw
    cases hraw
  | some p =>
    rw [hp, Option.map_some, Option.some.injEq] at hraw
    simp only [hp, hraw] at hi
    by_contra h0
    simp only [h0, if_false] at hi
    cases hi

lemma Fs.raw_le {s : Fs} {ino : Nat} {raw : RawInode} (h : s.raw ino = some raw) :
    ino ≤ s.vol.sbi.s_ninodes := by
  obtain ⟨p, hp, -⟩ := Option.map_eq_some_iff.1 h
  unfold cominix_V2_raw_inode at hp
  split at hp
  · cases hp
  · omega

/-! ## The volume -/

namespace SoundImage

/-- The block size is one of three. -/
lemma bits (hv : SoundImage img) :
    10 ≤ img.sdev.s_blocksize_bits ∧ img.sdev.s_blocksize_bits ≤ 12 := by
  change 10 ≤ set_blocksize_bits img.super.s_blocksize ∧
    set_blocksize_bits img.super.s_blocksize ≤ 12
  rcases hv.blocksize with h | h | h <;> rw [h] <;> decide

/-- The chunk area of a first mount is laid out. -/
lemma layout (hv : SoundImage img) {z : Nat} (hz : z < img.first_nzones)
    (hin : first_hashtable + first_hashtable_size ≤ img.size / img.bs * img.bs) :
    HeapLayout (img.vol_at z) := by
  have hbs := hv.bits
  have hmul := img.first_nzones_mul
  have hsize : img.super.s_zones ≤ img.size / img.bs :=
    (Nat.le_div_iff_mul_le img.sdev.bs_pos).2 hv.size
  have hzones : img.super.s_zones * img.bs ≤ img.size / img.bs * img.bs :=
    Nat.mul_le_mul_right _ hsize
  have hfits : ((first_hashtable + first_hashtable_size) / img.bs + 1) * img.bs < 2 ^ 32 := by
    rcases img.bs_cases with h | h | h | h <;> rw [h] <;> decide
  refine ⟨⟨⟨hbs, ?_, ?_, ?_, ?_, ?_, hin, ?_⟩, hv.small, hzones, Nat.mul_mod_left _ _, hfits⟩,
    Nat.le_refl _, hin, hfits⟩
  · exact Nat.div_le_of_le_mul (by rw [Nat.mul_comm]; exact hv.device)
  · change 0 < first_hashtable
    decide
  · change first_hashtable % 8 = 0
    decide
  · change first_hashtable_size = first_hashtable_size / 8 * 8
    decide
  · change 0 < first_hashtable_size / 8
    decide
  · change (z + 1) * img.bs ≤ first_hashtable
    rw [← hmul]
    exact Nat.mul_le_mul_right _ hz

/-- The bitmap of a sound image is on the device. -/
lemma s_zmap (hv : SoundImage img) (z i : Nat) : (img.vol_at z).s_zmap.Covered i := by
  have hzero : (read_map img.sdev (2 + img.super.s_imap_blocks)).mem 0 0 = true := hv.bit_zero
  exact .inr (congrFun (set_bit_zero_mem hzero) i)

/-- An inode of the image. -/
lemma inode (hv : SoundImage img) {ino : Nat} {inode : Inode}
    (hi : img.fs.inodes ino = some inode) (z : Nat) : InodeFine (img.vol_at z) inode ∧
      (∀ x, InodeZone (img.vol_at z) inode x ↔ InodeZone img.fs.vol inode x) ∧
      ∀ data, Reads img.fs.vol inode data → Reads (img.vol_at z) inode data := by
  obtain ⟨hc, hok, hsize, -⟩ := hv.inodes ino inode hi
  obtain ⟨-, -, hops, -⟩ := Fs.iget_slot (s := img.fs) hi
  refine ⟨⟨⟨fun h hb => ?_, fun h => absurd (hc.symm.trans h) Bool.noConfusion⟩, hsize, hops⟩,
    fun x => ?_, fun data h => h⟩
  · obtain ⟨h1, h2, h3⟩ := hok.tree h hb
    exact ⟨h1, h2, h3⟩
  · unfold InodeZone
    rw [hc, if_neg Bool.false_ne_true, if_neg Bool.false_ne_true]
    exact Iff.rfl

end SoundImage

/-! ## The mount -/

/-- What a first mount does below the hashtable. -/
structure Formatted (img : Image) (m : SuperBlock) (z : Nat) : Prop where
  takes : Takes (img.vol_at z) m.vol [z]
  sbi : m.vol.sbi = (img.vol_at z).sbi
  left : ∀ b, b ≠ z → b < img.first_nzones → m.vol.dev.bh.mem b = img.sdev.bh.mem b ∧
    m.vol.dev.bh.dirty b = img.sdev.bh.dirty b
  covered : ∀ b, m.vol.dev.bh.Covered b
  itable : m.itable = read_itable img.sdev
  s_sbh : m.s_sbh.mem 1 = put (put img.s_sbh 4 2 (z % 2 ^ 16)) 14 2 (z / 2 ^ 16)
  sbh_disk : m.s_sbh.disk 1 = img.s_sbh
  usable : UsableEsb m
  table_le : first_hashtable ≤ img.super.s_zones * img.bs
  table_in : first_hashtable + first_hashtable_size ≤ img.size / img.bs * img.bs
  free : InArea (img.vol_at z) z ∧ zbit (img.vol_at z) z = false
  zmap : ZmapOk (img.vol_at z)
  fit : MapsFit (first_info img) img.sdev

/-- A mount finds the start of the hashtable on the volume. -/
lemma Image.first_nzones_le (hno : img.NoEsb)
    (h : cominix_fill_super img rdonly = some (.mounted m)) : img.first_nzones ≤ img.super.s_zones := by
  obtain ⟨-, s0, sbi, hs0, hsbi, -⟩ := cominix_fill_super_inv h rfl
  unfold cminix_fill_extra_super at hs0
  rw [if_pos (show (sb_info img.super).extra_sb_location = 0 from hno)] at hs0
  obtain rfl := Option.some.inj hs0
  unfold fill_nzones at hsbi
  dsimp only at hsbi
  split at hsbi
  · cases hsbi
  · rename_i hle
    exact Nat.le_of_not_lt hle

/-- A hashtable that was zeroed lies on the device. -/
lemma cminix_alloc_extra_super_table {m m' : SuperBlock} {e : Int}
    (hht : m.vol.sbi.hashtable < 2 ^ 32 * m.vol.dev.bs)
    (hend : m.vol.sbi.hashtable + m.vol.sbi.hashtable_size ≤ 2 ^ 32 * m.vol.dev.bs)
    (hal : cminix_alloc_extra_super m = some (m', e)) (hesb : m'.vol.sbi.extra_sb_location ≠ 0) :
    m.vol.sbi.hashtable + m.vol.sbi.hashtable_size ≤ m.vol.dev.nblocks * m.vol.dev.bs := by
  obtain ⟨hno, v, new, hnew, ⟨-, rfl⟩ | ⟨-, d, hw, -⟩⟩ := cminix_alloc_extra_super_inv hal
  · obtain ⟨hsbi, -⟩ := new_block_loop_area _ _ hnew
    exact absurd (hsbi ▸ hno) hesb
  · obtain ⟨hsbi, hdev, -⟩ := new_block_loop_area _ _ hnew
    rw [hsbi, hdev] at hw
    refine (write_data_storage_fits ?_ ?_ hw).2
    · exact hht
    · exact hend

/-- A sound image is formatted when it is mounted. -/
lemma SoundImage.formatted (hv : SoundImage img)
    (h : cominix_fill_super img rdonly = some (.mounted m)) : ∃ z, Formatted img m z := by
  obtain ⟨s_root, ⟨-, -, fit, e, hal⟩ | ⟨hno, -⟩⟩ := cominix_fill_super_mounted h
  · rcases hv.toV3Image.first_mount hv.no_esb h rfl with ⟨hr, -⟩ | ⟨root, m', hm', ok, hcase⟩
    · cases hr
    cases hm'
    rcases hcase with hfull | ⟨z, hz, hfree, hnew⟩
    · -- a zone was free
      obtain ⟨z, h1, h2, hfree⟩ := hv.free
      have hset := hfull.full z ⟨h1, h2⟩
      rw [first_set_up_zbit, hfree] at hset
      cases hset
    · have hu : UsableEsb m := hnew.usable ok hz
      have hesb : m.vol.sbi.extra_sb_location = z := by rw [hnew.sbi]
      have hbs : 0 < img.bs := img.sdev.bs_pos
      have hht : first_hashtable < 2 ^ 32 * img.bs := by
        unfold first_hashtable
        rcases img.bs_cases with h | h | h | h <;> omega
      have hend : first_hashtable + first_hashtable_size ≤ 2 ^ 32 * img.bs := by
        unfold first_hashtable first_hashtable_size
        rcases img.bs_cases with h | h | h | h <;> omega
      have hpos : 0 < first_hashtable := by decide
      obtain ⟨htakes, hleft, hcov, htable⟩ :=
        @cminix_alloc_extra_super_takes (first_set_up img rdonly s_root) m e z ok hht hend hpos hal
          hesb (hesb ▸ hu.ne_zero)
      obtain ⟨hmem, hdisk⟩ := first_set_up_sbh img rdonly root
      have htable_le : first_hashtable ≤ img.super.s_zones * img.bs :=
        img.first_nzones_mul ▸ Nat.mul_le_mul_right _ (img.first_nzones_le hv.no_esb h)
      have htable_in := cminix_alloc_extra_super_table hht hend hal (hesb ▸ hu.ne_zero)
      refine ⟨z, htakes, hnew.sbi, hleft, fun b => hcov b (.inr rfl), htable, ?_, ?_, hu,
        htable_le, htable_in, htakes.free z (List.mem_singleton_self z), ?_, fit⟩
      · rw [hnew.s_sbh, Buffers.mark_mem, Buffers.set_mem_self, hmem]
      · rw [hnew.s_sbh]
        exact hdisk
      · exact ⟨ok.first_pos, ok.nzones_lt, ok.blocks_lt, ok.covers, ok.bit_zero⟩
  · exact absurd hv.no_esb hno

namespace Formatted

variable {z : Nat}

/-- The volume is in order. -/
lemma volOk (hf : Formatted img m z) (hv : SoundImage img) : VolOk m.vol := by
  have hst := hf.takes.toZmapStep
  refine ⟨(hv.layout hf.free.1.2 hf.table_in).congr hf.sbi hst.bits hst.nblocks, hf.zmap.step hst, ?_, ?_,
    .inr ⟨hf.usable.area, hf.usable.bit⟩⟩
  · rw [hf.sbi]
    have hfirst := Nat.le_of_add_right_le hv.first
    change 1 < img.super.s_firstdatazone
    omega
  · rw [hst.bs, hf.sbi]
    exact Nat.le_of_eq img.first_nzones_mul

/-- The zones in use are those of the image and the new one. -/
lemma used (hf : Formatted img m z) (x : Nat) : InUse m.vol x ↔ InUse img.fs.vol x ∨ x = z := by
  rw [hf.takes.inUse]
  constructor
  · rintro ⟨harea, hset⟩
    cases (hf.takes.zbit x harea).1 hset with
    | inl hx => exact .inr (List.mem_singleton.1 hx)
    | inr hold => exact .inl ⟨harea, hold⟩
  · rintro (⟨harea, hset⟩ | rfl)
    · exact ⟨harea, (hf.takes.zbit x harea).2 (.inr hset)⟩
    · exact ⟨hf.free.1, (hf.takes.zbit x hf.free.1).2 (.inl (List.mem_singleton_self x))⟩

/-- The inodes are read as they are on the image. -/
lemma inodes (hf : Formatted img m z) : (m.fs survives).inodes = img.fs.inodes := by
  have hraw := fun ino => hf.takes.toZmapStep.toSameMount.raw_inode ino
  funext ino
  change Fs.cominix_iget _ ino = Fs.cominix_iget _ ino
  unfold Fs.cominix_iget V2_cominix_iget
  dsimp only
  rw [hraw ino, hf.itable]
  rfl

/-- Every inode is left alone. -/
lemma inode (hf : Formatted img m z) (hv : SoundImage img) {ino : Nat} {inode : Inode}
    (hi : img.fs.inodes ino = some inode) : InodeFine m.vol inode ∧
      (∀ x, InodeZone m.vol inode x ↔ InodeZone img.fs.vol inode x) ∧
      ∀ data, Reads img.fs.vol inode data → Reads m.vol inode data := by
  obtain ⟨fine, hzone, hreads⟩ := hv.inode hi z
  have hst := hf.takes.toZmapStep
  have hsize : SizeOk (img.vol_at z) :=
    ⟨hv.bits, hv.max_size, le_lt img.s_sbh 4 16⟩
  have hleft : ∀ x, InodeZone (img.vol_at z) inode x → zbit m.vol x = true ∧
      m.vol.dev.bh.mem x = (img.vol_at z).dev.bh.mem x ∧
      m.vol.dev.bh.dirty x = (img.vol_at z).dev.bh.dirty x := by
    intro x hx
    have hu := hv.owned.used ino x ⟨inode, hi, (hzone x).1 hx⟩
    have hne : x ≠ z := by
      rintro rfl
      have := hf.free.2
      change zbit img.fs.vol x = false at this
      rw [hu.2] at this
      cases this
    exact ⟨((hf.used x).2 (.inl hu)).2, hf.left x hne hu.1.2⟩
  obtain ⟨hok, hz⟩ := fine.ok.frame (entries_per_block_pos hsize.bits) hst hleft
  refine ⟨⟨hok, ?_, fine.ops⟩, fun x => (hz x).trans (hzone x), fun data hd => ?_⟩
  · rw [hf.sbi]
    exact fine.size
  · exact (hreads data hd).left hsize hst.toSameMount fun x hx => (hleft x hx).2.1

/-- A link count on the image has 16 bits. -/
lemma nlinks_lt (hf : Formatted img m z) {ino : Nat} {raw : RawInode}
    (hraw : (m.fs survives).raw ino = some raw) : raw.i_nlinks < 2 ^ 16 := by
  unfold Fs.raw at hraw
  obtain ⟨p, -, rfl⟩ := Option.map_eq_some_iff.1 hraw
  change (m.itable.mem p.1 p.2).i_nlinks < 2 ^ 16
  rw [hf.itable]
  exact le_lt (img.sdev.bh.mem p.1) 2 (64 * p.2 + 2)

/-- What a later mount takes from the superblock. -/
lemma info (hf : Formatted img m z) (hv : SoundImage img) : MountInfo (m.fs survives) := by
  have hst := hf.takes.toZmapStep
  have hlt := (hf.volOk hv).lt_32 hf.usable.area
  have hesb : m.vol.sbi.extra_sb_location = z := by rw [hf.sbi]; rfl
  rw [hesb] at hlt
  have hbs : (m.fs survives).vol.dev.bs = img.bs := hst.bs
  have hn : img.first_nzones * img.bs ≤ img.super.s_zones * img.bs := by
    rw [img.first_nzones_mul]
    exact hf.table_le
  have hsbi : (m.fs survives).vol.sbi = (img.vol_at z).sbi := hf.sbi
  refine ⟨⟨img.super.s_zones, ?_, ?_, ?_⟩, ?_, ⟨?_, ?_, ?_⟩, ?_⟩
  · change sb_info (.read (m.s_sbh.mem 1)) = _
    rw [hf.s_sbh, pads_info _ hlt, hsbi]
    rfl
  · rw [hsbi]
    exact Nat.le_of_mul_le_mul_right hn img.sdev.bs_pos
  · rw [hbs, hsbi]
    rfl
  · rw [hbs, hsbi]
    rfl
  · rw [hsbi]
    exact hf.fit.blocks.trans (Nat.le_of_eq hst.nblocks.symm)
  · rw [hbs, hsbi]
    exact hf.fit.imap
  · rw [hbs, hsbi]
    exact hf.fit.zmap
  · rw [hbs, hsbi]
    exact hv.first

end Formatted

/-- The first mount of a sound image. -/
lemma SoundImage.first_mount (hv : SoundImage img)
    (h : cominix_fill_super img rdonly = some (.mounted m)) : FirstMount md5 img m survives := by
  obtain ⟨z, hf⟩ := hv.formatted h
  have hvol := hf.volOk hv
  have hst := hf.takes.toZmapStep
  have hesb : m.vol.sbi.extra_sb_location = z := by rw [hf.sbi]; rfl
  have hzones : ∀ ino x, ZonesOf m.vol ((m.fs survives).inodes ino) x ↔
      ZonesOf img.fs.vol (img.fs.inodes ino) x := by
    intro ino x
    rw [hf.inodes]
    exact exists_congr fun inode => and_congr_right fun hi => (hf.inode hv hi).2.1 x
  have hfree : ¬ InUse img.fs.vol z := fun hu => by
    have := hf.free.2
    change zbit img.fs.vol z = false at this
    rw [hu.2] at this
    cases this
  have hbits : m.vol.dev.s_blocksize_bits = img.sdev.s_blocksize_bits := hst.bits
  have hok : FsOk (m.fs survives) := by
    refine ⟨hvol, ⟨?_, ?_, ?_⟩, ?_, fun ino inode hi => ?_, ⟨fun i x hx => ?_, fun i j x hx hx' => ?_⟩,
      hf.takes.printk⟩
    · change 10 ≤ m.vol.dev.s_blocksize_bits ∧ m.vol.dev.s_blocksize_bits ≤ 12
      rw [hbits]
      exact hv.bits
    · change 0 < m.vol.sbi.s_maxbytes
      rw [hf.sbi]
      exact hv.max_size
    · change m.vol.sbi.s_maxbytes < _
      rw [hf.sbi]
      exact le_lt img.s_sbh 4 16
    · change m.vol.sbi.s_ninodes / 2 ^ (m.vol.dev.s_blocksize_bits + 3) < m.vol.sbi.s_imap_blocks
      rw [hbits, hf.sbi]
      exact Nat.div_lt_of_lt_mul (Nat.mul_comm _ _ ▸ bits_per_zone_eq img.sdev ▸ hv.imap)
    · obtain ⟨hnum, -, -, raw, hraw, -, hk⟩ := Fs.iget_slot (s := m.fs survives) hi
      rw [hf.inodes] at hi
      refine ⟨(hf.inode hv hi).1, hnum, ?_, (hv.inodes ino inode hi).2.2.2, fun _ => ⟨raw, hraw, hk⟩⟩
      rw [← hk.i_nlinks]
      exact hf.nlinks_lt hraw
    · cases i with
      | none => exact (hf.used x).2 (.inr (Eq.trans hx hesb))
      | some ino => exact (hf.used x).2 (.inl (hv.owned.used ino x ((hzones ino x).1 hx)))
    · have hne : ∀ ino, ZonesOf m.vol ((m.fs survives).inodes ino) x → ¬ x = m.vol.sbi.extra_sb_location := by
        rintro ino hz rfl
        rw [hesb] at hz
        exact hfree (hv.owned.used ino z ((hzones ino z).1 hz))
      cases i with
      | none =>
        cases j with
        | none => rfl
        | some j => exact absurd hx (hne j hx')
      | some i =>
        cases j with
        | none => exact absurd hx' (hne i hx)
        | some j => exact congrArg some (hv.owned.unique i j x ((hzones i x).1 hx) ((hzones j x).1 hx'))
  have hdur : Durable (m.fs survives) := by
    refine ⟨fun i x _ => hf.covered x, fun x _ => hf.covered x,
      fun i => hst.covered i (hv.s_zmap z i), fun b => ?_, fun ino hi raw hraw => ?_, ?_, hf.usable.stored,
      hf.info hv, .inl hf.usable.marked.2, fun _ => ?_⟩
    · change m.itable.Covered b
      rw [hf.itable]
      exact .inr rfl
    · exact Fs.iget_none (s := m.fs survives) hi hraw
    · change m.vol.sbi.extra_sb_location ≠ 0
      rw [hesb]
      exact hvol.ne_zero (hesb ▸ hf.usable.area)
    · change (sb_info (.read (m.s_sbh.disk 1))).extra_sb_location = 0
      rw [hf.sbh_disk]
      exact hv.no_esb
  refine ⟨hok, hdur, ⟨hvol, ?_, fun c hc => absurd hc List.not_mem_nil⟩, hf.inodes,
    hst.bs, fun x => ?_, hzones,
    fun ino inode data hi => (hf.inode hv hi).2.2 data⟩
  · refine ⟨.nil, by simp, by simp, by simp, by simp, by simp, by simp, by simp, trivial, ?_⟩
    intro i hi
    exact hf.usable.buckets i hi
  · rw [hesb]
    exact hf.used x

/-! ## Images with a root only -/

/-- A byte outside the fields is zero. -/
lemma put_all_zero {fields : List (Nat × Nat × Nat)} {a : Nat}
    (h : ∀ f ∈ fields, a < f.1 ∨ f.1 + f.2.1 ≤ a) : put_all fields a = 0 := by
  have key : ∀ m : Mem, m a = 0 →
      fields.foldl (fun m (f : Nat × Nat × Nat) => put m f.1 f.2.1 f.2.2) m a = 0 := by
    induction fields with
    | nil => exact fun m hm => hm
    | cons f fields ih =>
      intro m hm
      refine ih (fun g hg => h g (List.mem_cons_of_mem _ hg)) _ ?_
      rw [← hm]
      exact memcpy_of_not_mem (h f List.mem_cons_self)
  exact key _ rfl

/-- The root directory has one zone, and there is no other inode. -/
structure OnlyRoot (img : Image) (zone : Nat) : Prop where
  none : ∀ ino raw, 1 < ino → img.fs.raw ino = some raw → raw.i_nlinks = 0
  root : (img.fs.raw 1).map (fun raw => (raw.i_mode, raw.i_size)) = some (.dir, 128)
  words : ∀ k < 10, (img.fs.raw 1).map (fun raw => raw.i_zone k) = some (if k = 0 then zone else 0)

namespace OnlyRoot

variable {zone : Nat}

/-- The root is the only inode of it. -/
lemma inode (hr : OnlyRoot img zone) {ino : Nat} {inode : Inode}
    (hi : img.fs.inodes ino = some inode) :
    ino = 1 ∧ inode.i_mode = .dir ∧ inode.i_size = 128 ∧ inode.i_data 0 = zone ∧
      ∀ k < 10, k ≠ 0 → inode.i_data k = 0 := by
  obtain ⟨⟨h0, -⟩, -, -, raw, hraw, hlinks, hk⟩ := Fs.iget_slot (s := img.fs) hi
  obtain rfl : ino = 1 := by
    by_contra h1
    exact hlinks (hr.none ino raw (by omega) hraw)
  have hroot := hr.root
  rw [hraw, Option.map_some, Option.some.injEq] at hroot
  obtain ⟨hmode, hsize⟩ := Prod.mk.inj hroot
  have hdir : inode.i_mode = .dir := hk.i_mode.symm.trans hmode
  have hzone : ∀ k < 10, inode.i_data k = if k = 0 then zone else 0 := by
    intro k hk10
    rw [← hk.i_zone (fun h => Ftype.noConfusion (hdir.symm.trans h)) k hk10]
    have := hr.words k hk10
    rwa [hraw, Option.map_some, Option.some.injEq] at this
  exact ⟨rfl, hdir, hk.i_size.symm.trans hsize, hzone 0 (by decide),
    fun k hk10 hk0 => (hzone k hk10).trans (if_neg hk0)⟩

/-- Its inodes are in order. -/
lemma fresh (hr : OnlyRoot img zone) (hv : V3Image img) (hno : img.NoEsb)
    (hsmall : img.super.s_zones * img.bs < 2 ^ 32) (hdevice : img.size ≤ 2 ^ 32 * img.bs)
    (hmax : 128 ≤ img.super.s_max_size)
    (hzero : block_bits (img.sdev.bh.mem (2 + img.super.s_imap_blocks)) 0 = true)
    (harea : img.super.s_firstdatazone ≤ zone ∧ zone < img.first_nzones)
    (hbit : img.in_use zone = true) : FreshImage img := by
  have hused : InUse img.fs.vol zone := ⟨harea, (first_set_up_zbit img false
    ⟨.dir, 0, 0, 0, fun _ => 0, .other, .empty_aops, false⟩ zone).trans hbit⟩
  have htree : ∀ {ino inode}, img.fs.inodes ino = some inode → TreeOk img.fs.vol inode.i_data ∧
      ∀ x, TreeZone img.fs.vol inode.i_data x → x = zone := by
    intro ino inode hi
    obtain ⟨-, -, -, h0, hrest⟩ := hr.inode hi
    refine ⟨.one hrest (h0 ▸ hused), ?_⟩
    rintro x ⟨hx, p, n, hp, rfl⟩
    rw [(forest_one hrest p n hp hx).1]
    exact h0
  have hchunk : ∀ {ino inode}, img.fs.inodes ino = some inode → inode_is_chunked inode = false := by
    intro ino inode hi
    obtain ⟨-, -, -, -, hrest⟩ := hr.inode hi
    unfold inode_is_chunked
    rw [hrest 9 (by decide) (by decide)]
    exact Bool.and_false _
  have hzone : ∀ {ino x}, ZonesOf img.fs.vol (img.fs.inodes ino) x → ino = 1 ∧ x = zone := by
    rintro ino x ⟨inode, hi, hx⟩
    obtain ⟨h1, hdir, -⟩ := hr.inode hi
    refine ⟨h1, (htree hi).2 x ((InodeZone.of_tree (hchunk hi) ?_).1 hx)⟩
    rw [hdir]
    rfl
  refine ⟨hv, hno, hsmall, hdevice, by omega, hzero, fun ino inode hi => ?_,
    ⟨fun ino x hx => ?_, fun i j x hi hj => ?_⟩⟩
  · obtain ⟨-, hdir, hsize, -⟩ := hr.inode hi
    refine ⟨hchunk hi, ⟨fun _ _ => (htree hi).1, fun h => ?_⟩, ?_, fun h => ?_⟩
    · rw [hchunk hi] at h
      cases h
    · rw [hsize]
      exact hmax
    · rw [hdir] at h
      cases h
  · rw [(hzone hx).2]
    exact hused
  · rw [(hzone hi).1, (hzone hj).1]

end OnlyRoot

/-! ## A sound image -/

/-- The small image with 64 blocks for the heap. -/
def heap_image : Image :=
  { v3_image 32 1 6 11 [(1044, 4, 41056)] with size := 42041344 }

lemma heap_image_v3 : V3Image heap_image :=
  ⟨by decide +kernel, by decide +kernel, by decide +kernel, by decide +kernel, by decide +kernel,
    by decide +kernel⟩

lemma heap_image_only_root : OnlyRoot heap_image 11 := by
  have hnone : ∀ k < 31, (heap_image.fs.raw (k + 2)).map RawInode.i_nlinks = some 0 := by
    decide +kernel
  refine ⟨fun ino raw h1 hraw => ?_, by decide +kernel, by decide +kernel⟩
  have hn : ino ≤ 32 := (Fs.raw_le hraw).trans (by decide +kernel)
  have := hnone (ino - 2) (by omega)
  rw [show ino - 2 + 2 = ino by omega, hraw] at this
  exact Option.some.inj this

/-- The image is sound. -/
lemma heap_image_sound : SoundImage heap_image :=
  ⟨heap_image_only_root.fresh heap_image_v3 (by decide +kernel) (by decide +kernel)
    (by decide +kernel) (by decide +kernel) (by decide +kernel) (by decide +kernel)
    (by decide +kernel), ⟨12, by decide +kernel, by decide +kernel, by decide +kernel⟩⟩

end CominixFs
