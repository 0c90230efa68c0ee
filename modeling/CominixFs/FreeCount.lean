import CominixFs.ZoneAlloc
import Mathlib.Order.Interval.Finset.Nat

/-!
# The free-space report (`bitmap.c`, `inode.c`)

`cominix_count_free_blocks` counts the clear bits of whole bitmap blocks. The mount moves the last
zone into the middle of the bitmap, so the bits after it are counted too although they stand for no
zone, and the count is right exactly when they are all set (`free_count_iff`).
-/

namespace CominixFs
open Bitmap

/-- `hweight16` of a 16-bit word of a bitmap block. -/
def hweight16 (b_data : Nat → Bool) (w : Nat) : Nat := Nat.count (fun k => b_data (w * 16 + k) = true) 16

/-- `count_free`. -/
def count_free (map : Nat → Nat → Bool) (blocksize numbits : Nat) : Nat :=
  let blocks := (numbits + (blocksize * 8 - 1)) % 2 ^ 32 / (blocksize * 8)
  ((List.range blocks).map fun i =>
    ((List.range (blocksize / 2)).map fun w => 16 - hweight16 (map i) w).sum).sum % 2 ^ 32

/-- `cominix_count_free_blocks`. -/
def cominix_count_free_blocks (v : Vol) : Nat :=
  let bits := (v.sbi.s_nzones + (2 ^ 64 - v.sbi.s_firstdatazone) + 1) % 2 ^ 32
  count_free v.s_zmap.mem v.dev.bs bits * 2 ^ v.sbi.s_log_zone_size % 2 ^ 32

/-- `cominix_count_free_inodes`. -/
def cominix_count_free_inodes (m : SuperBlock) : Nat :=
  count_free m.s_imap.mem m.vol.dev.bs ((m.vol.sbi.s_ninodes + 1) % 2 ^ 32)

/-- `struct kstatfs`, without the type and the device number. -/
structure Kstatfs where
  f_bsize : Nat
  f_blocks : Nat
  f_bfree : Nat
  f_bavail : Nat
  f_files : Nat
  f_ffree : Nat
  f_namelen : Nat

/-- `cominix_statfs`. -/
def cominix_statfs (m : SuperBlock) : Kstatfs where
  f_bsize := m.vol.dev.bs
  f_blocks := (m.vol.sbi.s_nzones + (2 ^ 64 - m.vol.sbi.s_firstdatazone)) * 2 ^ m.vol.sbi.s_log_zone_size
    % 2 ^ 64
  f_bfree := cominix_count_free_blocks m.vol
  f_bavail := cominix_count_free_blocks m.vol
  f_files := m.vol.sbi.s_ninodes
  f_ffree := cominix_count_free_inodes m
  f_namelen := 60

/-- The zones of the normal area with a clear bit in the bitmap. -/
def free_zones (v : Vol) : Finset Nat := (Finset.range v.sbi.s_nzones).filter fun z =>
  v.sbi.s_firstdatazone ≤ z ∧
    z + 1 < v.sbi.s_firstdatazone + v.sbi.s_zmap_blocks * bits_per_zone v.dev ∧ zbit v z = false

/-- The blocks of the bitmap that are counted. -/
def counted_blocks (v : Vol) : Nat :=
  ((v.sbi.s_nzones + (2 ^ 64 - v.sbi.s_firstdatazone) + 1) % 2 ^ 32 + (v.dev.bs * 8 - 1)) % 2 ^ 32
    / (v.dev.bs * 8)

/-- `n` calls of `cominix_new_block`, and the results. -/
def new_blocks : Nat → Vol → Vol × List Nat
  | 0, v => (v, [])
  | n + 1, v => ((new_blocks n (cominix_new_block v).1).1,
      (cominix_new_block v).2 :: (new_blocks n (cominix_new_block v).1).2)

/-- The next `n` calls succeed, and the one after them fails. -/
def Succeeding (v : Vol) (n : Nat) : Prop :=
  (∀ z ∈ (new_blocks n v).2, z ≠ 0) ∧ (cominix_new_block (new_blocks n v).1).2 = 0

/-- The report of the free space agrees with the bitmap and with the allocator. -/
structure FreeSpaceRight (m : SuperBlock) : Prop where
  count : cominix_count_free_blocks m.vol = (free_zones m.vol).card
  calls : Succeeding m.vol (cominix_count_free_blocks m.vol)
  statfs : (cominix_statfs m).f_bfree ≤ (cominix_statfs m).f_blocks

/-- The clear bits of the counted blocks are those of the zones: the bits from the last zone to the
end of its block are set. -/
def TailSet (v : Vol) : Prop :=
  ∀ n < v.sbi.s_zmap_blocks * bits_per_zone v.dev,
    bitAt v.s_zmap (bits_per_zone v.dev) n = false →
    (n < counted_blocks v * bits_per_zone v.dev ↔ v.sbi.s_firstdatazone + n < v.sbi.s_nzones + 1)

/-- Every free zone can be returned by the allocator: it is not 0 and an `int` holds it. -/
def Returnable (v : Vol) : Prop := ∀ z ∈ free_zones v, 0 < z ∧ z < 2 ^ 31

/-- The clear bits of the blocks that are counted. -/
def counted_bits (v : Vol) : Finset Nat :=
  (Finset.range (counted_blocks v * bits_per_zone v.dev)).filter fun n =>
    bitAt v.s_zmap (bits_per_zone v.dev) n = false

/-- The clear bits that stand for zones. -/
def zone_bits (v : Vol) : Finset Nat :=
  (Finset.range (v.sbi.s_zmap_blocks * bits_per_zone v.dev)).filter fun n =>
    bitAt v.s_zmap (bits_per_zone v.dev) n = false ∧ v.sbi.s_firstdatazone + n < v.sbi.s_nzones + 1

variable {v v' : Vol} {z n : Nat}

lemma mem_free_zones : z ∈ free_zones v ↔ InArea v z ∧
    z + 1 < v.sbi.s_firstdatazone + v.sbi.s_zmap_blocks * bits_per_zone v.dev ∧ zbit v z = false := by
  unfold free_zones InArea
  rw [Finset.mem_filter, Finset.mem_range]
  tauto

/-- The words of a block have the zero bits of the block. -/
lemma sum_words {b_data : Nat → Bool} {bs : Nat} (h : bs % 2 = 0) :
    ((List.range (bs / 2)).map fun w => 16 - hweight16 b_data w).sum = zeros b_data (8 * bs) := by
  rw [show 8 * bs = bs / 2 * 16 by omega, ← sum_zeros]
  congr 1
  apply List.map_congr_left
  intro w _
  exact zeros_eq (fun k => b_data (w * 16 + k)) 16

/-- The count is that of the clear bits of the blocks it takes. -/
lemma count_free_eq {map : Buffers (Nat → Bool)} {blocksize numbits blocks : Nat}
    (heven : blocksize % 2 = 0) (hpos : 0 < blocksize)
    (hblocks : (numbits + (blocksize * 8 - 1)) % 2 ^ 32 / (blocksize * 8) = blocks)
    (hlt : blocks * (8 * blocksize) < 2 ^ 32) : count_free map.mem blocksize numbits
      = zeros (bitAt map (8 * blocksize)) (blocks * (8 * blocksize)) := by
  have hsum : ((List.range blocks).map fun i =>
      ((List.range (blocksize / 2)).map fun w => 16 - hweight16 (map.mem i) w).sum).sum
      = zeros (bitAt map (8 * blocksize)) (blocks * (8 * blocksize)) := by
    rw [← sum_zeros_bitAt _ (Nat.mul_pos (by decide) hpos)]
    congr 1
    apply List.map_congr_left
    intro i _
    exact sum_words heven
  have hzeros : zeros (bitAt map (8 * blocksize)) (blocks * (8 * blocksize))
      ≤ blocks * (8 * blocksize) := Nat.count_le _
  unfold count_free
  rw [hblocks]
  exact (Nat.mod_eq_of_lt (hsum.trans_lt (by omega))).trans hsum

/-- The blocks counted are in the bitmap. -/
lemma MapFits.counted_le (fit : MapFits v) : counted_blocks v ≤ v.sbi.s_zmap_blocks := by
  have h := fit.needed
  unfold cominix_blocks_needed at h
  exact h

/-- The count is that of the clear bits of the counted blocks. -/
lemma MapFits.count_eq (fit : MapFits v) : cominix_count_free_blocks v
    = zeros (bitAt v.s_zmap (bits_per_zone v.dev)) (counted_blocks v * bits_per_zone v.dev) := by
  have heven : v.dev.bs % 2 = 0 :=
    Nat.mod_eq_zero_of_dvd (dvd_pow_self 2 (by have := fit.bits.1; omega))
  have hle : counted_blocks v * bits_per_zone v.dev ≤ (2 ^ 16 - 1) * (8 * 4096) := by
    have := fit.counted_le
    have := fit.zmap_blocks
    exact Nat.mul_le_mul (by omega) (Nat.mul_le_mul_left 8 fit.bs_le)
  have hcount : count_free v.s_zmap.mem v.dev.bs
      ((v.sbi.s_nzones + (2 ^ 64 - v.sbi.s_firstdatazone) + 1) % 2 ^ 32)
      = zeros (bitAt v.s_zmap (bits_per_zone v.dev)) (counted_blocks v * bits_per_zone v.dev) :=
    count_free_eq heven v.dev.bs_pos rfl (hle.trans_lt (by decide))
  have hzeros : zeros (bitAt v.s_zmap (bits_per_zone v.dev)) (counted_blocks v * bits_per_zone v.dev)
      ≤ counted_blocks v * bits_per_zone v.dev := Nat.count_le _
  unfold cominix_count_free_blocks
  dsimp only
  rw [fit.log_zone_size, Nat.pow_zero, Nat.mul_one, hcount, Nat.mod_eq_of_lt (by omega)]

/-- There is a clear bit for each free zone. -/
lemma MapFits.card_free_zones (fit : MapFits v) : (free_zones v).card = (zone_bits v).card := by
  have hpos : ∀ n ∈ zone_bits v, 0 < n := by
    intro n hn
    obtain ⟨-, hfree, -⟩ := Finset.mem_filter.1 hn
    cases n with
    | zero =>
      rw [fit.bit_zero] at hfree
      cases hfree
    | succ n => exact Nat.succ_pos n
  have himage : free_zones v = (zone_bits v).image fun n => v.sbi.s_firstdatazone + n - 1 := by
    ext z
    rw [mem_free_zones, Finset.mem_image]
    constructor
    · rintro ⟨⟨h1, h2⟩, h3, hfree⟩
      refine ⟨z - v.sbi.s_firstdatazone + 1, ?_, by omega⟩
      exact Finset.mem_filter.2 ⟨Finset.mem_range.2 (by omega), hfree, by omega⟩
    · rintro ⟨n, hn, rfl⟩
      have h0 := hpos n hn
      obtain ⟨hlt, hfree, hz⟩ := Finset.mem_filter.1 hn
      have hlt := Finset.mem_range.1 hlt
      refine ⟨⟨by omega, by omega⟩, by omega, ?_⟩
      rw [zbit, show v.sbi.s_firstdatazone + n - 1 - v.sbi.s_firstdatazone + 1 = n by omega]
      exact hfree
  rw [himage]
  apply Finset.card_image_of_injOn
  intro n hn k hk heq
  have := hpos n hn
  have := hpos k hk
  have heq : v.sbi.s_firstdatazone + n - 1 = v.sbi.s_firstdatazone + k - 1 := heq
  omega

/-- The count is the number of clear bits of the blocks counted. -/
lemma MapFits.count_card (fit : MapFits v) :
    cominix_count_free_blocks v = (counted_bits v).card := by
  rw [fit.count_eq, zeros, Nat.count_eq_card_filter_range]
  rfl

/-- Of the counted bits and those of the zones, one set is in the other. -/
lemma MapFits.nested (fit : MapFits v) :
    counted_bits v ⊆ zone_bits v ∨ zone_bits v ⊆ counted_bits v := by
  have hmul : counted_blocks v * bits_per_zone v.dev ≤ v.sbi.s_zmap_blocks * bits_per_zone v.dev :=
    Nat.mul_le_mul_right _ fit.counted_le
  have hfirst := fit.first
  have hnzones := fit.nzones
  have hw := bits_per_zone_pos v.dev
  have hw' : bits_per_zone v.dev ≤ 8 * 4096 := Nat.mul_le_mul_left 8 fit.bs_le
  have hblocks : counted_blocks v
      = ((v.sbi.s_nzones + (2 ^ 64 - v.sbi.s_firstdatazone) + 1) % 2 ^ 32
        + (bits_per_zone v.dev - 1)) % 2 ^ 32 / bits_per_zone v.dev := by
    unfold counted_blocks bits_per_zone
    rw [Nat.mul_comm]
  by_cases hno : v.sbi.s_nzones + 1 ≤ v.sbi.s_firstdatazone
  · -- there is no zone
    right
    intro n hn
    have := (Finset.mem_filter.1 hn).2.2
    omega
  · have hbits : (v.sbi.s_nzones + (2 ^ 64 - v.sbi.s_firstdatazone) + 1) % 2 ^ 32
        = (v.sbi.s_nzones + 1 - v.sbi.s_firstdatazone) % 2 ^ 32 := by
      omega
    by_cases hwrap : v.sbi.s_nzones + 1 - v.sbi.s_firstdatazone + (bits_per_zone v.dev - 1) < 2 ^ 32
    · -- the counted blocks hold the bits of all zones
      right
      rw [hbits, Nat.mod_eq_of_lt (by omega :
        v.sbi.s_nzones + 1 - v.sbi.s_firstdatazone < 2 ^ 32), Nat.mod_eq_of_lt hwrap] at hblocks
      have hcover := Nat.lt_mul_div_succ
        (v.sbi.s_nzones + 1 - v.sbi.s_firstdatazone + (bits_per_zone v.dev - 1)) hw
      rw [← hblocks, Nat.mul_add, Nat.mul_one, Nat.mul_comm] at hcover
      intro n hn
      obtain ⟨-, hfree, hz⟩ := Finset.mem_filter.1 hn
      exact Finset.mem_filter.2 ⟨Finset.mem_range.2 (by omega), hfree⟩
    · -- the rounding wraps, and nothing is counted
      left
      have hnone : counted_blocks v = 0 := by
        rw [hblocks]
        apply Nat.div_eq_of_lt
        omega
      intro n hn
      have hlt := Finset.mem_range.1 (Finset.mem_filter.1 hn).1
      rw [hnone, Nat.zero_mul] at hlt
      exact absurd hlt (Nat.not_lt_zero n)

/-- The count is that of the free zones when the bits after the last zone are set, and only then. -/
lemma MapFits.count_iff (fit : MapFits v) :
    cominix_count_free_blocks v = (free_zones v).card ↔ TailSet v := by
  have hmul : counted_blocks v * bits_per_zone v.dev ≤ v.sbi.s_zmap_blocks * bits_per_zone v.dev :=
    Nat.mul_le_mul_right _ fit.counted_le
  rw [fit.count_card, fit.card_free_zones]
  constructor
  · intro h n hn hfree
    have heq : counted_bits v = zone_bits v := by
      rcases fit.nested with hsub | hsub
      · exact Finset.eq_of_subset_of_card_le hsub h.ge
      · exact (Finset.eq_of_subset_of_card_le hsub h.le).symm
    have hmem := Finset.ext_iff.1 heq n
    simp only [counted_bits, zone_bits, Finset.mem_filter, Finset.mem_range, hn, hfree, true_and,
      and_true] at hmem
    exact hmem
  · intro htail
    congr 1
    ext n
    simp only [counted_bits, zone_bits, Finset.mem_filter, Finset.mem_range]
    constructor
    · rintro ⟨hlt, hfree⟩
      exact ⟨by omega, hfree, (htail n (by omega) hfree).1 hlt⟩
    · rintro ⟨hlt, hfree, hz⟩
      exact ⟨(htail n hlt hfree).2 hz, hfree⟩

/-- A zone that was returned was free, and is not any more. -/
lemma new_block_takes (ok : BitsOk v) (hz : (cominix_new_block v).2 ≠ 0) :
    BitsOk (cominix_new_block v).1 ∧ (cominix_new_block v).2 ∈ free_zones v ∧
    (cominix_new_block v).2 < 2 ^ 31 ∧
    free_zones (cominix_new_block v).1 = (free_zones v).erase (cominix_new_block v).2 := by
  rcases cominix_new_block_bit ok with
    ⟨heq, -⟩ | ⟨v', k, heq, hdev, hsbi, -, hstep, hk0, hk, hfree, -, hbit⟩
  · rw [heq] at hz
    exact absurd rfl hz
  · rw [heq] at hz ⊢
    by_cases hin : v.sbi.s_firstdatazone + k - 1 < v.sbi.s_nzones ∧
        v.sbi.s_firstdatazone + k - 1 < 2 ^ 31
    · rw [if_pos hin]
      have hk' : v.sbi.s_firstdatazone + k - 1 - v.sbi.s_firstdatazone + 1 = k := by omega
      refine ⟨⟨?_, ?_, ?_⟩, mem_free_zones.2 ⟨⟨by omega, hin.1⟩, by omega, ?_⟩, hin.2, ?_⟩
      · rw [hsbi]
        exact ok.nzones_lt
      · rw [hsbi, hstep.bits_per_zone]
        exact ok.blocks_lt
      · rw [hstep.bits_per_zone]
        exact hstep.bit_zero ok.bit_zero
      · rw [zbit, hk']
        exact hfree
      · ext z
        rw [Finset.mem_erase, mem_free_zones, mem_free_zones, hstep.inArea, hsbi, hdev]
        constructor
        · rintro ⟨harea, hlt, hz⟩
          rw [zbit, hstep.bits_per_zone, hstep.first, hbit] at hz
          split at hz
          · cases hz
          · exact ⟨fun he => by omega, harea, hlt, hz⟩
        · rintro ⟨hne, harea, hlt, hz⟩
          have h1 := harea.1
          refine ⟨harea, hlt, ?_⟩
          rw [zbit, hstep.bits_per_zone, hstep.first, hbit, if_neg (by omega)]
          exact hz
    · rw [if_neg hin] at hz
      exact absurd rfl hz

/-- What is returned is not 0 while there are free zones, when they can all be returned. -/
lemma new_block_ne_zero (ok : BitsOk v) (hret : Returnable v) (hz : z ∈ free_zones v) :
    (cominix_new_block v).2 ≠ 0 := by
  obtain ⟨⟨h1, h2⟩, hlt, hfree⟩ := mem_free_zones.1 hz
  rcases cominix_new_block_bit ok with
    ⟨-, hall⟩ | ⟨v', k, heq, -, -, -, -, hk0, hk, hclear, hlow, -⟩
  · have hset := hall (z - v.sbi.s_firstdatazone + 1) (by omega)
    rw [zbit, hset] at hfree
    cases hfree
  · -- the first clear bit comes no later than that of `z`
    have hle : k ≤ z - v.sbi.s_firstdatazone + 1 := by
      by_contra hgt
      have hset := hlow (z - v.sbi.s_firstdatazone + 1) (by omega)
      rw [zbit, hset] at hfree
      cases hfree
    have hmem : v.sbi.s_firstdatazone + k - 1 ∈ free_zones v := by
      refine mem_free_zones.2 ⟨⟨by omega, by omega⟩, by omega, ?_⟩
      rw [zbit, show v.sbi.s_firstdatazone + k - 1 - v.sbi.s_firstdatazone + 1 = k by omega]
      exact hclear
    obtain ⟨hpos, h31⟩ := hret _ hmem
    rw [heq, if_pos ⟨by omega, h31⟩]
    exact hpos.ne'

/-- Calls that succeed take as many free zones, each one that can be returned. -/
lemma new_blocks_take : ∀ n v, BitsOk v → (∀ z ∈ (new_blocks n v).2, z ≠ 0) →
    BitsOk (new_blocks n v).1 ∧ (free_zones (new_blocks n v).1).card + n = (free_zones v).card ∧
    ∀ z ∈ free_zones v, z ∉ free_zones (new_blocks n v).1 → 0 < z ∧ z < 2 ^ 31 := by
  intro n
  induction n with
  | zero => exact fun v ok _ => ⟨ok, rfl, fun z hz hn => absurd hz hn⟩
  | succ n ih =>
    intro v ok hall
    have hne := hall _ (List.mem_cons_self ..)
    obtain ⟨ok', hmem, h31, herase⟩ := new_block_takes ok hne
    obtain ⟨ok'', hcard, htaken⟩ := ih _ ok' fun z hz => hall z (List.mem_cons_of_mem _ hz)
    refine ⟨ok'', ?_, fun z hz hn => ?_⟩
    · have hpos := Finset.card_pos.2 ⟨_, hmem⟩
      rw [herase, Finset.card_erase_of_mem hmem] at hcard
      change (free_zones (new_blocks n (cominix_new_block v).1).1).card + (n + 1) = _
      omega
    · by_cases he : z = (cominix_new_block v).2
      · rw [he]
        exact ⟨Nat.pos_of_ne_zero hne, h31⟩
      · exact htaken z (herase ▸ Finset.mem_erase.2 ⟨he, hz⟩) hn

/-- As long as there are free zones, and all can be returned, the calls succeed. -/
lemma new_blocks_succeed : ∀ n v, BitsOk v → Returnable v → n ≤ (free_zones v).card →
    ∀ z ∈ (new_blocks n v).2, z ≠ 0 := by
  intro n
  induction n with
  | zero =>
    intro v _ _ _ z hz
    cases hz
  | succ n ih =>
    intro v ok hret hn z hz
    obtain ⟨y, hy⟩ := Finset.card_pos.1 (Nat.lt_of_lt_of_le (Nat.succ_pos n) hn)
    have hne := new_block_ne_zero ok hret hy
    obtain ⟨ok', hmem, -, herase⟩ := new_block_takes ok hne
    rcases List.mem_cons.1 hz with rfl | hz
    · exact hne
    · refine ih _ ok' (fun x hx => hret x ?_) ?_ z hz
      · rw [herase] at hx
        exact Finset.mem_of_mem_erase hx
      · rw [herase, Finset.card_erase_of_mem hmem]
        omega

/-- As many calls succeed as there are free zones exactly when all of these can be returned. -/
lemma succeeding_iff (ok : BitsOk v) : Succeeding v (free_zones v).card ↔ Returnable v := by
  constructor
  · rintro ⟨hall, -⟩ z hz
    obtain ⟨-, hcard, htaken⟩ := new_blocks_take _ _ ok hall
    have hnone := Finset.card_eq_zero.1 (Nat.add_eq_right.1 hcard)
    exact htaken z hz (hnone ▸ Finset.notMem_empty z)
  · intro hret
    have hall := new_blocks_succeed _ v ok hret le_rfl
    obtain ⟨ok', hcard, -⟩ := new_blocks_take _ _ ok hall
    have hnone := Finset.card_eq_zero.1 (Nat.add_eq_right.1 hcard)
    refine ⟨hall, ?_⟩
    by_contra hne
    have hmem := (new_block_takes ok' hne).2.1
    rw [hnone] at hmem
    exact absurd hmem (Finset.notMem_empty _)

/-- There are no more free zones than zones. -/
lemma MapFits.card_le (fit : MapFits v) : (free_zones v).card
    ≤ (v.sbi.s_nzones + (2 ^ 64 - v.sbi.s_firstdatazone)) % 2 ^ 64 := by
  have hfirst := fit.first
  have hnzones := fit.nzones
  have hsub : free_zones v ⊆ Finset.Ico v.sbi.s_firstdatazone v.sbi.s_nzones := by
    intro z hz
    exact Finset.mem_Ico.2 (mem_free_zones.1 hz).1
  have hcard := Finset.card_le_card hsub
  rw [Nat.card_Ico] at hcard
  omega

/-- The report is right exactly when the bits after the last zone are set and every free zone can be
returned. -/
theorem free_count_iff {m : SuperBlock} (fit : MapFits m.vol) :
    FreeSpaceRight m ↔ TailSet m.vol ∧ Returnable m.vol := by
  constructor
  · intro h
    refine ⟨fit.count_iff.1 h.count, (succeeding_iff fit.bitsOk).1 ?_⟩
    exact h.count ▸ h.calls
  · rintro ⟨htail, hret⟩
    have hcount := fit.count_iff.2 htail
    refine ⟨hcount, hcount ▸ (succeeding_iff fit.bitsOk).2 hret, ?_⟩
    have hle := fit.card_le
    change cominix_count_free_blocks m.vol ≤ _ * 2 ^ m.vol.sbi.s_log_zone_size % 2 ^ 64
    rw [hcount, fit.log_zone_size, Nat.pow_zero, Nat.mul_one]
    exact hle

/-- Ten zones of which the last one is free, with all bits set after it. -/
def last_zone_free : Vol := { ten_zones 8 with s_zmap := ⟨fun _ n => n != 2, fun _ _ => true, fun _ => true⟩ }

/-- The report is right for it. -/
theorem free_count_iff_last : ∃ m : SuperBlock, m.vol = last_zone_free ∧ FreeSpaceRight m := by
  have hsome : (cominix_fill_super small_image false).bind FillSuper.s_fs_info ≠ none := by
    decide +kernel
  obtain ⟨m, -⟩ := Option.ne_none_iff_exists'.1 hsome
  have fit : MapFits last_zone_free :=
    ⟨by decide, by decide, by decide, by decide, by decide, by decide, rfl⟩
  have htail : TailSet last_zone_free := by
    intro n hn hfree
    have hn : n < 8192 := hn
    have hfree : ((n % 8192) != 2) = false := hfree
    have h2 : n = 2 := by
      rw [Nat.mod_eq_of_lt hn] at hfree
      exact bne_eq_false_iff_eq.1 hfree
    rw [h2]
    decide
  have hret : Returnable last_zone_free := by
    intro z hz
    have harea := (mem_free_zones.1 hz).1
    have h1 : 8 ≤ z := harea.1
    have h2 : z < 10 := harea.2
    omega
  exact ⟨{ m with vol := last_zone_free }, rfl, (free_count_iff fit).2 ⟨htail, hret⟩⟩

/-- Of an image with one zone, which is in use, more blocks are reported as free than there are. -/
theorem free_above_blocks : ∃ img m, cominix_fill_super img false = some (.mounted m) ∧
    (cominix_statfs m).f_blocks < (cominix_statfs m).f_bfree ∧ ¬ FreeSpaceRight m := by
  have h : ((cominix_fill_super full_image false).bind FillSuper.s_fs_info).map
      (fun m => ((cominix_statfs m).f_blocks, counted_blocks m.vol * bits_per_zone m.vol.dev,
        bitAt m.vol.s_zmap (bits_per_zone m.vol.dev) 100,
        bitAt m.vol.s_zmap (bits_per_zone m.vol.dev) 200)) = some (1, 8192, false, false) := by
    decide +kernel
  obtain ⟨m, h, hm⟩ := Option.map_eq_some_iff.1 h
  obtain ⟨r, h, hr⟩ := Option.bind_eq_some_iff.1 h
  obtain rfl := FillSuper.s_fs_info_some hr
  simp only [Prod.mk.injEq] at hm
  obtain ⟨hblocks, hcounted, h100, h200⟩ := hm
  have hmem : ∀ n < 8192, bitAt m.vol.s_zmap (bits_per_zone m.vol.dev) n = false →
      n ∈ counted_bits m.vol := by
    intro n hn hfree
    exact Finset.mem_filter.2 ⟨Finset.mem_range.2 (hcounted.symm ▸ hn), hfree⟩
  have htwo : 1 < (counted_bits m.vol).card :=
    Finset.one_lt_card.2 ⟨100, hmem _ (by decide) h100, 200, hmem _ (by decide) h200, by decide⟩
  have hlt : (cominix_statfs m).f_blocks < (cominix_statfs m).f_bfree := by
    rw [hblocks]
    exact htwo.trans_eq (mounted_map_fits h).count_card.symm
  exact ⟨full_image, m, h, hlt, fun right => Nat.not_le_of_lt hlt right.statfs⟩

end CominixFs
