import CominixFs.Lib.Pool
import CominixFs.MountLayout

/-!
# The zone allocator as a pool of zones (`bitmap.c`)

What passes a mount of a zone bitmap (`MapFits`) is enough for the calls of the allocator to be
those of a pool of free zones, whatever the bits are (`zone_allocator_refines`). Zone 0 cannot be
told from a failure, so the zones have to start above it.
-/

namespace CominixFs
open Bitmap

/-- What `cominix_fill_super` lets pass of the zone bitmap. -/
structure MapFits (v : Vol) : Prop where
  bits : 9 ≤ v.dev.s_blocksize_bits ∧ v.dev.s_blocksize_bits ≤ 12
  first : v.sbi.s_firstdatazone < 2 ^ 16
  nzones : v.sbi.s_nzones < 2 ^ 32
  zmap_blocks : 0 < v.sbi.s_zmap_blocks ∧ v.sbi.s_zmap_blocks < 2 ^ 16
  needed : cominix_blocks_needed (v.sbi.s_nzones + (2 ^ 64 - v.sbi.s_firstdatazone) + 1) v.dev.bs
    ≤ v.sbi.s_zmap_blocks
  bit_zero : bitAt v.s_zmap (bits_per_zone v.dev) 0 = true
  log_zone_size : v.sbi.s_log_zone_size = 0

variable {v v' : Vol} {z : Nat} {e : Pool.Event Nat}

lemma MapFits.bs_le (fit : MapFits v) : v.dev.bs ≤ 4096 := Nat.pow_le_pow_right (by decide) fit.bits.2

lemma MapFits.bitsOk (fit : MapFits v) : BitsOk v := by
  have hnzones := fit.nzones
  have hblocks := fit.zmap_blocks
  have hfirst := fit.first
  have hle : v.sbi.s_zmap_blocks * bits_per_zone v.dev ≤ (2 ^ 16 - 1) * (8 * 4096) :=
    Nat.mul_le_mul (by omega) (Nat.mul_le_mul_left 8 fit.bs_le)
  exact ⟨by omega, by omega, fit.bit_zero⟩

lemma MapFits.zmapOk (fit : MapFits v) (hfirst : 0 < v.sbi.s_firstdatazone)
    (hn : v.sbi.s_nzones < 2 ^ 31) : ZmapOk v :=
  ⟨hfirst, hn.le, fit.bitsOk.blocks_lt, blocks_needed_covers v.dev.bs_pos fit.bs_le hn.le fit.first
    fit.zmap_blocks.1 fit.needed, fit.bit_zero⟩

/-- Calls of the allocator, and what does not concern it, keep what passed. -/
lemma MapFits.congr {esb brk : Nat} (fit : MapFits v)
    (hbits : v'.dev.s_blocksize_bits = v.dev.s_blocksize_bits)
    (hsbi : v'.sbi = { v.sbi with extra_sb_location := esb, heap_brk := brk })
    (hzero : bitAt v'.s_zmap (bits_per_zone v.dev) 0 = true) : MapFits v' := by
  have hbs : v'.dev.bs = v.dev.bs := by rw [Dev.bs, hbits, Dev.bs]
  refine ⟨hbits ▸ fit.bits, ?_, ?_, ?_, ?_, ?_, ?_⟩
  · rw [hsbi]
    exact fit.first
  · rw [hsbi]
    exact fit.nzones
  · rw [hsbi]
    exact fit.zmap_blocks
  · rw [hsbi, hbs]
    exact fit.needed
  · rw [bits_per_zone, hbs]
    exact hzero
  · rw [hsbi]
    exact fit.log_zone_size

/-- An allocation leaves bit 0 set. -/
lemma new_block_bit_zero (ok : BitsOk v) :
    bitAt (cominix_new_block v).1.s_zmap (bits_per_zone v.dev) 0 = true := by
  rcases cominix_new_block_bit ok with ⟨heq, -⟩ | ⟨v', k, heq, -, -, -, hstep, -⟩
  · rw [heq]
    exact ok.bit_zero
  · rw [heq]
    exact hstep.bit_zero ok.bit_zero

/-- A zone size that is not the block size is turned down. -/
lemma fill_super_log_zone_size {img : Image} {rdonly : Bool} {m : SuperBlock}
    (h : cominix_fill_super img rdonly = some (.mounted m)) : img.super.s_log_zone_size = 0 := by
  unfold cominix_fill_super at h
  by_contra hne
  rw [if_pos hne] at h
  split at h
  · cases h
  · split at h
    · cases h
    · cases h

/-- What is mounted passed. -/
lemma mounted_map_fits {img : Image} {rdonly : Bool} {m : SuperBlock}
    (h : cominix_fill_super img rdonly = some (.mounted m)) : MapFits m.vol := by
  have hlog := fill_super_log_zone_size h
  obtain ⟨hcheck, s0, sbi, hs0, hsbi, hmaps⟩ := cominix_fill_super_inv h rfl
  obtain ⟨-, hz16, hf16, hn32⟩ := Cominix3SuperBlock.read_bounds img.s_sbh
  have hzmap : 0 < img.super.s_zmap_blocks := by
    simp only [cominix_check_superblock, sb_info, Bool.not_eq_true', Bool.or_eq_false_iff,
      beq_eq_false_iff_ne] at hcheck
    omega
  -- the fields the bitmap code reads are those of the superblock, but for the end of the zones
  have hfields : s0.s_firstdatazone = img.super.s_firstdatazone ∧
      s0.s_zmap_blocks = img.super.s_zmap_blocks ∧ s0.s_nzones = img.super.s_zones ∧
      s0.s_log_zone_size = 0 := by
    simp only [cminix_fill_extra_super] at hs0
    split at hs0
    · cases hs0
      exact ⟨rfl, rfl, rfl, hlog⟩
    · split at hs0
      · cases hs0
        exact ⟨rfl, rfl, rfl, hlog⟩
      · cases hs0
  obtain ⟨h1, h2, h3, h4⟩ := hfields
  simp only [fill_nzones] at hsbi
  split at hsbi
  · cases hsbi
  · rename_i hle
    cases hsbi
    rcases fill_maps_inv hmaps rfl with ⟨hr, -⟩ | ⟨s_root, m', hm, fit, hcase⟩
    · cases hr
    cases hm
    have hset : MapFits (set_up { s0 with
        max_brk := s0.s_nzones * img.sdev.bs
        s_nzones := s0.hashtable / img.sdev.bs } img.sdev img.s_sbh rdonly s_root).vol := by
      have hbits := set_blocksize_bits_bounds img.super.s_blocksize
      refine ⟨hbits, h1.trans_lt hf16, ?_, ⟨?_, h2.trans_lt hz16⟩, fit.zmap, ?_, h4⟩
      · exact (Nat.le_of_not_lt hle).trans_lt (h3.trans_lt hn32)
      · exact hzmap.trans_eq h2.symm
      · exact Image.bitAt_set_bit_zero.trans (if_pos rfl)
    rcases hcase with ⟨-, rfl⟩ | ⟨-, e, hal⟩
    · exact hset
    · obtain ⟨-, v, new, hnew, hafter⟩ := cminix_alloc_extra_super_inv hal
      obtain ⟨hsbi, hdev, -⟩ := new_block_loop_area _ _ hnew
      have hzero := new_block_bit_zero hset.bitsOk
      rw [hnew] at hzero
      rcases hafter with ⟨-, rfl⟩ | ⟨-, d, hw, rfl⟩
      · exact hset.congr (congrArg _ hdev) hsbi hzero
      · refine @MapFits.congr _ _ (new % 2 ^ 32) (v.sbi.hashtable + v.sbi.hashtable_size) hset ?_ ?_
          hzero
        · exact (write_data_storage_bits hw).trans (congrArg Dev.s_blocksize_bits hdev :)
        · exact congrArg (fun sbi : SbInfo => { sbi with
            extra_sb_location := new % 2 ^ 32
            heap_brk := v.sbi.hashtable + v.sbi.hashtable_size }) hsbi

/-- A call of the allocator. -/
inductive ZoneOp where
  | new_block
  | new_block_sb
  | free_block (block : Nat)

/-- A zone that was allocated, or none for 0. -/
def allocated (z : Nat) : Option Nat := if z = 0 then none else some z

/-- The volume after a call, and what was called with which result. -/
def zone_op (v : Vol) : ZoneOp → Vol × Pool.Event Nat
  | .new_block => ((cominix_new_block v).1, .take (allocated (cominix_new_block v).2))
  | .new_block_sb => ((cominix_new_block_sb v).1, .take (allocated (cominix_new_block_sb v).2))
  | .free_block block => (cominix_free_block v block, .give block)

/-- The zones of the normal area. -/
def Area (v : Vol) : Set Nat := {z | InArea v z}

/-- Those of them whose bit is clear. -/
def FreeZones (v : Vol) : Set Nat := {z | InArea v z ∧ zbit v z = false}

/-- The bit of a zone was written, and no other. -/
def SetsBit (v v' : Vol) (z : Nat) (b : Bool) : Prop :=
  ∀ n, bitAt v'.s_zmap (bits_per_zone v.dev) n
    = if n = z - v.sbi.s_firstdatazone + 1 then b else bitAt v.s_zmap (bits_per_zone v.dev) n

/-- What a call does to the bits. -/
def BitExact (v v' : Vol) : Pool.Event Nat → Prop
  | .take (some z) => IsLeast (FreeZones v) z ∧ SetsBit v v' z true
  | .take none => FreeZones v = ∅ ∧ ∀ z, InArea v z → zbit v' z = zbit v z
  | .give z => (InArea v z → SetsBit v v' z false) ∧ (¬ InArea v z → v'.s_zmap = v.s_zmap)

lemma SetsBit.zbit {b : Bool} (h : SetsBit v v' z b) (hs : SameMount v v') (hz : InArea v z) {y : Nat}
    (hy : InArea v y) : zbit v' y = if y = z then b else zbit v y := by
  obtain ⟨h1, h2⟩ := hz
  obtain ⟨h3, h4⟩ := hy
  simp only [CominixFs.zbit, hs.bits_per_zone, hs.first]
  rw [h]
  exact if_congr (by omega) rfl rfl

/-- The free zones after a call, from what happened to the bits of zones. -/
lemma freeZones_eq {F : Set Nat} (hs : SameMount v v')
    (h : ∀ y, InArea v y → (CominixFs.zbit v' y = false ↔ y ∈ F)) (hF : F ⊆ Area v) :
    FreeZones v' = F := by
  ext y
  constructor
  · rintro ⟨harea, hfree⟩
    exact (h y (hs.inArea.1 harea)).1 hfree
  · intro hy
    exact ⟨hs.inArea.2 (hF hy), (h y (hF hy)).2 hy⟩

/-- A call that is exact on the bits is one of a pool. -/
lemma BitExact.step (h : BitExact v v' e) (hs : SameMount v v') :
    Pool.Step (Area v) (FreeZones v) e (FreeZones v') := by
  cases e with
  | take name =>
    cases name with
    | none =>
      obtain ⟨hnone, hsame⟩ := h
      have hnone' : FreeZones v' = ∅ := by
        refine freeZones_eq hs (fun y hy => ?_) (Set.empty_subset _)
        rw [hsame y hy, ← hnone]
        exact ⟨fun hfree => ⟨hy, hfree⟩, fun hfree => hfree.2⟩
      rw [hnone, hnone']
      exact .empty
    | some z =>
      obtain ⟨hleast, hbit⟩ := h
      have hafter : FreeZones v' = FreeZones v \ {z} := by
        refine freeZones_eq hs (fun y hy => ?_) fun y hy => hy.1.1
        rw [hbit.zbit hs hleast.1.1 hy]
        by_cases he : y = z
        · rw [if_pos he]
          exact ⟨fun h => (by cases h), fun h => absurd he h.2⟩
        · rw [if_neg he]
          exact ⟨fun hfree => ⟨⟨hy, hfree⟩, he⟩, fun hfree => hfree.1.2⟩
      rw [hafter]
      exact .take hleast
  | give z =>
    by_cases hz : InArea v z
    · have hbit := h.1 hz
      have hafter : FreeZones v' = insert z (FreeZones v) := by
        refine freeZones_eq hs (fun y hy => ?_) (Set.insert_subset hz fun y hy => hy.1)
        rw [hbit.zbit hs hz hy]
        by_cases he : y = z
        · rw [if_pos he]
          exact ⟨fun _ => .inl he, fun _ => rfl⟩
        · rw [if_neg he]
          exact ⟨fun hfree => .inr ⟨hy, hfree⟩, fun hfree => (hfree.resolve_left he).2⟩
      rw [hafter]
      exact .give hz
    · have hbit := h.2 hz
      have hafter : FreeZones v' = FreeZones v := by
        refine freeZones_eq hs (fun y hy => ?_) fun y hy => hy.1
        unfold CominixFs.zbit
        rw [hs.bits_per_zone, hs.first, hbit]
        exact ⟨fun hfree => ⟨hy, hfree⟩, fun hfree => hfree.2⟩
      rw [hafter]
      exact .foreign hz

/-- An allocation takes the lowest free zone, or there is none. -/
lemma new_block_exact (ok : ZmapOk v) : ZmapStep v (cominix_new_block v).1 ∧
    BitExact v (cominix_new_block v).1 (.take (allocated (cominix_new_block v).2)) := by
  have hfirst := ok.first_pos
  have hn := ok.nzones_lt
  have hcovers := ok.covers
  rcases cominix_new_block_bit ok.bitsOk with
    ⟨heq, hall⟩ | ⟨v', k, heq, -, -, -, hstep, hk0, hk, hfree, hlow, hbit⟩
  · rw [heq]
    refine ⟨.refl v, Set.eq_empty_of_forall_notMem fun z hz => ?_, fun _ _ => rfl⟩
    obtain ⟨⟨h1, h2⟩, hfree⟩ := hz
    have hset := hall (z - v.sbi.s_firstdatazone + 1) (by omega)
    rw [zbit, hset] at hfree
    cases hfree
  · have hbelow : ∀ z, z ∈ FreeZones v → v.sbi.s_firstdatazone + k - 1 ≤ z := by
      rintro z ⟨⟨h1, h2⟩, hz⟩
      by_contra hlt
      have hset := hlow (z - v.sbi.s_firstdatazone + 1) (by omega)
      rw [zbit, hset] at hz
      cases hz
    rw [heq]
    by_cases hin : v.sbi.s_firstdatazone + k - 1 < v.sbi.s_nzones
    · rw [if_pos ⟨hin, by omega⟩, allocated, if_neg (by omega)]
      have hkz : v.sbi.s_firstdatazone + k - 1 - v.sbi.s_firstdatazone + 1 = k := by omega
      refine ⟨hstep, ⟨⟨⟨by omega, hin⟩, ?_⟩, hbelow⟩, fun n => ?_⟩
      · rw [zbit, hkz]
        exact hfree
      · rw [hkz]
        exact hbit n
    · rw [if_neg fun h => hin h.1]
      refine ⟨hstep, Set.eq_empty_of_forall_notMem fun z hz => ?_, fun z hz => ?_⟩
      · have := hbelow z hz
        have := hz.1.2
        omega
      · obtain ⟨h1, h2⟩ := hz
        unfold zbit
        rw [hstep.bits_per_zone, hstep.first, hbit, if_neg (by omega)]

/-- A free clears the bit of a zone of the normal area, and does nothing for any other number. -/
lemma free_block_exact (ok : ZmapOk v) (block : Nat) : ZmapStep v (cominix_free_block v block) ∧
    BitExact v (cominix_free_block v block) (.give block) := by
  by_cases hz : InArea v block
  · obtain ⟨-, -, hstep, -, hbit⟩ := cominix_free_block_bit ok hz
    exact ⟨hstep, fun _ => hbit, fun hn => absurd hz hn⟩
  · have hout : block < v.sbi.s_firstdatazone ∨ v.sbi.s_nzones ≤ block := by
      unfold InArea at hz
      omega
    have heq : cominix_free_block v block = { v with printk := v.printk ++ [.notInDatazone block] } :=
      if_pos hout
    rw [heq]
    exact ⟨.of_eq ⟨rfl, rfl, rfl, rfl, rfl⟩ rfl, fun h => absurd h hz, fun _ => rfl⟩

lemma zone_op_exact (ok : ZmapOk v) (op : ZoneOp) :
    ZmapStep v (zone_op v op).1 ∧ BitExact v (zone_op v op).1 (zone_op v op).2 := by
  cases op with
  | new_block => exact new_block_exact ok
  | new_block_sb => exact new_block_exact ok
  | free_block block => exact free_block_exact ok block

/-- The calls of the allocator are those of a pool of free zones, bit by bit: no zone is handed out
twice unless it was freed in between, and none outside the normal area. -/
theorem zone_allocator_refines (fit : MapFits v) (hfirst : 0 < v.sbi.s_firstdatazone)
    (hn : v.sbi.s_nzones < 2 ^ 31) (ops : List ZoneOp) :
    Refine.Trace (Pool.Step (Area v)) (FreeZones v) (Refine.run zone_op v ops).2
      (FreeZones (Refine.run zone_op v ops).1) ∧
    (∀ op, BitExact (Refine.run zone_op v ops).1 (zone_op (Refine.run zone_op v ops).1 op).1
      (zone_op (Refine.run zone_op v ops).1 op).2) ∧
    (∀ z es₁ es₂ es₃, (Refine.run zone_op v ops).2
        = es₁ ++ .take (some z) :: (es₂ ++ .take (some z) :: es₃) → .give z ∈ es₂) ∧
    ∀ z, .take (some z) ∈ (Refine.run zone_op v ops).2 →
      v.sbi.s_firstdatazone ≤ z ∧ z < v.sbi.s_nzones := by
  obtain ⟨⟨ok, hs⟩, htrace⟩ := @Refine.run_refines _ _ _ _ (Pool.Step (Area v)) zone_op
    (fun s => ZmapOk s ∧ SameMount v s) FreeZones (fun s op h => by
      obtain ⟨hstep, hexact⟩ := zone_op_exact h.1 op
      refine ⟨⟨h.1.step hstep, h.2.trans hstep.toSameMount⟩, ?_⟩
      have harea : Area s = Area v := Set.ext fun z => h.2.inArea
      exact harea ▸ hexact.step hstep.toSameMount) v ops ⟨fit.zmapOk hfirst hn, .refl v⟩
  refine ⟨htrace, fun op => (zone_op_exact ok op).2, fun z es₁ es₂ es₃ he => ?_, fun z hz => ?_⟩
  · rw [he] at htrace
    exact Pool.taken_once htrace
  · have hmem : z ∈ Area v := Pool.take_mem htrace (fun y hy => hy.1) hz
    exact hmem

/-- A volume of ten zones with one bitmap block in which bit 0 is set. -/
def ten_zones (s_firstdatazone : Nat) : Vol where
  sbi := {
    s_ninodes := 1, s_nzones := 10, s_imap_blocks := 1, s_zmap_blocks := 1
    s_firstdatazone := s_firstdatazone, s_log_zone_size := 0, s_maxbytes := 0
    extra_sb_location := 0, hashtable := 10240, hashtable_size := 0, heap_brk := 0, max_brk := 0 }
  dev := ⟨10, 64, ⟨fun _ _ => 0, fun _ _ => 0, fun _ => false⟩⟩
  s_zmap := ⟨fun _ n => n == 0, fun _ n => n == 0, fun _ => false⟩
  printk := []

/-- Zone 8 is allocated, freed and allocated again. -/
theorem zone_allocator_refines_ten :
    Refine.Trace (Pool.Step (Area (ten_zones 8))) (FreeZones (ten_zones 8))
      (Refine.run zone_op (ten_zones 8) [.new_block, .free_block 8, .new_block_sb]).2
      (FreeZones (Refine.run zone_op (ten_zones 8) [.new_block, .free_block 8, .new_block_sb]).1) :=
  (zone_allocator_refines (v := ten_zones 8)
    ⟨by decide, by decide, by decide, by decide, by decide, by decide, rfl⟩ (by decide) (by decide)
    [.new_block, .free_block 8, .new_block_sb]).1

/-- When the zones start at 0, zone 0 is allocated and 0 returned while others are free. -/
theorem zone_zero_lost : MapFits (ten_zones 0) ∧ (cominix_new_block (ten_zones 0)).2 = 0 ∧
    zbit (cominix_new_block (ten_zones 0)).1 0 = true ∧ zbit (ten_zones 0) 0 = false ∧
    3 ∈ FreeZones (ten_zones 0) :=
  ⟨⟨by decide, by decide, by decide, by decide, by decide, by decide, rfl⟩, by decide, by decide,
    by decide, ⟨by decide, by decide⟩, by decide⟩

end CominixFs
