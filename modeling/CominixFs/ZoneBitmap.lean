import CominixFs.Lib.Bitmap
import CominixFs.Super

/-!
# The zone bitmap (`bitmap.c`)

`cominix_new_block` takes the first zero bit of the zone bitmap, `cominix_free_block` clears the bit
of a zone. `zbit` is the bit of a zone; on a bitmap that covers the normal area (`ZmapOk`) an
allocation returns the lowest free zone, or 0 when there is none (`cominix_new_block_spec`), and a
free of a zone in use clears its bit and nothing else (`cominix_free_block_spec`).
-/

namespace CominixFs
open Bitmap

/-- A C `int`, of which the low 32 bits are given, converted to `unsigned long`. -/
def int_to_ulong (n : Nat) : Nat :=
  if n % 2 ^ 32 < 2 ^ 31 then n % 2 ^ 32 else n % 2 ^ 32 + (2 ^ 64 - 2 ^ 32)

/-- Bits in one bitmap block. -/
def bits_per_zone (d : Dev) : Nat := 8 * d.bs

/-- The loop of `cominix_new_block`, from bitmap block `i` on. A bit found past the last zone stays
set although 0 is returned. -/
def new_block_loop (v : Vol) : Nat → Nat → Vol × Nat
  | 0, _ => (v, 0)
  | n + 1, i =>
    let j := find_first_zero_bit (v.s_zmap.mem i) (bits_per_zone v.dev)
    if j < bits_per_zone v.dev then
      let v := { v with s_zmap := assign v.s_zmap i j true }
      let j := int_to_ulong (j + i * bits_per_zone v.dev + (v.sbi.s_firstdatazone + (2 ^ 64 - 1)))
      if j < v.sbi.s_firstdatazone ∨ v.sbi.s_nzones ≤ j then (v, 0) else (v, j)
    else new_block_loop v n (i + 1)

/-- `cominix_new_block`: the volume, and the zone or 0. -/
def cominix_new_block (v : Vol) : Vol × Nat := new_block_loop v v.sbi.s_zmap_blocks 0

/-- `cominix_new_block_sb`. -/
def cominix_new_block_sb (v : Vol) : Vol × Nat := new_block_loop v v.sbi.s_zmap_blocks 0

/-- `cominix_free_block`. -/
def cominix_free_block (v : Vol) (block : Nat) : Vol :=
  if block < v.sbi.s_firstdatazone ∨ v.sbi.s_nzones ≤ block then
    { v with printk := v.printk ++ [.notInDatazone block] }
  else
    let k := v.dev.s_blocksize_bits + 3
    let zone := block - v.sbi.s_firstdatazone + 1
    let bit := zone % 2 ^ k
    let zone := zone / 2 ^ k
    if v.sbi.s_zmap_blocks ≤ zone then
      { v with printk := v.printk ++ [.nonexistentBitmapBuffer block] }
    else
      { v with
        s_zmap := assign v.s_zmap zone bit false
        printk := if v.s_zmap.mem zone bit then v.printk else v.printk ++ [.bitAlreadyCleared block] }

/-- The bit of a zone. -/
def zbit (v : Vol) (z : Nat) : Bool :=
  bitAt v.s_zmap (bits_per_zone v.dev) (z - v.sbi.s_firstdatazone + 1)

/-- A zone of the normal area. -/
def InArea (v : Vol) (z : Nat) : Prop := v.sbi.s_firstdatazone ≤ z ∧ z < v.sbi.s_nzones

/-- The bitmap covers the normal area, and bit 0, which stands for no zone, is set. -/
structure ZmapOk (v : Vol) : Prop where
  first_pos : 0 < v.sbi.s_firstdatazone
  nzones_lt : v.sbi.s_nzones ≤ 2 ^ 31
  blocks_lt : v.sbi.s_firstdatazone + v.sbi.s_zmap_blocks * bits_per_zone v.dev ≤ 2 ^ 32
  covers : v.sbi.s_nzones < v.sbi.s_firstdatazone + v.sbi.s_zmap_blocks * bits_per_zone v.dev
  bit_zero : bitAt v.s_zmap (bits_per_zone v.dev) 0 = true

lemma bits_per_zone_pos (d : Dev) : 0 < bits_per_zone d := Nat.mul_pos (by decide) d.bs_pos

lemma bits_per_zone_eq (d : Dev) : bits_per_zone d = 2 ^ (d.s_blocksize_bits + 3) := by
  rw [bits_per_zone, Dev.bs, Nat.pow_add, Nat.mul_comm]

/-- What every step leaves alone of a zone bitmap. -/
structure ZmapStep (v v' : Vol) : Prop extends SameMount v v' where
  covered : ∀ i, v.s_zmap.Covered i → v'.s_zmap.Covered i
  bit_zero : bitAt v.s_zmap (bits_per_zone v.dev) 0 = true →
    bitAt v'.s_zmap (bits_per_zone v.dev) 0 = true

lemma SameMount.bits_per_zone {v v' : Vol} (h : SameMount v v') :
    bits_per_zone v'.dev = bits_per_zone v.dev := by
  unfold CominixFs.bits_per_zone
  rw [h.bs]

lemma SameMount.inArea {v v' : Vol} (h : SameMount v v') {z : Nat} : InArea v' z ↔ InArea v z := by
  unfold InArea
  rw [h.nzones, h.first]

lemma ZmapStep.refl (v : Vol) : ZmapStep v v := ⟨.refl v, fun _ h => h, id⟩

lemma ZmapStep.trans {v v' v'' : Vol} (h : ZmapStep v v') (h' : ZmapStep v' v'') :
    ZmapStep v v'' := by
  refine ⟨h.toSameMount.trans h'.toSameMount, fun i hi => h'.covered i (h.covered i hi),
    fun hz => ?_⟩
  have := h'.bit_zero
  rw [h.bits_per_zone] at this
  exact this (h.bit_zero hz)

/-- A step that leaves the zone bitmap alone. -/
lemma ZmapStep.of_eq {v v' : Vol} (h : SameMount v v') (hz : v'.s_zmap = v.s_zmap) :
    ZmapStep v v' := by
  refine ⟨h, fun i hi => ?_, fun hb => ?_⟩
  · rw [hz]; exact hi
  · rw [hz]; exact hb

lemma ZmapOk.step {v v' : Vol} (ok : ZmapOk v) (h : ZmapStep v v') : ZmapOk v' := by
  refine ⟨?_, ?_, ?_, ?_, ?_⟩
  · rw [h.first]; exact ok.first_pos
  · rw [h.nzones]; exact ok.nzones_lt
  · rw [h.first, h.zmap_blocks, h.bits_per_zone]; exact ok.blocks_lt
  · rw [h.first, h.nzones, h.zmap_blocks, h.bits_per_zone]; exact ok.covers
  · rw [h.bits_per_zone]; exact h.bit_zero ok.bit_zero

/-- Writing a bit other than bit 0, or setting one, is a bitmap step. -/
lemma zmapStep_assign {v : Vol} {i j : Nat} {b : Bool} {printk : List Msg}
    (hj : j < bits_per_zone v.dev) (hb : b = true ∨ 0 < i * bits_per_zone v.dev + j) :
    ZmapStep v { v with s_zmap := assign v.s_zmap i j b, printk := printk } := by
  refine ⟨⟨rfl, rfl, rfl, rfl, rfl⟩, fun k hk => assign_covered hk, fun hz => ?_⟩
  rw [bitAt_assign hj]
  split
  · rcases hb with rfl | hb
    · rfl
    · omega
  · exact hz

/-- Every bit has a zone number of 32 bits, and bit 0 is set. -/
structure BitsOk (v : Vol) : Prop where
  nzones_lt : v.sbi.s_nzones ≤ 2 ^ 32
  blocks_lt : v.sbi.s_firstdatazone + v.sbi.s_zmap_blocks * bits_per_zone v.dev ≤ 2 ^ 32
  bit_zero : bitAt v.s_zmap (bits_per_zone v.dev) 0 = true

lemma ZmapOk.bitsOk {v : Vol} (ok : ZmapOk v) : BitsOk v := by
  have := ok.nzones_lt
  exact ⟨by omega, ok.blocks_lt, ok.bit_zero⟩

/-- The zone a bit stands for is returned when it lies in the normal area and an `int` holds it. -/
lemma int_to_ulong_zone {k first nzones : Nat} (hk : 0 < k) (hlt : first + k ≤ 2 ^ 32)
    (hn : nzones ≤ 2 ^ 32) :
    (if int_to_ulong (k + (first + (2 ^ 64 - 1))) < first ∨
        nzones ≤ int_to_ulong (k + (first + (2 ^ 64 - 1))) then 0
      else int_to_ulong (k + (first + (2 ^ 64 - 1))))
    = if first + k - 1 < nzones ∧ first + k - 1 < 2 ^ 31 then first + k - 1 else 0 := by
  have hm : (k + (first + (2 ^ 64 - 1))) % 2 ^ 32 = first + k - 1 := by omega
  simp only [int_to_ulong, hm]
  by_cases h31 : first + k - 1 < 2 ^ 31
  · rw [if_pos h31]
    by_cases hin : first + k - 1 < nzones
    · rw [if_neg (by omega), if_pos ⟨hin, h31⟩]
    · rw [if_pos (by omega), if_neg (by omega)]
  · rw [if_neg h31, if_pos (by omega), if_neg (by omega)]

/-- The loop takes the first zero bit, or runs off the end of the bitmap. -/
lemma new_block_loop_spec {v : Vol} (ok : BitsOk v) : ∀ n i, i + n = v.sbi.s_zmap_blocks →
    (∀ k < i * bits_per_zone v.dev, bitAt v.s_zmap (bits_per_zone v.dev) k = true) →
    (new_block_loop v n i = (v, 0) ∧
      ∀ k < v.sbi.s_zmap_blocks * bits_per_zone v.dev,
        bitAt v.s_zmap (bits_per_zone v.dev) k = true) ∨
    ∃ i' j k, j < bits_per_zone v.dev ∧ k = i' * bits_per_zone v.dev + j ∧ 0 < k ∧
      k < v.sbi.s_zmap_blocks * bits_per_zone v.dev ∧
      bitAt v.s_zmap (bits_per_zone v.dev) k = false ∧
      (∀ k' < k, bitAt v.s_zmap (bits_per_zone v.dev) k' = true) ∧
      new_block_loop v n i = ({ v with s_zmap := assign v.s_zmap i' j true },
        if v.sbi.s_firstdatazone + k - 1 < v.sbi.s_nzones ∧ v.sbi.s_firstdatazone + k - 1 < 2 ^ 31
        then v.sbi.s_firstdatazone + k - 1 else 0) := by
  have hpos := bits_per_zone_pos v.dev
  intro n
  induction n with
  | zero =>
    intro i hi hset
    rw [Nat.add_zero] at hi
    exact .inl ⟨rfl, hi ▸ hset⟩
  | succ n ih =>
    intro i hi hset
    obtain ⟨hle, hbelow, hzero⟩ :=
      find_first_zero_bit_spec (v.s_zmap.mem i) (bits_per_zone v.dev)
    simp only [new_block_loop]
    generalize find_first_zero_bit (v.s_zmap.mem i) (bits_per_zone v.dev) = j at *
    have hbit : ∀ x < bits_per_zone v.dev,
        bitAt v.s_zmap (bits_per_zone v.dev) (i * bits_per_zone v.dev + x) = v.s_zmap.mem i x := by
      intro x hx
      rw [bitAt, Nat.mul_comm, Nat.mul_add_div hpos, Nat.div_eq_of_lt hx, Nat.mul_add_mod,
        Nat.mod_eq_of_lt hx, Nat.add_zero]
    have hlow : ∀ k < i * bits_per_zone v.dev + j,
        bitAt v.s_zmap (bits_per_zone v.dev) k = true := by
      intro k hk
      by_cases hki : k < i * bits_per_zone v.dev
      · exact hset k hki
      · rw [show k = i * bits_per_zone v.dev + (k - i * bits_per_zone v.dev) by omega,
          hbit _ (by omega)]
        exact hbelow _ (by omega)
    by_cases hj : j < bits_per_zone v.dev
    · have hmul : (i + 1) * bits_per_zone v.dev ≤ v.sbi.s_zmap_blocks * bits_per_zone v.dev :=
        Nat.mul_le_mul_right _ (by omega)
      rw [Nat.add_mul, Nat.one_mul] at hmul
      have hfalse : bitAt v.s_zmap (bits_per_zone v.dev) (i * bits_per_zone v.dev + j) = false := by
        rw [hbit j hj, hzero hj]
      have hk0 : 0 < i * bits_per_zone v.dev + j := by
        rcases Nat.eq_zero_or_pos (i * bits_per_zone v.dev + j) with h0 | h0
        · rw [h0, ok.bit_zero] at hfalse
          cases hfalse
        · exact h0
      have hblocks := ok.blocks_lt
      have hin : v.sbi.s_firstdatazone + (i * bits_per_zone v.dev + j) ≤ 2 ^ 32 := by omega
      have hzone := int_to_ulong_zone hk0 hin ok.nzones_lt
      rw [Nat.add_comm j, if_pos hj]
      refine .inr ⟨i, j, _, hj, rfl, hk0, by omega, hfalse, hlow, ?_⟩
      rw [← hzone]
      split
      · rfl
      · rfl
    · rw [if_neg hj]
      apply ih (i + 1) (by omega)
      obtain rfl : j = bits_per_zone v.dev := by omega
      rw [Nat.add_mul, Nat.one_mul]
      exact hlow

/-- What an allocation does to the bits: the first clear one is set, and the zone it stands for
returned if it is one of the normal area. -/
lemma cominix_new_block_bit {v : Vol} (ok : BitsOk v) :
    (cominix_new_block v = (v, 0) ∧ ∀ k < v.sbi.s_zmap_blocks * bits_per_zone v.dev,
      bitAt v.s_zmap (bits_per_zone v.dev) k = true) ∨
    ∃ v' k, cominix_new_block v = (v',
        if v.sbi.s_firstdatazone + k - 1 < v.sbi.s_nzones ∧ v.sbi.s_firstdatazone + k - 1 < 2 ^ 31
        then v.sbi.s_firstdatazone + k - 1 else 0) ∧
      v'.dev = v.dev ∧ v'.sbi = v.sbi ∧ v'.printk = v.printk ∧ ZmapStep v v' ∧
      0 < k ∧ k < v.sbi.s_zmap_blocks * bits_per_zone v.dev ∧
      bitAt v.s_zmap (bits_per_zone v.dev) k = false ∧
      (∀ n < k, bitAt v.s_zmap (bits_per_zone v.dev) n = true) ∧
      ∀ n, bitAt v'.s_zmap (bits_per_zone v.dev) n
        = if n = k then true else bitAt v.s_zmap (bits_per_zone v.dev) n := by
  rcases new_block_loop_spec ok v.sbi.s_zmap_blocks 0 (Nat.zero_add _) (by omega) with
    ⟨heq, hall⟩ | ⟨i, j, k, hj, hk, hk0, hlt, hfree, hlow, heq⟩
  · exact .inl ⟨heq, hall⟩
  · refine .inr ⟨_, k, heq, rfl, rfl, rfl, zmapStep_assign hj (.inl rfl), hk0, hlt, hfree, hlow, ?_⟩
    intro n
    rw [hk]
    exact bitAt_assign hj

/-- A step that takes these zones, free before, and prints nothing. -/
structure Takes (v v' : Vol) (news : List Nat) : Prop extends ZmapStep v v' where
  printk : v'.printk = v.printk
  nodup : news.Nodup
  free : ∀ z ∈ news, InArea v z ∧ zbit v z = false
  zbit : ∀ z, InArea v z → (zbit v' z = true ↔ z ∈ news ∨ zbit v z = true)

/-- A step that gives up these zones and prints nothing. -/
structure Drops (v v' : Vol) (olds : Nat → Prop) : Prop extends ZmapStep v v' where
  printk : v'.printk = v.printk
  zbit : ∀ z, InArea v z → (zbit v' z = true ↔ zbit v z = true ∧ ¬ olds z)

lemma Takes.of_eq {v v' : Vol} (h : SameMount v v') (hz : v'.s_zmap = v.s_zmap)
    (hp : v'.printk = v.printk) : Takes v v' [] := by
  refine ⟨.of_eq h hz, hp, .nil, by simp, fun z _ => ?_⟩
  unfold CominixFs.zbit
  rw [h.bits_per_zone, h.first, hz]
  simp

lemma Takes.trans {v v' v'' : Vol} {news news' : List Nat} (h : Takes v v' news)
    (h' : Takes v' v'' news') : Takes v v'' (news ++ news') := by
  refine ⟨h.toZmapStep.trans h'.toZmapStep, h'.printk.trans h.printk, ?_, ?_, ?_⟩
  · refine List.nodup_append.2 ⟨h.nodup, h'.nodup, ?_⟩
    rintro z hz z' hz' rfl
    have htaken := (h.zbit z (h.free z hz).1).2 (.inl hz)
    rw [(h'.free z hz').2] at htaken
    cases htaken
  · intro z hz
    rcases List.mem_append.1 hz with hz | hz
    · exact h.free z hz
    · obtain ⟨harea, hfree⟩ := h'.free z hz
      have harea := h.inArea.1 harea
      refine ⟨harea, ?_⟩
      cases hb : CominixFs.zbit v z with
      | false => rfl
      | true =>
        rw [(h.zbit z harea).2 (.inr hb)] at hfree
        cases hfree
  · intro z hz
    rw [h'.zbit z (h.inArea.2 hz), h.zbit z hz, List.mem_append]
    tauto

lemma Drops.of_eq {v v' : Vol} (h : SameMount v v') (hz : v'.s_zmap = v.s_zmap)
    (hp : v'.printk = v.printk) : Drops v v' fun _ => False := by
  refine ⟨.of_eq h hz, hp, fun z _ => ?_⟩
  unfold CominixFs.zbit
  rw [h.bits_per_zone, h.first, hz]
  simp

lemma Drops.trans {v v' v'' : Vol} {olds olds' : Nat → Prop} (h : Drops v v' olds)
    (h' : Drops v' v'' olds') : Drops v v'' fun z => olds z ∨ olds' z := by
  refine ⟨h.toZmapStep.trans h'.toZmapStep, h'.printk.trans h.printk, fun z hz => ?_⟩
  rw [h'.zbit z (h.inArea.2 hz), h.zbit z hz]
  tauto

/-- Taking zones and giving up the same ones is no step. -/
lemma Takes.drop {v v' v'' : Vol} {news : List Nat} (h : Takes v v' news)
    (h' : Drops v' v'' fun z => z ∈ news) : Takes v v'' [] := by
  refine ⟨h.toZmapStep.trans h'.toZmapStep, h'.printk.trans h.printk, .nil, by simp, fun z hz => ?_⟩
  rw [h'.zbit z (h.inArea.2 hz), h.zbit z hz]
  have : z ∈ news → ¬ CominixFs.zbit v z = true := fun hm => by simp [(h.free z hm).2]
  simp
  tauto

/-- The bit an allocation sets: the first clear one, also past the last zone, where 0 is
returned. -/
lemma cominix_new_block_first {v : Vol} (ok : ZmapOk v) :
    (cominix_new_block v = (v, 0) ∧ ∀ z, v.sbi.s_firstdatazone ≤ z →
      z + 1 < v.sbi.s_firstdatazone + v.sbi.s_zmap_blocks * bits_per_zone v.dev →
      zbit v z = true) ∨
    ∃ v' y, cominix_new_block v = (v', if y < v.sbi.s_nzones then y else 0) ∧
      v'.dev = v.dev ∧ v'.sbi = v.sbi ∧ v'.printk = v.printk ∧ ZmapStep v v' ∧
      v.sbi.s_firstdatazone ≤ y ∧ zbit v y = false ∧
      (∀ z, v.sbi.s_firstdatazone ≤ z → z < y → zbit v z = true) ∧
      ∀ z, v.sbi.s_firstdatazone ≤ z → zbit v' z = if z = y then true else zbit v z := by
  have hfirst := ok.first_pos
  have h31 := ok.nzones_lt
  rcases cominix_new_block_bit ok.bitsOk with
    ⟨heq, hall⟩ | ⟨v', k, heq, hdev, hsbi, hprintk, hstep, hk0, -, hfree, hlow, hbit⟩
  · exact .inl ⟨heq, fun z h1 h2 => hall _ (by omega)⟩
  · have hiff : v.sbi.s_firstdatazone + k - 1 < v.sbi.s_nzones ∧
        v.sbi.s_firstdatazone + k - 1 < 2 ^ 31 ↔ v.sbi.s_firstdatazone + k - 1 < v.sbi.s_nzones := by
      omega
    rw [if_congr hiff rfl rfl] at heq
    refine .inr ⟨v', v.sbi.s_firstdatazone + k - 1, heq, hdev, hsbi, hprintk, hstep, by omega, ?_,
      ?_, ?_⟩
    · rw [← hfree, zbit]
      congr 1
      omega
    · intro z h1 h2
      exact hlow _ (by omega)
    · intro z hz
      simp only [zbit, hdev, hsbi]
      rw [hbit]
      exact if_congr (by omega) rfl rfl

/-- `cominix_new_block` takes the lowest free zone, or returns 0 when there is none. -/
theorem cominix_new_block_spec {v : Vol} (ok : ZmapOk v) :
    ∃ v' z, cominix_new_block v = (v', z) ∧ v'.dev = v.dev ∧ v'.sbi = v.sbi ∧
      (z ≠ 0 ∧ Takes v v' [z] ∧ (∀ z', InArea v z' → z' < z → zbit v z' = true) ∨
      z = 0 ∧ Takes v v' [] ∧ ∀ z', InArea v z' → zbit v z' = true) := by
  have hfirst := ok.first_pos
  have hcovers := ok.covers
  rcases cominix_new_block_first ok with
    ⟨heq, hall⟩ | ⟨v', y, heq, hdev, hsbi, hprintk, hstep, hy, hfree, hlow, hbit⟩
  · refine ⟨v, 0, heq, rfl, rfl, .inr ⟨rfl, .of_eq (.refl v) rfl rfl, fun z hz => ?_⟩⟩
    obtain ⟨h1, h2⟩ := hz
    exact hall z h1 (by omega)
  · by_cases hin : y < v.sbi.s_nzones
    · rw [if_pos hin] at heq
      refine ⟨v', y, heq, hdev, hsbi, .inl ⟨by omega, ⟨hstep, hprintk, by simp, ?_, ?_⟩,
        fun z hz => hlow z hz.1⟩⟩
      · intro z hz
        rw [List.mem_singleton.1 hz]
        exact ⟨⟨hy, hin⟩, hfree⟩
      · intro z hz
        rw [hbit z hz.1, List.mem_singleton]
        by_cases he : z = y
        · simp [he]
        · simp [he]
    · rw [if_neg hin] at heq
      refine ⟨v', 0, heq, hdev, hsbi, .inr ⟨rfl, ⟨hstep, hprintk, .nil, by simp, ?_⟩, ?_⟩⟩
      · intro z hz
        obtain ⟨h1, h2⟩ := hz
        rw [hbit z h1, if_neg (by omega)]
        simp
      · intro z hz
        obtain ⟨h1, h2⟩ := hz
        exact hlow z h1 (by omega)

/-- The free zones of the normal area, the lowest first. -/
def free_list (v : Vol) : List Nat :=
  (List.range v.sbi.s_nzones).filter fun z => v.sbi.s_firstdatazone ≤ z ∧ zbit v z = false

lemma mem_free_list {v : Vol} {z : Nat} : z ∈ free_list v ↔ InArea v z ∧ zbit v z = false := by
  unfold free_list InArea
  rw [List.mem_filter, List.mem_range, decide_eq_true_eq]
  tauto

/-- Taking zones takes them off the free ones. -/
lemma Takes.free_list {v v' : Vol} {news : List Nat} (h : Takes v v' news) :
    free_list v' = (free_list v).filter (· ∉ news) := by
  unfold CominixFs.free_list
  rw [List.filter_filter, h.nzones]
  refine List.filter_congr fun z hz => ?_
  rw [Bool.eq_iff_iff, Bool.and_eq_true, decide_eq_true_eq, decide_eq_true_eq, decide_eq_true_eq,
    h.first, ← Bool.not_eq_true, ← Bool.not_eq_true]
  by_cases hfirst : v.sbi.s_firstdatazone ≤ z
  · rw [h.zbit z ⟨hfirst, List.mem_range.1 hz⟩, not_or]
    tauto
  · tauto

/-- `cominix_new_block` takes the first of the free zones. -/
lemma new_block_free_list {v v' : Vol} {z : Nat} (h : Takes v v' [z])
    (hlow : ∀ z', InArea v z' → z' < z → zbit v z' = true) : free_list v = z :: free_list v' := by
  have hsorted : (free_list v).Pairwise (· < ·) := List.pairwise_lt_range.filter _
  have hz : z ∈ free_list v := mem_free_list.2 (h.free z (by simp))
  have hmin : ∀ z' ∈ free_list v, z ≤ z' := by
    intro z' hz'
    obtain ⟨harea, hfree⟩ := mem_free_list.1 hz'
    by_contra hlt
    rw [hlow z' harea (Nat.lt_of_not_le hlt)] at hfree
    cases hfree
  rw [h.free_list]
  generalize free_list v = zones at *
  cases zones with
  | nil => cases hz
  | cons a zones =>
    rw [List.pairwise_cons] at hsorted
    have ha : a = z := by
      rcases List.mem_cons.1 hz with he | hm
      · exact he.symm
      · exact absurd (hmin a List.mem_cons_self) (Nat.not_le_of_lt (hsorted.1 z hm))
    subst ha
    have hrest : zones.filter (· ∉ [a]) = zones := by
      refine List.filter_eq_self.2 fun x hx => ?_
      have := hsorted.1 x hx
      simp
      omega
    rw [List.filter_cons_of_neg (by simp), hrest]

lemma cominix_new_block_sb_eq (v : Vol) : cominix_new_block_sb v = cominix_new_block v := rfl

/-- `cominix_free_block` clears the bit of a zone of the normal area, and no other. -/
lemma cominix_free_block_bit {v : Vol} {z : Nat} (ok : ZmapOk v) (hz : InArea v z) :
    (cominix_free_block v z).dev = v.dev ∧ (cominix_free_block v z).sbi = v.sbi ∧
      ZmapStep v (cominix_free_block v z) ∧
      (zbit v z = true → (cominix_free_block v z).printk = v.printk) ∧
      ∀ n, bitAt (cominix_free_block v z).s_zmap (bits_per_zone v.dev) n
        = if n = z - v.sbi.s_firstdatazone + 1 then false
          else bitAt v.s_zmap (bits_per_zone v.dev) n := by
  have hpos := bits_per_zone_pos v.dev
  obtain ⟨h1, h2⟩ := hz
  have hcovers := ok.covers
  unfold cominix_free_block
  simp only [← bits_per_zone_eq, zbit]
  generalize hn : z - v.sbi.s_firstdatazone + 1 = n
  have hdm := Nat.div_add_mod' n (bits_per_zone v.dev)
  have hmod := Nat.mod_lt n hpos
  have hblk : n / bits_per_zone v.dev < v.sbi.s_zmap_blocks := by
    rw [Nat.div_lt_iff_lt_mul hpos]
    omega
  rw [if_neg (by omega), if_neg (by omega)]
  refine ⟨rfl, rfl, zmapStep_assign hmod (.inr (by omega)), fun hset => if_pos hset, fun m => ?_⟩
  rw [bitAt_assign hmod, hdm]

/-- `cominix_free_block` clears the bit of a zone in use and prints nothing. -/
theorem cominix_free_block_spec {v : Vol} {z : Nat} (ok : ZmapOk v) (hz : InArea v z)
    (hset : zbit v z = true) : (cominix_free_block v z).dev = v.dev ∧
      (cominix_free_block v z).sbi = v.sbi ∧ Drops v (cominix_free_block v z) fun z' => z' = z := by
  obtain ⟨hdev, hsbi, hstep, hprintk, hbit⟩ := cominix_free_block_bit ok hz
  refine ⟨hdev, hsbi, hstep, hprintk hset, fun z' hz' => ?_⟩
  obtain ⟨h1, h2⟩ := hz
  obtain ⟨h3, h4⟩ := hz'
  have hz' : zbit (cominix_free_block v z) z' = if z' = z then false else zbit v z' := by
    simp only [zbit, hdev, hsbi]
    rw [hbit]
    exact if_congr (by omega) rfl rfl
  rw [hz']
  by_cases he : z' = z
  · simp [he]
  · simp [he]

end CominixFs
