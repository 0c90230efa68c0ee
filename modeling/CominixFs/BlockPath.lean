import CominixFs.Lib.LevelPath
import CominixFs.Itree
import CominixFs.ZoneAlloc

/-!
# The paths of all block numbers (`block_to_path`)

`block_to_path` numbers the leaves of a tree with 7 slots for blocks and one each for indirect, double
and triple indirect blocks (`block_to_path_eq`). The size limit comes from the disk, and keeps the
paths in the tree exactly when it is no larger than the tree (`paths_ok_iff`).
-/

namespace CominixFs
open LevelPath Bytes

/-- The slots of an inode: for blocks, and for the trees of one, two and three levels. -/
def slots : List Nat := [7, 1, 1, 1]

/-- The number of blocks the tree of an inode has room for. -/
def capacity (v : Vol) : Nat := cap (v.dev.bs / 4) slots

/-- The paths of the block numbers below `N` stay in the tree, and each leads to another place. -/
structure PathsOk (v : Vol) (N : Nat) : Prop where
  first : ∀ b < N, ∀ k ∈ (block_to_path v b).head?, k < 10
  later : ∀ b < N, ∀ k ∈ (block_to_path v b).tail, k < v.dev.bs / 4
  depth : ∀ b < N, ∀ k ∈ (block_to_path v b).head?, (block_to_path v b).length = 1 + (k - 6)
  unique : ∀ b < N, ∀ b' < N, block_to_path v b ≠ [] → block_to_path v b = block_to_path v b' → b = b'
  rejected : ∀ b < N, capacity v ≤ b → block_to_path v b = []

variable {v : Vol} {b N : Nat}

lemma INDIRCOUNT_div (h : 2 ≤ v.dev.s_blocksize_bits) : INDIRCOUNT v = v.dev.bs / 4 := by
  have hbs : v.dev.bs = INDIRCOUNT v * 4 := by
    rw [Dev.bs, INDIRCOUNT, show (4 : Nat) = 2 ^ 2 by rfl, ← Nat.pow_add, Nat.sub_add_cancel h]
  rw [hbs, Nat.mul_div_cancel _ (by decide)]

lemma capacity_eq (h : 2 ≤ v.dev.s_blocksize_bits) : capacity v
    = 7 + INDIRCOUNT v + INDIRCOUNT v * INDIRCOUNT v
      + INDIRCOUNT v * INDIRCOUNT v * INDIRCOUNT v := by
  unfold capacity
  rw [← INDIRCOUNT_div h]
  simp only [slots, cap]
  ring

/-- The numbers are those of a tree by levels, where it has room. -/
lemma block_to_path_eq (h : 2 ≤ v.dev.s_blocksize_bits) (hacc : b * v.dev.bs % 2 ^ 64 < v.sbi.s_maxbytes)
    (hcap : b < capacity v) (hn : v.dev.bs / 4 < 2 ^ 32) :
    block_to_path v b = (path (v.dev.bs / 4) 0 slots b).reverse := by
  rw [capacity_eq h] at hcap
  rw [← INDIRCOUNT_div h] at hn ⊢
  unfold block_to_path
  have hpos : 0 < INDIRCOUNT v := Nat.two_pow_pos _
  generalize INDIRCOUNT v = n at *
  simp only [slots, path, if_neg (Nat.not_le.2 hacc)]
  by_cases h1 : b < 7
  · rw [if_pos h1, if_pos h1, Nat.zero_add]
    rfl
  rw [if_neg h1, if_neg h1]
  by_cases h2 : b - 7 < n
  · rw [if_pos h2, if_pos (by rw [Nat.div_eq_of_lt h2]; decide), Nat.div_eq_of_lt h2,
      Nat.mod_eq_of_lt h2]
    rfl
  have hlevel : ∀ x, n ≤ x → ¬ x / n < 1 := by
    intro x hx
    exact Nat.not_lt.2 ((Nat.le_div_iff_mul_le hpos).2 (by omega))
  rw [if_neg h2, if_neg (hlevel _ (Nat.not_lt.1 h2))]
  have hone : ∀ x, n ≤ x → x / n - 1 = (x - n) / n ∧ x % n = (x - n) % n := by
    intro x hx
    refine ⟨?_, Nat.mod_eq_sub_mod hx⟩
    rw [Nat.div_eq_sub_div hpos hx, Nat.add_sub_cancel]
  obtain ⟨hdiv, hmod⟩ := hone (b - 7) (by omega)
  rw [hdiv, hmod]
  by_cases h3 : b - 7 - n < n * n
  · have hlt : (b - 7 - n) / n < n := Nat.div_lt_of_lt_mul h3
    rw [if_pos h3, if_pos (by rw [Nat.div_eq_of_lt hlt]; decide), Nat.div_eq_of_lt hlt,
      Nat.mod_eq_of_lt hlt]
    rfl
  have hge : n ≤ (b - 7 - n) / n := (Nat.le_div_iff_mul_le hpos).2 (by omega)
  rw [if_neg h3, if_neg (hlevel _ hge)]
  obtain ⟨hdiv2, hmod2⟩ := hone _ hge
  have hnn : (b - 7 - n) / n - n = (b - 7 - n - n * n) / n := (Nat.sub_mul_div _ _ _).symm
  have hmodnn : (b - 7 - n) % n = (b - 7 - n - n * n) % n := (Nat.sub_mul_mod (by omega)).symm
  rw [hdiv2, hmod2, hnn, hmodnn]
  have htop : (b - 7 - n - n * n) / n / n < n := by
    apply Nat.div_lt_of_lt_mul
    apply Nat.div_lt_of_lt_mul
    rw [Nat.mul_assoc] at hcap
    omega
  rw [Nat.mod_eq_of_lt htop, Nat.mod_eq_of_lt (htop.trans hn), Nat.div_eq_of_lt htop, if_pos (by decide)]
  rfl

/-- A path is refused by the size limit only. -/
lemma block_to_path_eq_nil : block_to_path v b = [] ↔ v.sbi.s_maxbytes ≤ b * v.dev.bs % 2 ^ 64 := by
  unfold block_to_path
  constructor
  · intro h
    by_contra hacc
    rw [if_neg hacc] at h
    split at h
    · cases h
    · split at h
      · cases h
      · split at h
        · cases h
        · cases h
  · exact fun hacc => if_pos hacc

/-- The geometry of what is mounted: the block size and the size limit are those of the superblock. -/
lemma mounted_geometry {img : Image} {rdonly : Bool} {m : SuperBlock}
    (h : cominix_fill_super img rdonly = some (.mounted m)) :
    m.vol.dev.s_blocksize_bits = set_blocksize_bits img.super.s_blocksize ∧
    m.vol.sbi.s_maxbytes = img.super.s_max_size := by
  obtain ⟨s_root, ⟨-, -, -, e, hal⟩ | ⟨-, rfl⟩⟩ := cominix_fill_super_mounted h
  · obtain ⟨-, v, new, hnew, hafter⟩ := cminix_alloc_extra_super_inv hal
    obtain ⟨hsbi, hdev, -⟩ := new_block_loop_area _ _ hnew
    rcases hafter with ⟨-, rfl⟩ | ⟨-, d, hw, rfl⟩
    · exact ⟨congrArg Dev.s_blocksize_bits hdev, congrArg SbInfo.s_maxbytes hsbi⟩
    · exact ⟨(write_data_storage_bits hw).trans (congrArg Dev.s_blocksize_bits hdev :),
        congrArg SbInfo.s_maxbytes hsbi⟩
  · exact ⟨rfl, rfl⟩

/-- A block number that fits, and is not refused, has a path in the tree. -/
lemma paths_ok_of_fits (h : 2 ≤ v.dev.s_blocksize_bits) (hn : v.dev.bs / 4 < 2 ^ 32)
    (hfits : ∀ b < N, capacity v ≤ b → block_to_path v b = []) : PathsOk v N := by
  have hpos : 0 < v.dev.bs / 4 := INDIRCOUNT_div h ▸ Nat.two_pow_pos _
  have hpath : ∀ b < N, block_to_path v b ≠ [] →
      b < capacity v ∧ block_to_path v b = (path (v.dev.bs / 4) 0 slots b).reverse := by
    intro b hb hne
    have hcap : b < capacity v := Nat.lt_of_not_le fun hle => hne (hfits b hb hle)
    exact ⟨hcap, block_to_path_eq h (Nat.lt_of_not_le fun hle => hne (block_to_path_eq_nil.2 hle))
      hcap hn⟩
  -- the slot of a path, and the indices below it
  have hsplit : ∀ b < N, block_to_path v b = [] ∨ ∃ k l, block_to_path v b = k :: l ∧ k < 10 ∧
      l.length = k - 6 ∧ ∀ j ∈ l, j < v.dev.bs / 4 := by
    intro b hb
    by_cases hne : block_to_path v b = []
    · exact .inl hne
    · obtain ⟨hcap, he⟩ := hpath b hb hne
      obtain ⟨l, k, hp, -, hk, hlen, hl⟩ := @path_spec (v.dev.bs / 4) hpos slots 0 b hcap
      have hk : k < 10 := hk
      refine .inr ⟨k, l.reverse, ?_, hk, ?_, fun j hj => hl j (List.mem_reverse.1 hj)⟩
      · rw [he, hp, List.reverse_append]
        rfl
      · rw [List.length_reverse, hlen]
        simp only [slots, level]
        split
        · omega
        · split
          · omega
          · split
            · omega
            · omega
  refine ⟨fun b hb k hk => ?_, fun b hb k hk => ?_, fun b hb k hk => ?_,
    fun b hb b' hb' hne he => ?_, hfits⟩
  · rcases hsplit b hb with hnil | ⟨k', l, he, h10, -, -⟩
    · rw [hnil] at hk
      cases hk
    · rw [he] at hk
      cases hk
      exact h10
  · rcases hsplit b hb with hnil | ⟨k', l, he, -, -, hl⟩
    · rw [hnil] at hk
      cases hk
    · rw [he] at hk
      exact hl k hk
  · rcases hsplit b hb with hnil | ⟨k', l, he, -, hlen, -⟩
    · rw [hnil] at hk
      cases hk
    · rw [he] at hk ⊢
      cases hk
      rw [List.length_cons, hlen, Nat.add_comm]
  · obtain ⟨hcap, hp⟩ := hpath b hb hne
    obtain ⟨hcap', hp'⟩ := hpath b' hb' (he ▸ hne)
    exact path_inj hpos slots 0 b b' hcap hcap' (List.reverse_injective (hp.symm.trans (he.trans hp')))

/-- The paths of the block numbers below `N` are right exactly when the tree has room for them or
the size limit is no larger than the tree, and no product of number and block size wraps around. -/
theorem paths_ok_iff {img : Image} {rdonly : Bool} {m : SuperBlock}
    (h : cominix_fill_super img rdonly = some (.mounted m)) :
    PathsOk m.vol N ↔
      (N ≤ capacity m.vol ∨ m.vol.sbi.s_maxbytes ≤ capacity m.vol * m.vol.dev.bs) ∧
      (N * m.vol.dev.bs ≤ 2 ^ 64 ∨ m.vol.sbi.s_maxbytes = 0) := by
  obtain ⟨hbits, hmax⟩ := mounted_geometry h
  have hbounds := set_blocksize_bits_bounds img.super.s_blocksize
  rw [← hbits] at hbounds
  have hmax : m.vol.sbi.s_maxbytes < 2 ^ 32 := hmax.trans_lt (le_lt img.s_sbh 4 16)
  have hbs : m.vol.dev.bs ≤ 4096 := Nat.pow_le_pow_right (by decide) hbounds.2
  have hpos := m.vol.dev.bs_pos
  have hcap : capacity m.vol ≤ 2 ^ 31 := by
    have hle : m.vol.dev.bs / 4 ≤ 1024 := by omega
    have h1 : cap (m.vol.dev.bs / 4) [1] ≤ 1 := by simp [cap]
    have h2 : cap (m.vol.dev.bs / 4) [1, 1] ≤ 1 + 1024 * 1 :=
      Nat.add_le_add_left (Nat.mul_le_mul hle h1) 1
    have h3 : cap (m.vol.dev.bs / 4) [1, 1, 1] ≤ 1 + 1024 * (1 + 1024 * 1) :=
      Nat.add_le_add_left (Nat.mul_le_mul hle h2) 1
    have h4 : cap (m.vol.dev.bs / 4) slots ≤ 7 + 1024 * (1 + 1024 * (1 + 1024 * 1)) :=
      Nat.add_le_add_left (Nat.mul_le_mul hle h3) 7
    exact h4.trans (by decide)
  constructor
  · intro ok
    refine ⟨?_, ?_⟩
    · by_contra hno
      rw [not_or] at hno
      have hnil := ok.rejected (capacity m.vol) (by omega) le_rfl
      rw [block_to_path_eq_nil, Nat.mod_eq_of_lt (by omega)] at hnil
      omega
    · -- the first number whose product wraps around to 0
      by_contra hno
      rw [not_or] at hno
      have hdvd : m.vol.dev.bs ∣ 2 ^ 64 := Nat.pow_dvd_pow 2 (by omega)
      have hmul := Nat.div_mul_cancel hdvd
      have hlt : 2 ^ 64 / m.vol.dev.bs < N := by
        rw [Nat.div_lt_iff_lt_mul hpos]
        omega
      have hge : capacity m.vol ≤ 2 ^ 64 / m.vol.dev.bs := by
        rw [Nat.le_div_iff_mul_le hpos]
        have := Nat.mul_le_mul hcap hbs
        omega
      have hnil := ok.rejected _ hlt hge
      rw [block_to_path_eq_nil, hmul, Nat.mod_self] at hnil
      omega
  · rintro ⟨hroom, hwrap⟩
    refine paths_ok_of_fits (by omega) (by omega) fun b hb hle => block_to_path_eq_nil.2 ?_
    rcases hwrap with hwrap | h0
    · have hmul : b * m.vol.dev.bs < N * m.vol.dev.bs := Nat.mul_lt_mul_of_pos_right hb hpos
      have hmono := Nat.mul_le_mul_right m.vol.dev.bs hle
      rw [Nat.mod_eq_of_lt (by omega)]
      rcases hroom with hroom | hroom
      · omega
      · omega
    · omega

/-- On the small image all numbers whose product does not wrap around have their place. -/
theorem paths_ok_iff_small : ∃ m, cominix_fill_super small_image false = some (.mounted m) ∧
    PathsOk m.vol (2 ^ 54) := by
  obtain ⟨r, h, h0⟩ := small_image_mounts
  rcases small_image_v3.first_mount (by decide +kernel) h h0 with ⟨-, hlt⟩ | ⟨s_root, m, rfl, -⟩
  · exact absurd hlt (by decide +kernel)
  · obtain ⟨hbits, hmax⟩ := mounted_geometry h
    have hbits : m.vol.dev.s_blocksize_bits = 10 := hbits.trans (by decide +kernel)
    have hmax : m.vol.sbi.s_maxbytes = 2147483647 := hmax.trans (by decide +kernel)
    have hbs : m.vol.dev.bs = 1024 := congrArg (2 ^ ·) hbits
    have hcap : capacity m.vol = 16843015 := by
      unfold capacity
      rw [hbs]
      decide
    refine ⟨m, h, (paths_ok_iff h).2 ⟨.inr ?_, .inl ?_⟩⟩
    · rw [hmax, hcap, hbs]
      decide
    · rw [hbs]
      decide

/-- An image of blocks of 512 bytes with the largest size limit there is. -/
def half_block_image : Image where
  size := 41975808
  bytes := put_all [(1024, 4, 32), (1030, 2, 1), (1032, 2, 20), (1034, 2, 64), (1040, 4, 4294967295),
    (1044, 4, 81984), (1048, 2, MINIX3_SUPER_MAGIC), (1052, 2, 512), (1536, 1, 3), (11776, 2, 0x41ed),
    (11778, 2, 2), (11784, 4, 128), (11800, 4, 64)]

/-- On it the first block number past the tree has an offset past the end of the indirect block. -/
theorem path_past_block : ∃ img m, cominix_fill_super img false = some (.mounted m) ∧
    m.vol.dev.bs = 512 ∧ capacity m.vol = 2113671 ∧
    block_to_path m.vol 2113671 = [9, 128, 0, 0] ∧ ¬ PathsOk m.vol (2 ^ 22) := by
  have h : ((cominix_fill_super half_block_image false).bind FillSuper.s_fs_info).map
      (fun m => (m.vol.dev.bs, capacity m.vol, block_to_path m.vol 2113671))
        = some (512, 2113671, [9, 128, 0, 0]) := by
    decide +kernel
  obtain ⟨m, h, hm⟩ := Option.map_eq_some_iff.1 h
  obtain ⟨r, h, hr⟩ := Option.bind_eq_some_iff.1 h
  obtain rfl := FillSuper.s_fs_info_some hr
  simp only [Prod.mk.injEq] at hm
  obtain ⟨hbs, hcap, hpath⟩ := hm
  refine ⟨half_block_image, m, h, hbs, hcap, hpath, fun ok => ?_⟩
  have hnil := ok.rejected 2113671 (by decide) hcap.le
  rw [hpath] at hnil
  cases hnil

end CominixFs
