import CominixFs.BlockMap
import CominixFs.BlockPath
import Mathlib.Data.Set.Finite.Lattice

/-!
# The block usage that is reported (`nblocks`, `cominix_getattr`)

`nblocks` rounds up level by level what a file of a size needs. It is the number of places on the way
to the blocks of the file. With as many zones free they can all be mapped, and then it is the number
of zones in the tree (`nblocks_counts`).
-/

namespace CominixFs
open LevelPath

/-- The loop of `nblocks`, of 32-bit numbers; an indirect block has `n` words. -/
def nblocks_loop (n : Nat) : Nat → Nat → Nat → Nat → Nat
  | 0, _, res, _ => res
  | i + 1, blocks, res, direct =>
    if direct < blocks then
      let blocks := (blocks - direct + (n - 1)) % 2 ^ 32 / n
      nblocks_loop n i blocks ((res + blocks) % 2 ^ 32) 1
    else res

/-- `nblocks`. -/
def nblocks (size : Nat) (v : Vol) : Nat :=
  let blocks := (size + v.dev.bs - 1) / 2 ^ v.dev.s_blocksize_bits % 2 ^ 32
  nblocks_loop (v.dev.bs / 4) 3 blocks blocks 7

/-- `V2_cominix_blocks`. -/
def V2_cominix_blocks (size : Nat) (v : Vol) : Nat := nblocks size v

/-- What `cominix_getattr` sets of a `struct kstat`. -/
structure Kstat where
  blocks : Nat
  blksize : Nat

/-- `cominix_getattr`. -/
def cominix_getattr (v : Vol) (inode : Inode) : Kstat where
  blocks := v.dev.bs / 512 * V2_cominix_blocks inode.i_size v
  blksize := v.dev.bs

/-- `get_block` with `create` for the first `n` blocks, one after the other. -/
def create_blocks (getblk : Nat → Nat → Bool) (v : Vol) (inode : Inode) : Nat → Option (Vol × Inode)
  | 0 => some (v, inode)
  | n + 1 =>
    match create_blocks getblk v inode n with
    | none => none
    | some (v, inode) =>
      match get_block (getblk n) v inode n true with
      | some (v, inode, .mapped _ _) => some (v, inode)
      | _ => none

/-- The places on the way to the first `n` blocks: the non-empty prefixes of their paths. -/
def Places (v : Vol) (n : Nat) : Set (List Nat) := {p | p ≠ [] ∧ ∃ b < n, p <+: block_to_path v b}

/-- The same places as paths of the tree. -/
def NodesTo (v : Vol) (n : Nat) : Set (List Nat) := {p | p ≠ [] ∧ ∃ b < n, p <:+ block_path v b}

variable {v v' : Vol} {inode inode' : Inode}

lemma parents_zero {n d b : Nat} (hn : 0 < n) (h : b ≤ d) : parents n d b = 0 := by
  rw [parents, Nat.sub_eq_zero_of_le h, Nat.zero_add, Nat.div_eq_of_lt (by omega)]

lemma total_zero {n : Nat} (hn : 0 < n) : ∀ ds, LevelPath.total n ds 0 = 0 := by
  intro ds
  induction ds with
  | nil => rfl
  | cons d ds ih => rw [LevelPath.total, parents_zero hn (Nat.zero_le d), ih]

lemma parents_le {n d b : Nat} (hn : 0 < n) : parents n d b ≤ b := by
  cases b with
  | zero => rw [parents_zero hn (Nat.zero_le d)]
  | succ b =>
    apply Nat.div_le_of_le_mul
    have hmul := Nat.le_mul_of_pos_left b hn
    rw [Nat.mul_add, Nat.mul_one]
    omega

/-- The loop adds up the levels above. -/
lemma nblocks_loop_eq {n : Nat} (hn : 0 < n) (hn' : n ≤ 2 ^ 10) : ∀ i blocks res direct,
    blocks < 2 ^ 29 → res + i * blocks < 2 ^ 32 → nblocks_loop n i blocks res direct
      = res + LevelPath.total n (List.replicate i 1) (parents n direct blocks) := by
  intro i
  induction i with
  | zero => exact fun _ _ _ _ _ => rfl
  | succ i ih =>
    intro blocks res direct hblocks hres
    unfold nblocks_loop
    by_cases hlt : direct < blocks
    · have hle := @parents_le n direct blocks hn
      have hmul : i * parents n direct blocks ≤ i * blocks := Nat.mul_le_mul_left i hle
      rw [Nat.add_mul, Nat.one_mul] at hres
      have hpar : (blocks - direct + (n - 1)) % 2 ^ 32 / n = parents n direct blocks := by
        rw [Nat.mod_eq_of_lt (by omega)]
        rfl
      simp only [if_pos hlt, hpar]
      rw [Nat.mod_eq_of_lt (by omega), ih _ _ _ (by omega) (by omega), List.replicate_succ, LevelPath.total]
      omega
    · rw [if_neg hlt, parents_zero hn (Nat.le_of_not_lt hlt), total_zero hn]
      rfl

lemma Geometry.bs_bounds (geo : Geometry v) : 1024 ≤ v.dev.bs ∧ v.dev.bs ≤ 4096 := by
  obtain ⟨h1, h2, -⟩ := Dev.bs_bounds geo.bits
  exact ⟨h1, h2⟩

/-- A size below the limit has few blocks, all of them below it. -/
lemma Geometry.end_block_bounds (geo : Geometry v) {size : Nat} (hsize : size < v.sbi.s_maxbytes) :
    end_block v size < 2 ^ 23 ∧ ∀ b < end_block v size, Within v b := by
  obtain ⟨h1, h2⟩ := geo.bs_bounds
  have hmax := geo.maxbytes
  refine ⟨?_, fun b hb => (lt_end_block.1 hb).trans hsize⟩
  unfold end_block
  apply Nat.div_lt_of_lt_mul
  have := Nat.mul_le_mul_right (2 ^ 23) h1
  omega

/-- `nblocks` is the number of nodes of the tree of block numbers. -/
lemma Geometry.nblocks_eq (geo : Geometry v) {size : Nat} (hsize : size < v.sbi.s_maxbytes) :
    nblocks size v = LevelPath.total (v.dev.bs / 4) slots (end_block v size) := by
  obtain ⟨h1, h2⟩ := geo.bs_bounds
  obtain ⟨hlt, -⟩ := geo.end_block_bounds hsize
  have hblocks : (size + v.dev.bs - 1) / 2 ^ v.dev.s_blocksize_bits % 2 ^ 32 = end_block v size :=
    Nat.mod_eq_of_lt (hlt.trans (by decide))
  unfold nblocks
  rw [hblocks]
  exact nblocks_loop_eq (by omega) (by omega) 3 _ _ 7 (by omega) (by omega)

/-- The tree has room for every block below the limit. -/
lemma Geometry.lt_capacity (geo : Geometry v) {b : Nat} (hb : Within v b) : b < capacity v := by
  obtain ⟨h1, h2⟩ := geo.bs_bounds
  have hmax := geo.maxbytes
  unfold Within at hb
  have hb22 : b < 2 ^ 22 := by
    by_contra hge
    have := Nat.mul_le_mul (Nat.le_of_not_lt hge) h1
    omega
  have hn : 256 ≤ v.dev.bs / 4 := by omega
  have hcap : 256 * (256 * 256) ≤ capacity v := by
    have bits : 2 ≤ v.dev.s_blocksize_bits := le_trans (by decide) geo.bits.1
    rw [capacity_eq bits, INDIRCOUNT_div bits, Nat.mul_assoc]
    exact (Nat.mul_le_mul hn (Nat.mul_le_mul hn hn)).trans (Nat.le_add_left _ _)
  omega

/-- The path of a block below the limit, in the tree of block numbers. -/
lemma Geometry.block_path_eq (geo : Geometry v) {b : Nat} (hb : Within v b) :
    block_path v b = LevelPath.path (v.dev.bs / 4) 0 slots b := by
  obtain ⟨h1, h2⟩ := geo.bs_bounds
  have hmax := geo.maxbytes
  have hacc : b * v.dev.bs % 2 ^ 64 < v.sbi.s_maxbytes := (Nat.mod_le _ _).trans_lt hb
  rw [block_path, block_to_path_eq (le_trans (by decide) geo.bits.1) hacc (geo.lt_capacity hb) (by omega),
    List.reverse_reverse]

/-- There are as many places on the way to the blocks of a file as `nblocks` says. -/
lemma Geometry.ncard_places (geo : Geometry v) {size : Nat} (hsize : size < v.sbi.s_maxbytes) :
    (NodesTo v (end_block v size)).ncard = nblocks size v ∧
      (Places v (end_block v size)).ncard = nblocks size v := by
  obtain ⟨h1, -⟩ := geo.bs_bounds
  obtain ⟨-, hin⟩ := geo.end_block_bounds hsize
  have hn : 0 < v.dev.bs / 4 := by omega
  have hle : end_block v size ≤ cap (v.dev.bs / 4) slots := by
    by_contra hgt
    have hb := hin (cap (v.dev.bs / 4) slots) (Nat.lt_of_not_le hgt)
    exact Nat.lt_irrefl _ (geo.lt_capacity hb)
  have hcount := (@ncard_node (v.dev.bs / 4) hn slots 0 (end_block v size) hle).2
  have hnodes : NodesTo v (end_block v size)
      = {p | LevelPath.Node (v.dev.bs / 4) 0 slots (end_block v size) p} := by
    ext p
    refine and_congr_right fun _ => exists_congr fun b => and_congr_right fun hb => ?_
    rw [geo.block_path_eq (hin b hb)]
  have hplaces : Places v (end_block v size)
      = List.reverse '' NodesTo v (end_block v size) := by
    ext p
    constructor
    · rintro ⟨hp, b, hb, hpre⟩
      refine ⟨p.reverse, ⟨by simpa using hp, b, hb, ?_⟩, List.reverse_reverse p⟩
      exact List.reverse_suffix.2 hpre
    · rintro ⟨q, ⟨hq, b, hb, hsuf⟩, rfl⟩
      refine ⟨by simpa using hq, b, hb, ?_⟩
      rw [← List.reverse_suffix, List.reverse_reverse]
      exact hsuf
  rw [hplaces, List.reverse_injective.injOn.ncard_image, hnodes, hcount, geo.nblocks_eq hsize]
  exact ⟨rfl, rfl⟩

/-- The blocks created are the ones mapped. -/
lemma create_blocks_mapped (getblk : Nat → Nat → Bool) (ok : BlocksOk v inode.i_data)
    (hempty : ∀ b, blocks v inode.i_data b = 0) : ∀ n, (∀ b < n, Within v b) → ∀ v' inode',
    create_blocks getblk v inode n = some (v', inode') →
    BlocksOk v' inode'.i_data ∧ SameMount v v' ∧ v'.sbi = v.sbi ∧
      ∀ b, blocks v' inode'.i_data b ≠ 0 ↔ b < n := by
  intro n
  induction n with
  | zero =>
    intro _ v' inode' h
    cases h
    exact ⟨ok, .refl v, rfl, fun b => ⟨fun h => absurd (hempty b) h, fun h => absurd h (Nat.not_lt_zero b)⟩⟩
  | succ n ih =>
    intro hin v' inode' h
    unfold create_blocks at h
    split at h
    · cases h
    · rename_i v₁ inode₁ hrun
      obtain ⟨ok₁, hsame, hsbi, hmapped⟩ := ih (fun b hb => hin b (Nat.lt_succ_of_lt hb)) _ _ hrun
      have hn : Within v₁ n := (within_congr (congrArg _ hsbi) hsame).2 (hin n (Nat.lt_succ_self n))
      obtain ⟨g, hg, hstep, hok, hsame', hsbi'⟩ :=
        ok₁.get_block (getblk n) true hn
      rw [hg] at h
      cases hstep with
      | found h0 =>
        exact absurd ((hmapped n).1 h0) (Nat.lt_irrefl n)
      | hole _ hc => cases hc
      | failed _ _ _ _ => cases h
      | @added v₂ inode₂ nr _ _ hnr hmap _ =>
        cases h
        refine ⟨hok, hsame.trans hsame', hsbi'.trans hsbi, fun b => ?_⟩
        have hnr0 := ok₁.area.ne_zero hnr.1
        rw [hmap]
        by_cases he : b = n
        · rw [he, Function.update_self]
          exact ⟨fun _ => Nat.lt_succ_self n, fun _ => hnr0⟩
        · rw [Function.update_of_ne he, hmapped]
          omega

lemma nodesTo_mono {n m : Nat} (h : n ≤ m) : NodesTo v n ⊆ NodesTo v m := by
  rintro p ⟨hp, b, hb, hsuf⟩
  exact ⟨hp, b, hb.trans_le h, hsuf⟩

lemma nodesTo_finite (n : Nat) : (NodesTo v n).Finite := by
  have hfin : (⋃ b ∈ {b | b < n}, {p | p ∈ (block_path v b).tails}).Finite :=
    (Set.finite_lt_nat n).biUnion fun b _ => List.finite_toSet _
  refine hfin.subset ?_
  rintro p ⟨-, b, hb, hsuf⟩
  exact Set.mem_biUnion hb ((List.mem_tails _ _).2 hsuf)

lemma missing_nodup (t : Forest) (p : List Nat) : (missing t p).Nodup := by
  refine List.Nodup.filter _ ?_
  induction p with
  | nil => exact List.nodup_singleton _
  | cons i p ih =>
    rw [List.tails_cons]
    refine List.nodup_cons.2 ⟨fun hmem => ?_, ih⟩
    have hle := ((List.mem_tails _ _).1 hmem).length_le
    rw [List.length_cons] at hle
    omega

/-- What is missing on the way to the next block has no place on the way to those before it. -/
lemma missing_le {t : Forest} {n : Nat} (hset : ∀ p ∈ NodesTo v n, t.node p ≠ 0) :
    (NodesTo v n).ncard + (missing t (block_path v n)).length ≤ (NodesTo v (n + 1)).ncard := by
  have hmem : ∀ q ∈ missing t (block_path v n), q <:+ block_path v n ∧ q ≠ [] ∧ t.node q = 0 := by
    intro q hq
    obtain ⟨hsuf, h0⟩ := List.mem_filter.1 hq
    exact ⟨(List.mem_tails _ _).1 hsuf, by simpa using h0⟩
  have hdisj : Disjoint (NodesTo v n) ↑(missing t (block_path v n)).toFinset := by
    rw [Set.disjoint_left]
    intro q hq hmissing
    exact hset q hq (hmem q (by simpa using hmissing)).2.2
  rw [← List.toFinset_card_of_nodup (missing_nodup _ _), ← Set.ncard_coe_finset,
    ← Set.ncard_union_eq hdisj (nodesTo_finite n) (Finset.finite_toSet _)]
  refine Set.ncard_le_ncard ?_ (nodesTo_finite _)
  rintro q (hq | hq)
  · exact nodesTo_mono (Nat.le_succ n) hq
  · obtain ⟨hsuf, hne, -⟩ := hmem q (by simpa using hq)
    exact ⟨hne, n, Nat.lt_succ_self n, hsuf⟩

/-- A call of `get_block` takes no more zones than blocks are missing. -/
lemma free_list_le {b : Nat} (hsame : ∀ x, InArea v' x ↔ InArea v x)
    (hbit : ∀ x, InArea v x → (zbit v' x = true ↔
      zbit v x = true ∨ Supplied v inode.i_data v' inode'.i_data b x)) :
    (free_list v).length ≤
      (free_list v').length + (missing (forest v inode.i_data) (block_path v b)).length := by
  have hsub : free_list v ⊆ free_list v' ++
      (missing (forest v inode.i_data) (block_path v b)).map (forest v' inode'.i_data).node := by
    intro x hx
    obtain ⟨harea, hfree⟩ := mem_free_list.1 hx
    rw [List.mem_append, mem_free_list, hsame]
    cases hx' : zbit v' x with
    | false => exact .inl ⟨harea, rfl⟩
    | true =>
      rcases (hbit x harea).1 hx' with hset | ⟨p, hne, hsuf, h0, rfl⟩
      · rw [hfree] at hset
        cases hset
      · refine .inr (List.mem_map_of_mem ?_)
        exact List.mem_filter.2 ⟨(List.mem_tails _ _).2 hsuf, by simpa using ⟨hne, h0⟩⟩
  have hnodup : (free_list v).Nodup := List.nodup_range.filter _
  have hle := (hnodup.subperm hsub).length_le
  rwa [List.length_append, List.length_map] at hle

/-- There is a block at each place on the way to one that was created. -/
lemma create_blocks_live {n : Nat} (hsame : SameMount v v') (hsbi : v'.sbi = v.sbi)
    (hmapped : ∀ b, blocks v' inode'.i_data b ≠ 0 ↔ b < n) :
    ∀ p ∈ NodesTo v n, (forest v' inode'.i_data).node p ≠ 0 := by
  rintro p ⟨hne, b, hb, l, hl⟩
  have hb0 := (hmapped b).2 hb
  rw [blocks_within (blocks_ne_zero hb0), zone_of, block_path_congr (congrArg _ hsbi) hsame.bits,
    ← hl, ← List.reverse_reverse l] at hb0
  exact Forest.node_ne_of_append hne hb0

/-- With a zone free for each place, and a buffer for each of them, the blocks are created. -/
lemma create_blocks_some {getblk : Nat → Nat → Bool} (hget : ∀ b x, getblk b x = true)
    (ok : BlocksOk v inode.i_data) (hempty : ∀ b, blocks v inode.i_data b = 0) : ∀ n,
    (∀ b < n, Within v b) → (NodesTo v n).ncard ≤ (free_list v).length →
    ∃ v' inode', create_blocks getblk v inode n = some (v', inode') ∧
      (free_list v).length ≤ (free_list v').length + (NodesTo v n).ncard := by
  intro n
  induction n with
  | zero => exact fun _ _ => ⟨v, inode, rfl, Nat.le_add_right _ _⟩
  | succ n ih =>
    intro hin hroom
    have hmono := Set.ncard_le_ncard (nodesTo_mono (v := v) (Nat.le_succ n)) (nodesTo_finite _)
    have hin' : ∀ b < n, Within v b := fun b hb => hin b (Nat.lt_succ_of_lt hb)
    obtain ⟨v₁, inode₁, hrun, hleft⟩ := ih hin' (hmono.trans hroom)
    obtain ⟨ok₁, hsame, hsbi, hmapped⟩ := create_blocks_mapped getblk ok hempty n hin' _ _ hrun
    have hpath : ∀ b, block_path v₁ b = block_path v b :=
      block_path_congr (congrArg _ hsbi) hsame.bits
    have hmissing := missing_le (create_blocks_live hsame hsbi hmapped)
    have hn : Within v₁ n := (within_congr (congrArg _ hsbi) hsame).2 (hin n (Nat.lt_succ_self n))
    obtain ⟨g, hg, hstep, -, hsame', -⟩ := ok₁.get_block (getblk n) true hn
    unfold create_blocks
    rw [hrun]
    simp only [hg]
    cases hstep with
    | found h0 => exact absurd ((hmapped n).1 h0) (Nat.lt_irrefl n)
    | hole _ hc => cases hc
    | @added v₂ inode₂ nr _ _ _ _ hbit =>
      have hle : (free_list v₁).length ≤ (free_list v₂).length + _ :=
        free_list_le (fun x => hsame'.inArea) hbit
      rw [hpath] at hle
      exact ⟨v₂, inode₂, rfl, by omega⟩
    | failed _ _ hlacks _ _ =>
      cases hlacks with
      | space hlt =>
        rw [hpath] at hlt
        omega
      | buffer _ hno =>
        rw [hget] at hno
        cases hno

/-- `nblocks` is the number of places on the way to the blocks of a file of a size, and with as many
zones free they can all be created. It is the number of zones in the tree then, and
`cominix_getattr` reports them in units of 512 bytes. -/
theorem nblocks_counts {getblk : Nat → Nat → Bool} (geo : Geometry v) (area : AreaOk v)
    (hempty : ∀ k < 10, inode.i_data k = 0) {size : Nat} (hsize : size < v.sbi.s_maxbytes) :
    (Places v (end_block v size)).ncard = V2_cominix_blocks size v ∧
    ((∀ b x, getblk b x = true) → V2_cominix_blocks size v ≤ (free_list v).length →
      ∃ v' inode', create_blocks getblk v inode (end_block v size) = some (v', inode')) ∧
    ∀ v' inode', create_blocks getblk v inode (end_block v size) = some (v', inode') →
      {x | TreeZone v' inode'.i_data x}.ncard = V2_cominix_blocks size v ∧
      ∀ i : Inode, i.i_size = size →
        (cominix_getattr v i).blocks = v.dev.bs / 512 * {x | TreeZone v' inode'.i_data x}.ncard := by
  have ok := (Built.empty geo area hempty).ok
  have hzero : ∀ b, blocks v inode.i_data b = 0 := by
    intro b
    by_contra hne
    have hb := blocks_ne_zero hne
    rw [blocks_within hb] at hne
    exact hne (forest_empty hempty _ 0 (geo.path hb))
  obtain ⟨-, hin⟩ := geo.end_block_bounds hsize
  obtain ⟨hcount, hplaces⟩ := geo.ncard_places hsize
  refine ⟨hplaces, fun hget hroom => ?_, fun v' inode' hrun => ?_⟩
  · obtain ⟨v', inode', hrun, -⟩ := create_blocks_some hget ok hzero _ hin (hcount.trans_le hroom)
    exact ⟨v', inode', hrun⟩
  obtain ⟨ok', hsame, hsbi, hmapped⟩ := create_blocks_mapped getblk ok hzero _ hin _ _ hrun
  have hpath : ∀ b, block_path v' b = block_path v b :=
    block_path_congr (congrArg _ hsbi) hsame.bits
  -- a zone is at each of the places, and nowhere else
  have hnode : ∀ p n, (shape v').Path p n → ((forest v' inode'.i_data).node p ≠ 0 ↔
      p ∈ NodesTo v (end_block v size)) := by
    intro p n hp
    constructor
    · intro h0
      obtain ⟨b, hb, hsuf, hb0⟩ := ok'.full p n hp h0
      refine ⟨hp.ne_nil, b, (hmapped b).1 ?_, hpath b ▸ hsuf⟩
      rw [blocks_within hb]
      exact hb0
    · exact create_blocks_live hsame hsbi hmapped p
  have hplace : ∀ p ∈ NodesTo v (end_block v size), ∃ n, (shape v').Path p n := by
    rintro p ⟨hne, b, hb, l, hl⟩
    have hfull := ok'.path (blocks_ne_zero ((hmapped b).2 hb))
    rw [hpath, ← hl] at hfull
    exact hfull.of_append hne
  have himage : {x | TreeZone v' inode'.i_data x} = (forest v' inode'.i_data).node ''
      NodesTo v (end_block v size) := by
    ext x
    constructor
    · rintro ⟨hx0, p, n, hp, rfl⟩
      exact ⟨p, (hnode p n hp).1 hx0, rfl⟩
    · rintro ⟨p, hp, rfl⟩
      obtain ⟨n, hn⟩ := hplace p hp
      exact ⟨(hnode p n hn).2 hp, p, n, hn, rfl⟩
  have hinj : Set.InjOn (forest v' inode'.i_data).node (NodesTo v (end_block v size)) := by
    intro p hp q hq he
    obtain ⟨n, hn⟩ := hplace p hp
    obtain ⟨m, hm⟩ := hplace q hq
    exact ok'.tree.path_eq hn hm ((hnode p n hn).2 hp) he
  have hzones : {x | TreeZone v' inode'.i_data x}.ncard = V2_cominix_blocks size v := by
    rw [himage, hinj.ncard_image, hcount]
    rfl
  refine ⟨hzones, fun i hi => ?_⟩
  rw [hzones, ← hi]
  rfl

/-- A volume with 298 zones for a file. -/
def wide_vol : Vol :=
  { file_vol with
    sbi := { file_vol.sbi with s_nzones := 300, hashtable := 307200 }
    dev := { file_vol.dev with nblocks := 512 } }

/-- A file of 264 blocks, the last of which needs a doubly indirect block. -/
theorem nblocks_counts_double : ∃ v' inode',
    create_blocks (fun _ _ => true) wide_vol empty_inode 264 = some (v', inode') ∧
    {x | TreeZone v' inode'.i_data x}.ncard = 267 ∧
    (cominix_getattr wide_vol { empty_inode with i_size := 270000 }).blocks = 534 := by
  have area : AreaOk wide_vol :=
    ⟨⟨by decide, by decide, by decide, by decide, by decide⟩, by decide, by decide, by decide⟩
  obtain ⟨-, hroom, hcount⟩ := @nblocks_counts wide_vol empty_inode (fun _ _ => true)
    ⟨by decide, by decide⟩ area (fun _ _ => rfl) 270000 (by decide)
  obtain ⟨v', inode', hrun⟩ := hroom (fun _ _ => rfl) (by decide +kernel)
  obtain ⟨hzones, hblocks⟩ := hcount v' inode' hrun
  refine ⟨v', inode', hrun, hzones.trans (by decide), ?_⟩
  rw [hblocks _ rfl, hzones]
  decide

end CominixFs
