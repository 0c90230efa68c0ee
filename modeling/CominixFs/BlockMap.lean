import CominixFs.InodeBlocks

/-!
# The blocks of a file as a map (`get_block`, `truncate`)

Whatever calls of `get_block` and `truncate` built the tree of an inode (`Built`), each of its zones
lies on the way to a mapped block (`BlocksOk`). On such a tree `get_block` is an update of a map that
fails without a trace (`get_block_map`), and `truncate` restricts the map and frees what leads to no
block any more (`truncate_frees_tail`).
-/

namespace CominixFs
open Forest

/-- The zones of the logical blocks of a file, 0 for a block that is not mapped. -/
def blocks (v : Vol) (z : Nat → Nat) (b : Nat) : Nat :=
  if b * v.dev.bs < v.sbi.s_maxbytes then zone_of v z b else 0

/-- An indirect block. -/
def Indirection (v : Vol) (z : Nat → Nat) (x : Nat) : Prop :=
  x ≠ 0 ∧ ∃ p n, (shape v).Path p (n + 1) ∧ (forest v z).node p = x

/-- A block on the way to a logical block, or its zone. -/
def OnPath (v : Vol) (z : Nat → Nat) (b x : Nat) : Prop :=
  x ≠ 0 ∧ ∃ p, p ≠ [] ∧ p <:+ block_path v b ∧ (forest v z).node p = x

/-- A block that was missing on the way to a logical block. -/
def Supplied (v : Vol) (z : Nat → Nat) (v' : Vol) (z' : Nat → Nat) (b x : Nat) : Prop :=
  ∃ p, p ≠ [] ∧ p <:+ block_path v b ∧ (forest v z).node p = 0 ∧ (forest v' z').node p = x

/-- The block sizes, and the size limits, of the trees. -/
structure Geometry (v : Vol) : Prop where
  bits : 10 ≤ v.dev.s_blocksize_bits ∧ v.dev.s_blocksize_bits ≤ 12
  maxbytes : v.sbi.s_maxbytes < 2 ^ 32

/-- A step of others: the zones of an inode stay in use, and its indirect blocks as they are. -/
structure Apart (v v' : Vol) (z : Nat → Nat) : Prop extends ZmapStep v v' where
  maxbytes : v'.sbi.s_maxbytes = v.sbi.s_maxbytes
  used : ∀ x, TreeZone v z x → zbit v' x = true
  mem : ∀ x, Indirection v z x → v'.dev.bh.mem x = v.dev.bh.mem x
  cover : ∀ x, Indirection v z x → v.dev.bh.Covered x → v'.dev.bh.Covered x

/-- What `get_block` does to the map: it finds a zone, or maps the block to a zone that was free and
takes no other zone than those missing on the way, or fails for want of zones or of a buffer and
changes neither the tree nor what is free. -/
inductive MapStep (getblk : Nat → Bool) (v : Vol) (inode : Inode) (create : Bool) (b : Nat) :
    Vol × Inode × GetBlock → Prop where
  | found :
    blocks v inode.i_data b ≠ 0 →
    MapStep getblk v inode create b (v, inode, .mapped (blocks v inode.i_data b) false)
  | hole :
    blocks v inode.i_data b = 0 →
    create = false →
    MapStep getblk v inode create b (v, inode, .hole)
  | added {v' inode' nr} :
    blocks v inode.i_data b = 0 →
    create = true →
    InArea v nr ∧ zbit v nr = false →
    blocks v' inode'.i_data = Function.update (blocks v inode.i_data) b nr →
    (∀ x, InArea v x → (zbit v' x = true ↔
      zbit v x = true ∨ Supplied v inode.i_data v' inode'.i_data b x)) →
    MapStep getblk v inode create b (v', inode', .mapped nr true)
  | failed {v' err} :
    blocks v inode.i_data b = 0 →
    create = true →
    Lacks getblk (free_list v) (missing (forest v inode.i_data) (block_path v b)).length err →
    (∀ p n, (shape v).Path p n →
      (forest v' inode.i_data).node p = (forest v inode.i_data).node p) →
    (∀ x, InArea v x → zbit v' x = zbit v x) →
    MapStep getblk v inode create b (v', inode, .failed err)

/-- What `truncate` does to the map: the blocks from the end of the file on are unmapped, and what
is freed is their zones and the indirect blocks on the way to no mapped block, each once. -/
structure FreesTail (v : Vol) (z : Nat → Nat) (v' : Vol) (z' : Nat → Nat) (i_size : Nat) : Prop where
  map : ∀ b, blocks v' z' b = if b < end_block v i_size then blocks v z b else 0
  freed : ∀ x, InArea v x → (zbit v x = true ∧ zbit v' x = false ↔
    (∃ b, end_block v i_size ≤ b ∧ blocks v z b = x) ∨
      Indirection v z x ∧ ∀ b, Within v b → OnPath v z b x → blocks v' z' b = 0)
  taken : ∀ x, InArea v x → zbit v' x = true → zbit v x = true
  once : v'.printk = v.printk
  empty : i_size = 0 → (∀ k < 10, z' k = 0) ∧ ∀ x, TreeZone v z x → zbit v' x = false

/-- The trees that calls of `get_block` and `truncate` build from an empty inode. -/
inductive Built : Vol → Inode → Prop where
  | empty {v inode} :
    Geometry v →
    AreaOk v →
    (∀ k < 10, inode.i_data k = 0) →
    Built v inode
  | get_block {v inode v' inode' r} (getblk : Nat → Bool) (block : Nat) (create : Bool) :
    Built v inode →
    block * v.dev.bs < 2 ^ 63 →
    get_block getblk v inode block create = some (v', inode', r) →
    Built v' inode'
  | truncate {v inode v' inode'} (i_size : Nat) :
    Built v inode →
    i_size < 2 ^ 63 →
    truncate v { inode with i_size := i_size } = some (v', inode') →
    Built v' inode'
  | other {v inode v'} :
    Built v inode →
    Apart v v' inode.i_data →
    Built v' inode

/-- The tree of an inode is in order, and each zone of it lies on the way to a mapped block. -/
structure BlocksOk (v : Vol) (z : Nat → Nat) : Prop extends Geometry v where
  area : AreaOk v
  tree : TreeOk v z
  full : ∀ p n, (shape v).Path p n → (forest v z).node p ≠ 0 →
    ∃ b, Within v b ∧ p <:+ block_path v b ∧ zone_of v z b ≠ 0

variable {v v' : Vol} {inode inode' : Inode} {z z' : Nat → Nat} {getblk : Nat → Bool}

lemma Geometry.sizeOk (geo : Geometry v) {b : Nat} (hb : Within v b) : SizeOk v :=
  ⟨geo.bits, Nat.lt_of_le_of_lt (Nat.zero_le _) hb, geo.maxbytes⟩

lemma Geometry.path (geo : Geometry v) {b : Nat} (hb : Within v b) :
    (shape v).Path (block_path v b) 0 := block_path_spec (geo.sizeOk hb) hb

lemma blocks_within {b : Nat} (hb : Within v b) : blocks v z b = zone_of v z b := if_pos hb

lemma blocks_not_within {b : Nat} (hb : ¬ Within v b) : blocks v z b = 0 := if_neg hb

lemma blocks_ne_zero {b : Nat} (h : blocks v z b ≠ 0) : Within v b := by
  by_contra hn
  exact h (blocks_not_within hn)

/-- Blocks with the same path are the same. -/
lemma Geometry.path_inj (geo : Geometry v) {b b' : Nat} (hb : Within v b) (hb' : Within v b')
    (h : block_path v b = block_path v b') : b = b' := by
  rcases Nat.lt_trichotomy b b' with hlt | heq | hlt
  · have hbefore := block_path_before (geo.sizeOk hb) hlt hb'
    rw [h] at hbefore
    exact absurd hbefore hbefore.asymm
  · exact heq
  · have hbefore := block_path_before (geo.sizeOk hb) hlt hb
    rw [h] at hbefore
    exact absurd hbefore hbefore.asymm

/-- A path as long as that of a block it is part of is the path of the block. -/
lemma Geometry.path_eq (geo : Geometry v) {b : Nat} (hb : Within v b) {p : List Nat}
    (hp : (shape v).Path p 0) (hsuf : p <:+ block_path v b) : p = block_path v b := by
  obtain ⟨l, hl⟩ := hsuf
  have hlen := path_height (hl ▸ geo.path hb) hp
  have hnil : l = [] := List.length_eq_zero_iff.1 (by omega)
  rw [hnil] at hl
  exact hl

/-- The same block numbers have the same paths. -/
lemma block_path_congr (hmax : v'.sbi.s_maxbytes = v.sbi.s_maxbytes)
    (hbits : v'.dev.s_blocksize_bits = v.dev.s_blocksize_bits) (b : Nat) :
    block_path v' b = block_path v b := by
  unfold block_path block_to_path INDIRCOUNT Dev.bs
  rw [hmax, hbits]

lemma within_congr (hmax : v'.sbi.s_maxbytes = v.sbi.s_maxbytes) (h : SameMount v v') {b : Nat} :
    Within v' b ↔ Within v b := by
  unfold Within
  rw [hmax, h.bs]

/-- A tree of the same geometry in which each block still leads to a mapped one. -/
lemma BlocksOk.congr (ok : BlocksOk v z) (h : ZmapStep v v')
    (hmax : v'.sbi.s_maxbytes = v.sbi.s_maxbytes) (tree : TreeOk v' z')
    (full : ∀ p n, (shape v).Path p n → (forest v' z').node p ≠ 0 →
      ∃ b, Within v b ∧ p <:+ block_path v b ∧ (forest v' z').node (block_path v b) ≠ 0) :
    BlocksOk v' z' := by
  refine ⟨⟨h.bits ▸ ok.bits, hmax ▸ ok.maxbytes⟩, ok.area.step h, tree, fun p n hp h0 => ?_⟩
  rw [h.shape] at hp
  obtain ⟨b, hb, hsuf, hb0⟩ := full p n hp h0
  refine ⟨b, (within_congr hmax h.toSameMount).2 hb, ?_, ?_⟩
  · rw [block_path_congr hmax h.bits]
    exact hsuf
  · rw [zone_of, block_path_congr hmax h.bits]
    exact hb0

/-- What others do leaves the map as it is. -/
lemma BlocksOk.apart (ok : BlocksOk v z) (h : Apart v v' z) :
    BlocksOk v' z ∧ ∀ b, blocks v' z b = blocks v z b := by
  obtain ⟨tree, hnode⟩ := ok.tree.frame h.toZmapStep h.used
    (fun p n hp h0 => h.mem _ ⟨h0, p, n, hp, rfl⟩) fun p n hp h0 => h.cover _ ⟨h0, p, n, hp, rfl⟩
  refine ⟨ok.congr h.toZmapStep h.maxbytes tree fun p n hp h0 => ?_, fun b => ?_⟩
  · rw [hnode p n hp] at h0
    obtain ⟨b, hb, hsuf, hb0⟩ := ok.full p n hp h0
    refine ⟨b, hb, hsuf, ?_⟩
    rw [hnode _ 0 (ok.path hb)]
    exact hb0
  · have hwithin := @within_congr v v' h.maxbytes h.toSameMount b
    by_cases hb : Within v b
    · rw [blocks_within (hwithin.2 hb), blocks_within hb, zone_of, block_path_congr h.maxbytes h.bits,
        hnode _ 0 (ok.path hb), zone_of]
    · rw [blocks_not_within hb, blocks_not_within fun h => hb (hwithin.1 h)]

/-- A call of `get_block` is a step of the map, and keeps the tree in order. -/
lemma BlocksOk.get_block (ok : BlocksOk v inode.i_data) (getblk : Nat → Bool) (create : Bool)
    {b : Nat} (hb : Within v b) :
    ∃ g, get_block getblk v inode b create = some g ∧ MapStep getblk v inode create b g ∧
      BlocksOk g.1 g.2.1.i_data ∧ SameMount v g.1 ∧ g.1.sbi = v.sbi := by
  have hp := ok.path hb
  have hblock := blocks_within (z := inode.i_data) hb
  obtain ⟨g, hg, hgot⟩ := @get_block_spec v inode getblk create b ok.tree ok.area (ok.sizeOk hb) hb
  refine ⟨g, hg, ?_⟩
  cases hgot with
  | found h0 =>
    have hstep := @MapStep.found getblk v inode create b (fun e => h0 (hblock.symm.trans e))
    rw [hblock] at hstep
    exact ⟨hstep, ok, .refl v, rfl⟩
  | hole h0 hc => exact ⟨.hole (hblock.trans h0) hc, ok, .refl v, rfl⟩
  | @failed v' err h0 hc hq hlacks =>
    obtain ⟨tree, hnode⟩ := hq.tree ok.tree
    refine ⟨.failed (hblock.trans h0) hc hlacks hnode fun x hx => ?_, ?_, hq.toSameMount, hq.sbi_eq⟩
    · rw [Bool.eq_iff_iff, hq.zbit x hx]
      simp
    · refine ok.congr hq.toZmapStep (congrArg _ hq.sbi_eq) tree fun p n hp h0 => ?_
      rw [hnode p n hp] at h0
      obtain ⟨b', hb', hsuf, hb0⟩ := ok.full p n hp h0
      refine ⟨b', hb', hsuf, ?_⟩
      rw [hnode _ 0 (ok.path hb')]
      exact hb0
  | @new v' z' news h0 hc hgrew =>
    have hmax := congrArg SbInfo.s_maxbytes hgrew.sbi_eq
    obtain ⟨q, hq, hg⟩ := hgrew.grown
    have hnews : news ≠ [] := by
      rintro rfl
      have hlen := hg.length
      have hle := hg.below.length_le
      rw [List.length_nil] at hlen
      omega
    have hlast := hgrew.last hp hnews
    have hmem : (forest v' z').node (block_path v b) ∈ news := hlast ▸ List.getLast_mem hnews
    -- the other blocks are as before
    have hother : ∀ b', Within v b' → b' ≠ b →
        (forest v' z').node (block_path v b') = zone_of v inode.i_data b' := by
      intro b' hb' hne
      have hp' := ok.path hb'
      by_cases hqb : q <:+ block_path v b'
      · have hnot : ¬ block_path v b' <:+ block_path v b := by
          intro hsuf
          exact hne (ok.path_inj hb' hb (ok.path_eq hb hp' hsuf))
        rw [hg.empty _ 0 hp' hqb hnot]
        obtain ⟨l, hl⟩ := hqb
        by_contra hzone
        rw [zone_of, ← hl, ← List.reverse_reverse l] at hzone
        exact node_ne_of_append hq (Ne.symm hzone) hg.vacant
      · exact hg.others _ 0 hp' hqb
    refine ⟨.added (hblock.trans h0) hc (hgrew.free _ hmem) ?_ fun x hx => ?_, ?_,
      hgrew.toSameMount, hgrew.sbi_eq⟩
    · funext b'
      by_cases he : b' = b
      · subst he
        rw [Function.update_self, blocks_within ((within_congr hmax hgrew.toSameMount).2 hb), zone_of,
          block_path_congr hmax hgrew.bits]
      · rw [Function.update_of_ne he]
        by_cases hb' : Within v b'
        · rw [blocks_within ((within_congr hmax hgrew.toSameMount).2 hb'), blocks_within hb', zone_of,
            block_path_congr hmax hgrew.bits]
          exact hother b' hb' he
        · rw [blocks_not_within hb', blocks_not_within]
          exact fun h => hb' ((within_congr hmax hgrew.toSameMount).1 h)
    · rw [hgrew.zbit x hx, or_comm, hg.mem_iff hp hq hgrew.zero]
      rfl
    · refine ok.congr hgrew.toZmapStep hmax hgrew.tree fun p n hpath hp0 => ?_
      by_cases hqp : q <:+ p
      · by_cases hpb : p <:+ block_path v b
        · refine ⟨b, hb, hpb, fun e => hgrew.zero ?_⟩
          exact e ▸ hmem
        · exact absurd (hg.empty p n hpath hqp hpb) hp0
      · rw [hg.others p n hpath hqp] at hp0
        obtain ⟨b', hb', hsuf, hb0⟩ := ok.full p n hpath hp0
        refine ⟨b', hb', hsuf, ?_⟩
        have hne : b' ≠ b := by
          rintro rfl
          exact hb0 h0
        rw [hother b' hb' hne]
        exact hb0

/-- Of a block with something left to the left of a cut, a mapped block is left. -/
lemma BlocksOk.leaf_left (ok : BlocksOk v z) {r p : List Nat} {n m : Nat} (hr : (shape v).Path r m)
    (hstop : ∀ i c, r = i :: c → c ≠ [] → ∃ j < i, (forest v z).node (j :: c) ≠ 0)
    (hp : (shape v).Path p n) (h0 : (forest v z).node p ≠ 0) (hkept : ¬ From r p) :
    ∃ b, Within v b ∧ p <:+ block_path v b ∧ zone_of v z b ≠ 0 ∧ ¬ From r (block_path v b) := by
  obtain ⟨b, hb, hsuf, hb0⟩ := ok.full p n hp h0
  by_cases hf : From r (block_path v b)
  · -- the cut goes through below `p`
    have hpr : p <:+ r ∧ p ≠ r := by
      refine ⟨?_, fun e => hkept (.inl (e ▸ List.suffix_refl _))⟩
      rcases hf with hrb | ⟨i, j, d, hij, h1, h2⟩
      · refine List.suffix_of_suffix_length_le hsuf hrb ?_
        by_contra hlt
        exact hkept (.inl (List.suffix_of_suffix_length_le hrb hsuf (by omega)))
      · by_cases hlen : p.length ≤ d.length
        · exact (List.suffix_of_suffix_length_le hsuf ((List.suffix_cons j d).trans h2) hlen).trans
            ((List.suffix_cons i d).trans h1)
        · have hj := List.suffix_of_suffix_length_le h2 hsuf (by simp; omega)
          exact absurd (.inr ⟨i, j, d, hij, h1, hj⟩) hkept
    obtain ⟨i, c, rfl⟩ := List.exists_cons_of_ne_nil hr.ne_nil
    have hpc := (List.suffix_cons_iff.1 hpr.1).resolve_left hpr.2
    have hc : c ≠ [] := fun e => hp.ne_nil (List.suffix_nil.1 (e ▸ hpc))
    obtain ⟨j, hj, hj0⟩ := hstop i c rfl hc
    obtain ⟨hpath, hi⟩ := hr.tail hc
    obtain ⟨b', hb', hsuf', hb0'⟩ := ok.full (j :: c) m (.word hpath (hj.trans hi)) hj0
    refine ⟨b', hb', hpc.trans ((List.suffix_cons j c).trans hsuf'), hb0', ?_⟩
    have hbefore : Before (block_path v b') (i :: c) := ⟨j, i, c, hj, hsuf', List.suffix_refl _⟩
    rintro (hrb | hafter)
    · have := (suffix_cons_inj hsuf' hrb rfl).1
      omega
    · exact hbefore.asymm hafter
  · exact ⟨b, hb, hsuf, hb0, hf⟩

/-- When the file ends past the last block nothing is cut off. -/
lemma BlocksOk.frees_nothing (ok : BlocksOk v z) {i_size : Nat}
    (hend : ∀ b, Within v b → b < end_block v i_size) : FreesTail v z v z i_size := by
  have hleaf : ∀ p n, (shape v).Path p n → (forest v z).node p ≠ 0 →
      ∃ b, Within v b ∧ OnPath v z b ((forest v z).node p) ∧ blocks v z b ≠ 0 := by
    intro p n hp h0
    obtain ⟨b, hb, hsuf, hb0⟩ := ok.full p n hp h0
    refine ⟨b, hb, ⟨h0, p, hp.ne_nil, hsuf, rfl⟩, ?_⟩
    rw [blocks_within hb]
    exact hb0
  refine ⟨fun b => ?_, fun x hx => ⟨?_, ?_⟩, fun x _ => id, rfl, fun hi => ?_⟩
  · by_cases hb : Within v b
    · rw [if_pos (hend b hb)]
    · rw [blocks_not_within hb, ite_self]
  · rintro ⟨h1, h2⟩
    rw [h1] at h2
    cases h2
  · have hx0 := ok.area.ne_zero hx
    rintro (⟨b, hb, hbx⟩ | ⟨⟨-, p, n, hp, he⟩, hall⟩)
    · have := hend b (blocks_ne_zero (hbx.symm ▸ hx0))
      omega
    · obtain ⟨b, hb, hon, hb0⟩ := hleaf p _ hp (he.symm ▸ hx0)
      exact absurd (hall b hb (he ▸ hon)) hb0
  · have hnone : ∀ p n, (shape v).Path p n → (forest v z).node p = 0 := by
      intro p n hp
      by_contra h0
      obtain ⟨b, hb, -⟩ := hleaf p n hp h0
      have hlt := lt_end_block.1 (hend b hb)
      omega
    refine ⟨fun k hk => hnone [k] _ (.slot (s := shape v) hk), ?_⟩
    rintro x ⟨hx0, p, n, hp, rfl⟩
    exact absurd (hnone p n hp) hx0

/-- The zones that cutting off frees are those of what is cut off. -/
lemma BlocksOk.freed (ok : BlocksOk v z) {K : List Nat → Prop} (hcut : Pruned v v' z z' K) {x : Nat}
    (hx : InArea v x) : zbit v x = true ∧ zbit v' x = false ↔
      ∃ p n, (shape v).Path p n ∧ K p ∧ (forest v z).node p = x := by
  have hx0 := ok.area.ne_zero hx
  rw [← Bool.not_eq_true, hcut.zbit x hx]
  constructor
  · rintro ⟨hset, hnot⟩
    by_contra hno
    exact hnot ⟨hset, fun h => hno h.2⟩
  · rintro ⟨p, n, hp, hf, he⟩
    exact ⟨(ok.tree.zone x ⟨hx0, p, n, hp, he⟩).2, fun h => h.2 ⟨hx0, p, n, hp, hf, he⟩⟩

/-- What is cut off from the path of the first block past the end on, or from a block above it on
with nothing else below, is the tail. -/
lemma BlocksOk.frees_tail (ok : BlocksOk v z) {i_size : Nat} {r : List Nat}
    (hin : Within v (end_block v i_size)) (hr : r ≠ []) (hrp : r <:+ block_path v (end_block v i_size))
    (hleft : ∀ q m, (shape v).Path q m → r <:+ q → Before q (block_path v (end_block v i_size)) →
      (forest v z).node q = 0)
    (hstop : ∀ i c, r = i :: c → c ≠ [] → ∃ j < i, (forest v z).node (j :: c) ≠ 0)
    (hcut : Pruned v v' z z' (From r)) : FreesTail v z v' z' i_size ∧ BlocksOk v' z' := by
  have hmax := congrArg SbInfo.s_maxbytes hcut.sbi_eq
  obtain ⟨l, hl⟩ := hrp
  obtain ⟨m, hm⟩ := Shape.Path.of_append (hl ▸ ok.path hin : (shape v).Path (l ++ r) 0) hr
  have hrp : r <:+ block_path v (end_block v i_size) := ⟨l, hl⟩
  have hnode : ∀ p n, (shape v).Path p n → (From r p → (forest v' z').node p = 0) ∧
      (¬ From r p → (forest v' z').node p = (forest v z).node p) := fun p n hp => hcut.cut.node hp
  -- the blocks from the end of the file on are cut off, and of those before it no mapped one
  have hfrom : ∀ b, Within v b → end_block v i_size ≤ b → From r (block_path v b) := by
    intro b hb hge
    rcases Nat.lt_or_eq_of_le hge with hlt | heq
    · exact (block_path_before (ok.sizeOk hb) hlt hb).from_above hrp
    · rw [← heq]
      exact .inl hrp
  have hbefore : ∀ b, Within v b → b < end_block v i_size → From r (block_path v b) →
      zone_of v z b = 0 := by
    intro b hb hlt hf
    have hbef := block_path_before (ok.sizeOk hb) hlt hin
    rcases hf with hsuf | hafter
    · exact hleft _ 0 (ok.path hb) hsuf hbef
    · exact absurd hbef (hafter.mono hrp (List.suffix_refl _)).asymm
  have hwithin : ∀ b, Within v' b ↔ Within v b := fun b => within_congr hmax hcut.toSameMount
  have hblock : ∀ b, Within v b → blocks v' z' b = (forest v' z').node (block_path v b) := by
    intro b hb
    rw [blocks_within ((hwithin b).2 hb), zone_of, block_path_congr hmax hcut.bits]
  have hkept : ∀ p n, (shape v).Path p n → (forest v z).node p ≠ 0 → ¬ From r p →
      ∃ b, Within v b ∧ p <:+ block_path v b ∧ blocks v' z' b ≠ 0 := by
    intro p n hp h0 hn
    obtain ⟨b, hb, hsuf, hb0, hfb⟩ := ok.leaf_left hm hstop hp h0 hn
    refine ⟨b, hb, hsuf, ?_⟩
    rw [hblock b hb, (hnode _ 0 (ok.path hb)).2 hfb]
    exact hb0
  have hfreed : ∀ x, InArea v x → (zbit v x = true ∧ zbit v' x = false ↔
      ∃ p n, (shape v).Path p n ∧ From r p ∧ (forest v z).node p = x) :=
    fun x hx => ok.freed hcut hx
  refine ⟨⟨fun b => ?_, fun x hx => ?_, fun x hx h => ((hcut.zbit x hx).1 h).1, hcut.printk,
    fun hi => ?_⟩, ?_⟩
  · by_cases hb : Within v b
    · rw [hblock b hb]
      by_cases hlt : b < end_block v i_size
      · rw [if_pos hlt, blocks_within hb]
        by_cases hf : From r (block_path v b)
        · rw [(hnode _ 0 (ok.path hb)).1 hf, hbefore b hb hlt hf]
        · exact (hnode _ 0 (ok.path hb)).2 hf
      · rw [if_neg hlt]
        exact (hnode _ 0 (ok.path hb)).1 (hfrom b hb (Nat.le_of_not_lt hlt))
    · rw [blocks_not_within hb, ite_self, blocks_not_within fun h => hb ((hwithin b).1 h)]
  · rw [hfreed x hx]
    have hx0 := ok.area.ne_zero hx
    constructor
    · rintro ⟨p, n, hp, hf, rfl⟩
      cases n with
      | zero =>
        obtain ⟨b, hb, hsuf, hb0⟩ := ok.full p 0 hp hx0
        have hpb := ok.path_eq hb hp hsuf
        refine .inl ⟨b, ?_, ?_⟩
        · by_contra hlt
          exact hb0 (hbefore b hb (Nat.lt_of_not_le hlt) (hpb ▸ hf))
        · rw [blocks_within hb, zone_of, hpb]
      | succ n =>
        refine .inr ⟨⟨hx0, p, n, hp, rfl⟩, fun b hb hon => ?_⟩
        obtain ⟨-, q, hq, ⟨l', hl'⟩, he⟩ := hon
        obtain ⟨k, hk⟩ := Shape.Path.of_append (hl' ▸ ok.path hb : (shape v).Path (l' ++ q) 0) hq
        obtain rfl := ok.tree.path_eq hk hp (he.symm ▸ hx0) he
        rw [hblock b hb, ← hl']
        exact (hnode _ 0 (hl' ▸ ok.path hb)).1 (hcut.cut.down_append hf l')
    · rintro (⟨b, hge, rfl⟩ | ⟨⟨-, p, n, hp, rfl⟩, hall⟩)
      · have hb := blocks_ne_zero hx0
        exact ⟨_, 0, ok.path hb, hfrom b hb hge, (blocks_within hb).symm⟩
      · refine ⟨p, _, hp, ?_, rfl⟩
        by_contra hn
        obtain ⟨b, hb, hsuf, hb0⟩ := hkept p _ hp hx0 hn
        exact hb0 (hall b hb ⟨hx0, p, hp.ne_nil, hsuf, rfl⟩)
  · -- the first block is the first of all paths
    have hi0 : end_block v i_size = 0 := by
      have := @lt_end_block v i_size 0
      omega
    have hr0 : r = [0] := by
      rw [hi0] at hrp hin
      rw [block_path_zero hin] at hrp
      rcases List.suffix_cons_iff.1 hrp with h | h
      · exact h
      · exact absurd (List.suffix_nil.1 h) hr
    have hall : ∀ p n, (shape v).Path p n → From r p := fun p n hp => hr0 ▸ from_zero hp
    refine ⟨fun k hk => (hnode [k] _ (.slot (s := shape v) hk)).1 (hall _ _ (.slot (s := shape v) hk)),
      ?_⟩
    rintro x ⟨hx0, p, n, hp, he⟩
    exact ((hfreed x (ok.tree.zone x ⟨hx0, p, n, hp, he⟩).1).2 ⟨p, n, hp, hall p n hp, he⟩).2
  · refine ok.congr hcut.toZmapStep hmax (ok.tree.pruned hcut) fun p n hp h0 => ?_
    have hn : ¬ From r p := fun hf => h0 ((hnode p n hp).1 hf)
    rw [(hnode p n hp).2 hn] at h0
    obtain ⟨b, hb, hsuf, hb0⟩ := hkept p n hp h0 hn
    rw [hblock b hb] at hb0
    exact ⟨b, hb, hsuf, hb0⟩

/-- A step before that leaves the tree and the bitmap alone changes nothing of this. -/
lemma FreesTail.from {v₁ : Vol} {i_size : Nat} (ok : BlocksOk v z) (t : FreesTail v₁ z v' z' i_size)
    (h : ZmapStep v v₁) (hmax : v₁.sbi.s_maxbytes = v.sbi.s_maxbytes) (hprintk : v₁.printk = v.printk)
    (hnode : ∀ p n, (shape v).Path p n → (forest v₁ z).node p = (forest v z).node p)
    (hbit : ∀ x, InArea v x → zbit v₁ x = zbit v x) : FreesTail v z v' z' i_size := by
  have hwithin : ∀ b, Within v₁ b ↔ Within v b := fun b => within_congr hmax h.toSameMount
  have hblock : ∀ b, blocks v₁ z b = blocks v z b := by
    intro b
    by_cases hb : Within v b
    · rw [blocks_within ((hwithin b).2 hb), blocks_within hb, zone_of, block_path_congr hmax h.bits,
        hnode _ 0 (ok.path hb)]
      rfl
    · rw [blocks_not_within hb, blocks_not_within fun h' => hb ((hwithin b).1 h')]
  have hend : end_block v₁ i_size = end_block v i_size := by
    rw [end_block, end_block, h.bs]
  have hindir : ∀ x, Indirection v₁ z x ↔ Indirection v z x := by
    intro x
    unfold Indirection
    rw [h.shape]
    refine and_congr_right fun _ => exists_congr fun p => exists_congr fun n => and_congr_right
      fun hp => ?_
    rw [hnode p _ hp]
  have honPath : ∀ b x, Within v b → (OnPath v₁ z b x ↔ OnPath v z b x) := by
    intro b x hb
    unfold OnPath
    rw [block_path_congr hmax h.bits]
    refine and_congr_right fun _ => exists_congr fun p => and_congr_right fun hp => and_congr_right ?_
    rintro ⟨l, hl⟩
    obtain ⟨n, hn⟩ := Shape.Path.of_append (hl ▸ ok.path hb : (shape v).Path (l ++ p) 0) hp
    rw [hnode p n hn]
  refine ⟨fun b => ?_, fun x hx => ?_, fun x hx => ?_, t.once.trans hprintk, fun hi => ?_⟩
  · rw [t.map, hend, hblock]
  · have hfreed := t.freed x (h.inArea.2 hx)
    rw [hbit x hx, hend] at hfreed
    rw [hfreed, hindir]
    refine or_congr ?_ (and_congr_right fun _ => forall_congr' fun b => ?_)
    · simp only [hblock]
    · rw [hwithin]
      exact forall_congr' fun hb => by rw [honPath b x hb]
  · rw [← hbit x hx]
    exact t.taken x (h.inArea.2 hx)
  · obtain ⟨h1, h2⟩ := t.empty hi
    exact ⟨h1, fun x hx => h2 x ((treeZone_congr h.toSameMount hnode).2 hx)⟩

/-- A call of `truncate` restricts the map, and keeps the tree in order. -/
lemma BlocksOk.truncate (ok : BlocksOk v inode.i_data) (hsize : inode.i_size < 2 ^ 63) :
    ∃ v' inode', truncate v inode = some (v', inode') ∧
      FreesTail v inode.i_data v' inode'.i_data inode.i_size ∧ BlocksOk v' inode'.i_data ∧
      SameMount v v' ∧ v'.sbi = v.sbi ∧
      inode' = { inode with i_data := inode'.i_data, dirty := inode'.dirty } := by
  by_cases hmax : v.sbi.s_maxbytes = 0
  · -- no block has a path
    have hnil : ∀ b, block_to_path v b = [] := by
      intro b
      unfold block_to_path
      rw [hmax]
      exact if_pos (Nat.zero_le _)
    have hpage : block_truncate_page v inode = some v := by
      unfold block_truncate_page
      rw [get_block_nil (hnil _)]
      exact ite_self _
    refine ⟨v, inode, ?_, ok.frees_nothing fun b hb => ?_, ok, .refl v, rfl, rfl⟩
    · rw [truncate_eq hpage, hnil]
      rfl
    · unfold Within at hb
      omega
  have size : SizeOk v := ⟨ok.bits, Nat.pos_of_ne_zero hmax, ok.maxbytes⟩
  obtain ⟨v₁, hpage, hstep₁, tree₁, hnode₁, -⟩ := block_truncate_page_spec ok.tree ok.area size hsize
  have hmax₁ := congrArg SbInfo.s_maxbytes hstep₁.sbi_eq
  have hbit₁ : ∀ x, InArea v x → zbit v₁ x = zbit v x := by
    intro x hx
    have hzone : TreeZone v₁ inode.i_data x ↔ TreeZone v inode.i_data x :=
      treeZone_congr hstep₁.toSameMount hnode₁
    have hset := fun h => (ok.tree.zone x h).2
    rw [Bool.eq_iff_iff, hstep₁.zbit x hx, hzone]
    tauto
  have ok₁ : BlocksOk v₁ inode.i_data := by
    refine ok.congr hstep₁.toZmapStep hmax₁ tree₁ fun p n hp h0 => ?_
    rw [hnode₁ p n hp] at h0
    obtain ⟨b, hb, hsuf, hb0⟩ := ok.full p n hp h0
    refine ⟨b, hb, hsuf, ?_⟩
    rw [hnode₁ _ 0 (ok.path hb)]
    exact hb0
  have hend₁ : end_block v₁ inode.i_size = end_block v inode.i_size := by
    rw [end_block, end_block, hstep₁.bs]
  obtain ⟨v', inode', hrun, hcase⟩ :=
    truncate_cut size hsize hpage tree₁ ok₁.area hstep₁.toSameMount hstep₁.sbi_eq
  rw [← hend₁, ← within_congr hmax₁ hstep₁.toSameMount, ← block_path_congr hmax₁ hstep₁.bits] at hcase
  refine ⟨v', inode', hrun, ?_⟩
  suffices htail : FreesTail v₁ inode.i_data v' inode'.i_data inode.i_size ∧
      BlocksOk v' inode'.i_data ∧ SameMount v₁ v' ∧ v'.sbi = v₁.sbi ∧
      inode' = { inode with i_data := inode'.i_data, dirty := inode'.dirty } from
    ⟨htail.1.from ok hstep₁.toZmapStep hmax₁ hstep₁.printk hnode₁ hbit₁, htail.2.1,
      hstep₁.toSameMount.trans htail.2.2.1, htail.2.2.2.1.trans hstep₁.sbi_eq, htail.2.2.2.2⟩
  rcases hcase with ⟨hin, heq, r, hr, hrp, hleft, hstop, hcut⟩ | ⟨hin, rfl, rfl⟩
  · obtain ⟨htail, hok⟩ := ok₁.frees_tail hin hr hrp hleft hstop hcut
    refine ⟨htail, hok, hcut.toSameMount, hcut.sbi_eq, ?_⟩
    rw [heq]
  · refine ⟨ok₁.frees_nothing fun b hb => ?_, ok₁, .refl v', rfl, rfl⟩
    by_contra hge
    exact hin (lt_of_le_of_lt (Nat.mul_le_mul_right _ (not_lt.1 hge)) hb)

/-- Whatever built a tree, it is in order. -/
lemma Built.ok (built : Built v inode) : BlocksOk v inode.i_data := by
  induction built with
  | @empty v inode geo area hempty =>
    exact ⟨geo, area, .empty v hempty, fun p n hp h0 => absurd (forest_empty hempty p n hp) h0⟩
  | @get_block v inode v' inode' r getblk block create _ hblock hrun ih =>
    by_cases hb : Within v block
    · obtain ⟨g, hg, -, hok, -⟩ := ih.get_block getblk create hb
      rw [hrun] at hg
      cases hg
      exact hok
    · rw [get_block_nil (block_to_path_nil (by omega) hb)] at hrun
      cases hrun
      exact ih
  | @truncate v inode v' inode' i_size _ hsize hrun ih =>
    obtain ⟨w, i, hg, -, hok, -⟩ := @BlocksOk.truncate v { inode with i_size := i_size } ih hsize
    rw [hrun] at hg
    cases hg
    exact hok
  | other _ h ih => exact (ih.apart h).1

/-- `get_block` updates the map of a file at a block and nowhere else, or fails without a trace. -/
theorem get_block_map (built : Built v inode) {b : Nat} (hb : Within v b) (create : Bool) :
    ∃ g, get_block getblk v inode b create = some g ∧ MapStep getblk v inode create b g := by
  obtain ⟨g, hg, hstep, -⟩ := built.ok.get_block getblk create hb
  exact ⟨g, hg, hstep⟩

/-- `truncate` unmaps the blocks of a file from its end on, and frees what leads to no block then. -/
theorem truncate_frees_tail (built : Built v inode) {i_size : Nat} (hsize : i_size < 2 ^ 63) :
    ∃ v' inode', truncate v { inode with i_size := i_size } = some (v', inode') ∧
      FreesTail v inode.i_data v' inode'.i_data i_size := by
  obtain ⟨v', inode', hrun, htail, -⟩ :=
    @BlocksOk.truncate v { inode with i_size := i_size } built.ok hsize
  exact ⟨v', inode', hrun, htail⟩

/-- A volume of 38 zones for a file. -/
def file_vol : Vol where
  sbi := {
    s_ninodes := 1, s_nzones := 40, s_imap_blocks := 1, s_zmap_blocks := 1, s_firstdatazone := 2
    s_log_zone_size := 0, s_maxbytes := 2 ^ 31, extra_sb_location := 0, hashtable := 40960
    hashtable_size := 0, heap_brk := 0, max_brk := 0 }
  dev := ⟨10, 64, ⟨fun _ _ => 0, fun _ _ => 0, fun _ => false⟩⟩
  s_zmap := ⟨fun _ n => n == 0, fun _ n => n == 0, fun _ => false⟩
  printk := []

/-- An inode without blocks. -/
def empty_inode : Inode where
  i_mode := .reg
  i_nlink := 1
  i_size := 0
  i_rdev := 0
  i_data := fun _ => 0
  i_fop := .cominix_file_operations
  a_ops := .cominix_aops
  dirty := false

lemma file_vol_area : AreaOk file_vol :=
  ⟨⟨by decide, by decide, by decide, by decide, by decide⟩, by decide, by decide, by decide⟩

lemma file_vol_built : Built file_vol empty_inode :=
  .empty ⟨by decide, by decide⟩ file_vol_area fun _ _ => rfl

/-- The first block that needs an indirect one gets the second of the free zones. -/
theorem get_block_map_seven : ∃ v' inode',
    get_block (fun _ => true) file_vol empty_inode 7 true = some (v', inode', .mapped 3 true) ∧
    MapStep (fun _ => true) file_vol empty_inode true 7 (v', inode', .mapped 3 true) := by
  obtain ⟨⟨v', inode', r⟩, hg, hstep⟩ := @get_block_map file_vol empty_inode (fun _ => true)
    file_vol_built 7 (show 7 * 1024 < 2 ^ 31 by decide) true
  have hr : (get_block (fun _ => true) file_vol empty_inode 7 true).map (·.2.2)
      = some (.mapped 3 true) := by decide +kernel
  rw [hg] at hr
  obtain rfl : r = .mapped 3 true := Option.some.inj hr
  exact ⟨v', inode', hg, hstep⟩

/-- It is mapped and cut off again. -/
theorem truncate_frees_tail_seven : ∃ v inode v' inode',
    get_block (fun _ => true) file_vol empty_inode 7 true = some (v, inode, .mapped 3 true) ∧
    blocks v inode.i_data 7 = 3 ∧
    truncate v { inode with i_size := 0 } = some (v', inode') ∧
    FreesTail v inode.i_data v' inode'.i_data 0 := by
  have hin : Within file_vol 7 := show 7 * 1024 < 2 ^ 31 by decide
  obtain ⟨⟨v, inode, r⟩, hg, -⟩ := file_vol_built.ok.get_block (fun _ => true) true hin
  have hr : (get_block (fun _ => true) file_vol empty_inode 7 true).map
      (fun g => (g.2.2, blocks g.1 g.2.1.i_data 7)) = some (.mapped 3 true, 3) := by decide +kernel
  rw [hg, Option.map_some, Option.some.injEq, Prod.mk.injEq] at hr
  obtain ⟨hr, hblock⟩ := hr
  obtain rfl : r = .mapped 3 true := hr
  have built : Built v inode := .get_block (fun _ => true) 7 true file_vol_built (by decide) hg
  obtain ⟨v', inode', hrun, htail⟩ := @truncate_frees_tail _ _ built 0 (by decide)
  exact ⟨v, inode, v', inode', hg, hblock, hrun, htail⟩

end CominixFs
