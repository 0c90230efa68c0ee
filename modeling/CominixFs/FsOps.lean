import CominixFs.Fs
import CominixFs.Owners
import CominixFs.BlockMap
import CominixFs.Marks

/-!
# What the operations do to an inode

Every operation on an inode in order is an exchange of its blocks (`Stepped`): mapping and writing
blocks, truncating, chunking, and freeing it.
-/

namespace CominixFs
open Bytes Forest

/-- The operations of an inode are those for its type and its markers. -/
structure OpsOk (inode : Inode) : Prop where
  reg : inode.i_mode = .reg →
    inode.i_fop = (if inode_is_chunked inode then .chunked_file_operations
      else .cominix_file_operations) ∧
    inode.a_ops = if inode_is_chunked inode then .empty_aops else .cominix_aops
  aops : inode.a_ops = .cominix_aops → has_blocks inode.i_mode = true

/-- An inode in order: its blocks, its size and its operations. -/
structure InodeFine (v : Vol) (inode : Inode) : Prop where
  ok : InodeOk v inode
  size : inode.i_size ≤ v.sbi.s_maxbytes
  ops : OpsOk inode

/-- The blocks of an inode that may not be there. -/
def ZonesOf (v : Vol) (o : Option Inode) (x : Nat) : Prop := ∃ inode, o = some inode ∧ InodeZone v inode x

/-- The bytes of an inode that is not chunked; what is not mapped reads as zeroes. -/
def Reads (v : Vol) (inode : Inode) (data : Nat → UInt8) : Prop :=
  inode_is_chunked inode = false → has_blocks inode.i_mode = true →
    ∀ b o, Within v b → o < v.dev.bs → file_byte v inode b o = data (b * v.dev.bs + o)

/-- The blocks that are not in `old` are left alone, but the free zones. -/
def Untouched (v v' : Vol) (old : Nat → Prop) : Prop :=
  ∀ b, ¬ old b → (InArea v b → zbit v b = true) →
    v'.dev.bh.mem b = v.dev.bh.mem b ∧ v'.dev.bh.dirty b = v.dev.bh.dirty b

/-- Blocks that are on the device as they are in memory, or marked. -/
def CoveredOn (v : Vol) (S : Nat → Prop) : Prop := ∀ x, S x → v.dev.bh.Covered x

/-- An operation on an inode that leaves it in order, does `f` to its bytes, marks what it writes,
and leaves everything outside its blocks alone. -/
structure Stepped (v v' : Vol) (inode : Inode) (o : Option Inode) (f : (Nat → UInt8) → Nat → UInt8) :
    Prop where
  own : OwnStep v v' (InodeZone v inode) (ZonesOf v' o)
  exact : Exact v v' (InodeZone v inode) (ZonesOf v' o)
  fine : ∀ inode', o = some inode' → InodeFine v' inode'
  sbi : v'.sbi = v.sbi
  low : Untouched v v' (InodeZone v inode)
  reads : ∀ inode', o = some inode' → ∀ data, Reads v inode data → Reads v' inode' (f data)
  covered : CoveredOn v (InodeZone v inode) → CoveredOn v' (ZonesOf v' o)

variable {v v' : Vol} {inode inode' : Inode}

lemma zonesOf_some {x : Nat} : ZonesOf v (some inode) x ↔ InodeZone v inode x := by
  constructor
  · rintro ⟨_, h, hx⟩
    cases h
    exact hx
  · exact fun hx => ⟨inode, rfl, hx⟩

lemma zonesOf_none {x : Nat} : ¬ ZonesOf v none x := by
  rintro ⟨_, h, -⟩
  cases h

/-! ## Types and marks -/

/-- The markers are zone words. -/
lemma chunked_congr (h : inode'.i_data = inode.i_data) :
    inode_is_chunked inode' = inode_is_chunked inode := by
  unfold inode_is_chunked
  rw [h]

lemma OpsOk.congr (h : OpsOk inode) (hmode : inode'.i_mode = inode.i_mode)
    (hfop : inode'.i_fop = inode.i_fop) (haops : inode'.a_ops = inode.a_ops)
    (hc : inode_is_chunked inode' = inode_is_chunked inode) : OpsOk inode' := by
  refine ⟨fun hr => ?_, fun ha => ?_⟩
  · rw [hfop, haops, hc]
    exact h.reg (hmode ▸ hr)
  · rw [hmode]
    exact h.aops (haops ▸ ha)

lemma cominix_set_inode_mode (inode : Inode) (rdev : Nat) :
    (cominix_set_inode inode rdev).i_mode = inode.i_mode := by
  unfold cominix_set_inode
  cases inode.i_mode with
  | reg =>
    dsimp only
    split <;> rfl
  | _ => rfl

/-- `cominix_set_inode` gives an inode the operations of its kind. -/
lemma set_inode_ops (inode : Inode) (rdev : Nat)
    (h : has_blocks inode.i_mode = false → inode.a_ops = .empty_aops) :
    OpsOk (cominix_set_inode inode rdev) := by
  have hc := chunked_congr (cominix_set_inode_data inode rdev)
  refine ⟨fun hr => ?_, fun ha => ?_⟩
  · rw [hc]
    rw [cominix_set_inode_mode] at hr
    unfold cominix_set_inode
    rw [hr]
    dsimp only
    split <;> exact ⟨rfl, rfl⟩
  · rw [cominix_set_inode_mode]
    unfold cominix_set_inode at ha
    cases hm : inode.i_mode with
    | reg => rfl
    | dir => rfl
    | lnk => rfl
    | dev =>
      rw [hm] at ha h
      exact absurd ((h rfl).symm.trans ha) AddressSpaceOps.noConfusion
    | other =>
      rw [hm] at ha h
      exact absurd ((h rfl).symm.trans ha) AddressSpaceOps.noConfusion

/-- The pages of a chunked file are not mapped. -/
lemma InodeFine.mapped (h : InodeFine v inode) (ha : inode.a_ops = .cominix_aops) :
    inode_is_chunked inode = false ∧ has_blocks inode.i_mode = true := by
  refine ⟨?_, h.ops.aops ha⟩
  cases hc : inode_is_chunked inode with
  | false => rfl
  | true =>
    rw [(h.ops.reg (h.ok.list hc).1).2, hc, if_pos rfl] at ha
    cases ha

/-- A file that `cminix_proc_write` chunks is not chunked yet. -/
lemma InodeFine.unchunked (h : InodeFine v inode) (hreg : inode.i_mode = .reg)
    (hf : inode.i_fop = .cominix_file_operations) : inode_is_chunked inode = false := by
  cases hc : inode_is_chunked inode with
  | false => rfl
  | true =>
    rw [(h.ops.reg hreg).1, hc, if_pos rfl] at hf
    cases hf

/-- The same zones with the same bytes in them. -/
lemma Reads.frame {data : Nat → UInt8} (h : Reads v inode data) (hs : SameMount v v')
    (hmax : v'.sbi.s_maxbytes = v.sbi.s_maxbytes) (hc : inode_is_chunked inode = false)
    (hmode : inode'.i_mode = inode.i_mode)
    (hzone : ∀ b, Within v b → zone_of v' inode'.i_data b = zone_of v inode.i_data b)
    (hmem : ∀ b, Within v b → zone_of v inode.i_data b ≠ 0 →
      v'.dev.bh.mem (zone_of v inode.i_data b) = v.dev.bh.mem (zone_of v inode.i_data b)) :
    Reads v' inode' data := by
  intro _ hb b o hin ho
  have hin : Within v b := (within_congr hmax hs).1 hin
  rw [hs.bs] at ho ⊢
  rw [← h hc (hmode ▸ hb) b o hin ho]
  unfold file_byte
  rw [hzone b hin]
  by_cases h0 : zone_of v inode.i_data b = 0
  · rw [if_pos h0, if_pos h0]
  · rw [if_neg h0, if_neg h0, hmem b hin h0]

/-- The blocks of a tree that are left alone name the same blocks. -/
lemma forest_left {z : Nat → Nat} (hleft : ∀ x, TreeZone v z x → v'.dev.bh.mem x = v.dev.bh.mem x) :
    ∀ p n, (shape v).Path p n → (forest v' z).node p = (forest v z).node p := by
  intro p n hp
  induction hp with
  | slot _ => rfl
  | @word j p n hp hj ih =>
    rw [node_cons hp.ne_nil, node_cons hp.ne_nil, ih]
    by_cases h0 : (forest v z).node p = 0
    · rw [if_pos h0, if_pos h0]
    · rw [if_neg h0, if_neg h0]
      exact Dev.word_congr (hleft _ ⟨h0, p, _, hp, rfl⟩) j

/-- An inode whose blocks are left alone has the bytes it had. -/
lemma Reads.left {data : Nat → UInt8} (h : Reads v inode data) (size : SizeOk v)
    (hs : SameMount v v') (hleft : ∀ x, InodeZone v inode x → v'.dev.bh.mem x = v.dev.bh.mem x) :
    Reads v' inode data := by
  intro hc hb
  have hmax : v'.sbi.s_maxbytes = v.sbi.s_maxbytes := by rw [hs.sbi]
  have htree : ∀ x, TreeZone v inode.i_data x → v'.dev.bh.mem x = v.dev.bh.mem x :=
    fun x hx => hleft x ((InodeZone.of_tree hc hb).2 hx)
  refine h.frame hs hmax hc rfl (fun b hin => ?_) (fun b hin h0 => ?_) hc hb
  · have hpath := block_path_spec size hin
    rw [zone_of, hs.block_path]
    exact forest_left htree _ 0 hpath
  · exact htree _ ⟨h0, _, 0, block_path_spec size hin, rfl⟩

/-- The inode becomes another one in order with the same blocks and bytes. -/
lemma Stepped.swap (fine : InodeFine v inode) (fine' : InodeFine v inode')
    (hE : 0 < entries_per_block v.dev) (hz : ∀ x, InodeZone v inode' x ↔ InodeZone v inode x)
    (hr : ∀ data, Reads v inode data → Reads v inode' data) : Stepped v v inode (some inode') id := by
  have hzone : ZonesOf v (some inode') = InodeZone v inode :=
    funext fun x => propext (zonesOf_some.trans (hz x))
  refine ⟨⟨.refl v, rfl, ?_, fun _ _ _ _ => ⟨rfl, rfl⟩⟩, fun x hx => ?_, fun i hi => ?_, rfl,
    fun _ _ _ => ⟨rfl, rfl⟩, fun i hi data h => ?_, fun h => hzone ▸ h⟩
  · rw [hzone]
    exact .refl fun x hx => fine.ok.used hE hx
  · rw [hzone]
    by_cases hx' : InodeZone v inode x
    · exact .inr hx'
    · exact .inl ⟨hx, hx'⟩
  · cases hi
    exact fine'
  · cases hi
    exact hr data h

/-! ## Inodes read again -/

/-- Only the ten zone words matter. -/
lemma forest_congr {z z' : Nat → Nat} (hz : ∀ k < 10, z' k = z k) : ∀ p n, (shape v).Path p n →
    (forest v z').node p = (forest v z).node p := by
  intro p n hp
  induction hp with
  | slot hk => exact hz _ hk
  | word hp _ ih => rw [node_cons hp.ne_nil, node_cons hp.ne_nil, ih, forest_word, forest_word]

lemma TreeOk.words {z z' : Nat → Nat} (ok : TreeOk v z) (hz : ∀ k < 10, z' k = z k) :
    TreeOk v z' := by
  have hnode := forest_congr (v := v) hz
  refine ⟨fun p q m n hp hq => ?_, fun x hx => ?_, fun p n hp h0 => ?_⟩
  · rw [hnode p m hp, hnode q n hq]
    exact ok.inj p q m n hp hq
  · exact ok.zone x ((treeZone_congr (.refl v) hnode).1 hx)
  · rw [hnode p _ hp] at h0 ⊢
    exact ok.covered p n hp h0

/-- An inode with the same zone words and its own operations is in order, too. -/
lemma InodeFine.words (fine : InodeFine v inode) (size : SizeOk v) (hz : ∀ k < 10, inode'.i_data k = inode.i_data k)
    (hmode : inode'.i_mode = inode.i_mode) (hsize : inode'.i_size ≤ v.sbi.s_maxbytes)
    (hops : OpsOk inode') : InodeFine v inode' ∧ (∀ x, InodeZone v inode' x ↔ InodeZone v inode x) ∧
      ∀ data, Reads v inode data → Reads v inode' data := by
  have hc : inode_is_chunked inode' = inode_is_chunked inode := by
    unfold inode_is_chunked
    rw [hz 0 (by decide), hz 9 (by decide)]
  have h1 := hz 1 (by decide)
  have h2 := hz 2 (by decide)
  have h3 := hz 3 (by decide)
  have hnode := forest_congr (v := v) hz
  refine ⟨⟨⟨fun h hb => ?_, fun h => ?_⟩, hsize, hops⟩, fun x => ?_, fun data h hch hb b o hin ho => ?_⟩
  · exact (fine.ok.tree (hc.symm.trans h) (hmode ▸ hb)).words hz
  · obtain ⟨hreg, blocks, es, hl⟩ := fine.ok.list (hc.symm.trans h)
    refine ⟨hmode.trans hreg, blocks, es, ?_, ?_, ?_, hl.nodup, hl.used, hl.list, hl.covered⟩
    · rw [get_list_head, h1]
      exact hl.head
    · rw [h2]
      exact hl.size
    · rw [h3]
      exact hl.last
  · unfold InodeZone ListZone get_list_head
    rw [hc, hmode, h1, h2, treeZone_congr (.refl v) hnode]
  · have := h (hc.symm.trans hch) (hmode ▸ hb) b o hin ho
    have hzone : zone_of v inode'.i_data b = zone_of v inode.i_data b :=
      hnode _ 0 (block_path_spec size hin)
    unfold file_byte at this ⊢
    rw [hzone]
    exact this

/-- An inode with the same zone words, type and operations is in order as before. -/
lemma Stepped.same (fine : InodeFine v inode) (size : SizeOk v) (hdata : inode'.i_data = inode.i_data)
    (hmode : inode'.i_mode = inode.i_mode) (hfop : inode'.i_fop = inode.i_fop)
    (haops : inode'.a_ops = inode.a_ops) (hsize : inode'.i_size ≤ v.sbi.s_maxbytes) :
    Stepped v v inode (some inode') id := by
  obtain ⟨h1, h2, h3⟩ := fine.words size (fun k _ => congrFun hdata k) hmode hsize
    (fine.ops.congr hmode hfop haops (chunked_congr hdata))
  exact .swap fine h1 (entries_per_block_pos size.bits) h2 h3

/-- An inode of a type without blocks has none. -/
lemma InodeFine.no_zones (fine : InodeFine v inode) (hb : has_blocks inode.i_mode = false) (x : Nat) :
    ¬ InodeZone v inode x := by
  intro hx
  have hc : inode_is_chunked inode = false := by
    cases hc : inode_is_chunked inode with
    | false => rfl
    | true =>
      rw [(fine.ok.list hc).1] at hb
      cases hb
  unfold InodeZone at hx
  rw [hc, if_neg Bool.false_ne_true, hb] at hx
  exact Bool.false_ne_true hx.1

/-! ## Changes of the tree -/

/-- A step of the forest of an unchunked inode. -/
lemma TreeStep.stepped {f : (Nat → UInt8) → Nat → UInt8}
    (h : TreeStep v v' (TreeZone v inode.i_data) (TreeZone v' inode'.i_data))
    (fine : InodeFine v inode) (hc : inode_is_chunked inode = false)
    (hb : has_blocks inode.i_mode = true) (ok' : TreeOk v' inode'.i_data) (area : ZmapOk v)
    (hsize : inode'.i_size ≤ v.sbi.s_maxbytes) (hmode : inode'.i_mode = inode.i_mode)
    (hfop : inode'.i_fop = inode.i_fop) (haops : inode'.a_ops = inode.a_ops)
    (hcov : CoveredOn v (TreeZone v inode.i_data) → CoveredOn v' (TreeZone v' inode'.i_data))
    (hreads : ∀ data, Reads v inode data → Reads v' inode' (f data)) :
    Stepped v v' inode (some inode') f := by
  have hc' : inode_is_chunked inode' = false := ok'.not_chunked (area.step h.toZmapStep) rfl
  have hold : InodeZone v inode = TreeZone v inode.i_data :=
    funext fun x => propext (InodeZone.of_tree hc hb)
  have hnew : ZonesOf v' (some inode') = TreeZone v' inode'.i_data :=
    funext fun x => propext (zonesOf_some.trans (InodeZone.of_tree hc' (hmode ▸ hb)))
  refine ⟨?_, ?_, fun i hi => ?_, h.sbi_eq, ?_, fun i hi data => ?_, ?_⟩
  · rw [hold, hnew]
    exact h.own
  · rw [hold, hnew]
    exact h.exact
  · cases hi
    refine ⟨⟨fun _ _ => ok', fun h => absurd (hc'.symm.trans h) Bool.noConfusion⟩, ?_,
      fine.ops.congr hmode hfop haops (hc'.trans hc.symm)⟩
    rw [h.sbi_eq]
    exact hsize
  · rw [hold]
    exact h.out
  · cases hi
    exact hreads data
  · rw [hold, hnew]
    exact hcov

/-- A new branch leaves the other data blocks. -/
lemma Grew.leaf_of_ne {z z' news : _} {block : Nat} {p : List Nat}
    (g : Grew v v' z z' (block_path v block) news) (size : SizeOk v) (hin : Within v block)
    (hp : (shape v).Path p 0) (hne : p ≠ block_path v block) :
    (forest v' z').node p = (forest v z).node p := by
  obtain ⟨q, hq, hg⟩ := g.grown
  by_cases hqp : q <:+ p
  · have hnot : ¬ p <:+ block_path v block := by
      rintro ⟨l, hl⟩
      have hheight := path_height (hl ▸ block_path_spec size hin : (shape v).Path (l ++ p) 0) hp
      have hl0 : l = [] := List.length_eq_zero_iff.1 (by omega)
      rw [hl0, List.nil_append] at hl
      exact hne hl
    rw [hg.empty _ 0 hp hqp hnot]
    obtain ⟨l, hl⟩ := hqp
    by_contra hzone
    rw [← hl, ← List.reverse_reverse l] at hzone
    exact node_ne_of_append hq (Ne.symm hzone) hg.vacant
  · exact hg.others _ 0 hp hqp

/-- A new branch leaves the zones of the other blocks. -/
lemma Grew.zone_of_ne {z z' news : _} {block b : Nat} (g : Grew v v' z z' (block_path v block) news)
    (size : SizeOk v) (hin : Within v block) (hb : Within v b) (hne : b ≠ block) :
    zone_of v' z' b = zone_of v z b := by
  have geo : Geometry v := ⟨size.bits, size.maxbytes⟩
  rw [zone_of_congr g.sbi_eq g.bits]
  exact g.leaf_of_ne size hin (block_path_spec size hb) fun h => hne (geo.path_inj hb hin h)

/-- The data block of a new branch is written to. -/
lemma Grew.stored {z z' : Nat → Nat} {news : List Nat} {block nr : Nat} {m : Mem} {v₁ : Vol}
    (g : Grew v v₁ z z' (block_path v block) news) (ok : TreeOk v z) (size : SizeOk v)
    (hin : Within v block) (hnr : nr = (forest v₁ z').node (block_path v block))
    (hv : v' = { v₁ with dev := (v₁.dev.store nr m).mark_buffer_dirty nr }) :
    nr ≠ 0 ∧ nr ∈ news ∧ Wrote v₁ v' nr ∧ TreeStep v v' (TreeZone v z) (TreeZone v' z') ∧
      TreeOk v' z' ∧ ∀ q n, (shape v).Path q n → (forest v' z').node q = (forest v₁ z').node q := by
  have hp := block_path_spec size hin
  have hp₁ : (shape v₁).Path (block_path v block) 0 := g.shape.symm ▸ hp
  obtain ⟨q, hq, hg⟩ := g.grown
  have hnews : news ≠ [] := by
    rintro rfl
    have hlen := hg.length
    have hle := hg.below.length_le
    rw [List.length_nil] at hlen
    omega
  have hmem : nr ∈ news := hnr ▸ g.last hp hnews ▸ List.getLast_mem hnews
  have h0 : nr ≠ 0 := fun h => g.zero (h ▸ hmem)
  have hw : Wrote v₁ v' nr := by
    rw [hv]
    exact ⟨⟨rfl, rfl, rfl, rfl, rfl⟩, rfl, rfl, rfl, fun x hx =>
      ⟨Buffers.set_mem_of_ne _ _ hx, Buffers.mark_dirty_of_ne _ hx⟩⟩
  obtain ⟨h1, h2, h3⟩ := g.tree.wrote hp₁ (hnr ▸ h0) (hnr ▸ hw)
  exact ⟨h0, hmem, hw, (g.treeStep ok hp).trans h1, h2, fun q n hq => h3 q n (g.shape.symm ▸ hq)⟩

/-- Of the new blocks of a branch the last one is zeroed by the VFS. -/
lemma Grew.zeroed {z' : Nat → Nat} {news : List Nat} {block : Nat} {v₁ : Vol}
    (g : Grew v v₁ inode.i_data z' (block_path v block) news) (fine : InodeFine v inode)
    (hc : inode_is_chunked inode = false) (hb : has_blocks inode.i_mode = true) (area : AreaOk v)
    (size : SizeOk v) (hin : Within v block) (h0 : zone_of v inode.i_data block = 0)
    (hv : v' = { v₁ with dev := (v₁.dev.store ((forest v₁ z').node (block_path v block))
      fun _ => 0).mark_buffer_dirty ((forest v₁ z').node (block_path v block)) })
    (hmarks : Marks v.dev v₁.dev) :
    Stepped v v' inode (some { inode with i_data := z', dirty := true }) id := by
  have ok := fine.ok.tree hc hb
  obtain ⟨hnr, hmem, hw, hstep, h2, h3⟩ := g.stored ok size hin rfl hv
  have hall : Marks v.dev v'.dev := by
    rw [hv]
    exact hmarks.trans (.store_mark _ _ _)
  have hcov : CoveredOn v (TreeZone v inode.i_data) → CoveredOn v' (TreeZone v' z') := by
    refine fun hc x => h2.all_covered fun p hp hp0 => ?_
    rw [hstep.shape] at hp
    rw [h3 p 0 hp] at hp0 ⊢
    by_cases hpb : p = block_path v block
    · subst hpb
      rw [hv]
      exact .inl (Buffers.mark_dirty_self _ _)
    · rw [g.leaf_of_ne size hin hp hpb] at hp0 ⊢
      exact hall.covered hstep.disk (hc _ ⟨hp0, p, 0, hp, rfl⟩)
  have hzone' : ∀ b, Within v b → zone_of v' z' b = zone_of v₁ z' b := by
    intro b hb
    rw [zone_of_congr hw.sbi_eq hw.bits, h3 _ 0]
    · rfl
    · rw [g.block_path]
      exact block_path_spec size hb
  refine hstep.stepped fine hc hb h2 area.zmap fine.size rfl rfl rfl hcov fun data h => ?_
  intro _ _ b o hin' ho
  have hmax := congrArg SbInfo.s_maxbytes hstep.sbi_eq
  have hin' : Within v b := (within_congr hmax hstep.toSameMount).1 hin'
  rw [hstep.bs] at ho ⊢
  dsimp only [id]
  rw [← h hc hb b o hin' ho]
  unfold file_byte
  by_cases hbb : b = block
  · subst hbb
    rw [hzone' b hin', zone_of_congr g.sbi_eq g.bits, h0, if_neg hnr, if_pos rfl, hv]
    dsimp only
    rw [Dev.mark_bh, Buffers.mark_mem, Dev.store_bh, Buffers.set_mem_self]
  · have hzone : zone_of v' z' b = zone_of v inode.i_data b :=
      (hzone' b hin').trans (g.zone_of_ne size hin hin' hbb)
    rw [hzone]
    by_cases hz : zone_of v inode.i_data b = 0
    · rw [if_pos hz, if_pos hz]
    · rw [if_neg hz, if_neg hz, (hw.out _ ?_).1]
      · exact congrFun (g.leaf _ (block_path_spec size hin')) o
      · intro he
        have hused := (ok.zone _ ⟨hz, _, _, block_path_spec size hin', rfl⟩).2
        have hfree := (g.free _ hmem).2
        rw [← he] at hfree
        exact Bool.noConfusion (hused.symm.trans hfree)

/-- Mapping a block of a file, after which the VFS zeroes a new one. -/
lemma get_block_stepped {getblk : Nat → Bool} {block : Nat} {g : GetBlock} {v₁ : Vol}
    (fine : InodeFine v inode) (ha : inode.a_ops = .cominix_aops) (area : AreaOk v) (size : SizeOk v)
    (hblock : block * v.dev.bs < 2 ^ 63)
    (h : get_block getblk v inode block true = some (v₁, inode', g))
    (hv : v' = match g with
      | .mapped nr true => { v₁ with dev := (v₁.dev.store nr fun _ => 0).mark_buffer_dirty nr }
      | _ => v₁) :
    Stepped v v' inode (some inode') id ∧
      inode' = { inode with i_data := inode'.i_data, dirty := inode'.dirty } ∧
      (inode' = inode ∨ inode'.dirty = true) := by
  obtain ⟨hc, hb⟩ := fine.mapped ha
  have ok := fine.ok.tree hc hb
  have hsame : Stepped v v inode (some inode) id :=
    .same fine size rfl rfl rfl rfl fine.size
  by_cases hin : Within v block
  · obtain ⟨r, hr, hgot⟩ := @get_block_spec v inode getblk true block ok area size hin
    rw [h] at hr
    obtain rfl := Option.some.inj hr
    cases hgot with
    | found _ =>
      rw [hv]
      exact ⟨hsame, rfl, .inl rfl⟩
    | hole _ hcreate => cases hcreate
    | failed _ _ hq _ =>
      rw [hv]
      obtain ⟨htree, hnode⟩ := hq.tree ok
      have hstep : TreeStep v v₁ (TreeZone v inode.i_data) (TreeZone v₁ inode.i_data) := by
        have hz : TreeZone v₁ inode.i_data = TreeZone v inode.i_data :=
          funext fun x => propext (treeZone_congr hq.toSameMount hnode)
        rw [hz]
        exact hq.treeStep ok
      have hcov : CoveredOn v (TreeZone v inode.i_data) → CoveredOn v₁ (TreeZone v₁ inode.i_data) := by
        intro hc x hx
        have hx := (treeZone_congr hq.toSameMount hnode).1 hx
        obtain ⟨h1, h2⟩ := hq.out x fun _ => (ok.zone x hx).2
        exact (hc x hx).congr h1 (by rw [hq.disk]) fun hd => h2.trans hd
      refine ⟨hstep.stepped fine hc hb htree area.zmap fine.size rfl rfl rfl hcov fun data hd => ?_,
        rfl, .inl rfl⟩
      refine hd.frame hq.toSameMount (congrArg _ hq.sbi_eq) hc rfl (fun b hb => ?_) fun b hb h0 => ?_
      · rw [zone_of_congr hq.sbi_eq hq.bits]
        exact hnode _ 0 (block_path_spec size hb)
      · exact (hq.out _ fun _ => (ok.zone _ ⟨h0, _, _, block_path_spec size hb, rfl⟩).2).1
    | new h0 _ hg =>
      exact ⟨hg.zeroed fine hc hb area size hin h0 hv (get_block_marks ok area size hin h), rfl, .inr rfl⟩
  · unfold get_block at h
    rw [block_to_path_nil (by omega) hin] at h
    cases h
    rw [hv]
    exact ⟨hsame, rfl, .inl rfl⟩

/-- The bytes of a file with one block written. -/
def write_bytes (bs block : Nat) (new : Mem) (data : Nat → UInt8) (pos : Nat) : UInt8 :=
  if pos / bs = block then new (pos % bs) else data pos

/-- Writing to a block of a file. -/
lemma write_stepped {block nr : Nat} {data : Mem} {new : Bool} {v₁ : Vol} (fine : InodeFine v inode)
    (ha : inode.a_ops = .cominix_aops) (area : AreaOk v) (size : SizeOk v)
    (hblock : block * v.dev.bs < 2 ^ 63)
    (h : get_block (fun _ => true) v inode block false = some (v₁, inode', .mapped nr new)) :
    v₁ = v ∧ Within v block ∧ nr = zone_of v inode.i_data block ∧ nr ≠ 0 ∧
    Stepped v { v with dev := (v.dev.store nr data).mark_buffer_dirty nr } inode (some inode)
      (write_bytes v.dev.bs block data) := by
  obtain ⟨hc, hb⟩ := fine.mapped ha
  have ok := fine.ok.tree hc hb
  by_cases hin : Within v block
  · obtain ⟨r, hr, hgot⟩ := @get_block_spec v inode (fun _ => true) false block ok area size hin
    rw [h] at hr
    obtain rfl := Option.some.inj hr
    cases hgot with
    | found h0 =>
      refine ⟨rfl, hin, rfl, h0, ?_⟩
      generalize hv : ({ v with dev := (v.dev.store ((forest v inode.i_data).node
          (block_path v block)) data).mark_buffer_dirty ((forest v inode.i_data).node
          (block_path v block)) } : Vol) = v'
      have hw : Wrote v v' ((forest v inode.i_data).node (block_path v block)) := by
        rw [← hv]
        exact ⟨⟨rfl, rfl, rfl, rfl, rfl⟩, rfl, rfl, rfl, fun x hx =>
          ⟨Buffers.set_mem_of_ne _ _ hx, Buffers.mark_dirty_of_ne _ hx⟩⟩
      obtain ⟨h1, h2, h3⟩ := ok.wrote (block_path_spec size hin) h0 hw
      have hcov : CoveredOn v (TreeZone v inode.i_data) → CoveredOn v' (TreeZone v' inode.i_data) := by
        intro hc x hx
        have hx := (treeZone_congr h1.toSameMount h3).1 hx
        rw [← hv]
        exact (Marks.store_mark v.dev _ data).covered rfl (hc x hx)
      refine h1.stepped fine hc hb h2 area.zmap fine.size rfl rfl rfl hcov fun bytes hd => ?_
      intro _ _ b o hin' ho
      have hin' : Within v b := (within_congr (congrArg _ h1.sbi_eq) h1.toSameMount).1 hin'
      rw [h1.bs] at ho ⊢
      have hzone : zone_of v' inode.i_data b = zone_of v inode.i_data b := by
        rw [zone_of_congr h1.sbi_eq h1.bits]
        exact h3 _ 0 (block_path_spec size hin')
      have hdiv : (b * v.dev.bs + o) / v.dev.bs = b := by
        rw [Nat.mul_comm, Nat.mul_add_div v.dev.bs_pos, Nat.div_eq_of_lt ho, Nat.add_zero]
      have hmod : (b * v.dev.bs + o) % v.dev.bs = o := by
        rw [Nat.mul_comm, Nat.mul_add_mod, Nat.mod_eq_of_lt ho]
      unfold file_byte write_bytes
      rw [hzone, hdiv, hmod]
      by_cases hbb : b = block
      · subst hbb
        rw [if_pos rfl, if_neg (show zone_of v inode.i_data b ≠ 0 from h0), ← hv]
        dsimp only
        rw [zone_of, Dev.mark_bh, Buffers.mark_mem, Dev.store_bh, Buffers.set_mem_self]
      · rw [if_neg hbb, ← hd hc hb b o hin' ho]
        unfold file_byte
        by_cases hz : zone_of v inode.i_data b = 0
        · rw [if_pos hz, if_pos hz]
        · rw [if_neg hz, if_neg hz, (hw.out _ fun he => hbb (ok.zone_inj size hin' hin hz he)).1]
    | new _ hcreate _ => cases hcreate
  · unfold get_block at h
    rw [block_to_path_nil (by omega) hin] at h
    cases h

/-- The bytes of a file that was cut off at a size. -/
def cut_bytes (i_size : Nat) (data : Nat → UInt8) (pos : Nat) : UInt8 :=
  if pos < i_size then data pos else 0

/-- What `truncate` does to the bytes of a file. -/
lemma Truncated.reads {data : Nat → UInt8} (t : Truncated v inode v' inode')
    (hc : inode_is_chunked inode = false) (h : Reads v inode data) :
    Reads v' inode' (cut_bytes inode.i_size data) := by
  have hmode : inode'.i_mode = inode.i_mode := by rw [t.inode_eq]
  intro _ hb b o hin ho
  have hin : Within v b := (within_congr (congrArg _ t.step.sbi_eq) t.step.toSameMount).1 hin
  rw [t.step.bs] at ho ⊢
  have hd := h hc (hmode ▸ hb) b o hin ho
  unfold file_byte at hd ⊢
  unfold cut_bytes
  by_cases hend : b * v.dev.bs < inode.i_size
  · rw [t.keep b hin hend]
    by_cases hz : zone_of v inode.i_data b = 0
    · rw [if_pos hz] at hd ⊢
      rw [← hd]
      split <;> rfl
    · rw [if_neg hz] at hd ⊢
      by_cases hlt : b * v.dev.bs + o < inode.i_size
      · rw [if_pos hlt, t.data b o hin hlt hz, hd]
      · rw [if_neg hlt, t.tail b o hin hend (by omega) ho hz]
  · rw [t.gone b hin (by omega), if_pos rfl, if_neg (by omega)]

/-- `truncate` marks the inode, or leaves it. -/
lemma truncate_dirty (h : truncate v inode = some (v', inode')) :
    inode' = inode ∨ inode'.dirty = true := by
  have hmark : ∀ v offsets, (truncate_tree v inode offsets).2 = inode ∨
      (truncate_tree v inode offsets).2.dirty = true := by
    intro v offsets
    cases offsets with
    | nil => exact .inl rfl
    | cons k ks =>
      cases ks with
      | nil => exact .inr rfl
      | cons _ _ => exact .inr rfl
  unfold truncate at h
  cases hp : block_truncate_page v inode with
  | none =>
    rw [hp] at h
    cases h
  | some v₁ =>
    simp only [hp, Option.some.injEq] at h
    have := hmark v₁ (block_to_path v₁ ((inode.i_size + v.dev.bs - 1) / v.dev.bs))
    rwa [h] at this

/-- `cominix_truncate` does nothing, or is `truncate`. -/
lemma cominix_truncate_cases (h : cominix_truncate v inode = some (v', inode')) :
    (inode_is_chunked inode = true ∨ has_blocks inode.i_mode = false) ∧ v' = v ∧ inode' = inode ∨
    inode_is_chunked inode = false ∧ has_blocks inode.i_mode = true ∧
      truncate v inode = some (v', inode') := by
  unfold cominix_truncate at h
  cases hc : inode_is_chunked inode with
  | true =>
    rw [hc, if_pos rfl] at h
    cases h
    exact .inl ⟨.inl rfl, rfl, rfl⟩
  | false =>
    rw [hc, if_neg Bool.false_ne_true] at h
    cases hm : inode.i_mode with
    | reg =>
      rw [hm] at h
      exact .inr ⟨rfl, rfl, h⟩
    | dir =>
      rw [hm] at h
      exact .inr ⟨rfl, rfl, h⟩
    | lnk =>
      rw [hm] at h
      exact .inr ⟨rfl, rfl, h⟩
    | dev =>
      rw [hm] at h
      cases h
      exact .inl ⟨.inr rfl, rfl, rfl⟩
    | other =>
      rw [hm] at h
      cases h
      exact .inl ⟨.inr rfl, rfl, rfl⟩

/-- Truncating an inode to its size. -/
lemma truncate_stepped (fine : InodeFine v inode) (area : AreaOk v) (size : SizeOk v)
    (h : cominix_truncate v inode = some (v', inode')) :
    Stepped v v' inode (some inode') (cut_bytes inode.i_size) ∧
      inode' = { inode with i_data := inode'.i_data, dirty := inode'.dirty } ∧
      (inode' = inode ∨ inode'.dirty = true) := by
  rcases cominix_truncate_cases h with ⟨hnone, rfl, rfl⟩ | ⟨hc, hb, hr⟩
  · have hsame : Stepped v' v' inode' (some inode') id :=
      .same fine size rfl rfl rfl rfl fine.size
    refine ⟨⟨hsame.own, hsame.exact, hsame.fine, rfl, hsame.low, fun i hi data _ hc hb => ?_,
      hsame.covered⟩, rfl, .inl rfl⟩
    cases hi
    cases hnone with
    | inl h => exact absurd (h.symm.trans hc) Bool.noConfusion
    | inr h => exact absurd (h.symm.trans hb) Bool.noConfusion
  · obtain ⟨v₁, i₁, hrun, ht⟩ := truncate_spec (fine.ok.tree hc hb) area size
      (fine.size.trans_lt (size.maxbytes.trans (by decide)))
    rw [hr] at hrun
    cases hrun
    have heq := ht.inode_eq
    have hcov := truncate_covered (fine.ok.tree hc hb) area size
      (fine.size.trans_lt (size.maxbytes.trans (by decide))) hr
    refine ⟨ht.step.stepped fine hc hb ht.tree area.zmap (by rw [heq]; exact fine.size)
      (by rw [heq]) (by rw [heq]) (by rw [heq]) hcov fun data hd => ht.reads hc hd, heq,
      truncate_dirty hr⟩

/-- What a truncation to nothing leaves. -/
lemma truncate_empty (fine : InodeFine v inode) (area : AreaOk v) (size : SizeOk v)
    (hc : inode_is_chunked inode = false) (h0 : inode.i_size = 0)
    (h : cominix_truncate v inode = some (v', inode')) (x : Nat) : ¬ InodeZone v' inode' x := by
  rcases cominix_truncate_cases h with ⟨hnone, rfl, rfl⟩ | ⟨-, hb, hr⟩
  · have hb : has_blocks inode'.i_mode = false :=
      hnone.resolve_left fun h => absurd (h.symm.trans hc) Bool.noConfusion
    intro hx
    unfold InodeZone at hx
    rw [hc, if_neg Bool.false_ne_true, hb] at hx
    exact Bool.false_ne_true hx.1
  · obtain ⟨v₁, i₁, hrun, ht⟩ := truncate_spec (fine.ok.tree hc hb) area size
      (fine.size.trans_lt (size.maxbytes.trans (by decide)))
    rw [hr] at hrun
    cases hrun
    have hc' : inode_is_chunked inode' = false :=
      ht.tree.not_chunked (area.zmap.step ht.step.toZmapStep) rfl
    have hmode : inode'.i_mode = inode.i_mode := by rw [ht.inode_eq]
    rw [InodeZone.of_tree hc' (hmode ▸ hb)]
    exact ht.empty h0 x

end CominixFs
