import CominixFs.FsSteps

/-!
# Unmounting and mounting again

What the driver holds in memory is on the device or marked, but for free zones (`Durable`): every
step keeps this unless an empty file is chunked. So an unmount followed by a mount finds the
superblock, the bitmap, the inodes and their blocks as they were (`Remounted`).
-/

namespace CominixFs
open Bytes Forest

/-- What a mount takes from the superblock is what is in memory, but the hashtable and the heap. -/
structure MountInfo (s : Fs) : Prop where
  zones : ∃ s_zones, sb_info (.read (s.s_sbh.bh.mem 1)) = { s.vol.sbi with
      s_nzones := s_zones, hashtable := 0, hashtable_size := 0, heap_brk := 0, max_brk := 0 } ∧
    s.vol.sbi.s_nzones ≤ s_zones ∧ s.vol.sbi.max_brk = s_zones * s.vol.dev.bs
  nzones : s.vol.sbi.s_nzones = s.vol.sbi.hashtable / s.vol.dev.bs
  fit : MapsFit s.vol.sbi s.vol.dev
  table : 2 + s.vol.sbi.s_imap_blocks + s.vol.sbi.s_zmap_blocks
    + (s.vol.sbi.s_ninodes + (s.vol.dev.bs / 64 - 1)) / (s.vol.dev.bs / 64)
    ≤ s.vol.sbi.s_firstdatazone

/-- What is needed of it is on the device or marked: the blocks that have an owner or are not in the
normal area, the zone bitmap, the superblock and the inode table, where a number without an inode has
no links. A superblock whose buffer is detached is on the device as it was before the first mount. -/
structure Durable (s : Fs) : Prop where
  owned : ∀ i, CoveredOn s.vol (s.owner i)
  rest : ∀ x, ¬ InArea s.vol x → s.vol.dev.bh.Covered x
  s_zmap : ∀ i, s.vol.s_zmap.Covered i
  itable : ∀ b, s.itable.Covered b
  gone : ∀ ino, s.inodes ino = none → ∀ raw, s.raw ino = some raw → raw.i_nlinks = 0
  esb : s.vol.sbi.extra_sb_location ≠ 0
  stored : EsbStored s.vol
  info : MountInfo s
  s_sbh : s.s_sbh.bh.Covered 1
  detached : s.s_sbh.attached = false →
    (sb_info (.read (s.s_sbh.bh.disk 1))).extra_sb_location = 0

variable {s s' : Fs} {ino : Nat} {inode inode' : Inode} {v v' : Vol} {quiet leak bare : Prop}
  {f : (Nat → UInt8) → Nat → UInt8} {keep : Nat → Bool}

/-! ## Steps -/

lemma MountInfo.congr (h : MountInfo s)
    (hsbi : s'.vol.sbi = { s.vol.sbi with heap_brk := s'.vol.sbi.heap_brk })
    (hbits : s'.vol.dev.s_blocksize_bits = s.vol.dev.s_blocksize_bits)
    (hnb : s'.vol.dev.nblocks = s.vol.dev.nblocks) (hsb : s'.s_sbh.bh.mem 1 = s.s_sbh.bh.mem 1) :
    MountInfo s' := by
  have hbs : s'.vol.dev.bs = s.vol.dev.bs := by rw [Dev.bs, hbits, Dev.bs]
  obtain ⟨z, h1, h2, h3⟩ := h.zones
  have hfit := h.fit
  have htable := h.table
  have hnz := h.nzones
  refine ⟨⟨z, ?_, ?_, ?_⟩, ?_, ⟨?_, ?_, ?_⟩, ?_⟩
  · rw [hsb, h1, hsbi]
  · rw [hsbi]
    exact h2
  · rw [hbs, hsbi]
    exact h3
  · rw [hbs, hsbi]
    exact hnz
  · rw [hnb, hsbi]
    exact hfit.blocks
  · rw [hbs, hsbi]
    exact hfit.imap
  · rw [hbs, hsbi]
    exact hfit.zmap
  · rw [hbs, hsbi]
    exact htable

/-- A step that marks what it writes keeps everything on the device or marked. -/
lemma FsStep.durable (ok : FsOk s) (d : Durable s) (st : FsStep s s' ino quiet leak bare f)
    (hbare : ¬ bare) : Durable s' := by
  have hm := st.own.toSameMount
  have hrest : ∀ x, (InArea s.vol x → x = s.vol.sbi.extra_sb_location) → s'.vol.dev.bh.Covered x := by
    intro x hx
    refine st.rest x hx ?_
    by_cases harea : InArea s.vol x
    · exact d.owned none x (hx harea)
    · exact d.rest x harea
  refine ⟨fun i x hx => ?_, fun x hx => ?_, fun i => st.own.covered i (d.s_zmap i),
    fun b => st.itable b (d.itable b), fun j hj raw hr => ?_, ?_, st.esb d.stored,
    d.info.congr hm.sbi hm.bits hm.nblocks (by rw [st.s_sbh]), st.s_sbh ▸ d.s_sbh,
    st.s_sbh ▸ d.detached⟩
  · cases i with
    | none =>
      have hx : x = s'.vol.sbi.extra_sb_location := hx
      exact hrest x fun _ => hx.trans hm.esb
    | some j =>
      by_cases hj : j = ino
      · subst hj
        exact st.marked hbare (d.owned (some j)) x hx
      · have hx := (st.owner_same ok (some j) (fun h => hj (Option.some.inj h)) x).1 hx
        have hold : ¬ ZonesOf s.vol (s.inodes ino) x := by
          intro ho
          have := ok.owned.unique (some j) (some ino) x hx ho
          exact hj (Option.some.inj this)
        obtain ⟨h1, h2⟩ := st.own.out x (ok.owned.used (some j) x hx) hold (ok.not_esb hx)
        exact (d.owned (some j) x hx).congr h1 (by rw [hm.disk]) fun hd => h2.trans hd
  · exact hrest x fun h => absurd (hm.inArea.2 h) hx
  · by_cases hji : j = ino
    · subst hji
      exact st.gone hj raw hr
    · rw [st.others j hji] at hj
      rw [st.raw j hji] at hr
      exact d.gone j hj raw hr
  · rw [hm.esb]
    exact d.esb

/-! ## Writing the inodes -/

/-- Every inode has a slot. -/
lemma Durable.has_raw (ok : FsOk s) (d : Durable s) (hi : s.inodes ino = some inode) :
    ∃ p, cominix_V2_raw_inode s.vol.sbi s.vol.dev ino = some p := by
  obtain ⟨hn0, hn⟩ := (ok.live ino inode hi).num
  have htable := d.info.table
  obtain ⟨harea, -⟩ := ok.vol.esb.resolve_left d.esb
  have hlt := ok.vol.lt_nblocks harea
  have hle := harea.1
  have hdiv : (ino - 1) / (s.vol.dev.bs / 64)
      < (s.vol.sbi.s_ninodes + (s.vol.dev.bs / 64 - 1)) / (s.vol.dev.bs / 64) := by
    have hpos : 0 < s.vol.dev.bs / 64 := by
      have := (Dev.bs_bounds ok.size.bits).1
      omega
    rw [Nat.lt_iff_add_one_le, ← Nat.add_div_right _ hpos]
    exact Nat.div_le_div_right (by omega)
  unfold cominix_V2_raw_inode
  dsimp only
  rw [if_neg (by omega), if_pos (by omega)]
  exact ⟨_, rfl⟩

/-- An inode that was written back. -/
def Inode.clean (inode : Inode) : Inode := { inode with dirty := false }

/-- What writing back the inodes of these numbers leaves. -/
structure SyncedInodes (s s' : Fs) (inos : List Nat) : Prop where
  ok : FsOk s'
  durable : Durable s'
  vol : s'.vol = s.vol
  s_sbh : s'.s_sbh = s.s_sbh
  inodes : ∀ ino, s'.inodes ino = if ino ∈ inos then (s.inodes ino).map Inode.clean else s.inodes ino

/-- One more inode is written back, if it is marked. -/
lemma SyncedInodes.next {inos : List Nat} {s₁ : Fs} (h : SyncedInodes s s₁ inos) (hino : ino ∉ inos)
    (hs' : s' = match s₁.inodes ino with
      | none => s₁
      | some inode => if inode.dirty then (s₁.write_inode ino).getD s₁ else s₁) :
    SyncedInodes s s' (inos ++ [ino]) := by
  have hold : s₁.inodes ino = s.inodes ino := by rw [h.inodes, if_neg hino]
  have hskip : (s.inodes ino).map Inode.clean = s.inodes ino → SyncedInodes s s₁ (inos ++ [ino]) := by
    intro hc
    refine ⟨h.ok, h.durable, h.vol, h.s_sbh, fun j => ?_⟩
    rw [h.inodes]
    by_cases hj : j = ino
    · subst hj
      rw [if_neg hino, if_pos (by simp), hc]
    · exact if_congr (by simp [hj]) rfl rfl
  cases hi : s₁.inodes ino with
  | none =>
    simp only [hi] at hs'
    rw [hs']
    refine hskip ?_
    rw [← hold, hi, Option.map_none]
  | some inode =>
    simp only [hi] at hs'
    cases hd : inode.dirty with
    | false =>
      rw [hd, if_neg Bool.false_ne_true] at hs'
      rw [hs']
      refine hskip ?_
      have hclean : inode.clean = inode := by
        unfold Inode.clean
        rw [← hd]
      rw [← hold, hi, Option.map_some, hclean]
    | true =>
      rw [hd, if_pos rfl] at hs'
      obtain ⟨p, hp⟩ := h.durable.has_raw h.ok hi
      have hw : ∃ t, cominix_write_inode s₁.vol.sbi s₁.vol.dev s₁.itable ino inode = some t := by
        unfold cominix_write_inode
        rw [hp]
        exact ⟨_, rfl⟩
      obtain ⟨t, hw⟩ := hw
      have hrun : s₁.write_inode ino = some { s₁.set_inode ino inode.clean with itable := t } := by
        unfold Fs.write_inode
        simp only [hi, hw]
        rfl
      rw [hrun, Option.getD_some] at hs'
      rw [← hs'] at hrun
      have st : FsStep s₁ s' ino True False False id := h.ok.write_inode hrun
      refine ⟨st.ok h.ok, st.durable h.ok h.durable id, ?_, ?_, fun j => ?_⟩
      · rw [hs']
        exact h.vol
      · rw [hs']
        exact h.s_sbh
      · by_cases hj : j = ino
        · subst hj
          rw [if_pos (by simp), ← hold, hi, hs']
          exact Function.update_self ..
        · rw [st.others j hj, h.inodes]
          exact if_congr (by simp [hj]) rfl rfl

/-- Every inode is written back. -/
lemma Durable.sync_inodes (ok : FsOk s) (d : Durable s) :
    SyncedInodes s s.sync_inodes (List.range (s.vol.sbi.s_ninodes + 1)) := by
  unfold Fs.sync_inodes
  generalize s.vol.sbi.s_ninodes + 1 = n
  induction n with
  | zero => exact ⟨ok, d, rfl, rfl, fun _ => rfl⟩
  | succ n ih =>
    rw [List.range_succ, List.foldl_append]
    exact ih.next (by simp) rfl

/-- No inode is marked afterwards. -/
lemma SyncedInodes.all (ok : FsOk s) (h : SyncedInodes s s' (List.range (s.vol.sbi.s_ninodes + 1)))
    (ino : Nat) : s'.inodes ino = (s.inodes ino).map Inode.clean := by
  rw [h.inodes]
  by_cases hin : ino ∈ List.range (s.vol.sbi.s_ninodes + 1)
  · rw [if_pos hin]
  · rw [if_neg hin]
    cases hi : s.inodes ino with
    | none => rfl
    | some inode =>
      have hn := (ok.live ino inode hi).num.2
      exact absurd (List.mem_range.2 (Nat.lt_succ_of_le hn)) hin

/-! ## Volumes read again -/

/-- Superblock, geometry and zone bitmap are those of before. -/
structure Reread (v v' : Vol) : Prop where
  sbi : v'.sbi = v.sbi
  bits : v'.dev.s_blocksize_bits = v.dev.s_blocksize_bits
  nblocks : v'.dev.nblocks = v.dev.nblocks
  s_zmap : v'.s_zmap.mem = v.s_zmap.mem

/-- The volume with the blocks of another one in memory. -/
def Vol.with_mem (v : Vol) (mem : Nat → Mem) : Vol :=
  { v with dev := { v.dev with bh := { v.dev.bh with mem := mem } } }

lemma Vol.with_mem_same (v : Vol) (mem : Nat → Mem) : SameMount v (v.with_mem mem) :=
  ⟨rfl, rfl, rfl, rfl, rfl⟩

namespace Reread

/-- The blocks, the device and the marks may be others. -/
lemma eq (h : Reread v v') : ∃ mem disk dirty zdisk zdirty printk, v' = { v with
    dev := ⟨v.dev.s_blocksize_bits, v.dev.nblocks, ⟨mem, disk, dirty⟩⟩
    s_zmap := ⟨v.s_zmap.mem, zdisk, zdirty⟩
    printk := printk } := by
  obtain ⟨sbi, ⟨bits, nblocks, mem, disk, dirty⟩, ⟨zmem, zdisk, zdirty⟩, printk⟩ := v'
  obtain ⟨h1, h2, h3, h4⟩ := h
  dsimp only at h1 h2 h3 h4
  subst h1 h2 h3 h4
  exact ⟨mem, disk, dirty, zdisk, zdirty, printk, rfl⟩

lemma inArea (h : Reread v v') {x : Nat} : InArea v' x ↔ InArea v x := by
  unfold InArea
  rw [h.sbi]

lemma zbit (h : Reread v v') (x : Nat) : CominixFs.zbit v' x = CominixFs.zbit v x := by
  obtain ⟨mem, disk, dirty, zdisk, zdirty, printk, rfl⟩ := h.eq
  rfl

lemma inUse (h : Reread v v') {x : Nat} : InUse v' x ↔ InUse v x := by
  unfold InUse
  rw [h.inArea, h.zbit]

lemma volOk (h : Reread v v') (ok : VolOk v) : VolOk v' := by
  have hbs : v'.dev.bs = v.dev.bs := by rw [Dev.bs, h.bits, Dev.bs]
  have hb : bits_per_zone v'.dev = bits_per_zone v.dev := by rw [bits_per_zone, hbs, bits_per_zone]
  have hbit : Bitmap.bitAt v'.s_zmap (bits_per_zone v.dev) 0
      = Bitmap.bitAt v.s_zmap (bits_per_zone v.dev) 0 := by
    unfold Bitmap.bitAt
    rw [h.s_zmap]
  refine ⟨ok.lay.congr h.sbi h.bits h.nblocks, ⟨?_, ?_, ?_, ?_, ?_⟩, ?_, ?_, ?_⟩
  · rw [h.sbi]; exact ok.zmap.first_pos
  · rw [h.sbi]; exact ok.zmap.nzones_lt
  · rw [h.sbi, hb]; exact ok.zmap.blocks_lt
  · rw [h.sbi, hb]; exact ok.zmap.covers
  · rw [hb, hbit]; exact ok.zmap.bit_zero
  · rw [h.sbi]; exact ok.first
  · rw [h.sbi, hbs]; exact ok.below
  · rw [h.sbi, h.inArea, h.zbit]; exact ok.esb

/-- A list whose blocks were read as they were. -/
lemma listed {blocks : List Nat} {es : List ChunkEntry} (h : Reread v v')
    (hl : Listed v inode blocks es) (hmem : ∀ b ∈ blocks, v'.dev.bh.mem b = v.dev.bh.mem b)
    (hcov : ∀ b ∈ blocks, v'.dev.bh.Covered b) : Listed v' inode blocks es := by
  have hbs : v'.dev.bs = v.dev.bs := by rw [Dev.bs, h.bits, Dev.bs]
  exact ⟨hl.head, hl.size, hl.last, hl.nodup, fun b hb => h.inUse.2 (hl.used b hb),
    hl.list.congr hbs hmem, fun _ => hcov⟩

/-- An inode whose blocks were read as they were. -/
lemma inodeOk (h : Reread v v') (ok : InodeOk v inode) (hE : 0 < entries_per_block v.dev)
    (hmem : ∀ x, InodeZone v inode x → v'.dev.bh.mem x = v.dev.bh.mem x)
    (hcov : CoveredOn v' (InodeZone v inode)) :
    InodeOk v' inode ∧ ∀ x, InodeZone v' inode x ↔ InodeZone v inode x := by
  cases hc : inode_is_chunked inode with
  | false =>
    obtain ⟨ok', hz⟩ := ok.frame hE (.of_eq (v.with_mem_same v'.dev.bh.mem) rfl) fun x hx =>
      ⟨(ok.used hE hx).2, hmem x hx, rfl⟩
    obtain ⟨mem, disk, dirty, zdisk, zdirty, printk, rfl⟩ := h.eq
    have htree : has_blocks inode.i_mode = true → ∀ x, InodeZone (v.with_mem mem) inode x ↔
        TreeZone (v.with_mem mem) inode.i_data x := fun hb x => InodeZone.of_tree hc hb
    refine ⟨⟨fun _ hb => ?_, fun h => absurd (hc.symm.trans h) Bool.noConfusion⟩, fun x => ?_⟩
    · obtain ⟨h1, h2, -⟩ := ok'.tree hc hb
      exact ⟨h1, h2, fun p n hp h0 =>
        hcov _ ((hz _).1 ((htree hb _).2 ⟨h0, p, _, hp, rfl⟩))⟩
    · rw [← hz x]
      unfold InodeZone
      rw [hc, if_neg Bool.false_ne_true, if_neg Bool.false_ne_true]
      exact Iff.rfl
  | true =>
    obtain ⟨hreg, blocks, es, hl⟩ := ok.list hc
    have hzone : ∀ b ∈ blocks, InodeZone v inode b := fun b hb =>
      (InodeZone.of_list hc).2 ((hl.zone_iff hE).2 hb)
    have hl' := h.listed hl (fun b hb => hmem b (hzone b hb)) fun b hb => hcov b (hzone b hb)
    have hE' : 0 < entries_per_block v'.dev := by
      unfold entries_per_block Dev.bs
      rw [h.bits]
      exact hE
    refine ⟨⟨fun h => absurd (hc.symm.trans h) Bool.noConfusion, fun _ => ⟨hreg, blocks, es, hl'⟩⟩,
      fun x => ?_⟩
    rw [InodeZone.of_list hc, InodeZone.of_list hc, hl'.zone_iff hE', hl.zone_iff hE]

end Reread

/-- An inode that became another one on the same volume has the same blocks. -/
lemma Stepped.zone_iff (st : Stepped v v inode (some inode') f) (ok : InodeOk v inode)
    (hE : 0 < entries_per_block v.dev) {x : Nat} : InodeZone v inode' x ↔ InodeZone v inode x := by
  constructor
  · intro hx
    obtain ⟨hu, hold | hfree⟩ := st.own.ex.fresh x (zonesOf_some.2 hx)
    · exact hold
    · exact absurd hu hfree
  · intro hx
    rcases st.exact x (ok.used hE hx) with ⟨-, hnot⟩ | hnew
    · exact absurd hx hnot
    · exact zonesOf_some.1 hnew

/-! ## The mount -/

/-- Setting bit 0 of a bitmap that has it changes nothing. -/
lemma set_bit_zero_mem {map : Buffers (Nat → Bool)} (h : map.mem 0 0 = true) :
    (set_bit_zero map).mem = map.mem := by
  have hu : Function.update (map.mem 0) 0 true = map.mem 0 := by
    rw [← h, Function.update_eq_self]
  unfold set_bit_zero Buffers.set
  dsimp only
  rw [hu, Function.update_eq_self]

/-- What a mount takes from the superblock and the extra superblock. -/
lemma MountInfo.fill {d : Dev} (h : MountInfo s) (hesb : s.vol.sbi.extra_sb_location ≠ 0)
    (hlt : s.vol.sbi.extra_sb_location < d.nblocks) (hbs : d.bs = s.vol.dev.bs)
    (hstored : ExtraSuperBlock.read (d.bh.mem s.vol.sbi.extra_sb_location)
      = ⟨s.vol.sbi.hashtable, s.vol.sbi.hashtable_size, s.vol.sbi.heap_brk⟩) :
    ∃ sbi, cminix_fill_extra_super (sb_info (.read (s.s_sbh.bh.mem 1))) d = some sbi ∧
      fill_nzones sbi d = some s.vol.sbi := by
  obtain ⟨z, h1, h2, h3⟩ := h.zones
  refine ⟨{ s.vol.sbi with s_nzones := z, max_brk := 0 }, ?_, ?_⟩
  · unfold cminix_fill_extra_super
    rw [h1]
    dsimp only
    rw [if_neg hesb, if_pos hlt, hstored]
  · unfold fill_nzones
    dsimp only
    rw [hbs, ← h.nzones, if_neg (Nat.not_lt.2 h2), ← h3]

/-- After an unmount and a mount everything is as it was: the volume, the superblock, the blocks that
have an owner or are not in the normal area, and every inode as its slot holds it. -/
structure Remounted (s s' : Fs) : Prop where
  ok : FsOk s'
  durable : Durable s'
  vol : Reread s.vol s'.vol
  s_sbh : s'.s_sbh.bh.mem 1 = s.s_sbh.bh.mem 1
  attached : s'.s_sbh.attached = true
  mem : ∀ x, (InArea s.vol x → ∃ i, s.owner i x) → s'.vol.dev.bh.mem x = s.vol.dev.bh.mem x
  owner : ∀ i x, s'.owner i x ↔ s.owner i x
  gone : ∀ ino, s.inodes ino = none → s'.inodes ino = none
  inodes : ∀ ino inode, s.inodes ino = some inode →
    ∃ (inode' : Inode) (raw : RawInode), s'.inodes ino = some inode' ∧ raw.Keeps inode ∧
      raw.Keeps inode'

/-- A file system that is mounted with this superblock. -/
def Fs.opened (s : Fs) (sbi : SbInfo) : Fs :=
  let s := { s with
    vol := { s.vol with sbi := sbi, s_zmap := set_bit_zero s.vol.s_zmap, printk := [] }
    s_sbh := { s.s_sbh with bh := s.s_sbh.bh.mark 1 } }
  { s with inodes := s.cominix_iget }

/-- A mount succeeds when the root is found. -/
lemma Fs.fill_super_eq {sbi₀ sbi : SbInfo}
    (hfill : cminix_fill_extra_super (sb_info (.read (s.s_sbh.bh.mem 1))) s.vol.dev = some sbi₀)
    (hnz : fill_nzones sbi₀ s.vol.dev = some sbi) (fit : MapsFit sbi s.vol.dev)
    (hesb : sbi.extra_sb_location ≠ 0) : s.fill_super =
      match V2_cominix_iget sbi s.vol.dev s.itable 1 with
      | .error _ => none
      | .ok _ => some (s.opened sbi) := by
  have h1 := fit.blocks
  have h2 := fit.imap
  have h3 := fit.zmap
  rw [Fs.fill_super, hfill]
  dsimp only
  rw [hnz]
  dsimp only
  rw [if_neg]
  · rfl
  · rintro (h | h | h | h)
    · exact absurd h1 (Nat.not_le.2 h)
    · exact absurd h2 (Nat.not_le.2 h)
    · exact absurd h3 (Nat.not_le.2 h)
    · exact hesb h

/-- A superblock that names no extra superblock is not mounted. -/
lemma Fs.fill_super_none (h : (sb_info (.read (s.s_sbh.bh.mem 1))).extra_sb_location = 0) :
    s.fill_super = none := by
  unfold Fs.fill_super cminix_fill_extra_super
  dsimp only
  rw [if_pos h]
  dsimp only
  unfold fill_nzones
  dsimp only
  split
  · rfl
  · rename_i sbi hsbi
    split at hsbi
    · cases hsbi
    · cases hsbi
      rw [if_pos (.inr (.inr (.inr h)))]

/-- What is mounted from the buffers of an unmount. -/
def Fs.reopened (s : Fs) (keep : Nat → Bool) : Fs :=
  (s.sync_inodes.sync_buffers keep).opened s.vol.sbi

/-- The buffers of the superblock after an unmount. -/
lemma SyncedInodes.sbh_sync {inos : List Nat} (h : SyncedInodes s s' inos) :
    (s'.sync_buffers keep).s_sbh = s.s_sbh.sync keep := by
  rw [← h.s_sbh]
  rfl

/-- Where the superblock was not written there is no mount. -/
lemma Durable.attached (ok : FsOk s) (d : Durable s)
    (h : (s.sync_inodes.sync_buffers keep).fill_super = some s') : s.s_sbh.attached = true := by
  by_contra hn
  have hd := Bool.eq_false_iff.2 hn
  have hsbh : (s.sync_inodes.sync_buffers keep).s_sbh = s.s_sbh.sync keep :=
    (d.sync_inodes ok).sbh_sync
  rw [Fs.fill_super_none] at h
  · cases h
  · rw [hsbh, Sbh.sync, hd]
    exact d.detached hd

/-- A mount after an unmount. -/
lemma Durable.fill_super (ok : FsOk s) (d : Durable s) (ha : s.s_sbh.attached = true) :
    (s.sync_inodes.sync_buffers keep).fill_super =
      match V2_cominix_iget s.vol.sbi (s.sync_inodes.sync_buffers keep).vol.dev
        (s.sync_inodes.sync_buffers keep).itable 1 with
      | .error _ => none
      | .ok _ => some (s.reopened keep) := by
  have hs := d.sync_inodes ok
  obtain ⟨harea, -⟩ := ok.vol.esb.resolve_left d.esb
  have hdev : (s.sync_inodes.sync_buffers keep).vol.dev
      = { s.vol.dev with bh := s.vol.dev.bh.sync keep } := by
    rw [← hs.vol]
    rfl
  have hsbh : (s.sync_inodes.sync_buffers keep).s_sbh.bh.mem 1 = s.s_sbh.bh.mem 1 := by
    rw [hs.sbh_sync, Sbh.sync, ha, if_pos rfl]
    exact Buffers.sync_mem keep d.s_sbh
  have hmem : (s.vol.dev.bh.sync keep).mem s.vol.sbi.extra_sb_location
      = s.vol.dev.bh.mem s.vol.sbi.extra_sb_location := Buffers.sync_mem keep (d.owned none _ rfl)
  obtain ⟨sbi, hfill, hnz⟩ := @MountInfo.fill s
    { s.vol.dev with bh := s.vol.dev.bh.sync keep } d.info d.esb (ok.vol.lt_nblocks harea) rfl
    (by rw [hmem]; exact d.stored)
  rw [← hdev] at hfill hnz
  rw [← hsbh] at hfill
  refine Fs.fill_super_eq hfill hnz ?_ d.esb
  rw [hdev]
  exact ⟨d.info.fit.blocks, d.info.fit.imap, d.info.fit.zmap⟩

/-- Only the contents of the inode table matter. -/
lemma V2_cominix_iget_congr {sbi : SbInfo} {d d' : Dev} {t t' : Itable}
    (hbits : d'.s_blocksize_bits = d.s_blocksize_bits) (hnb : d'.nblocks = d.nblocks)
    (hmem : t'.mem = t.mem) (ino : Nat) :
    V2_cominix_iget sbi d' t' ino = V2_cominix_iget sbi d t ino := by
  have hraw : cominix_V2_raw_inode sbi d' ino = cominix_V2_raw_inode sbi d ino := by
    unfold cominix_V2_raw_inode Dev.bs
    rw [hbits, hnb]
  unfold V2_cominix_iget
  rw [hraw, hmem]

/-- What the mount reads. -/
structure Reopened (s s₁ s' : Fs) : Prop where
  vol : Reread s.vol s'.vol
  mem : ∀ x, s.vol.dev.bh.Covered x → s'.vol.dev.bh.mem x = s.vol.dev.bh.mem x ∧
    s'.vol.dev.bh.Covered x
  s_zmap : ∀ i, s'.vol.s_zmap.Covered i
  itable : ∀ b, s'.itable.Covered b
  printk : s'.vol.printk = []
  s_sbh : s'.s_sbh.bh.mem 1 = s.s_sbh.bh.mem 1
  attached : s'.s_sbh.attached = true
  marked : s'.s_sbh.bh.dirty 1 = true
  raw : ∀ ino, s'.raw ino = s₁.raw ino
  inodes : ∀ ino, s'.inodes ino = s₁.cominix_iget ino
  iget : s'.inodes = s'.cominix_iget

lemma Durable.reopened (ok : FsOk s) (d : Durable s) (ha : s.s_sbh.attached = true) :
    Reopened s s.sync_inodes (s.reopened keep) := by
  have hs := d.sync_inodes ok
  have hv : (s.reopened keep).vol = { s.vol with
      dev := { s.vol.dev with bh := s.vol.dev.bh.sync keep }
      s_zmap := set_bit_zero (s.vol.s_zmap.sync keep)
      printk := [] } := by
    unfold Fs.reopened Fs.opened Fs.sync_buffers
    dsimp only
    rw [hs.vol]
  have hzmem : (s.vol.s_zmap.sync keep).mem = s.vol.s_zmap.mem :=
    funext fun i => Buffers.sync_mem keep (d.s_zmap i)
  have hzero : (s.vol.s_zmap.sync keep).mem 0 0 = true := by
    rw [hzmem]
    have hbit := ok.vol.zmap.bit_zero
    unfold Bitmap.bitAt at hbit
    rwa [Nat.zero_div, Nat.zero_mod] at hbit
  have htmem : (s.reopened keep).itable.mem = s.sync_inodes.itable.mem :=
    funext fun b => Buffers.sync_mem keep (hs.durable.itable b)
  have hreread : Reread s.vol (s.reopened keep).vol := by
    rw [hv]
    exact ⟨rfl, rfl, rfl, (set_bit_zero_mem hzero).trans hzmem⟩
  have hget : ∀ ino, (s.reopened keep).cominix_iget ino = s.sync_inodes.cominix_iget ino := by
    intro ino
    have hbits : (s.reopened keep).vol.dev.s_blocksize_bits
        = s.sync_inodes.vol.dev.s_blocksize_bits := by rw [hs.vol, hreread.bits]
    have hnb : (s.reopened keep).vol.dev.nblocks = s.sync_inodes.vol.dev.nblocks := by
      rw [hs.vol, hreread.nblocks]
    have hsbi : (s.reopened keep).vol.sbi = s.sync_inodes.vol.sbi := by rw [hs.vol, hreread.sbi]
    unfold Fs.cominix_iget
    rw [hsbi, V2_cominix_iget_congr hbits hnb htmem]
  refine ⟨hreread, fun x hx => ?_, fun i => ?_, fun b => Buffers.sync_covered keep (hs.durable.itable b),
    ?_, ?_, ?_, Buffers.mark_dirty_self _ _, fun ino => ?_, hget, rfl⟩
  · rw [hv]
    exact ⟨Buffers.sync_mem keep hx, Buffers.sync_covered keep hx⟩
  · rw [hv]
    exact (Buffers.sync_covered keep (d.s_zmap i)).congr
      (congrFun (set_bit_zero_mem hzero) i) rfl fun h => h
  · rw [hv]
  · change (s.sync_inodes.sync_buffers keep).s_sbh.bh.mem 1 = _
    rw [hs.sbh_sync, Sbh.sync, ha, if_pos rfl]
    exact Buffers.sync_mem keep d.s_sbh
  · change (s.sync_inodes.sync_buffers keep).s_sbh.attached = _
    rw [hs.sbh_sync, Sbh.sync, ha, if_pos rfl]
  · unfold Fs.raw cominix_V2_raw_inode Dev.bs
    rw [hs.vol, hreread.sbi, hreread.bits, hreread.nblocks, htmem]

/-- An inode that was written back is read as its slot holds it. -/
lemma Durable.reread (ok : FsOk s) (d : Durable s)
    (hlinks : ∀ ino inode, s.inodes ino = some inode → inode.i_nlink ≠ 0)
    (hi : s.inodes ino = some inode) : ∃ (inode' : Inode) (raw : RawInode),
      s.sync_inodes.cominix_iget ino = some inode' ∧ s.sync_inodes.raw ino = some raw ∧
      raw.Keeps inode ∧ raw.Keeps inode' ∧ Stepped s.vol s.vol inode (some inode') id ∧
      inode'.i_nlink < 2 ^ 16 ∧ (inode'.i_mode = .dev → inode'.i_rdev < 2 ^ 16) ∧
      inode'.dirty = false := by
  have hs := d.sync_inodes ok
  have hi₁ : s.sync_inodes.inodes ino = some inode.clean := by rw [hs.all ok, hi]; rfl
  have hl := hs.ok.live ino inode.clean hi₁
  obtain ⟨inode', hget, hst, hnlink, -, -, hrdev, hclean, -, raw, hraw, hk'⟩ :=
    hl.iget hs.ok.size rfl (hlinks ino inode hi)
  obtain ⟨raw', hraw', hk⟩ := hl.synced rfl
  rw [hraw] at hraw'
  cases hraw'
  rw [hs.vol] at hst
  refine ⟨inode', raw, hget, hraw, ⟨hk.i_mode, hk.i_nlinks, hk.i_size, hk.i_rdev, hk.i_zone⟩, hk', ?_,
    hnlink ▸ hl.nlink, hrdev, hclean⟩
  -- the mark of the inode is no matter
  exact ⟨hst.own, hst.exact, hst.fine, rfl, hst.low, hst.reads, hst.covered⟩

/-- A number without an inode has no links on the device, so it has no inode afterwards either. -/
lemma Durable.gone_iget (d : Durable s) (hi : s.inodes ino = none) : s.cominix_iget ino = none := by
  have hgone := d.gone ino hi
  unfold Fs.raw at hgone
  unfold Fs.cominix_iget V2_cominix_iget
  cases hp : cominix_V2_raw_inode s.vol.sbi s.vol.dev ino with
  | none => rfl
  | some p =>
    rw [hp] at hgone
    have h0 : (s.itable.mem p.1 p.2).i_nlinks = 0 := hgone _ rfl
    simp only [h0, if_true]

/-- What a mount finds when every inode has links. -/
lemma Durable.remounted (ok : FsOk s) (d : Durable s) (ha : s.s_sbh.attached = true)
    (hlinks : ∀ ino inode, s.inodes ino = some inode → inode.i_nlink ≠ 0) :
    Remounted s (s.reopened keep) := by
  have hs := d.sync_inodes ok
  have r := @Durable.reopened s keep ok d ha
  have hE := entries_per_block_pos ok.size.bits
  have hgone : ∀ ino, s.inodes ino = none → (s.reopened keep).inodes ino = none := by
    intro ino hi
    rw [r.inodes]
    refine hs.durable.gone_iget ?_
    rw [hs.all ok, hi, Option.map_none]
  -- an inode that is there was there
  have hthere : ∀ ino inode', (s.reopened keep).inodes ino = some inode' → ∃ inode raw,
      s.inodes ino = some inode ∧ s.sync_inodes.raw ino = some raw ∧ raw.Keeps inode' ∧
      Stepped s.vol s.vol inode (some inode') id ∧ inode'.i_nlink < 2 ^ 16 ∧
      (inode'.i_mode = .dev → inode'.i_rdev < 2 ^ 16) := by
    intro ino inode' hi'
    cases hi : s.inodes ino with
    | none =>
      rw [hgone ino hi] at hi'
      cases hi'
    | some inode =>
      obtain ⟨i, raw, hget, hraw, -, hk', hst, hn, hrd, -⟩ := d.reread ok hlinks hi
      rw [r.inodes, hget] at hi'
      cases hi'
      exact ⟨inode, raw, rfl, hraw, hk', hst, hn, hrd⟩
  -- its blocks are those it had
  have hzone : ∀ ino inode inode', s.inodes ino = some inode → Stepped s.vol s.vol inode (some inode') id →
      InodeFine (s.reopened keep).vol inode' ∧
        ∀ x, InodeZone (s.reopened keep).vol inode' x ↔ InodeZone s.vol inode x := by
    intro ino inode inode' hi hst
    have hiff := fun x => @Stepped.zone_iff inode inode' s.vol id hst (ok.live ino inode hi).ok hE x
    have hcov : CoveredOn s.vol (InodeZone s.vol inode') := fun x hx =>
      d.owned (some ino) x ⟨inode, hi, (hiff x).1 hx⟩
    obtain ⟨h1, h2⟩ := r.vol.inodeOk (hst.fine _ rfl).ok hE (fun x hx => (r.mem x (hcov x hx)).1)
      fun x hx => (r.mem x (hcov x hx)).2
    refine ⟨⟨h1, ?_, (hst.fine _ rfl).ops⟩, fun x => (h2 x).trans (hiff x)⟩
    rw [r.vol.sbi]
    exact (hst.fine _ rfl).size
  have howner : ∀ i x, (s.reopened keep).owner i x ↔ s.owner i x := by
    intro i x
    cases i with
    | none =>
      unfold Fs.owner
      rw [r.vol.sbi]
    | some ino =>
      constructor
      · rintro ⟨inode', hi', hx⟩
        obtain ⟨inode, raw, hi, -, -, hst, -⟩ := hthere ino inode' hi'
        exact ⟨inode, hi, ((hzone ino inode inode' hi hst).2 x).1 hx⟩
      · rintro ⟨inode, hi, hx⟩
        obtain ⟨inode', raw, hget, -, -, -, hst, -⟩ := d.reread ok hlinks hi
        exact ⟨inode', (r.inodes ino).trans hget, ((hzone ino inode inode' hi hst).2 x).2 hx⟩
  have hstored : EsbStored (s.reopened keep).vol := by
    unfold EsbStored
    rw [r.vol.sbi, (r.mem _ (d.owned none _ rfl)).1]
    exact d.stored
  refine ⟨⟨r.vol.volOk ok.vol, ?_, ?_, fun ino inode' hi' => ?_, ⟨fun i x hx => ?_, fun i j x hx hx' => ?_⟩,
    r.printk⟩, ⟨fun i x hx => ?_, fun x hx => ?_, r.s_zmap, r.itable, fun ino hi raw hr => ?_, ?_, hstored,
    d.info.congr (by rw [r.vol.sbi]) r.vol.bits r.vol.nblocks r.s_sbh, .inl r.marked,
    fun h => absurd (r.attached.symm.trans h) Bool.noConfusion⟩, r.vol, r.s_sbh, r.attached, fun x hx => ?_, howner,
    hgone, fun ino inode hi => ?_⟩
  · refine ⟨?_, ?_, ?_⟩
    · rw [r.vol.bits]; exact ok.size.bits
    · rw [r.vol.sbi]; exact ok.size.pos
    · rw [r.vol.sbi]; exact ok.size.maxbytes
  · rw [r.vol.sbi, r.vol.bits]
    exact ok.imap
  · obtain ⟨inode, raw, hi, hraw, hk, hst, hn, hrd⟩ := hthere ino inode' hi'
    refine ⟨(hzone ino inode inode' hi hst).1, ?_, hn, hrd, fun _ => ⟨raw, ?_, hk⟩⟩
    · rw [r.vol.sbi]
      exact (ok.live ino inode hi).num
    · rw [r.raw]
      exact hraw
  · exact r.vol.inUse.2 (ok.owned.used i x ((howner i x).1 hx))
  · exact ok.owned.unique i j x ((howner i x).1 hx) ((howner j x).1 hx')
  · exact (r.mem x (d.owned i x ((howner i x).1 hx))).2
  · exact (r.mem x (d.rest x fun h => hx (r.vol.inArea.2 h))).2
  · -- what `cominix_iget` does not find has no links
    rw [r.raw] at hr
    cases hi₀ : s.inodes ino with
    | none =>
      refine hs.durable.gone ino ?_ raw hr
      rw [hs.all ok, hi₀, Option.map_none]
    | some inode =>
      obtain ⟨inode', -, hget, -⟩ := d.reread ok hlinks hi₀
      rw [r.inodes, hget] at hi
      cases hi
  · rw [r.vol.sbi]
    exact d.esb
  · refine (r.mem x ?_).1
    by_cases harea : InArea s.vol x
    · obtain ⟨i, hi⟩ := hx harea
      exact d.owned i x hi
    · exact d.rest x harea
  · obtain ⟨inode', raw, hget, -, hk, hk', -⟩ := d.reread ok hlinks hi
    exact ⟨inode', raw, (r.inodes ino).trans hget, hk, hk'⟩

/-- The VFS unmounts when every inode has links. -/
lemma Fs.remount_inv (ok : FsOk s) (h : s.remount keep = some s') :
    (∀ ino inode, s.inodes ino = some inode → inode.i_nlink ≠ 0) ∧
      (s.sync_inodes.sync_buffers keep).fill_super = some s' := by
  unfold Fs.remount at h
  split at h
  · rename_i hall
    refine ⟨fun ino inode hi => ?_, h⟩
    have hn := (ok.live ino inode hi).num.2
    have := List.all_eq_true.1 hall ino (List.mem_range.2 (Nat.lt_succ_of_le hn))
    rw [hi, Option.all_some, bne_iff_ne] at this
    exact this
  · cases h

/-- An unmount and a mount that succeed. -/
lemma Durable.remount (ok : FsOk s) (d : Durable s) (h : s.remount keep = some s') :
    Remounted s s' := by
  obtain ⟨hlinks, h⟩ := Fs.remount_inv ok h
  have ha := d.attached ok h
  rw [d.fill_super ok ha] at h
  split at h
  · cases h
  · cases h
    exact d.remounted ok ha hlinks

end CominixFs
