import CominixFs.ChunkedFile
import CominixFs.Fs
import CominixFs.FsOps

/-!
# Runs of the file system

A file system in order (`FsOk`): every inode is, every zone in use has at most one owner, and an
inode that is not marked is in the inode table. Every step is a step of one inode that keeps this
(`FsStep`, `FsOk.step`).
-/

namespace CominixFs
open Bytes Forest

/-- The slot of an inode in the inode table. -/
def Fs.raw (s : Fs) (ino : Nat) : Option RawInode :=
  (cominix_V2_raw_inode s.vol.sbi s.vol.dev ino).map fun p => s.itable.mem p.1 p.2

/-- A slot holds this inode, of a device its number only. -/
structure RawInode.Keeps (raw : RawInode) (inode : Inode) : Prop where
  i_mode : raw.i_mode = inode.i_mode
  i_nlinks : raw.i_nlinks = inode.i_nlink
  i_size : raw.i_size = inode.i_size
  i_rdev : inode.i_mode = .dev → raw.i_zone 0 = inode.i_rdev
  i_zone : inode.i_mode ≠ .dev → ∀ k < 10, raw.i_zone k = inode.i_data k

/-- An inode in order, with fields that fit the inode table, where it is unless it is marked. -/
structure LiveOk (s : Fs) (ino : Nat) (inode : Inode) : Prop extends InodeFine s.vol inode where
  num : ino ≠ 0 ∧ ino ≤ s.vol.sbi.s_ninodes
  nlink : inode.i_nlink < 2 ^ 16
  rdev : inode.i_mode = .dev → inode.i_rdev < 2 ^ 16
  synced : inode.dirty = false → ∃ raw, s.raw ino = some raw ∧ raw.Keeps inode

/-- The owners of zones: the extra superblock and the inodes. -/
def Fs.owner (s : Fs) : Option Nat → Nat → Prop
  | none => (· = s.vol.sbi.extra_sb_location)
  | some ino => ZonesOf s.vol (s.inodes ino)

/-- A file system in order. -/
structure FsOk (s : Fs) : Prop where
  vol : VolOk s.vol
  size : SizeOk s.vol
  imap : s.vol.sbi.s_ninodes / 2 ^ (s.vol.dev.s_blocksize_bits + 3) < s.vol.sbi.s_imap_blocks
  live : ∀ ino inode, s.inodes ino = some inode → LiveOk s ino inode
  owned : Owned (InUse s.vol) s.owner
  printk : s.vol.printk = []

/-- The bytes of an inode that may not be there. -/
def ReadsOf (v : Vol) (o : Option Inode) (data : Nat → UInt8) : Prop :=
  ∀ inode, o = some inode → Reads v inode data

/-- The extra superblock holds the place of the hashtable and the break. -/
def EsbStored (v : Vol) : Prop := ExtraSuperBlock.read (v.dev.bh.mem v.sbi.extra_sb_location)
  = ⟨v.sbi.hashtable, v.sbi.hashtable_size, v.sbi.heap_brk⟩

/-- A step of one inode, that does `f` to its bytes. A `quiet` one leaves the heap alone, one that
is no `leak` loses no zone, and one that is not `bare` marks what it writes. -/
structure FsStep (s s' : Fs) (ino : Nat) (quiet leak bare : Prop)
    (f : (Nat → UInt8) → Nat → UInt8) : Prop where
  own : OwnStep s.vol s'.vol (ZonesOf s.vol (s.inodes ino)) (ZonesOf s'.vol (s'.inodes ino))
  vol : VolOk s'.vol
  live : ∀ inode, s'.inodes ino = some inode → LiveOk s' ino inode
  others : ∀ j, j ≠ ino → s'.inodes j = s.inodes j
  raw : ∀ j, j ≠ ino → s'.raw j = s.raw j
  reads : ∀ data, ReadsOf s.vol (s.inodes ino) data → ReadsOf s'.vol (s'.inodes ino) (f data)
  exact : ¬ leak →
    Exact s.vol s'.vol (ZonesOf s.vol (s.inodes ino)) (ZonesOf s'.vol (s'.inodes ino))
  low : quiet → s'.vol.sbi = s.vol.sbi ∧ Untouched s.vol s'.vol (ZonesOf s.vol (s.inodes ino))
  marked : ¬ bare → CoveredOn s.vol (ZonesOf s.vol (s.inodes ino)) →
    CoveredOn s'.vol (ZonesOf s'.vol (s'.inodes ino))
  rest : ∀ x, (InArea s.vol x → x = s.vol.sbi.extra_sb_location) → s.vol.dev.bh.Covered x →
    s'.vol.dev.bh.Covered x
  esb : EsbStored s.vol → EsbStored s'.vol
  s_sbh : s'.s_sbh = s.s_sbh
  itable : ∀ b, s.itable.Covered b → s'.itable.Covered b
  gone : s'.inodes ino = none → ∀ raw, s'.raw ino = some raw → raw.i_nlinks = 0

variable {s s' : Fs} {ino : Nat} {inode inode' : Inode} {v' : Vol} {t : Itable}
  {f : (Nat → UInt8) → Nat → UInt8} {quiet leak bare : Prop}

/-! ## The slots of the inode table -/

lemma SameMount.raw_inode {v : Vol} (h : SameMount v v') (ino : Nat) :
    cominix_V2_raw_inode v'.sbi v'.dev ino = cominix_V2_raw_inode v.sbi v.dev ino := by
  unfold cominix_V2_raw_inode
  rw [h.sbi, h.bs, h.nblocks]

/-- Every inode has a slot of its own. -/
lemma raw_inode_inj {sbi : SbInfo} {d : Dev} {i j : Nat} {p : Nat × Nat}
    (hi : cominix_V2_raw_inode sbi d i = some p) (hj : cominix_V2_raw_inode sbi d j = some p) :
    i = j := by
  unfold cominix_V2_raw_inode at hi hj
  split at hi
  · cases hi
  · split at hj
    · cases hj
    · dsimp only at hi hj
      split at hi
      · split at hj
        · obtain ⟨b, k⟩ := p
          obtain ⟨h1, h2⟩ := Prod.mk.inj (Option.some.inj hi)
          obtain ⟨h3, h4⟩ := Prod.mk.inj (Option.some.inj hj)
          have hdi := Nat.div_add_mod' (i - 1) (d.bs / 64)
          have hdj := Nat.div_add_mod' (j - 1) (d.bs / 64)
          have hq : (i - 1) / (d.bs / 64) = (j - 1) / (d.bs / 64) := by omega
          rw [hq] at hdi
          omega
        · cases hj
      · cases hi

/-- Storing into the slot of an inode. -/
lemma raw_store {b k : Nat} {raw : RawInode}
    (h : cominix_V2_raw_inode s.vol.sbi s.vol.dev ino = some (b, k)) (hs : SameMount s.vol v')
    (ht : t = (s.itable.set b (Function.update (s.itable.mem b) k raw)).mark b)
    (inodes : Nat → Option Inode) :
    (Fs.raw ⟨v', t, s.s_sbh, inodes⟩ ino = some raw) ∧
      ∀ j, j ≠ ino → Fs.raw ⟨v', t, s.s_sbh, inodes⟩ j = s.raw j := by
  have hmem : ∀ b', t.mem b' = if b' = b then Function.update (s.itable.mem b) k raw
      else s.itable.mem b' := by
    intro b'
    rw [ht, Buffers.mark_mem]
    by_cases hb : b' = b
    · rw [if_pos hb, hb, Buffers.set_mem_self]
    · rw [if_neg hb, Buffers.set_mem_of_ne _ _ hb]
  constructor
  · unfold Fs.raw
    dsimp only
    rw [hs.raw_inode, h, Option.map_some, hmem, if_pos rfl, Function.update_self]
  · intro j hj
    unfold Fs.raw
    dsimp only
    rw [hs.raw_inode]
    cases hp : cominix_V2_raw_inode s.vol.sbi s.vol.dev j with
    | none => rfl
    | some p =>
      rw [Option.map_some, Option.map_some, hmem]
      obtain ⟨b', k'⟩ := p
      by_cases hb : b' = b
      · subst hb
        rw [if_pos rfl, Function.update_of_ne]
        rintro rfl
        exact hj (raw_inode_inj hp h)
      · rw [if_neg hb]

/-- Storing into a slot marks its block. -/
lemma store_covered {b b' k : Nat} {raw : RawInode} (h : s.itable.Covered b') :
    ((s.itable.set b (Function.update (s.itable.mem b) k raw)).mark b).Covered b' := by
  by_cases hb : b' = b
  · subst hb
    exact .inl (Buffers.mark_dirty_self _ _)
  · exact h.congr (Buffers.set_mem_of_ne _ _ hb) rfl fun hd => (Buffers.mark_dirty_of_ne _ hb).trans hd

lemma raw_same (hs : SameMount s.vol v') (inodes : Nat → Option Inode) (j : Nat) :
    Fs.raw ⟨v', s.itable, s.s_sbh, inodes⟩ j = s.raw j := by
  unfold Fs.raw
  dsimp only
  rw [hs.raw_inode]

/-- An inode that was written back is in its slot. -/
lemma update_keeps (raw : RawInode) (hn : inode.i_nlink < 2 ^ 16) (hs : inode.i_size < 2 ^ 32) :
    (raw.update inode).Keeps inode := by
  refine ⟨rfl, Nat.mod_eq_of_lt hn, Nat.mod_eq_of_lt hs, fun h => ?_, fun h k _ => ?_⟩
  · unfold RawInode.update
    rw [h]
    rfl
  · unfold RawInode.update
    cases hm : inode.i_mode with
    | dev => exact absurd hm h
    | _ => rfl

/-! ## A step of one inode -/

lemma FsOk.not_esb (ok : FsOk s) {x : Nat} (hx : ZonesOf s.vol (s.inodes ino) x) :
    x ≠ s.vol.sbi.extra_sb_location := by
  intro he
  have := ok.owned.unique (some ino) none x hx he
  cases this

/-- What a step of one inode does to the others. -/
lemma FsStep.left (ok : FsOk s) (st : FsStep s s' ino quiet leak bare f) {j : Nat} (hj : j ≠ ino)
    (hi : s.inodes j = some inode) :
    InodeOk s'.vol inode ∧ ∀ x, InodeZone s'.vol inode x ↔ InodeZone s.vol inode x := by
  have hz : ∀ x, InodeZone s.vol inode x → ZonesOf s.vol (s.inodes j) x :=
    fun x hx => ⟨inode, hi, hx⟩
  refine st.own.left (ok.live j inode hi).ok (entries_per_block_pos ok.size.bits) fun x hx =>
    ⟨fun ho => hj ?_, ok.not_esb (hz x hx)⟩
  have := ok.owned.unique (some j) (some ino) x (hz x hx) ho
  cases this
  rfl

lemma FsStep.maxbytes (st : FsStep s s' ino quiet leak bare f) :
    s'.vol.sbi.s_maxbytes = s.vol.sbi.s_maxbytes := by rw [st.own.sbi]

/-- The owners but the inode of the step have what they had. -/
lemma FsStep.owner_same (ok : FsOk s) (st : FsStep s s' ino quiet leak bare f) :
    ∀ j, j ≠ some ino → ∀ x, s'.owner j x ↔ s.owner j x := by
  intro j hj x
  cases j with
  | none =>
    unfold Fs.owner
    rw [st.own.toSameMount.esb]
  | some j =>
    have hne : j ≠ ino := fun h => hj (congrArg some h)
    change ZonesOf s'.vol (s'.inodes j) x ↔ ZonesOf s.vol (s.inodes j) x
    rw [st.others j hne]
    refine exists_congr fun inode => and_congr_right fun hi => ?_
    exact (st.left ok hne hi).2 x

/-- A step of one inode keeps a file system in order. -/
lemma FsStep.ok (ok : FsOk s) (st : FsStep s s' ino quiet leak bare f) : FsOk s' := by
  refine ⟨st.vol, ⟨st.own.bits ▸ ok.size.bits, st.maxbytes ▸ ok.size.pos,
    st.maxbytes ▸ ok.size.maxbytes⟩, ?_, fun j inode hi => ?_, ?_, st.own.printk.trans ok.printk⟩
  · rw [st.own.sbi, st.own.bits]
    exact ok.imap
  · by_cases hj : j = ino
    · subst hj
      exact st.live inode hi
    · rw [st.others j hj] at hi
      have hl := ok.live j inode hi
      have hn : s'.vol.sbi.s_ninodes = s.vol.sbi.s_ninodes := by rw [st.own.sbi]
      refine ⟨⟨(st.left ok hj hi).1, ?_, hl.ops⟩, hn ▸ hl.num, hl.nlink, hl.rdev, fun hd => ?_⟩
      · rw [st.maxbytes]
        exact hl.size
      · rw [st.raw j hj]
        exact hl.synced hd
  · exact ok.owned.step (i := some ino) st.own.ex (st.owner_same ok)

/-- The extra superblock and what is not in the normal area have no inode for an owner. -/
lemma FsOk.untouched (ok : FsOk s) (h : Untouched s.vol v' (ZonesOf s.vol (s.inodes ino))) {x : Nat}
    (hx : InArea s.vol x → x = s.vol.sbi.extra_sb_location) :
    v'.dev.bh.mem x = s.vol.dev.bh.mem x ∧ v'.dev.bh.dirty x = s.vol.dev.bh.dirty x := by
  refine h x (fun hz => ok.not_esb hz (hx (ok.owned.used (some ino) x hz).1)) fun harea => ?_
  have he := hx harea
  rcases ok.vol.esb with h0 | ⟨-, hset⟩
  · exact absurd (he.trans h0) (ok.vol.ne_zero harea)
  · rw [he]
    exact hset

lemma FsOk.rest (ok : FsOk s) (h : Untouched s.vol v' (ZonesOf s.vol (s.inodes ino)))
    (hm : SameMount s.vol v') {x : Nat} (hx : InArea s.vol x → x = s.vol.sbi.extra_sb_location)
    (hc : s.vol.dev.bh.Covered x) : v'.dev.bh.Covered x := by
  obtain ⟨h1, h2⟩ := ok.untouched h hx
  exact hc.congr h1 (by rw [hm.disk]) fun hd => h2.trans hd

lemma FsOk.esbStored (ok : FsOk s) (h : Untouched s.vol v' (ZonesOf s.vol (s.inodes ino)))
    (hsbi : v'.sbi = s.vol.sbi) (he : EsbStored s.vol) : EsbStored v' := by
  unfold EsbStored
  rw [hsbi, (ok.untouched h fun _ => rfl).1]
  exact he

/-- An operation on an inode is a step. -/
lemma Stepped.fsStep {o : Option Inode} (ok : FsOk s) (hi : s.inodes ino = some inode)
    (st : Stepped s.vol v' inode o f) (ht : ∀ b, s.itable.Covered b → t.Covered b)
    (hgone : o = none → ∀ raw,
      Fs.raw ⟨v', t, s.s_sbh, Function.update s.inodes ino o⟩ ino = some raw → raw.i_nlinks = 0)
    (hraw : ∀ j, j ≠ ino → Fs.raw ⟨v', t, s.s_sbh, Function.update s.inodes ino o⟩ j = s.raw j)
    (hlive : ∀ inode', o = some inode' → inode'.i_nlink < 2 ^ 16 ∧
      (inode'.i_mode = .dev → inode'.i_rdev < 2 ^ 16) ∧
      (inode'.dirty = false → ∃ raw,
        Fs.raw ⟨v', t, s.s_sbh, Function.update s.inodes ino o⟩ ino = some raw ∧ raw.Keeps inode')) :
    FsStep s ⟨v', t, s.s_sbh, Function.update s.inodes ino o⟩ ino quiet leak bare f := by
  have hold : ZonesOf s.vol (s.inodes ino) = InodeZone s.vol inode := by
    funext x
    rw [hi]
    exact propext zonesOf_some
  have hnew : Function.update s.inodes ino o ino = o := Function.update_self ino o s.inodes
  have hlow : Untouched s.vol v' (ZonesOf s.vol (s.inodes ino)) := by
    rw [hold]
    exact st.low
  refine ⟨?_, ?_, fun inode' h => ?_, fun j hj => Function.update_of_ne hj _ _, hraw,
    fun data hd inode' h => ?_, fun _ => ?_, fun _ => ⟨st.sbi, hlow⟩, fun _ => ?_,
    fun x hx hc => ok.rest hlow st.own.toSameMount hx hc, ok.esbStored hlow st.sbi, rfl, ht,
    fun h => hgone (hnew.symm.trans h)⟩
  · rw [hold]
    dsimp only
    rw [hnew]
    exact st.own
  · refine ok.vol.step st.own.toZmapStep (ok.vol.lay.congr st.sbi st.own.bits st.own.nblocks)
      fun harea hset => ?_
    refine (st.own.ex.keep _ ⟨harea, hset⟩ fun hz => ?_).2
    rw [← hold] at hz
    exact ok.not_esb hz rfl
  · dsimp only at h
    rw [hnew] at h
    obtain ⟨h1, h2, h3⟩ := hlive inode' h
    refine ⟨st.fine inode' h, ?_, h1, h2, h3⟩
    rw [st.sbi]
    exact (ok.live ino inode hi).num
  · dsimp only at h
    rw [hnew] at h
    exact st.reads inode' h data (hd inode hi)
  · rw [hold]
    dsimp only
    rw [hnew]
    exact st.exact
  · rw [hold]
    dsimp only
    rw [hnew]
    exact st.covered

end CominixFs
