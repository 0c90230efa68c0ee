import CominixFs.FsRun

/-!
# The steps of the file system

Every step but an unmount is a step of one inode (`Fs.step_spec`). Two kinds of step lose zones
(`Fs.Leaks`): the eviction of a chunked inode without links, of which `cominix_truncate` frees
nothing, and a chunking that gives up, which keeps the list so far. They always do (`Fs.Leaks.lost`).
-/

namespace CominixFs
open Bytes Forest

/-- The inode a step is about. -/
def FsOp.ino : FsOp → Nat
  | .new_inode ino _ _ => ino
  | .set_nlink ino _ => ino
  | .get_block ino _ _ => ino
  | .write ino _ _ => ino
  | .set_size ino _ => ino
  | .truncate ino => ino
  | .chunk ino _ => ino
  | .evict ino => ino
  | .write_inode ino => ino
  | .remount _ => 0

/-- The steps that leave the heap alone. -/
def FsOp.Quiet : FsOp → Prop
  | .chunk _ _ => False
  | _ => True

/-- Chunking gives up: a read of the read loop fails. What the cutter makes of its own reads is no
matter. -/
def gives_up (f : Filp) : Nat → Nat → Nat → Bool
  | 0, _, _ => false
  | fuel + 1, call, f_pos =>
    if f_pos < f.i_size then
      let (chunk_size, call') := cdc_get_chunk_size f call f_pos
      match read_loop f chunk_size (chunk_size + 1) call' f_pos [] with
      | .bug => false
      | .failed => true
      | .done _ f_pos call => gives_up f fuel call f_pos
    else false

/-- Chunking the whole file gives up. -/
def Filp.gives_up (f : Filp) : Bool := CominixFs.gives_up f (f.i_size + 1) 0 0

/-- The steps that lose zones: a chunked inode without links is evicted, or a chunking gives up. -/
def Fs.Leaks (s : Fs) : FsOp → Prop
  | .evict ino => ∃ inode, s.inodes ino = some inode ∧ inode.i_nlink = 0 ∧
      inode_is_chunked inode = true
  | .chunk ino results => ∃ inode, s.inodes ino = some inode ∧
      Filp.gives_up ⟨file_bytes s.vol inode, results⟩ = true
  | _ => False

/-- The step that leaves a block in use unmarked: an empty file is chunked. -/
def Fs.Bare (s : Fs) : FsOp → Prop
  | .chunk ino _ => ∃ inode, s.inodes ino = some inode ∧ inode.i_size = 0
  | _ => False

instance Fs.decidableBare (s : Fs) : ∀ op, Decidable (s.Bare op)
  | .chunk ino _ => inferInstanceAs (Decidable (∃ inode ∈ s.inodes ino, inode.i_size = 0))
  | .new_inode _ _ _ | .set_nlink _ _ | .get_block _ _ _ | .write _ _ _ | .set_size _ _ | .truncate _
  | .evict _ | .write_inode _ | .remount _ => inferInstanceAs (Decidable False)

instance Fs.decidableLeaks (s : Fs) : ∀ op, Decidable (s.Leaks op)
  | .chunk ino results => inferInstanceAs (Decidable (∃ inode ∈ s.inodes ino,
      Filp.gives_up ⟨file_bytes s.vol inode, results⟩ = true))
  | .evict ino => inferInstanceAs (Decidable (∃ inode ∈ s.inodes ino, inode.i_nlink = 0 ∧
      inode_is_chunked inode = true))
  | .new_inode _ _ _ | .set_nlink _ _ | .get_block _ _ _ | .write _ _ _ | .set_size _ _ | .truncate _
  | .write_inode _ | .remount _ => inferInstanceAs (Decidable False)

/-- What a step does to the bytes of its inode. -/
def Fs.op_bytes (s : Fs) : FsOp → (Nat → UInt8) → Nat → UInt8
  | .new_inode _ _ _ => fun _ _ => 0
  | .write _ block data => write_bytes s.vol.dev.bs block data
  | .truncate ino => fun data =>
    match s.inodes ino with
    | none => data
    | some inode => cut_bytes inode.i_size data
  | _ => id

variable {s s' : Fs} {ino : Nat} {inode inode' : Inode} {v v' : Vol} {t : Itable} {leak bare : Prop}
  {md5 : List UInt8 → UInt64}

/-! ## Changes of the inode alone -/

/-- What `cominix_set_inode` sets. -/
lemma cominix_set_inode_eq (inode : Inode) (rdev : Nat) : ∃ i_fop a_ops i_rdev,
    cominix_set_inode inode rdev = { inode with i_fop, a_ops, i_rdev } ∧
      (inode.i_mode = .dev → i_rdev = rdev) := by
  unfold cominix_set_inode
  cases hm : inode.i_mode with
  | reg =>
    dsimp only
    split <;> exact ⟨_, _, _, rfl, fun h => Ftype.noConfusion h⟩
  | dir => exact ⟨_, _, _, rfl, fun h => Ftype.noConfusion h⟩
  | lnk => exact ⟨_, _, _, rfl, fun h => Ftype.noConfusion h⟩
  | dev => exact ⟨_, _, _, rfl, fun _ => rfl⟩
  | other => exact ⟨_, _, _, rfl, fun h => Ftype.noConfusion h⟩

/-- A new inode has no blocks. -/
lemma FsOk.new_inode (ok : FsOk s) {mode : Ftype} {rdev : Nat}
    (h : s.cominix_new_inode ino mode rdev = some s') :
    FsStep s s' ino True leak bare fun _ _ => 0 := by
  unfold Fs.cominix_new_inode at h
  by_cases hr : ino = 0 ∨ s.vol.sbi.s_ninodes < ino
      ∨ s.vol.sbi.s_imap_blocks ≤ ino / 2 ^ (s.vol.dev.s_blocksize_bits + 3) ∨ 2 ^ 16 ≤ rdev
  · rw [if_pos hr] at h
    cases h
  rw [if_neg hr] at h
  cases hi : s.inodes ino with
  | some _ =>
    simp only [hi] at h
    cases h
  | none =>
    simp only [hi] at h
    generalize hnew : ({
      i_mode := mode
      i_nlink := 1
      i_size := 0
      i_rdev := 0
      i_data := fun _ => 0
      i_fop := .other
      a_ops := .empty_aops
      dirty := true } : Inode) = new at h
    obtain ⟨i_fop, a_ops, i_rdev, heq, hdev⟩ := cominix_set_inode_eq new rdev
    have hops := set_inode_ops new rdev fun _ => by rw [← hnew]
    have hdata : ∀ k < 10, (cominix_set_inode new rdev).i_data k = 0 := by
      intro k _
      rw [heq, ← hnew]
    have hc : inode_is_chunked (cominix_set_inode new rdev) = false := by
      unfold inode_is_chunked
      rw [hdata 0 (by decide)]
      rfl
    have htree := TreeOk.empty s.vol hdata
    have hfine : InodeFine s.vol (cominix_set_inode new rdev) := by
      refine ⟨⟨fun _ _ => htree, fun h => absurd (hc.symm.trans h) Bool.noConfusion⟩, ?_, hops⟩
      rw [heq, ← hnew]
      exact Nat.zero_le _
    have hnone : ∀ x, ¬ InodeZone s.vol (cominix_set_inode new rdev) x := by
      intro x hx
      unfold InodeZone at hx
      rw [hc, if_neg Bool.false_ne_true] at hx
      obtain ⟨-, h0, p, n, hp, he⟩ := hx
      exact h0 (he ▸ forest_empty hdata p n hp)
    generalize cominix_set_inode new rdev = made at *
    cases h
    have hthere : (s.set_inode ino made).inodes ino = some made := Function.update_self ..
    have hempty : ∀ x, ¬ ZonesOf s.vol (some made) x := fun x hx => hnone x (zonesOf_some.1 hx)
    refine ⟨⟨.refl _, rfl, ⟨fun x hx _ => hx, fun x hx => ?_⟩, fun _ _ _ _ => ⟨rfl, rfl⟩⟩, ok.vol,
      fun i h => ?_, fun j hj => Function.update_of_ne hj _ _, fun _ _ => rfl, fun data _ i h => ?_,
      fun _ x hx => .inl ⟨hx, ?_⟩, fun _ => ⟨rfl, fun _ _ _ => ⟨rfl, rfl⟩⟩, fun _ _ x hx => ?_,
      fun _ _ hc => hc, id, rfl, fun _ hc => hc, fun h => ?_⟩
    · rw [hthere] at hx
      exact absurd hx (hempty x)
    · rw [hthere] at h
      cases h
      refine ⟨hfine, ?_, ?_, fun hm => ?_, fun hd => ?_⟩
      · exact ⟨fun h => hr (.inl h), Nat.le_of_not_lt fun h => hr (.inr (.inl h))⟩
      · rw [heq, ← hnew]
        exact (by decide : 1 < 2 ^ 16)
      · rw [heq] at hm ⊢
        dsimp only at hm ⊢
        rw [hdev hm]
        omega
      · rw [heq, ← hnew] at hd
        cases hd
    · rw [hthere] at h
      cases h
      intro _ _ b o hin _
      unfold file_byte
      have hz : zone_of s.vol made.i_data b = 0 :=
        forest_empty hdata _ 0 (block_path_spec ok.size hin)
      exact if_pos hz
    · rw [hi]
      exact zonesOf_none
    · rw [hthere] at hx
      exact absurd hx (hempty x)
    · rw [hthere] at h
      cases h

/-- A changed field of a marked inode. -/
lemma FsOk.changed (ok : FsOk s) (hi : s.inodes ino = some inode)
    (hdata : inode'.i_data = inode.i_data) (hmode : inode'.i_mode = inode.i_mode)
    (hfop : inode'.i_fop = inode.i_fop) (haops : inode'.a_ops = inode.a_ops)
    (hrdev : inode'.i_rdev = inode.i_rdev) (hsize : inode'.i_size ≤ s.vol.sbi.s_maxbytes)
    (hnlink : inode'.i_nlink < 2 ^ 16) (hd : inode'.dirty = true) :
    FsStep s (s.set_inode ino inode') ino True leak bare id := by
  have hl := ok.live ino inode hi
  refine (Stepped.same hl.toInodeFine ok.size hdata hmode hfop haops hsize).fsStep ok hi
    (fun _ hc => hc) (fun h => by cases h) (fun j _ => raw_same (.refl _) _ j) fun i h => ?_
  cases h
  refine ⟨hnlink, fun hm => ?_, fun h => absurd (hd.symm.trans h) Bool.noConfusion⟩
  rw [hrdev]
  exact hl.rdev (hmode ▸ hm)

lemma FsOk.set_nlink (ok : FsOk s) {nlink : Nat} (h : s.set_nlink ino nlink = some s') :
    FsStep s s' ino True leak bare id := by
  unfold Fs.set_nlink at h
  cases hi : s.inodes ino with
  | none =>
    simp only [hi] at h
    cases h
  | some inode =>
    simp only [hi] at h
    split at h
    · rename_i hn
      cases h
      exact ok.changed hi rfl rfl rfl rfl rfl (ok.live ino inode hi).size hn rfl
    · cases h

lemma FsOk.set_size (ok : FsOk s) {size : Nat} (h : s.set_size ino size = some s') :
    FsStep s s' ino True leak bare id := by
  unfold Fs.set_size at h
  cases hi : s.inodes ino with
  | none =>
    simp only [hi] at h
    cases h
  | some inode =>
    simp only [hi] at h
    split at h
    · rename_i hn
      cases h
      exact ok.changed hi rfl rfl rfl rfl rfl hn (ok.live ino inode hi).nlink rfl
    · cases h

/-- Everything a `cominix_write_inode` that returns has done. -/
lemma cominix_write_inode_inv {sbi : SbInfo} {d : Dev} {t t' : Itable}
    (h : cominix_write_inode sbi d t ino inode = some t') :
    ∃ b k, cominix_V2_raw_inode sbi d ino = some (b, k) ∧
      t' = (t.set b (Function.update (t.mem b) k ((t.mem b k).update inode))).mark b := by
  unfold cominix_write_inode at h
  cases hp : cominix_V2_raw_inode sbi d ino with
  | none =>
    simp only [hp] at h
    cases h
  | some p =>
    simp only [hp] at h
    cases h
    exact ⟨p.1, p.2, rfl, rfl⟩

/-- An inode that was written back is in its slot. -/
lemma FsOk.write_inode (ok : FsOk s) (h : s.write_inode ino = some s') :
    FsStep s s' ino True leak bare id := by
  unfold Fs.write_inode at h
  cases hi : s.inodes ino with
  | none =>
    simp only [hi] at h
    cases h
  | some inode =>
    simp only [hi] at h
    cases hw : cominix_write_inode s.vol.sbi s.vol.dev s.itable ino inode with
    | none =>
      simp only [hw] at h
      cases h
    | some t =>
      simp only [hw] at h
      cases h
      obtain ⟨b, k, hp, ht⟩ := cominix_write_inode_inv hw
      have hl := ok.live ino inode hi
      have hsize : inode.i_size < 2 ^ 32 := hl.size.trans_lt ok.size.maxbytes
      obtain ⟨hraw, hother⟩ := raw_store hp (.refl s.vol) ht
        (Function.update s.inodes ino (some { inode with dirty := false }))
      have st := @Stepped.same s.vol inode { inode with dirty := false } hl.toInodeFine ok.size rfl
        rfl rfl rfl hl.size
      refine st.fsStep ok hi (fun _ hc => ht ▸ store_covered hc) (fun h => by cases h) hother
        fun i h => ?_
      cases h
      have hk := update_keeps (s.itable.mem b k) hl.nlink hsize
      exact ⟨hl.nlink, hl.rdev, fun _ => ⟨_, hraw, hk.i_mode, hk.i_nlinks, hk.i_size, hk.i_rdev,
        hk.i_zone⟩⟩

/-! ## Changes of the blocks -/

/-- A step of the blocks of an inode that marks it, or leaves it. -/
lemma Stepped.blocks {f : (Nat → UInt8) → Nat → UInt8} (ok : FsOk s) (hi : s.inodes ino = some inode)
    (st : Stepped s.vol v' inode (some inode') f)
    (heq : inode' = { inode with i_data := inode'.i_data, dirty := inode'.dirty })
    (hd : inode' = inode ∨ inode'.dirty = true) :
    FsStep s { s.set_inode ino inode' with vol := v' } ino True leak bare f := by
  have hl := ok.live ino inode hi
  refine st.fsStep ok hi (fun _ hc => hc) (fun h => by cases h)
    (fun j _ => raw_same st.own.toSameMount _ j) fun i h => ?_
  cases h
  refine ⟨by rw [heq]; exact hl.nlink, by rw [heq]; exact hl.rdev, fun h => ?_⟩
  rcases hd with rfl | hd
  · obtain ⟨raw, hraw, hk⟩ := hl.synced h
    exact ⟨raw, (raw_same st.own.toSameMount _ ino).trans hraw, hk⟩
  · exact absurd (hd.symm.trans h) Bool.noConfusion

/-- Everything a mapping that returns has done. -/
lemma Fs.get_block_inv (ok : FsOk s) {block : Nat} {getblk : Nat → Bool}
    (h : s.cominix_get_block ino block getblk = some s') : ∃ (inode inode' : Inode) (v' : Vol),
      s.inodes ino = some inode ∧ inode.a_ops = .cominix_aops ∧
      Stepped s.vol v' inode (some inode') id ∧
      inode' = { inode with i_data := inode'.i_data, dirty := inode'.dirty } ∧
      (inode' = inode ∨ inode'.dirty = true) ∧ s' = { s.set_inode ino inode' with vol := v' } := by
  unfold Fs.cominix_get_block at h
  cases hi : s.inodes ino with
  | none =>
    simp only [hi] at h
    cases h
  | some inode =>
    have hl := ok.live ino inode hi
    simp only [hi] at h
    split at h
    · rename_i hcond
      obtain ⟨ha, hblock⟩ := hcond
      cases hg : CominixFs.get_block getblk s.vol inode block true with
      | none =>
        simp only [hg] at h
        cases h
      | some r =>
        obtain ⟨v₁, inode', g⟩ := r
        have hst := fun v' hv => @get_block_stepped s.vol v' inode inode' getblk block g v₁
          hl.toInodeFine ha ok.vol.area ok.size hblock hg hv
        simp only [hg] at h
        refine ⟨inode, inode', s'.vol, rfl, ha, ?_⟩
        cases g with
        | mapped nr new =>
          cases new with
          | true =>
            cases h
            obtain ⟨hs, heq, hd⟩ := hst _ rfl
            exact ⟨hs, heq, hd, rfl⟩
          | false =>
            cases h
            obtain ⟨hs, heq, hd⟩ := hst _ rfl
            exact ⟨hs, heq, hd, rfl⟩
        | hole =>
          cases h
          obtain ⟨hs, heq, hd⟩ := hst _ rfl
          exact ⟨hs, heq, hd, rfl⟩
        | failed err =>
          cases h
          obtain ⟨hs, heq, hd⟩ := hst _ rfl
          exact ⟨hs, heq, hd, rfl⟩
    · cases h

lemma FsOk.get_block (ok : FsOk s) {block : Nat} {getblk : Nat → Bool}
    (h : s.cominix_get_block ino block getblk = some s') : FsStep s s' ino True leak bare id := by
  obtain ⟨inode, inode', v', hi, -, hs, heq, hd, rfl⟩ := Fs.get_block_inv ok h
  exact hs.blocks ok hi heq hd

/-- Everything a write that returns has done. -/
lemma Fs.write_inv (ok : FsOk s) {block : Nat} {data : Mem} (h : s.write ino block data = some s') :
    ∃ inode v', s.inodes ino = some inode ∧ inode.a_ops = .cominix_aops ∧
      Stepped s.vol v' inode (some inode) (write_bytes s.vol.dev.bs block data) ∧
      s' = { s.set_inode ino inode with vol := v' } := by
  unfold Fs.write at h
  cases hi : s.inodes ino with
  | none =>
    simp only [hi] at h
    cases h
  | some inode =>
    have hl := ok.live ino inode hi
    simp only [hi] at h
    split at h
    · rename_i hcond
      obtain ⟨ha, hblock⟩ := hcond
      split at h
      · rename_i v₁ inode' nr new hg
        obtain ⟨rfl, -, -, -, hs⟩ := @write_stepped _ _ _ _ _ data _ _ hl.toInodeFine ha ok.vol.area
          ok.size hblock hg
        cases h
        have hthere : Function.update s.inodes ino (some inode) = s.inodes := by
          rw [← hi, Function.update_eq_self]
        refine ⟨inode, _, rfl, ha, hs, ?_⟩
        unfold Fs.set_inode
        rw [hthere]
      · cases h
    · cases h

lemma FsOk.write (ok : FsOk s) {block : Nat} {data : Mem} (h : s.write ino block data = some s') :
    FsStep s s' ino True leak bare (write_bytes s.vol.dev.bs block data) := by
  obtain ⟨inode, v', hi, -, hs, rfl⟩ := Fs.write_inv ok h
  exact hs.blocks ok hi rfl (.inl rfl)

lemma FsOk.truncate (ok : FsOk s) (hi : s.inodes ino = some inode) (h : s.truncate ino = some s') :
    FsStep s s' ino True leak bare (cut_bytes inode.i_size) := by
  have hl := ok.live ino inode hi
  unfold Fs.truncate at h
  simp only [hi] at h
  cases ht : cominix_truncate s.vol inode with
  | none =>
    simp only [ht] at h
    cases h
  | some r =>
    obtain ⟨v', inode'⟩ := r
    simp only [ht] at h
    cases h
    obtain ⟨hs, heq, hd⟩ := truncate_stepped hl.toInodeFine ok.vol.area ok.size ht
    exact hs.blocks ok hi heq hd

/-! ## Evictions -/

/-- Fewer new blocks may be counted. -/
lemma OwnStep.fewer {old new new' : Nat → Prop} (h : OwnStep v v' old new) (hsub : ∀ x, new' x → new x) :
    OwnStep v v' old new' :=
  ⟨h.toZmapStep, h.printk, ⟨h.ex.keep, fun x hx => h.ex.fresh x (hsub x hx)⟩, h.out⟩

/-- Freeing an inode clears its slot and no other. -/
lemma clear_inode_spec (hs : SameMount s.vol v') (inodes : Nat → Option Inode)
    (ht : t = { s with vol := v' }.cominix_clear_inode ino) :
    (∀ b, s.itable.Covered b → t.Covered b) ∧
    (∀ raw, Fs.raw ⟨v', t, s.s_sbh, inodes⟩ ino = some raw → raw.i_nlinks = 0) ∧
    ∀ j, j ≠ ino → Fs.raw ⟨v', t, s.s_sbh, inodes⟩ j = s.raw j := by
  unfold Fs.cominix_clear_inode at ht
  dsimp only at ht
  cases hp : cominix_V2_raw_inode v'.sbi v'.dev ino with
  | none =>
    simp only [hp] at ht
    rw [ht]
    refine ⟨fun _ hc => hc, fun raw h => ?_, fun j _ => raw_same hs inodes j⟩
    unfold Fs.raw at h
    dsimp only at h
    rw [hp] at h
    cases h
  | some p =>
    simp only [hp] at ht
    obtain ⟨h1, h2⟩ := raw_store ((hs.raw_inode ino).symm.trans hp) hs ht inodes
    refine ⟨fun b hc => ht ▸ store_covered hc, fun raw h => ?_, h2⟩
    rw [h1] at h
    cases h
    rfl

/-- An inode has a bit in the bitmap, so freeing it clears its slot. -/
lemma FsOk.free_inode (ok : FsOk s) (hl : LiveOk s ino inode) (hs : SameMount s.vol v') :
    { s with vol := v' }.cominix_free_inode ino = { s with vol := v' }.cominix_clear_inode ino := by
  obtain ⟨h0, hn⟩ := hl.num
  have hsbi : v'.sbi.s_ninodes = s.vol.sbi.s_ninodes ∧ v'.sbi.s_imap_blocks = s.vol.sbi.s_imap_blocks := by
    rw [hs.sbi]
    exact ⟨rfl, rfl⟩
  have hbit := (Nat.div_le_div_right hn).trans_lt ok.imap
  unfold Fs.cominix_free_inode
  dsimp only
  rw [hsbi.1, hsbi.2, hs.bits, if_neg (by omega), if_neg (Nat.not_le.2 hbit)]

/-- An inode that is not marked is read again as it was. -/
lemma LiveOk.iget (hl : LiveOk s ino inode) (size : SizeOk s.vol) (hd : inode.dirty = false)
    (h0 : inode.i_nlink ≠ 0) : ∃ inode', s.cominix_iget ino = some inode' ∧
      Stepped s.vol s.vol inode (some inode') id ∧ inode'.i_nlink = inode.i_nlink ∧
      inode'.i_mode = inode.i_mode ∧ inode'.i_size = inode.i_size ∧
      (inode'.i_mode = .dev → inode'.i_rdev < 2 ^ 16) ∧ inode'.dirty = false ∧
      (inode.i_mode ≠ .dev → ∀ k < 10, inode'.i_data k = inode.i_data k) ∧
      ∃ raw, s.raw ino = some raw ∧ raw.Keeps inode' := by
  obtain ⟨raw, hraw, hk⟩ := hl.synced hd
  unfold Fs.raw at hraw
  cases hp : cominix_V2_raw_inode s.vol.sbi s.vol.dev ino with
  | none =>
    rw [hp] at hraw
    cases hraw
  | some p =>
    rw [hp, Option.map_some, Option.some.injEq] at hraw
    have hn : raw.i_nlinks ≠ 0 := by rw [hk.i_nlinks]; exact h0
    have hget : ∃ i₀ : Inode, i₀ = ⟨raw.i_mode, raw.i_nlinks, raw.i_size, 0,
        fun k => if k < 10 then raw.i_zone k else 0, .other, .empty_aops, false⟩ ∧
        s.cominix_iget ino = some (cominix_set_inode i₀ (raw.i_zone 0)) := by
      refine ⟨_, rfl, ?_⟩
      unfold Fs.cominix_iget V2_cominix_iget
      simp only [hp, hraw]
      rw [if_neg hn]
    obtain ⟨i₀, hi₀, hget⟩ := hget
    obtain ⟨i_fop, a_ops, i_rdev, heq, hdev⟩ := cominix_set_inode_eq i₀ (raw.i_zone 0)
    have hops := set_inode_ops i₀ (raw.i_zone 0) fun _ => by rw [hi₀]
    have hdata : ∀ k < 10, (cominix_set_inode i₀ (raw.i_zone 0)).i_data k = raw.i_zone k := by
      intro k hk
      rw [heq, hi₀]
      exact if_pos hk
    have hmode : (cominix_set_inode i₀ (raw.i_zone 0)).i_mode = inode.i_mode := by
      rw [heq, hi₀]
      exact hk.i_mode
    have hnlink : (cominix_set_inode i₀ (raw.i_zone 0)).i_nlink = inode.i_nlink := by
      rw [heq, hi₀]
      exact hk.i_nlinks
    have hsize : (cominix_set_inode i₀ (raw.i_zone 0)).i_size = inode.i_size := by
      rw [heq, hi₀]
      exact hk.i_size
    have hclean : (cominix_set_inode i₀ (raw.i_zone 0)).dirty = false := by
      rw [heq, hi₀]
    have hrdev : inode.i_mode = .dev →
        (cominix_set_inode i₀ (raw.i_zone 0)).i_rdev = raw.i_zone 0 := by
      intro hm
      have h0 : i₀.i_mode = .dev := by
        rw [hi₀]
        exact hk.i_mode.trans hm
      rw [heq]
      exact hdev h0
    generalize cominix_set_inode i₀ (raw.i_zone 0) = made at *
    clear heq hdev hi₀
    have hle : made.i_size ≤ s.vol.sbi.s_maxbytes := hsize ▸ hl.size
    refine ⟨made, hget, ?_, hnlink, hmode, hsize, fun hm => ?_, hclean, fun hm k hk' => ?_, raw, ?_,
      ⟨hk.i_mode.trans hmode.symm, hk.i_nlinks.trans hnlink.symm, hk.i_size.trans hsize.symm,
        fun hm => (hrdev (hmode ▸ hm)).symm, fun _ k hk' => (hdata k hk').symm⟩⟩
    · by_cases hm : inode.i_mode = .dev
      · -- a device has no blocks, and its number is no marker
        have hb : has_blocks inode.i_mode = false := by rw [hm]; rfl
        have hc : inode_is_chunked made = false := by
          have h16 := hl.rdev hm
          unfold inode_is_chunked
          rw [hdata 0 (by decide), hk.i_rdev hm, beq_false_of_ne, Bool.false_and]
          unfold chunk_mark
          omega
        have hfine : InodeFine s.vol made := by
          refine ⟨⟨fun _ h => ?_, fun h => absurd (hc.symm.trans h) Bool.noConfusion⟩, hle, hops⟩
          rw [hmode, hb] at h
          cases h
        refine .swap hl.toInodeFine hfine (entries_per_block_pos size.bits) (fun x => ?_)
          fun data _ _ h => ?_
        · have h1 := hl.toInodeFine.no_zones hb x
          have h2 := hfine.no_zones (hmode ▸ hb) x
          exact ⟨fun h => absurd h h2, fun h => absurd h h1⟩
        · rw [hmode, hb] at h
          cases h
      · obtain ⟨h1, h2, h3⟩ := hl.toInodeFine.words size
          (fun k hk' => (hdata k hk').trans (hk.i_zone hm k hk')) hmode hle hops
        exact .swap hl.toInodeFine h1 (entries_per_block_pos size.bits) h2 h3
    · have hm' := hmode ▸ hm
      rw [hrdev hm', hk.i_rdev hm']
      exact hl.rdev hm'
    · rw [hdata k hk', hk.i_zone hm k hk']
    · unfold Fs.raw
      rw [hp, Option.map_some, hraw]

lemma FsOk.evict (ok : FsOk s) (h : s.cominix_evict_inode ino = some s') :
    FsStep s s' ino True (s.Leaks (.evict ino)) bare id := by
  unfold Fs.cominix_evict_inode at h
  cases hi : s.inodes ino with
  | none =>
    simp only [hi] at h
    cases h
  | some inode =>
    have hl := ok.live ino inode hi
    simp only [hi] at h
    by_cases h0 : inode.i_nlink = 0
    · rw [if_pos h0] at h
      cases ht : cominix_truncate s.vol { inode with i_size := 0 } with
      | none =>
        simp only [ht] at h
        cases h
      | some r =>
        obtain ⟨v', inode'⟩ := r
        simp only [ht] at h
        cases h
        have hfine₀ : InodeFine s.vol { inode with i_size := 0 } :=
          ⟨⟨hl.ok.tree, fun hc => by
            obtain ⟨hreg, blocks, es, hb⟩ := hl.ok.list hc
            exact ⟨hreg, blocks, es, hb.head, hb.size, hb.last, hb.nodup, hb.used, hb.list,
              hb.covered⟩⟩, Nat.zero_le _, hl.ops.congr rfl rfl rfl rfl⟩
        obtain ⟨hs, -, -⟩ := truncate_stepped hfine₀ ok.vol.area ok.size ht
        have hold : ZonesOf s.vol (s.inodes ino) = InodeZone s.vol { inode with i_size := 0 } := by
          funext x
          rw [hi]
          exact propext zonesOf_some
        have hnone : Function.update s.inodes ino none ino = none := Function.update_self ..
        obtain ⟨htable, hgone, hothers⟩ := @clear_inode_spec s ino v' _ hs.own.toSameMount
          (Function.update s.inodes ino none) (ok.free_inode hl hs.own.toSameMount)
        have hlow : Untouched s.vol v' (ZonesOf s.vol (s.inodes ino)) := hold ▸ hs.low
        refine ⟨?_, ?_, fun i h => ?_, fun j hj => Function.update_of_ne hj _ _, hothers,
          fun data _ i h => ?_, fun hleak => ?_, fun _ => ⟨hs.sbi, hlow⟩, fun _ _ x hx => ?_,
          fun x hx hc => ok.rest hlow hs.own.toSameMount hx hc, ok.esbStored hlow hs.sbi, rfl, htable,
          fun _ => hgone⟩
        · rw [hold]
          dsimp only
          rw [hnone]
          exact hs.own.fewer fun x hx => absurd hx zonesOf_none
        · refine ok.vol.step hs.own.toZmapStep (ok.vol.lay.congr hs.sbi hs.own.bits hs.own.nblocks)
            fun harea hset => ?_
          refine (hs.own.ex.keep _ ⟨harea, hset⟩ fun hz => ?_).2
          rw [← hold] at hz
          exact ok.not_esb hz rfl
        · dsimp only at h
          rw [hnone] at h
          cases h
        · dsimp only at h
          rw [hnone] at h
          cases h
        · -- what is not chunked is truncated to nothing
          have hc : inode_is_chunked inode = false := by
            cases hc : inode_is_chunked inode with
            | false => rfl
            | true => exact absurd ⟨inode, hi, h0, hc⟩ hleak
          have hempty := truncate_empty hfine₀ ok.vol.area ok.size hc rfl ht
          rw [hold]
          dsimp only
          rw [hnone]
          intro x hx
          rcases hs.exact x hx with hu | hnew
          · exact .inl hu
          · exact absurd (zonesOf_some.1 hnew) (hempty x)
        · dsimp only at hx
          rw [hnone] at hx
          exact absurd hx zonesOf_none
    · rw [if_neg h0] at h
      split at h
      · cases h
      · rename_i hd
        cases h
        obtain ⟨inode', hget, hst, hnlink, -, -, hrdev, -, -, hraw⟩ :=
          hl.iget ok.size (Bool.eq_false_iff.2 hd) h0
        rw [hget]
        refine hst.fsStep ok hi (fun _ hc => hc) (fun h => by cases h)
          (fun j _ => raw_same (.refl _) _ j) fun i h => ?_
        cases h
        exact ⟨hnlink ▸ hl.nlink, hrdev, fun _ => hraw⟩

/-! ## Chunking -/

/-- The bytes of an inode stay while blocks of others are exchanged. -/
lemma OwnStep.reads {old new : Nat → Prop} {data : Nat → UInt8} (st : OwnStep v v' old new)
    (ok : InodeOk v inode) (size : SizeOk v)
    (hother : ∀ x, InodeZone v inode x → ¬ old x ∧ x ≠ v.sbi.extra_sb_location)
    (h : Reads v inode data) : Reads v' inode data := by
  refine h.left size st.toSameMount fun x hx => ?_
  obtain ⟨hold, hesb⟩ := hother x hx
  exact (st.out x (ok.used (entries_per_block_pos size.bits) hx) hold hesb).1

/-- `replace` writes the inode it made to its slot. -/
lemma replace_itable {r r' : FileState} {head last ll_size : Nat}
    (h : replace r head last ll_size = some r') : ∃ inode,
      cominix_write_inode r'.vol.sbi r'.vol.dev r.itable r.ino inode = some r'.itable ∧
      r'.inode = cominix_set_inode inode 0 := by
  unfold replace at h
  cases ht : cominix_truncate r.vol { r.inode with i_size := 0 } with
  | none =>
    simp only [ht] at h
    cases h
  | some p =>
    obtain ⟨vol, inode⟩ := p
    simp only [ht] at h
    split at h
    · cases h
    · split at h
      · cases h
      · rename_i itable hw
        cases h
        exact ⟨_, hw, rfl⟩

/-- Storing a chunk keeps the extra superblock up to date. -/
lemma Filled.esbStored {loc size : Nat} (h : Filled v v' loc size) (lay : HeapLayout v)
    (he : EsbStored v) : EsbStored v' := by
  have hloc : v'.sbi.extra_sb_location = v.sbi.extra_sb_location := by rw [h.sbi]
  have hht : v'.sbi.hashtable = v.sbi.hashtable := by rw [h.sbi]
  have hsz : v'.sbi.hashtable_size = v.sbi.hashtable_size := by rw [h.sbi]
  have hroom := h.room
  have hmax := lay.max_lt
  have hbrk : loc + (24 + size) < 256 ^ 8 := by omega
  unfold EsbStored ExtraSuperBlock.read at he ⊢
  obtain ⟨h1, h2, -⟩ := ExtraSuperBlock.mk.inj he
  rw [hloc, hht, hsz, h.mem_esb, h.brk, le_put_disjoint (by decide), le_put_disjoint (by decide),
    le_put hbrk, h1, h2]

/-- The states of the chunk loop: the list, without entries at the start of the file only, and the
extra superblock. -/
lemma InLoop.list {head : Nat} {f : Filp} {c : ChunkLoop} (ok : VolOk v) (h : InLoop f md5 v head c) :
    ∃ init, ListLoop v c init ∧ (init ++ [c.last]).head? = some head ∧
      (c.log = [] → c.f_pos = 0) ∧ (EsbStored v → EsbStored c.vol) := by
  induction h with
  | start ha hz =>
    have hlist := ListLoop.start ok ha hz
    refine ⟨[], hlist, rfl, fun _ => rfl, fun he => ?_⟩
    rcases ll_alloc_new_block_spec ok.zmap with ⟨hnone, -⟩ | ⟨v₁, new, hnew, -, -, hdev, hsbi, ht⟩
    · rw [ha] at hnone
      cases hnone
    rw [ha] at hnew
    obtain ⟨rfl, rfl⟩ := Prod.mk.inj (Option.some.inj hnew)
    obtain ⟨harea, hfree⟩ := ht.free head (by simp)
    unfold zero_out_block at hz
    split at hz
    · cases hz
      unfold EsbStored at he ⊢
      dsimp only
      rw [hsbi, Dev.store_bh, Buffers.set_mem_of_ne _ _ (ok.ne_esb harea hfree).symm, hdev]
      exact he
    · cases hz
  | @turn c c' _ hlt ht ih =>
    obtain ⟨init, inv, hhead, -, hesb⟩ := ih
    rcases chunk_turn_inv hlt ht with ⟨hfalse, -⟩ | ⟨-, seg, loc, filled, v₁, t⟩
    · cases hfalse
    obtain ⟨init', news, hinit, inv', happ⟩ := inv.turn ok t
    refine ⟨init', inv', ?_, fun h0 => ?_, fun he => ?_⟩
    · rw [hinit, List.head?_append, hhead]
      rfl
    · rw [t.log] at h0
      exact absurd h0 (by simp)
    · have hmax : MaxSize = 65536 := rfl
      have hseg := t.max
      have hsearch : EsbStored v₁ ∧ v₁.sbi.extra_sb_location = v.sbi.extra_sb_location := by
        rcases search_or_fill_inv inv.ok.lay ⟨t.pos, by omega⟩ t.search with
          ⟨-, rfl, -⟩ | ⟨-, -, hf, -⟩
        · exact ⟨hesb he, inv.grown.esb⟩
        · exact ⟨hf.esbStored inv.ok.lay (hesb he), hf.toSameMount.esb.trans inv.grown.esb⟩
      have hout : v.sbi.extra_sb_location ∉ c.last :: news := by
        intro hmem
        have hb : v.sbi.extra_sb_location ∈ init' ++ [c'.last] := by
          rw [hinit]
          rcases List.mem_cons.1 hmem with h | h
          · rw [h]
            simp
          · exact List.mem_append_right _ h
        obtain ⟨harea, hfree⟩ := inv'.grown.free _ hb
        exact ok.ne_esb harea hfree rfl
      unfold EsbStored at hsearch ⊢
      rw [happ.sbi_eq, hsearch.2, (happ.mem_out _ hout).1, ← hsearch.2]
      exact hsearch.1

/-- The extra superblock and what is not in the normal area are no blocks of a new list. -/
lemma ListGrown.rest {blocks : List Nat} {x : Nat} (g : ListGrown v v' blocks) (ok : VolOk v)
    (hx : InArea v x → x = v.sbi.extra_sb_location) (hc : v.dev.bh.Covered x) :
    v'.dev.bh.Covered x := by
  refine g.kept x (fun hmem => ?_) hc
  obtain ⟨harea, hfree⟩ := g.free x hmem
  exact ok.ne_esb harea hfree (hx harea)

/-- Freeing the zones of a file leaves the extra superblock alone, and what is not in the normal
area. -/
lemma FileReady.replaced {r : FileState} {head last ll_size : Nat} (ok : VolOk v)
    (ready : FileReady v inode) (h : replace ⟨v, t, ino, inode⟩ head last ll_size = some r) :
    HeapLayout r.vol ∧ r.vol.sbi = v.sbi ∧ SameMount v r.vol ∧
      ∀ x, (InArea v x → x = v.sbi.extra_sb_location) →
        r.vol.dev.bh.mem x = v.dev.bh.mem x ∧ r.vol.dev.bh.dirty x = v.dev.bh.dirty x := by
  obtain ⟨made, htr, -, -⟩ := replace_inv h
  have ready₀ : FileReady v { inode with i_size := 0 } := ⟨ready.tree, ready.size, ready.esb⟩
  rcases cominix_truncate_inv ok ready₀ (Nat.two_pow_pos 63) htr with ⟨hv, -⟩ | htr
  · rw [hv]
    exact ⟨ok.lay, rfl, .refl v, fun _ _ => ⟨rfl, rfl⟩⟩
  · refine ⟨ok.lay.congr htr.step.sbi_eq htr.step.bits htr.step.nblocks, htr.step.sbi_eq,
      htr.step.toSameMount, fun x hx => htr.step.out x (fun hz => ?_) fun harea => ?_⟩
    · exact ready.esb (hx (ready.tree.zone x hz).1 ▸ hz)
    · have he := hx harea
      rcases ok.esb with h0 | ⟨-, hset⟩
      · exact absurd (he.trans h0) (ok.ne_zero harea)
      · rw [he]
        exact hset

/-- How the loop ends. -/
lemma chunk_loop_gives_up {f : Filp} {fuel : Nat} {c c' : ChunkLoop} {fine : Bool}
    (h : chunk_loop f md5 fuel c = some (fine, c')) : gives_up f fuel c.call c.f_pos = !fine := by
  induction fuel generalizing c with
  | zero => cases h
  | succ fuel ih =>
    simp only [chunk_loop] at h
    by_cases hlt : c.f_pos < f.i_size
    · rw [if_pos hlt] at h
      rcases hc : cdc_get_chunk_size f c.call c.f_pos with ⟨n, call⟩
      simp only [gives_up, hc]
      rw [if_pos hlt]
      cases ht : chunk_turn f md5 c with
      | none =>
        simp only [ht] at h
        cases h
      | some r =>
        obtain ⟨fine', c₁⟩ := r
        rcases chunk_turn_reads hc ht with ⟨rfl, hr⟩ | ⟨rfl, buf, hr⟩
        · simp only [ht] at h
          cases h
          rw [hr]
          rfl
        · rw [hr]
          simp only [ht] at h
          exact ih h
    · simp only [gives_up]
      rw [if_neg hlt] at h ⊢
      split at h
      · cases h
        rfl
      · cases h

/-- A chunking gives up exactly when its reads say so. -/
lemma chunk_file_gives_up {f : Filp} {head : Nat} {fine : Bool} {c : ChunkLoop}
    (h : chunk_file f md5 v = some (head, fine, c)) : f.gives_up = !fine := by
  unfold chunk_file at h
  split at h
  · cases h
  · split at h
    · cases h
    · split at h
      · cases h
      · rename_i hloop
        cases h
        exact chunk_loop_gives_up hloop

/-- A file that can be chunked is ready for it. -/
lemma FsOk.ready (ok : FsOk s) (hi : s.inodes ino = some inode) (hreg : inode.i_mode = .reg)
    (hf : inode.i_fop = .cominix_file_operations) :
    inode_is_chunked inode = false ∧ FileReady s.vol inode := by
  have hl := ok.live ino inode hi
  have hc := hl.toInodeFine.unchunked hreg hf
  have hb : has_blocks inode.i_mode = true := by rw [hreg]; rfl
  refine ⟨hc, hl.ok.tree hc hb, ok.size, fun hx => ?_⟩
  have hz : ZonesOf s.vol (s.inodes ino) s.vol.sbi.extra_sb_location :=
    ⟨inode, hi, (InodeZone.of_tree hc hb).2 hx⟩
  exact ok.not_esb hz rfl

/-- A chunking that gives up leaves the file, and blocks in use that nothing leads to. -/
lemma FsOk.chunk_failed (ok : FsOk s) (hi : s.inodes ino = some inode) (hreg : inode.i_mode = .reg)
    (hf : inode.i_fop = .cominix_file_operations) {c : ChunkLoop} {init : List Nat}
    (inv : ListLoop s.vol c init) (hesb : EsbStored s.vol → EsbStored c.vol) (hleak : leak) :
    FsStep s { s.set_inode ino inode with vol := c.vol } ino False leak bare id := by
  obtain ⟨hc, hready⟩ := ok.ready hi hreg hf
  have hl := ok.live ino inode hi
  have hb : has_blocks inode.i_mode = true := by rw [hreg]; rfl
  have hown := inv.grown.own ok.vol
  have hother : ∀ x, InodeZone s.vol inode x → ¬ False ∧ x ≠ s.vol.sbi.extra_sb_location :=
    fun x hx => ⟨id, ok.not_esb (hi ▸ zonesOf_some.2 hx)⟩
  obtain ⟨hok, hzone⟩ := hown.left hl.ok (entries_per_block_pos ok.size.bits) hother
  have hmax : c.vol.sbi.s_maxbytes = s.vol.sbi.s_maxbytes := by rw [inv.grown.sbi]
  have hthere : (s.set_inode ino inode).inodes ino = some inode := Function.update_self ..
  have hframe := @OwnStep.frame _ _ _ _ hown (InodeZone s.vol inode) fun x hx =>
    ⟨hl.ok.used (entries_per_block_pos ok.size.bits) hx, id⟩
  refine ⟨?_, inv.ok, fun i h => ?_, fun j hj => Function.update_of_ne hj _ _,
    fun j _ => raw_same inv.grown.toSameMount _ j, fun data hd i h => ?_, fun h => absurd hleak h,
    fun h => absurd h id, fun _ hcov x hx => ?_, fun x hx hc => inv.grown.rest ok.vol hx hc, hesb, rfl,
    fun _ hc => hc, fun h => ?_⟩
  · dsimp only
    rw [hthere, hi]
    refine (hframe.congr (fun x => ?_) fun x => Iff.rfl).fewer fun x hx => ?_
    · rw [false_or, zonesOf_some]
    · exact .inr ((hzone x).1 (zonesOf_some.1 hx))
  · dsimp only at h
    rw [hthere] at h
    cases h
    have hn : c.vol.sbi.s_ninodes = s.vol.sbi.s_ninodes := by rw [inv.grown.sbi]
    refine ⟨⟨hok, hmax ▸ hl.size, hl.ops⟩, hn ▸ hl.num, hl.nlink, hl.rdev, fun h => ?_⟩
    obtain ⟨raw, hraw, hk⟩ := hl.synced h
    exact ⟨raw, (raw_same inv.grown.toSameMount _ ino).trans hraw, hk⟩
  · dsimp only at h
    rw [hthere] at h
    cases h
    exact hown.reads hl.ok ok.size hother (hd inode hi)
  · dsimp only at hx
    rw [hthere, zonesOf_some, hzone x] at hx
    rw [hi] at hcov
    refine inv.grown.kept x (fun hmem => ?_) (hcov x (zonesOf_some.2 hx))
    have hu := hl.ok.used (entries_per_block_pos ok.size.bits) hx
    exact absurd ((inv.grown.free x hmem).2.symm.trans hu.2) Bool.noConfusion
  · dsimp only at h
    rw [hthere] at h
    cases h

/-- A chunking that succeeds exchanges the blocks of the file for a list. -/
lemma FsOk.chunk_done (ok : FsOk s) (hi : s.inodes ino = some inode) (hreg : inode.i_mode = .reg)
    (hf : inode.i_fop = .cominix_file_operations) {c : ChunkLoop} {init : List Nat} {head : Nat}
    {r : FileState} (inv : ListLoop s.vol c init) (hesb : EsbStored s.vol → EsbStored c.vol)
    (hlog : ¬ bare → c.log ≠ []) (hhead : (init ++ [c.last]).head? = some head)
    (hr : replace ⟨c.vol, s.itable, ino, inode⟩ head c.last c.ll_size = some r) :
    FsStep s { s.set_inode ino r.inode with vol := r.vol, itable := r.itable } ino False leak bare id := by
  obtain ⟨hc, hready⟩ := ok.ready hi hreg hf
  have hl := ok.live ino inode hi
  have hb : has_blocks inode.i_mode = true := by rw [hreg]; rfl
  have hsw := inv.replace (s := ⟨s.vol, s.itable, ino, inode⟩) ok.vol hready hreg hhead hr
  have hmount := hsw.own.toSameMount
  have hmax : r.vol.sbi.s_maxbytes = s.vol.sbi.s_maxbytes := by rw [hmount.sbi]
  have hthere : (s.set_inode ino r.inode).inodes ino = some r.inode := Function.update_self ..
  have hold : ∀ x, TreeZone s.vol inode.i_data x ↔ ZonesOf s.vol (s.inodes ino) x := by
    intro x
    rw [hi, zonesOf_some, InodeZone.of_tree hc hb]
  have hE : 0 < entries_per_block r.vol.dev := entries_per_block_pos (hmount.bits ▸ ok.size.bits)
  have hnew : ∀ x, x ∈ init ++ [c.last] ↔ ZonesOf r.vol (some r.inode) x := by
    intro x
    rw [zonesOf_some, InodeZone.of_list hsw.chunked, hsw.listed.zone_iff hE]
  have hown := hsw.own.congr hold hnew
  obtain ⟨hlay, hsbi, hm, hrest⟩ := (inv.grown.ready ok.vol hready).replaced inv.ok hr
  obtain ⟨made, hw, hmade⟩ := replace_itable hr
  obtain ⟨b, k, hp, ht⟩ := cominix_write_inode_inv hw
  dsimp only at hp ht
  rw [hmount.raw_inode] at hp
  obtain ⟨hraw, hothers⟩ := raw_store hp hmount ht (Function.update s.inodes ino (some r.inode))
  obtain ⟨i_fop, a_ops, i_rdev, heq, -⟩ := cominix_set_inode_eq made 0
  have hsize : r.inode.i_size ≤ s.vol.sbi.s_maxbytes := hsw.i_size ▸ hl.size
  have hnlink : r.inode.i_nlink < 2 ^ 16 := hsw.nlink ▸ hl.nlink
  refine ⟨?_, ?_, fun i h => ?_, fun j hj => Function.update_of_ne hj _ _, hothers,
    fun data _ i h hch => ?_, fun _ => ?_, fun h => absurd h id, fun hb _ x hx => ?_,
    fun x hx hc => ?_, fun he => ?_, rfl, fun _ hc => ht ▸ store_covered hc, fun h => ?_⟩
  · dsimp only
    rw [hthere]
    exact hown
  · refine ok.vol.step hown.toZmapStep hlay fun harea hset => ?_
    exact (hown.ex.keep _ ⟨harea, hset⟩ fun hz => ok.not_esb hz rfl).2
  · dsimp only at h
    rw [hthere] at h
    cases h
    have hn : r.vol.sbi.s_ninodes = s.vol.sbi.s_ninodes := by rw [hmount.sbi]
    refine ⟨⟨⟨fun h => absurd (hsw.chunked.symm.trans h) Bool.noConfusion, fun _ =>
      ⟨hsw.mode, _, _, hsw.listed⟩⟩, hmax ▸ hsize, fun _ => ?_, fun h => ?_⟩, hn ▸ hl.num, hnlink,
      fun h => absurd (hsw.mode.symm.trans h) Ftype.noConfusion, fun _ => ⟨_, hraw, ?_⟩⟩
    · rw [hsw.chunked, if_pos rfl, if_pos rfl]
      exact ⟨hsw.i_fop, hsw.a_ops⟩
    · rw [hsw.a_ops] at h
      cases h
    · rw [hmade, heq] at hnlink hsize
      have hk := @update_keeps made (s.itable.mem b k) hnlink (hsize.trans_lt ok.size.maxbytes)
      have hmode : made.i_mode ≠ .dev := by
        have := hsw.mode
        rw [hmade, heq] at this
        exact fun h => Ftype.noConfusion (this.symm.trans h)
      rw [hmade, heq]
      exact ⟨hk.i_mode, hk.i_nlinks, hk.i_size, fun h => absurd h hmode, hk.i_zone⟩
  · dsimp only at h
    rw [hthere] at h
    cases h
    exact absurd (hsw.chunked.symm.trans hch) Bool.noConfusion
  · dsimp only
    rw [hthere]
    exact hsw.exact.congr hold hnew
  · dsimp only at hx
    rw [hthere] at hx
    have hes : c.log.map Prod.fst ≠ [] := fun h => hlog hb (List.map_eq_nil_iff.1 h)
    exact hsw.listed.covered hes x ((hnew x).2 hx)
  · have hx' : InArea c.vol x → x = c.vol.sbi.extra_sb_location := by
      rw [inv.grown.inArea, inv.grown.esb]
      exact hx
    obtain ⟨h1, h2⟩ := hrest x hx'
    exact (inv.grown.rest ok.vol hx hc).congr h1 (by rw [hm.disk]) fun hd => h2.trans hd
  · have he := hesb he
    unfold EsbStored at he ⊢
    dsimp only
    rw [hsbi, (hrest _ fun _ => rfl).1]
    exact he
  · dsimp only at h
    rw [hthere] at h
    cases h

/-- Everything a chunking that returns has done. -/
lemma Fs.chunk_inv {results : Nat → Option Nat} (h : s.chunk md5 ino results = some s') :
    ∃ inode head fine c, s.inodes ino = some inode ∧ inode.i_mode = .reg ∧
      inode.i_fop = .cominix_file_operations ∧
      chunk_file ⟨file_bytes s.vol inode, results⟩ md5 s.vol = some (head, fine, c) ∧
      (fine = false ∧ s' = { s.set_inode ino inode with vol := c.vol } ∨
       fine = true ∧ ∃ r, replace ⟨c.vol, s.itable, ino, inode⟩ head c.last c.ll_size = some r ∧
        s' = { s.set_inode ino r.inode with vol := r.vol, itable := r.itable }) := by
  unfold Fs.chunk at h
  cases hi : s.inodes ino with
  | none =>
    simp only [hi] at h
    cases h
  | some inode =>
    simp only [hi] at h
    split at h
    · rename_i hcond
      cases hrun : chunk_and_replace ⟨file_bytes s.vol inode, results⟩ md5
          ⟨s.vol, s.itable, ino, inode⟩ with
      | none =>
        simp only [hrun] at h
        cases h
      | some r =>
        obtain ⟨ret, r⟩ := r
        simp only [hrun] at h
        cases h
        obtain ⟨head, fine, c, hfile, ⟨hfine, -, rfl⟩ | ⟨hfine, -, hr⟩⟩ := chunk_and_replace_inv hrun
        · exact ⟨inode, head, fine, c, rfl, hcond.1, hcond.2, hfile, .inl ⟨hfine, rfl⟩⟩
        · exact ⟨inode, head, fine, c, rfl, hcond.1, hcond.2, hfile, .inr ⟨hfine, r, hr, rfl⟩⟩
    · cases h

lemma FsOk.chunk (ok : FsOk s) {results : Nat → Option Nat} (h : s.chunk md5 ino results = some s') :
    FsStep s s' ino False (s.Leaks (.chunk ino results)) (s.Bare (.chunk ino results)) id := by
  obtain ⟨inode, head, fine, c, hi, hreg, hf, hfile, hcase⟩ := Fs.chunk_inv h
  obtain ⟨hin, hend⟩ := InLoop.of_chunk_file hfile
  obtain ⟨init, inv, hhead, hstart, hesb⟩ := hin.list ok.vol
  rcases hcase with ⟨rfl, rfl⟩ | ⟨hfine, r, hr, rfl⟩
  · exact ok.chunk_failed hi hreg hf inv hesb ⟨inode, hi, chunk_file_gives_up hfile⟩
  · refine ok.chunk_done hi hreg hf inv hesb (fun hb h0 => hb ⟨inode, hi, ?_⟩) hhead hr
    -- without entries the end of the file is its start
    have hsize : (file_bytes s.vol inode).length = 0 := (hend hfine).symm.trans (hstart h0)
    unfold file_bytes at hsize
    rwa [List.length_map, List.length_range] at hsize

/-! ## Any step -/

/-- Every step but an unmount is a step of one inode. -/
lemma Fs.step_spec (ok : FsOk s) {op : FsOp} (hop : ∀ keep, op ≠ .remount keep)
    (h : s.step md5 op = some s') :
    FsStep s s' op.ino op.Quiet (s.Leaks op) (s.Bare op) (s.op_bytes op) := by
  cases op with
  | new_inode ino mode rdev => exact ok.new_inode h
  | set_nlink ino nlink => exact ok.set_nlink h
  | get_block ino block getblk => exact ok.get_block h
  | write ino block data => exact ok.write h
  | set_size ino size => exact ok.set_size h
  | truncate ino =>
    cases hi : s.inodes ino with
    | none =>
      unfold Fs.step Fs.truncate at h
      simp only [hi] at h
      cases h
    | some inode =>
      unfold Fs.op_bytes
      simp only [hi]
      exact ok.truncate hi h
  | chunk ino results => exact ok.chunk h
  | evict ino => exact ok.evict h
  | write_inode ino => exact ok.write_inode h
  | remount keep => exact absurd rfl (hop keep)

end CominixFs
