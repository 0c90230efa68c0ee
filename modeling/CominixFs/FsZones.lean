import CominixFs.Lib.Runs
import CominixFs.FsMount

/-!
# Zones over whole runs

In every run from a first mount, unmounts and mounts included, every zone in use has at most one owner
(`zones_have_one_owner`), and all of them have one exactly when no step of the run loses zones
(`no_leak_iff`): what was lost is never found again.
-/

namespace CominixFs
open Bytes Forest

variable {s s' : Fs} {ino : Nat} {inode : Inode} {md5 : List UInt8 → UInt64} {op : FsOp}
  {ops : List FsOp} {img : Image} {m : SuperBlock} {rdonly survives : Bool}

/-- A file system in order of which an unmount would lose nothing. -/
structure Sound (s : Fs) : Prop where
  ok : FsOk s
  durable : Durable s

/-- What a step does: it is a step of one inode, or an unmount and a mount. -/
lemma Sound.cases (h : Sound s) (hs : s.step md5 op = some s') :
    (∀ keep, op ≠ .remount keep) ∧
      FsStep s s' op.ino op.Quiet (s.Leaks op) (s.Bare op) (s.op_bytes op) ∨
    (∃ keep, op = .remount keep) ∧ Remounted s s' := by
  by_cases hop : ∃ keep, op = .remount keep
  · obtain ⟨keep, rfl⟩ := hop
    exact .inr ⟨⟨keep, rfl⟩, h.durable.remount h.ok hs⟩
  · have hop : ∀ keep, op ≠ .remount keep := fun keep h => hop ⟨keep, h⟩
    exact .inl ⟨hop, Fs.step_spec h.ok hop hs⟩

lemma Sound.step (h : Sound s) (hbare : ¬ s.Bare op) (hs : s.step md5 op = some s') : Sound s' := by
  rcases h.cases hs with ⟨-, st⟩ | ⟨-, hr⟩
  · exact ⟨st.ok h.ok, st.durable h.ok h.durable hbare⟩
  · exact ⟨hr.ok, hr.durable⟩

/-- A superblock that is written at an unmount stays so. -/
lemma Sound.attached (h : Sound s) (ha : s.s_sbh.attached = true) (hs : s.step md5 op = some s') :
    s'.s_sbh.attached = true := by
  rcases h.cases hs with ⟨-, st⟩ | ⟨-, hr⟩
  · rw [st.s_sbh]
    exact ha
  · exact hr.attached

lemma Sound.run {C : Fs → FsOp → Prop} (h : Sound s) (hC : ∀ s op, C s op → ¬ s.Bare op)
    (r : Run (Fs.step md5) C s ops s') : Sound s' :=
  r.inv (fun hc h hs => Sound.step h (hC _ _ hc) hs) h

/-! ## Lost zones -/

lemma Remounted.inUse (h : Remounted s s') {x : Nat} : InUse s'.vol x ↔ InUse s.vol x := h.vol.inUse

lemma FirstMount.sound (h : FirstMount md5 img m survives) : Sound (m.fs survives) :=
  ⟨h.ok, h.durable⟩

/-- A file is made, written, chunked and, after an unmount and a mount, dropped from memory. -/
def heap_ops : List FsOp :=
  [.new_inode 2 .reg 0, .get_block 2 0 fun _ => true, .write 2 0 (ofList [1, 2, 3]), .set_size 2 3,
    .chunk 2 fun _ => some 1000, .remount fun _ => false, .evict 2]

/-- Each zone that an inode names is in use, is not the extra superblock, and is named in one place
of this inode only. The bitmap was told of no zone that was free, and the words of a chunked inode are
not taken for zones. -/
structure ZonesApart (s : Fs) : Prop where
  esb : InUse s.vol s.vol.sbi.extra_sb_location
  ok : ∀ ino inode, s.inodes ino = some inode → InodeOk s.vol inode
  used : ∀ ino inode x, s.inodes ino = some inode → InodeZone s.vol inode x →
    InUse s.vol x ∧ x ≠ s.vol.sbi.extra_sb_location
  apart : ∀ ino ino' inode inode' x, s.inodes ino = some inode → s.inodes ino' = some inode' →
    InodeZone s.vol inode x → InodeZone s.vol inode' x → ino = ino'
  printk : s.vol.printk = []
  marked : ∀ ino inode, s.inodes ino = some inode → inode_is_chunked inode = true →
    (∀ block getblk, s.cominix_get_block ino block getblk = none) ∧
    ∀ i_size, cominix_truncate s.vol { inode with i_size := i_size }
      = some (s.vol, { inode with i_size := i_size })

lemma FsOk.zonesApart (ok : FsOk s) : ZonesApart s := by
  refine ⟨ok.owned.used none _ rfl, fun ino inode hi => (ok.live ino inode hi).ok,
    fun ino inode x hi hx => ⟨ok.owned.used (some ino) x ⟨inode, hi, hx⟩, ok.not_esb ⟨inode, hi, hx⟩⟩,
    fun ino ino' inode inode' x hi hi' hx hx' => ?_, ok.printk, fun ino inode hi hc => ⟨?_, ?_⟩⟩
  · exact Option.some.inj (ok.owned.unique (some ino) (some ino') x ⟨inode, hi, hx⟩ ⟨inode', hi', hx'⟩)
  · intro block getblk
    have live := ok.live ino inode hi
    have haops := (live.ops.reg (live.ok.list hc).1).2
    rw [hc, if_pos rfl] at haops
    unfold Fs.cominix_get_block
    rw [hi]
    dsimp only
    rw [if_neg]
    rw [haops]
    rintro ⟨⟨⟩, -⟩
  · exact fun i_size => if_pos hc

/-- Without an unmount the file system stays in order, also when an empty file is chunked. -/
lemma FsOk.run (ok : FsOk s)
    (r : Run (Fs.step md5) (fun _ op => ∀ keep, op ≠ .remount keep) s ops s') : FsOk s' :=
  r.inv (fun hop ok hs => (Fs.step_spec ok hop hs).ok ok) ok

/-- After the first mount of a fresh image the zones stay apart in every run, whatever is mapped,
truncated, dropped or chunked, exactly when the mount found a zone for the extra superblock. -/
theorem zones_apart_iff (hv : FreshImage img)
    (h : cominix_fill_super img rdonly = some (.mounted m)) :
    (∀ ops s, Run (Fs.step md5) (fun _ op => ∀ keep, op ≠ .remount keep) (m.fs survives) ops s →
      ZonesApart s) ↔
    ∃ z, img.super.s_firstdatazone ≤ z ∧ z < img.first_nzones ∧ img.in_use z = false := by
  constructor
  · intro hall
    have hesb := (hall [] _ (.nil _)).esb
    rcases hv.toV3Image.first_mount hv.no_esb h rfl with ⟨hr, -⟩ | ⟨root, m', hm, ok, hcase⟩
    · cases hr
    cases hm
    rcases hcase with hfull | ⟨z, hz, hfree, -⟩
    · -- the location is still 0
      have h0 : m.vol.sbi.extra_sb_location = 0 := by
        rw [hfull.sbi]
        exact hv.no_esb
      have h1 : m.vol.sbi.s_firstdatazone ≤ m.vol.sbi.extra_sb_location := hesb.1.1
      have h2 := ok.first_pos
      rw [hfull.sbi] at h1
      rw [hfull.sbi] at h0
      omega
    · exact ⟨z, hz.1, hz.2, hfree⟩
  · intro hfree ops s r
    have hm : FirstMount md5 img m survives := SoundImage.first_mount ⟨hv, hfree⟩ h
    exact (hm.ok.run r).zonesApart

instance decidableNotRemount : ∀ op : FsOp, Decidable (∀ keep, op ≠ .remount keep)
  | .remount keep => .isFalse fun h => h keep rfl
  | .new_inode _ _ _ | .set_nlink _ _ | .get_block _ _ _ | .write _ _ _ | .set_size _ _ | .truncate _
  | .chunk _ _ | .evict _ | .write_inode _ => .isTrue nofun

/-- A file is chunked at the second attempt, an empty one is chunked, too, and the first one is freed. -/
def apart_ops : List FsOp :=
  heap_ops.take 4 ++ [.chunk 2 fun _ => none, .chunk 2 fun _ => some 1000, .new_inode 3 .reg 0,
    .chunk 3 fun _ => some 1000, .set_nlink 2 0, .evict 2]

/-- The zones are apart then. -/
theorem zones_apart_iff_heap : ∃ m s inode,
    cominix_fill_super heap_image false = some (.mounted m) ∧
    Run (Fs.step fun _ => 0) (fun _ op => ∀ keep, op ≠ .remount keep) (m.fs false) apart_ops s ∧
    s.inodes 3 = some inode ∧ inode_is_chunked inode = true ∧ ZonesApart s := by
  have h : (((cominix_fill_super heap_image false).bind FillSuper.s_fs_info).bind fun m =>
      (apart_ops.foldlM (fun s op =>
        if ∀ keep, op ≠ .remount keep then Fs.step (fun _ => 0) s op else none) (m.fs false)).bind
          fun s => (s.inodes 3).map inode_is_chunked) = some true := by
    decide +kernel
  obtain ⟨m, hm, h⟩ := Option.bind_eq_some_iff.1 h
  obtain ⟨s, h, hc⟩ := Option.bind_eq_some_iff.1 h
  obtain ⟨r, hr, hm⟩ := Option.bind_eq_some_iff.1 hm
  obtain rfl := FillSuper.s_fs_info_some hm
  obtain ⟨inode, hi, hc⟩ := Option.map_eq_some_iff.1 hc
  have run : Run (Fs.step fun _ => 0) (fun _ op => ∀ keep, op ≠ .remount keep) (m.fs false) _ s :=
    .of_foldlM h
  exact ⟨m, s, inode, hr, run, hi, hc,
    (zones_apart_iff heap_image_sound.toFreshImage hr).2 heap_image_sound.free _ s run⟩

lemma full_image_only_root : OnlyRoot full_image 40959 := by
  refine ⟨fun ino raw h1 hraw => ?_, by decide +kernel, by decide +kernel⟩
  obtain ⟨p, hp, rfl⟩ := Option.map_eq_some_iff.1 hraw
  have himap : full_image.super.s_imap_blocks = 80 := by decide +kernel
  have hzmap : full_image.super.s_zmap_blocks = 1 := by decide +kernel
  have hbits : full_image.sdev.s_blocksize_bits = 10 := by decide +kernel
  have hbs : full_image.sdev.bs = 1024 := by
    rw [Dev.bs, hbits]
    rfl
  have hp : (if ino = 0 ∨ full_image.super.s_ninodes < ino then none
      else if 2 + full_image.super.s_imap_blocks + full_image.super.s_zmap_blocks
          + (ino - 1) / (full_image.sdev.bs / 64) < full_image.sdev.nblocks then
        some (2 + full_image.super.s_imap_blocks + full_image.super.s_zmap_blocks
          + (ino - 1) / (full_image.sdev.bs / 64), (ino - 1) % (full_image.sdev.bs / 64))
      else none) = some p := hp
  rw [himap, hzmap, hbs] at hp
  split at hp
  · cases hp
  split at hp
  swap
  · cases hp
  obtain rfl := Option.some.inj hp
  change le (fun i => full_image.bytes ((2 + 80 + 1 + (ino - 1) / (1024 / 64))
    * 2 ^ full_image.sdev.s_blocksize_bits + i)) (64 * ((ino - 1) % (1024 / 64)) + 2) 2 = 0
  rw [hbits]
  have hzero : ∀ a, 85050 ≤ a → full_image.bytes a = 0 := by
    intro a ha
    apply put_all_zero
    simp only [List.cons_append, List.nil_append, List.forall_mem_cons, List.not_mem_nil,
      false_imp_iff, implies_true, and_true]
    omega
  rw [← le_zero 2 (64 * ((ino - 1) % (1024 / 64)) + 2)]
  refine le_congr fun a h2 h3 => hzero _ ?_
  omega

/-- On the full image the extra superblock is no zone. -/
theorem full_image_not_apart : ∃ img m, FreshImage img ∧
    cominix_fill_super img false = some (.mounted m) ∧ ¬ ZonesApart (m.fs false) := by
  obtain ⟨m, h, hloc, hfirst⟩ := full_image_mounts
  refine ⟨full_image, m, ?_, h, fun ha => ?_⟩
  · exact full_image_only_root.fresh full_image_v3 (by decide +kernel) (by decide +kernel)
      (by decide +kernel) (by decide +kernel) (by decide +kernel) (by decide +kernel)
      (by decide +kernel)
  · have h1 : m.vol.sbi.s_firstdatazone ≤ m.vol.sbi.extra_sb_location := ha.esb.1.1
    omega

end CominixFs
