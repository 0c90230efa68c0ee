import CominixFs.FsZones

/-!
# The file system as a store of files

To its users the file system is a store of files (`Store`): mapping blocks, chunking, dropping inodes,
writing them back and mounting again do nothing there. In every run the inodes show the files of
the store (`ShowsFile`), chunked or not.
-/

namespace CominixFs
open Bytes Forest

/-- A file as its users see it. -/
structure File where
  i_mode : Ftype
  i_nlink : Nat
  i_size : Nat
  i_rdev : Nat
  data : Nat → UInt8

/-- The bytes of a file. -/
def File.bytes (file : File) : List UInt8 := (List.range file.i_size).map file.data

/-- What a step does to the file it is about. Setting the size leaves the bytes beyond it, as the
driver does: they are there again when the size grows, until `truncate` cuts them off. -/
def File.step (bs : Nat) : FsOp → File → Option File
  | .set_nlink _ nlink, file => some { file with i_nlink := nlink }
  | .write _ block data, file => some { file with data := write_bytes bs block data file.data }
  | .set_size _ size, file => some { file with i_size := size }
  | .truncate _, file => some { file with data := cut_bytes file.i_size file.data }
  | .evict _, file => if file.i_nlink = 0 then none else some file
  | _, file => some file

/-- The files by number. -/
abbrev Store := Nat → Option File

/-- What a step does to the store. -/
def Store.step (bs : Nat) (st : Store) : FsOp → Store
  | .new_inode ino mode rdev =>
    Function.update st ino (some ⟨mode, 1, 0, if mode = .dev then rdev else 0, fun _ => 0⟩)
  | .remount _ => st
  | op => Function.update st op.ino ((st op.ino).bind (File.step bs op))

/-- The file of an inode with these bytes. -/
def Inode.file (inode : Inode) (data : Nat → UInt8) : File where
  i_mode := inode.i_mode
  i_nlink := inode.i_nlink
  i_size := inode.i_size
  i_rdev := if inode.i_mode = .dev then inode.i_rdev else 0
  data := data

/-- An inode shows a file: it reads as its bytes, and a chunked one has them in stored chunks. -/
inductive ShowsFile (v : Vol) (cs : List Stored) (inode : Inode) : File → Prop where
  | intro {data} :
    Reads v inode data →
    (inode_is_chunked inode = true → FileHolds v cs inode (inode.file data).bytes) →
    ShowsFile v cs inode (inode.file data)

variable {s s' : Fs} {ino : Nat} {inode inode' : Inode} {v v' : Vol} {cs cs' : List Stored}
  {md5 : List UInt8 → UInt64} {op : FsOp} {data : Nat → UInt8} {file : File}

/-! ## What a step does to its inode -/

/-- The inode of a step afterwards: its file is what the step makes of it, and the list of one that was
chunked before is left alone. -/
structure FileStep (s s' : Fs) (op : FsOp) (inode inode' : Inode) : Prop where
  file : ∀ data, (inode.file data).step s.vol.dev.bs op = some (inode'.file (s.op_bytes op data))
  list : inode_is_chunked inode' = true → (∃ ino results, op = .chunk ino results) ∨
    s'.vol = s.vol ∧ ∀ k < 10, inode'.i_data k = inode.i_data k

lemma Fs.set_inode_self (s : Fs) (ino : Nat) (inode : Inode) :
    (s.set_inode ino inode).inodes ino = some inode := Function.update_self ..

/-- Only the blocks and the mark are others. -/
lemma Inode.file_blocks (heq : inode' = { inode with i_data := inode'.i_data, dirty := inode'.dirty })
    (data : Nat → UInt8) : inode'.file data = inode.file data := by
  rw [heq]
  rfl

/-- Whether an inode in order is chunked shows in its operations. -/
lemma InodeFine.same_kind (fine : InodeFine v inode) (fine' : InodeFine v' inode')
    (hmode : inode'.i_mode = inode.i_mode) (hfop : inode'.i_fop = inode.i_fop)
    (hc : inode_is_chunked inode' = true) : inode_is_chunked inode = true := by
  have hreg := (fine'.ok.list hc).1
  have h1 := (fine'.ops.reg hreg).1
  have h2 := (fine.ops.reg (hmode ▸ hreg)).1
  rw [hc, if_pos rfl, hfop] at h1
  rw [h1] at h2
  by_contra hnot
  rw [if_neg hnot] at h2
  cases h2

/-- The zone words may be others while no list is named, and the mark. -/
lemma follows_blocks (hfile : ∀ data, (inode.file data).step s.vol.dev.bs op
      = some (inode.file (s.op_bytes op data)))
    (heq : inode' = { inode with i_data := inode'.i_data, dirty := inode'.dirty })
    (hc : inode_is_chunked inode' = true → s'.vol = s.vol ∧ inode'.i_data = inode.i_data) :
    FileStep s s' op inode inode' := by
  refine ⟨fun data => ?_, fun h => .inr ?_⟩
  · rw [hfile, Inode.file_blocks heq]
  · obtain ⟨hv, hd⟩ := hc h
    exact ⟨hv, fun k _ => congrFun hd k⟩

lemma set_nlink_file_step {nlink : Nat} (hi : s.inodes ino = some inode)
    (h : s.set_nlink ino nlink = some s') :
    ∃ inode', s'.inodes ino = some inode' ∧ FileStep s s' (.set_nlink ino nlink) inode inode' := by
  unfold Fs.set_nlink at h
  simp only [hi] at h
  split at h
  · cases h
    exact ⟨_, s.set_inode_self ino _, fun _ => rfl, fun _ => .inr ⟨rfl, fun _ _ => rfl⟩⟩
  · cases h

lemma set_size_file_step {size : Nat} (hi : s.inodes ino = some inode)
    (h : s.set_size ino size = some s') :
    ∃ inode', s'.inodes ino = some inode' ∧ FileStep s s' (.set_size ino size) inode inode' := by
  unfold Fs.set_size at h
  simp only [hi] at h
  split at h
  · cases h
    exact ⟨_, s.set_inode_self ino _, fun _ => rfl, fun _ => .inr ⟨rfl, fun _ _ => rfl⟩⟩
  · cases h

lemma write_inode_file_step (hi : s.inodes ino = some inode) (h : s.write_inode ino = some s') :
    ∃ inode', s'.inodes ino = some inode' ∧ FileStep s s' (.write_inode ino) inode inode' := by
  unfold Fs.write_inode at h
  simp only [hi] at h
  split at h
  · cases h
  · cases h
    exact ⟨_, s.set_inode_self ino _, fun _ => rfl, fun _ => .inr ⟨rfl, fun _ _ => rfl⟩⟩

/-- A file whose pages are mapped is not chunked, and stays so. -/
lemma mapped_file_step (fine : InodeFine s.vol inode) (ha : inode.a_ops = .cominix_aops)
    (st : Stepped s.vol v' inode (some inode') (s.op_bytes op))
    (hfile : ∀ data, (inode.file data).step s.vol.dev.bs op
      = some (inode.file (s.op_bytes op data)))
    (heq : inode' = { inode with i_data := inode'.i_data, dirty := inode'.dirty }) :
    FileStep s s' op inode inode' := by
  refine follows_blocks hfile heq fun hc => ?_
  have h := fine.same_kind (st.fine inode' rfl) (by rw [heq]) (by rw [heq]) hc
  rw [(fine.mapped ha).1] at h
  cases h

lemma truncate_file_step (ok : FsOk s) (hi : s.inodes ino = some inode)
    (h : s.truncate ino = some s') :
    ∃ inode', s'.inodes ino = some inode' ∧ FileStep s s' (.truncate ino) inode inode' := by
  have hl := ok.live ino inode hi
  have hb : s.op_bytes (.truncate ino) = cut_bytes inode.i_size := by
    unfold Fs.op_bytes
    simp only [hi]
  unfold Fs.truncate at h
  simp only [hi] at h
  cases ht : cominix_truncate s.vol inode with
  | none =>
    simp only [ht] at h
    cases h
  | some r =>
    obtain ⟨v', inode'⟩ := r
    simp only [ht] at h
    cases h
    obtain ⟨hs, heq, -⟩ := truncate_stepped hl.toInodeFine ok.vol.area ok.size ht
    refine ⟨inode', s.set_inode_self ino _, follows_blocks (fun data => ?_) heq fun hc => ?_⟩
    · rw [hb]
      rfl
    · -- nothing of a chunked file is freed
      have hch := hl.toInodeFine.same_kind (hs.fine inode' rfl) (by rw [heq]) (by rw [heq]) hc
      unfold cominix_truncate at ht
      rw [if_pos hch] at ht
      cases ht
      exact ⟨rfl, rfl⟩

lemma evict_file_step (ok : FsOk s) (hi : s.inodes ino = some inode)
    (h : s.cominix_evict_inode ino = some s') :
    (s'.inodes ino = none ∧ ∀ data, (inode.file data).step s.vol.dev.bs (.evict ino) = none) ∨
    ∃ inode', s'.inodes ino = some inode' ∧ FileStep s s' (.evict ino) inode inode' := by
  have hl := ok.live ino inode hi
  unfold Fs.cominix_evict_inode at h
  simp only [hi] at h
  by_cases h0 : inode.i_nlink = 0
  · rw [if_pos h0] at h
    split at h
    · cases h
    · cases h
      exact .inl ⟨Function.update_self .., fun data => if_pos h0⟩
  · rw [if_neg h0] at h
    split at h
    · cases h
    · rename_i hd
      cases h
      obtain ⟨inode', hget, hst, hnlink, hmode, hsize, -, -, hwords, raw, hraw, hk⟩ :=
        hl.iget ok.size (Bool.eq_false_iff.2 hd) h0
      obtain ⟨raw', hraw', hk'⟩ := hl.synced (Bool.eq_false_iff.2 hd)
      rw [hraw] at hraw'
      cases hraw'
      rw [hget]
      have hfile : ∀ data, inode'.file data = inode.file data := by
        intro data
        unfold Inode.file
        rw [hmode, hnlink, hsize]
        by_cases hdev : inode.i_mode = .dev
        · rw [if_pos hdev, if_pos hdev, ← hk'.i_rdev hdev, hk.i_rdev (hmode.trans hdev)]
        · rw [if_neg hdev, if_neg hdev]
      refine .inr ⟨inode', Function.update_self .., fun data => ?_, fun hc => .inr ⟨rfl, ?_⟩⟩
      · rw [hfile]
        exact if_neg h0
      · have hreg := (((hst.fine inode' rfl).ok).list hc).1
        exact hwords fun hdev => Ftype.noConfusion ((hmode.symm.trans hreg).symm.trans hdev)

lemma chunk_file_step (ok : FsOk s) {results : Nat → Option Nat} (hi : s.inodes ino = some inode)
    (h : s.chunk md5 ino results = some s') :
    ∃ inode', s'.inodes ino = some inode' ∧ FileStep s s' (.chunk ino results) inode inode' := by
  obtain ⟨i, head, fine, c, hi', hreg, hf, hfile, hcase⟩ := Fs.chunk_inv h
  rw [hi] at hi'
  cases hi'
  rcases hcase with ⟨-, rfl⟩ | ⟨-, r, hr, rfl⟩
  · exact ⟨inode, s.set_inode_self ino _, fun _ => rfl, fun _ => .inl ⟨ino, results, rfl⟩⟩
  · obtain ⟨-, hready⟩ := ok.ready hi hreg hf
    obtain ⟨init, inv, hhead, -, -⟩ := (InLoop.of_chunk_file hfile).1.list ok.vol
    have hsw := inv.replace (s := ⟨s.vol, s.itable, ino, inode⟩) ok.vol hready hreg hhead hr
    refine ⟨r.inode, s.set_inode_self ino _, fun data => ?_, fun _ => .inl ⟨ino, results, rfl⟩⟩
    refine congrArg some ?_
    unfold Inode.file
    rw [hsw.mode, hsw.nlink, hsw.i_size, hreg]
    rfl

/-- There is no new inode where there is one. -/
lemma new_inode_taken {mode : Ftype} {rdev : Nat} (hi : s.inodes ino = some inode) :
    s.step md5 (.new_inode ino mode rdev) ≠ some s' := by
  intro h
  unfold Fs.step Fs.cominix_new_inode at h
  simp only [hi] at h
  split at h
  · cases h
  · cases h

/-- A step of one inode. -/
lemma Fs.step_file (ok : FsOk s) (hi : s.inodes op.ino = some inode)
    (hop : ∀ keep, op ≠ .remount keep) (h : s.step md5 op = some s') :
    (s'.inodes op.ino = none ∧ ∀ data, (inode.file data).step s.vol.dev.bs op = none) ∨
    ∃ inode', s'.inodes op.ino = some inode' ∧ FileStep s s' op inode inode' := by
  cases op with
  | new_inode ino mode rdev => exact absurd h (new_inode_taken hi)
  | set_nlink ino nlink => exact .inr (set_nlink_file_step hi h)
  | get_block ino block getblk =>
    obtain ⟨i, inode', v', hi', ha, hs, heq, -, rfl⟩ := Fs.get_block_inv ok h
    obtain rfl := Option.some.inj (hi.symm.trans hi')
    exact .inr ⟨inode', s.set_inode_self ino _,
      mapped_file_step (ok.live ino inode hi).toInodeFine ha hs (fun _ => rfl) heq⟩
  | write ino block data =>
    obtain ⟨i, v', hi', ha, hs, rfl⟩ := Fs.write_inv ok h
    obtain rfl := Option.some.inj (hi.symm.trans hi')
    exact .inr ⟨inode, s.set_inode_self ino _,
      mapped_file_step (ok.live ino inode hi).toInodeFine ha hs (fun _ => rfl) rfl⟩
  | set_size ino size => exact .inr (set_size_file_step hi h)
  | truncate ino => exact .inr (truncate_file_step ok hi h)
  | chunk ino results => exact .inr (chunk_file_step ok hi h)
  | evict ino => exact evict_file_step ok hi h
  | write_inode ino => exact .inr (write_inode_file_step hi h)
  | remount keep => exact absurd rfl (hop keep)

/-! ## The bytes of a file -/

/-- An inode that is not chunked is read as its file. -/
lemma Reads.file_bytes (h : Reads v inode data) (hc : inode_is_chunked inode = false)
    (hb : has_blocks inode.i_mode = true) (hsize : inode.i_size ≤ v.sbi.s_maxbytes) :
    file_bytes v inode = (inode.file data).bytes := by
  refine List.map_congr_left fun pos hpos => ?_
  have hlt : pos < v.sbi.s_maxbytes := (List.mem_range.1 hpos).trans_le hsize
  have hin : Within v (pos / v.dev.bs) := (Nat.div_mul_le_self pos v.dev.bs).trans_lt hlt
  rw [h hc hb _ _ hin (Nat.mod_lt _ v.dev.bs_pos), Nat.div_add_mod']
  rfl

/-- Only the zone words and the size matter. -/
lemma FileHolds.congr {bytes : List UInt8} (h : FileHolds v cs inode bytes)
    (hz : ∀ k < 10, inode'.i_data k = inode.i_data k) (hsize : inode'.i_size = inode.i_size) :
    FileHolds v cs inode' bytes := by
  obtain ⟨blocks, es, segs, hl, hpieces, hflat⟩ := h.pieces
  have hc : inode_is_chunked inode' = true := by
    rw [← h.chunked]
    unfold inode_is_chunked
    rw [hz 0 (by decide), hz 9 (by decide)]
  refine ⟨hc, hsize.trans h.i_size, h.small, blocks, es, segs,
    ⟨?_, ?_, ?_, hl.nodup, hl.used, hl.list, hl.covered⟩, hpieces, hflat⟩
  · rw [get_list_head, hz 1 (by decide)]
    exact hl.head
  · rw [hz 2 (by decide)]
    exact hl.size
  · rw [hz 3 (by decide)]
    exact hl.last

lemma FileHolds.mono {bytes : List UInt8} (h : FileHolds v cs inode bytes) (hsub : cs ⊆ cs') :
    FileHolds v cs' inode bytes := by
  obtain ⟨blocks, es, segs, hl, hpieces, hflat⟩ := h.pieces
  exact ⟨h.chunked, h.i_size, h.small, blocks, es, segs, hl, hpieces.imp fun _ _ hp => hp.mono hsub,
    hflat⟩

/-- A chunked file whose list is left alone. -/
lemma FileHolds.frame {bytes : List UInt8} (h : FileHolds v cs inode bytes)
    (hE : 0 < entries_per_block v.dev) (st : ZmapStep v v')
    (hleft : ∀ x, InodeZone v inode x → zbit v' x = true ∧
      v'.dev.bh.mem x = v.dev.bh.mem x ∧ v'.dev.bh.dirty x = v.dev.bh.dirty x) :
    FileHolds v' cs inode bytes := by
  obtain ⟨blocks, es, segs, hl, hpieces, hflat⟩ := h.pieces
  refine ⟨h.chunked, h.i_size, h.small, blocks, es, segs, hl.frame st fun x hx => ?_, hpieces, hflat⟩
  exact hleft x ((InodeZone.of_list h.chunked).2 ((hl.zone_iff hE).2 hx))

/-- A file of another inode is left alone. -/
lemma ShowsFile.left {quiet leak bare : Prop} {f : (Nat → UInt8) → Nat → UInt8} {j : Nat}
    (h : ShowsFile s.vol cs inode file) (ok : FsOk s) (st : FsStep s s' ino quiet leak bare f)
    (hj : j ≠ ino) (hi : s.inodes j = some inode) (hsub : cs ⊆ cs') : ShowsFile s'.vol cs' inode file := by
  have hE := entries_per_block_pos ok.size.bits
  have hleft : ∀ x, InodeZone s.vol inode x → zbit s'.vol x = true ∧
      s'.vol.dev.bh.mem x = s.vol.dev.bh.mem x ∧ s'.vol.dev.bh.dirty x = s.vol.dev.bh.dirty x := by
    intro x hx
    have hz : ZonesOf s.vol (s.inodes j) x := ⟨inode, hi, hx⟩
    have hu := ok.owned.used (some j) x hz
    have hold : ¬ ZonesOf s.vol (s.inodes ino) x := fun ho =>
      hj (Option.some.inj (ok.owned.unique (some j) (some ino) x hz ho))
    exact ⟨(st.own.ex.keep x hu hold).2, st.own.out x hu hold (ok.not_esb hz)⟩
  cases h with
  | intro hr hh =>
    exact .intro (hr.left ok.size st.own.toSameMount fun x hx => (hleft x hx).2.1)
      fun hc => ((hh hc).frame hE st.own.toZmapStep hleft).mono hsub

/-- A step of a chunked inode that does not change its size leaves its bytes. -/
lemma FileStep.bytes (h : FileStep s s' op inode inode') (ok : FsOk s) (hi : s.inodes op.ino = some inode)
    (hs : s.step md5 op = some s') (hc : inode_is_chunked inode = true)
    (hsize : inode'.i_size = inode.i_size) (data : Nat → UInt8) :
    (inode'.file (s.op_bytes op data)).bytes = (inode.file data).bytes := by
  unfold File.bytes
  have hsize' : (inode'.file (s.op_bytes op data)).i_size = (inode.file data).i_size := hsize
  rw [hsize']
  refine List.map_congr_left fun pos hpos => ?_
  have hlt : pos < inode.i_size := List.mem_range.1 hpos
  cases op with
  | new_inode ino mode rdev => exact absurd hs (new_inode_taken hi)
  | write ino block new =>
    obtain ⟨i, v', hi', ha, -, -⟩ := Fs.write_inv ok hs
    obtain rfl := Option.some.inj (hi.symm.trans hi')
    rw [((ok.live ino inode hi).toInodeFine.mapped ha).1] at hc
    cases hc
  | truncate ino =>
    have hi : s.inodes ino = some inode := hi
    unfold Fs.op_bytes
    simp only [hi]
    exact if_pos hlt
  | _ => rfl

/-! ## Chunking -/

/-- The chunks a step cuts a file into. -/
def Fs.chunks (md5 : List UInt8 → UInt64) (s : Fs) : FsOp → List (List UInt8)
  | .chunk ino results =>
    match s.inodes ino with
    | none => []
    | some inode => chunks_of ⟨file_bytes s.vol inode, results⟩ md5 s.vol
  | _ => []

/-- The lengths of its pieces cut the start of a list. -/
lemma pieces_of_flatten {segs : List (List UInt8)} {bytes : List UInt8} (h : segs.flatten <+: bytes) :
    pieces bytes (segs.map List.length) = segs := by
  induction segs generalizing bytes with
  | nil => rfl
  | cons seg segs ih =>
    obtain ⟨rest, rfl⟩ := h
    rw [List.flatten_cons, List.append_assoc, List.map_cons, pieces, List.take_left, List.drop_left,
      ih (List.prefix_append _ _)]

/-- The segments of the loop are the chunks the file is cut into. -/
lemma LoopInv.chunks_of {f : Filp} {c : ChunkLoop} {init : List Nat} {head : Nat} {fine : Bool}
    {segs : List (List UInt8)} (inv : LoopInv md5 f v cs c init cs' segs)
    (h : chunk_file f md5 v = some (head, fine, c)) : chunks_of f md5 v = segs := by
  have hsizes : (c.log.map fun p => p.1.size) = segs.map List.length := by
    have hentries := inv.data.entries
    rw [List.forall₂_map_left_iff] at hentries
    refine List.forall₂_eq_eq_eq ▸ ?_
    rw [List.forall₂_map_left_iff, List.forall₂_map_right_iff]
    exact hentries.imp fun _ _ he => he.size
  unfold CominixFs.chunks_of
  rw [h]
  dsimp only
  rw [hsizes]
  refine pieces_of_flatten ?_
  rw [inv.data.flatten]
  exact List.take_prefix _ _

/-- What a chunking leaves: what was stored before, and the file in stored chunks when it is chunked. -/
lemma Held.chunk {D : List UInt8 → Prop} {results : Nat → Option Nat} (held : Held md5 s.vol cs)
    (ok : FsOk s) (known : ∀ c ∈ cs, D c.data) (hinj : ∀ a b, D a → D b → md5 a = md5 b → a = b)
    (hi : s.inodes ino = some inode) (hD : ∀ seg ∈ s.chunks md5 (.chunk ino results), D seg)
    (h : s.chunk md5 ino results = some s') :
    ∃ cs', Held md5 s'.vol cs' ∧ cs ⊆ cs' ∧ (∀ c ∈ cs', D c.data) ∧
      ∀ inode', s'.inodes ino = some inode' → inode_is_chunked inode' = true →
        FileHolds s'.vol cs' inode' (file_bytes s.vol inode) := by
  obtain ⟨i, head, fine, c, hi', hreg, hf, hfile, hcase⟩ := Fs.chunk_inv h
  obtain rfl := Option.some.inj (hi.symm.trans hi')
  have hl := ok.live ino inode hi
  obtain ⟨hc, hready⟩ := ok.ready hi hreg hf
  obtain ⟨hin, hend⟩ := InLoop.of_chunk_file hfile
  obtain ⟨init, cs', segs, inv, hhead⟩ := hin.inv held
  have hsegs : ∀ seg ∈ segs, D seg := by
    intro seg hseg
    refine hD seg ?_
    unfold Fs.chunks
    simp only [hi]
    rwa [inv.chunks_of hfile]
  have hknown : ∀ c ∈ cs', D c.data := by
    intro c hc
    cases inv.new c hc with
    | inl hold => exact known c hold
    | inr hnew => exact hsegs _ hnew
  have heldc : Held md5 c.vol cs' := ⟨inv.list.ok, inv.data.heap, inv.data.hash⟩
  rcases hcase with ⟨-, rfl⟩ | ⟨hfine, r, hrep, rfl⟩
  · refine ⟨cs', heldc, inv.old.subset, hknown, fun inode' hi' hc' => ?_⟩
    rw [s.set_inode_self] at hi'
    cases hi'
    rw [hc] at hc'
    cases hc'
  · have hlen : (file_bytes s.vol inode).length = inode.i_size := by
      rw [file_bytes, List.length_map, List.length_range]
    have hmax := ok.size.maxbytes
    have hsmall := hl.size
    refine ⟨cs', (heldc.replace (inv.list.grown.ready ok.vol hready) hrep).1, inv.old.subset, hknown,
      fun inode' hi' _ => ?_⟩
    rw [s.set_inode_self] at hi'
    cases hi'
    have hmd5 : HashInjective md5 cs segs := by
      refine fun a b ha hb => hinj a b ?_ ?_
      · rcases ha with ha | ⟨c, hc, rfl⟩
        · exact hsegs a ha
        · exact known c hc
      · rcases hb with hb | ⟨c, hc, rfl⟩
        · exact hsegs b hb
        · exact known c hc
    refine inv.fileHolds (s := ⟨s.vol, s.itable, ino, inode⟩) ok.vol hready hreg hlen.symm ?_
      (hend hfine) hmd5 (List.Subset.refl _) hhead hrep
    change (file_bytes s.vol inode).length < _
    omega

/-! ## Steps -/

/-- A step changes the size of a chunked file, for which the driver has no code. -/
def Fs.Resizes (s : Fs) : FsOp → Prop
  | .set_size ino size => ∃ inode ∈ s.inodes ino, inode_is_chunked inode = true ∧ inode.i_size ≠ size
  | _ => False

instance Fs.decidableResizes (s : Fs) : ∀ op, Decidable (s.Resizes op)
  | .set_size ino size => inferInstanceAs (Decidable (∃ inode ∈ s.inodes ino,
      inode_is_chunked inode = true ∧ inode.i_size ≠ size))
  | .new_inode _ _ _ | .set_nlink _ _ | .get_block _ _ _ | .write _ _ _ | .truncate _ | .chunk _ _
  | .evict _ | .write_inode _ | .remount _ => inferInstanceAs (Decidable False)

/-- The file system represents this store: every inode shows its file, from these stored chunks. -/
structure Represents (md5 : List UInt8 → UInt64) (D : List UInt8 → Prop) (s : Fs) (st : Store)
    (cs : List Stored) : Prop where
  held : Held md5 s.vol cs
  known : ∀ c ∈ cs, D c.data
  files : ∀ ino, Option.Rel (ShowsFile s.vol cs) (s.inodes ino) (st ino)

variable {D : List UInt8 → Prop} {st : Store}

/-- Without an inode there is no step but a new one. -/
lemma Fs.step_none (hi : s.inodes op.ino = none) (h : s.step md5 op = some s')
    (hop : ∀ keep, op ≠ .remount keep) : ∃ ino mode rdev, op = .new_inode ino mode rdev := by
  cases op with
  | new_inode ino mode rdev => exact ⟨ino, mode, rdev, rfl⟩
  | remount keep => exact absurd rfl (hop keep)
  | set_nlink ino nlink =>
    have hi : s.inodes ino = none := hi
    unfold Fs.step Fs.set_nlink at h
    simp only [hi] at h
    cases h
  | get_block ino block getblk =>
    have hi : s.inodes ino = none := hi
    unfold Fs.step Fs.cominix_get_block at h
    simp only [hi] at h
    cases h
  | write ino block data =>
    have hi : s.inodes ino = none := hi
    unfold Fs.step Fs.write at h
    simp only [hi] at h
    cases h
  | set_size ino size =>
    have hi : s.inodes ino = none := hi
    unfold Fs.step Fs.set_size at h
    simp only [hi] at h
    cases h
  | truncate ino =>
    have hi : s.inodes ino = none := hi
    unfold Fs.step Fs.truncate at h
    simp only [hi] at h
    cases h
  | chunk ino results =>
    obtain ⟨inode, -, -, -, hi', -⟩ := Fs.chunk_inv h
    rw [show s.inodes ino = none from hi] at hi'
    cases hi'
  | evict ino =>
    have hi : s.inodes ino = none := hi
    unfold Fs.step Fs.cominix_evict_inode at h
    simp only [hi] at h
    cases h
  | write_inode ino =>
    have hi : s.inodes ino = none := hi
    unfold Fs.step Fs.write_inode at h
    simp only [hi] at h
    cases h

/-- A new inode shows an empty file. -/
lemma new_inode_file {mode : Ftype} {rdev : Nat} (h : s.cominix_new_inode ino mode rdev = some s') :
    ∃ inode', s'.inodes ino = some inode' ∧ inode_is_chunked inode' = false ∧
      inode'.file (fun _ => 0) = ⟨mode, 1, 0, if mode = .dev then rdev else 0, fun _ => 0⟩ := by
  unfold Fs.cominix_new_inode at h
  split at h
  · cases h
  · split at h
    · cases h
    · cases h
      refine ⟨_, s.set_inode_self ino _, ?_, ?_⟩
      · unfold inode_is_chunked
        rw [cominix_set_inode_data]
        rfl
      · obtain ⟨i_fop, a_ops, i_rdev, heq, hdev⟩ := cominix_set_inode_eq
          ⟨mode, 1, 0, 0, fun _ => 0, .other, .empty_aops, true⟩ rdev
        rw [heq]
        unfold Inode.file
        dsimp only
        by_cases hm : mode = .dev
        · rw [if_pos hm, if_pos hm, hdev hm]
        · rw [if_neg hm, if_neg hm]

/-- A quiet step leaves what is stored. -/
lemma FsStep.held {quiet leak bare : Prop} {f : (Nat → UInt8) → Nat → UInt8}
    (st : FsStep s s' ino quiet leak bare f) (ok : FsOk s) (hq : quiet) (held : Held md5 s.vol cs) :
    Held md5 s'.vol cs := by
  obtain ⟨hsbi, hlow⟩ := st.low hq
  refine held.low (S := InArea s.vol) st.own.toSameMount (by rw [hsbi]) st.vol
    (fun b hb => ok.vol.low hb) fun b hb => ?_
  exact (hlow b (fun hz => hb (ok.owned.used (some ino) b hz).1) fun h => absurd h hb).1

/-- The store after a step of one inode. -/
lemma Store.step_of_ne {bs : Nat} (hop : ∀ keep, op ≠ .remount keep) {j : Nat} (hj : j ≠ op.ino) :
    st.step bs op j = st j := by
  cases op with
  | remount keep => exact absurd rfl (hop keep)
  | _ => exact Function.update_of_ne hj _ _

lemma Store.step_self {bs : Nat} (hnew : ∀ ino mode rdev, op ≠ .new_inode ino mode rdev)
    (hop : ∀ keep, op ≠ .remount keep) : st.step bs op op.ino = (st op.ino).bind (File.step bs op) := by
  cases op with
  | remount keep => exact absurd rfl (hop keep)
  | new_inode ino mode rdev => exact absurd rfl (hnew ino mode rdev)
  | _ => exact Function.update_self ..

/-- Only a change of the size changes it. -/
lemma FileStep.size (h : FileStep s s' op inode inode') (hi : s.inodes op.ino = some inode)
    (hc : inode_is_chunked inode = true) (hres : ¬ s.Resizes op) : inode'.i_size = inode.i_size := by
  have hfile := h.file fun _ => 0
  cases op with
  | set_size ino size =>
    have hsize : size = inode'.i_size := congrArg File.i_size (Option.some.inj hfile)
    by_contra hne
    exact hres ⟨inode, hi, hc, fun h => hne (hsize.symm.trans h.symm)⟩
  | evict ino =>
    unfold File.step at hfile
    dsimp only at hfile
    split at hfile
    · cases hfile
    · exact (congrArg File.i_size (Option.some.inj hfile)).symm
  | _ => exact (congrArg File.i_size (Option.some.inj hfile)).symm

/-- Chunking a file leaves its bytes. -/
lemma FileStep.chunked_bytes (h : FileStep s s' op inode inode') (ok : FsOk s)
    (hi : s.inodes op.ino = some inode) (hop : ∃ ino results, op = .chunk ino results)
    (hs : s.step md5 op = some s') (hr : Reads s.vol inode data) :
    (inode'.file (s.op_bytes op data)).bytes = file_bytes s.vol inode := by
  obtain ⟨ino, results, rfl⟩ := hop
  obtain ⟨i, -, -, -, hi', hreg, hf, -, -⟩ := Fs.chunk_inv hs
  obtain rfl := Option.some.inj (hi.symm.trans hi')
  rw [hr.file_bytes (ok.ready hi hreg hf).1 (by rw [hreg]; rfl) (ok.live ino inode hi).size]
  exact congrArg File.bytes (Option.some.inj (h.file data)).symm

/-- The chunks stored after a step, and the list of its inode when it was chunked. -/
lemma Represents.chunks (rep : Represents md5 D s st cs) (ok : FsOk s)
    (hinj : ∀ a b, D a → D b → md5 a = md5 b → a = b) (hop : ∀ keep, op ≠ .remount keep)
    (hD : ∀ seg ∈ s.chunks md5 op, D seg) (h : s.step md5 op = some s') :
    ∃ cs', Held md5 s'.vol cs' ∧ cs ⊆ cs' ∧ (∀ c ∈ cs', D c.data) ∧
      ((∃ ino results, op = .chunk ino results) → ∀ inode inode', s.inodes op.ino = some inode →
        s'.inodes op.ino = some inode' → inode_is_chunked inode' = true →
        FileHolds s'.vol cs' inode' (file_bytes s.vol inode)) := by
  have step := Fs.step_spec ok hop h
  cases op with
  | chunk ino results =>
    have hc : s.chunk md5 ino results = some s' := h
    obtain ⟨inode, -, -, -, hi, -⟩ := Fs.chunk_inv hc
    obtain ⟨cs', held, hsub, known, hfile⟩ := rep.held.chunk ok rep.known hinj hi hD hc
    refine ⟨cs', held, hsub, known, fun _ i inode' hi' hi'' hch => ?_⟩
    obtain rfl := Option.some.inj (hi.symm.trans hi')
    exact hfile inode' hi'' hch
  | _ => exact ⟨cs, step.held ok trivial rep.held, List.Subset.refl _, rep.known, fun h => by
      obtain ⟨_, _, h⟩ := h
      cases h⟩

/-- A step of one inode shows what it does to the store. -/
lemma Represents.step_one (rep : Represents md5 D s st cs) (ok : FsOk s)
    (hinj : ∀ a b, D a → D b → md5 a = md5 b → a = b) (hop : ∀ keep, op ≠ .remount keep)
    (hres : ¬ s.Resizes op) (hD : ∀ seg ∈ s.chunks md5 op, D seg) (h : s.step md5 op = some s') :
    ∃ cs', Represents md5 D s' (st.step s.vol.dev.bs op) cs' := by
  have step := Fs.step_spec ok hop h
  obtain ⟨cs', held, hsub, known, hchunk⟩ := rep.chunks ok hinj hop hD h
  refine ⟨cs', held, known, fun j => ?_⟩
  by_cases hj : j = op.ino
  · subst hj
    have hold := rep.files op.ino
    cases hi : s.inodes op.ino with
    | none =>
      obtain ⟨ino, mode, rdev, rfl⟩ := Fs.step_none hi h hop
      obtain ⟨inode', hi', hc, hfile⟩ := new_inode_file h
      have hreads := step.reads (fun _ => 0) (fun i hi' => by rw [hi] at hi'; cases hi') inode' hi'
      change Option.Rel _ (s'.inodes ino) (Function.update st ino _ ino)
      rw [hi', Function.update_self, ← hfile]
      exact .some (.intro hreads fun h => by rw [hc] at h; cases h)
    | some inode =>
      have hnew : ∀ ino mode rdev, op ≠ .new_inode ino mode rdev := by
        rintro ino mode rdev rfl
        exact new_inode_taken hi h
      rw [Store.step_self hnew hop]
      rw [hi] at hold
      generalize st op.ino = o at hold
      cases hold with
      | some hshow =>
        cases hshow with
        | @intro data hreads hholds =>
          rw [Option.bind_some]
          rcases Fs.step_file ok hi hop h with ⟨hnone, hfile⟩ | ⟨inode', hi', hf⟩
          · rw [hnone, hfile]
            exact .none
          · rw [hi', hf.file]
            refine .some (.intro (step.reads data (fun i hi' => ?_) inode' hi') fun hc => ?_)
            · rw [hi] at hi'
              cases hi'
              exact hreads
            · rcases hf.list hc with hch | ⟨hv, hwords⟩
              · rw [hf.chunked_bytes ok hi hch h hreads]
                exact hchunk hch inode inode' hi hi' hc
              · have hc' : inode_is_chunked inode = true := by
                  rw [← hc]
                  unfold inode_is_chunked
                  rw [hwords 0 (by decide), hwords 9 (by decide)]
                have hsize := hf.size hi hc' hres
                rw [hf.bytes ok hi h hc' hsize, hv]
                exact ((hholds hc').congr hwords hsize).mono hsub
  · rw [step.others j hj, Store.step_of_ne hop hj]
    have hold := rep.files j
    cases hi : s.inodes j with
    | none =>
      rw [hi] at hold
      generalize st j = o at hold
      cases hold
      exact .none
    | some inode =>
      rw [hi] at hold
      generalize st j = o at hold
      cases hold with
      | some hshow => exact .some (hshow.left ok step hj hi hsub)

/-! ## Unmounting and mounting again -/

/-- The heap is read as it was. -/
lemma Remounted.held (r : Remounted s s') (ok : FsOk s) (held : Held md5 s.vol cs) :
    Held md5 s'.vol cs := by
  refine ⟨r.ok.vol, ?_, held.hash⟩
  have hmem : ∀ x, ¬ InArea s.vol x → s'.vol.dev.bh.mem x = s.vol.dev.bh.mem x :=
    fun x hx => r.mem x fun h => absurd h hx
  obtain ⟨mem, disk, dirty, zdisk, zdirty, printk, he⟩ := r.vol.eq
  rw [he] at hmem ⊢
  have hlow : HeapInv (s.vol.with_mem mem) cs :=
    held.heap.low ok.vol.lay (s.vol.with_mem_same mem) rfl (fun b hb => ok.vol.low hb) hmem
  exact hlow

/-- A slot keeps the file of an inode. -/
lemma RawInode.Keeps.same_file {raw : RawInode} (h : raw.Keeps inode) (h' : raw.Keeps inode')
    (data : Nat → UInt8) : inode'.file data = inode.file data := by
  have hmode : inode'.i_mode = inode.i_mode := h'.i_mode.symm.trans h.i_mode
  unfold Inode.file
  rw [← h.i_nlinks, h'.i_nlinks, ← h.i_size, h'.i_size, ← hmode]
  by_cases hdev : inode'.i_mode = .dev
  · rw [if_pos hdev, if_pos hdev, ← h'.i_rdev hdev, h.i_rdev (hmode ▸ hdev)]
  · rw [if_neg hdev, if_neg hdev]

/-- An inode that was read again shows the file it showed. -/
lemma Remounted.shows (r : Remounted s s') (ok : FsOk s) (hi : s.inodes ino = some inode)
    (h : ShowsFile s.vol cs inode file) :
    ∃ inode', s'.inodes ino = some inode' ∧ ShowsFile s'.vol cs inode' file := by
  obtain ⟨inode', raw, hi', hk, hk'⟩ := r.inodes ino inode hi
  have hE := entries_per_block_pos ok.size.bits
  have hl := ok.live ino inode hi
  have hl' := r.ok.live ino inode' hi'
  have hmode : inode'.i_mode = inode.i_mode := hk'.i_mode.symm.trans hk.i_mode
  have hsize : inode'.i_size = inode.i_size := hk'.i_size.symm.trans hk.i_size
  have hwords : has_blocks inode.i_mode = true → ∀ k < 10, inode'.i_data k = inode.i_data k := by
    intro hb k hk10
    have hdev : inode.i_mode ≠ .dev := fun h => by
      rw [h] at hb
      cases hb
    rw [← hk.i_zone hdev k hk10, hk'.i_zone (hmode ▸ hdev) k hk10]
  have hmem : ∀ x, InodeZone s.vol inode x → s'.vol.dev.bh.mem x = s.vol.dev.bh.mem x :=
    fun x hx => r.mem x fun _ => ⟨some ino, inode, hi, hx⟩
  refine ⟨inode', hi', ?_⟩
  cases h with
  | @intro data hreads hholds =>
    rw [← hk.same_file hk' data]
    refine .intro (fun hc hb => ?_) fun hc => ?_
    · rw [hmode] at hb
      obtain ⟨-, hzone, hread⟩ := hl.toInodeFine.words ok.size (hwords hb) hmode
        (hsize ▸ hl.size) hl'.ops
      obtain ⟨mem, disk, dirty, zdisk, zdirty, printk, he⟩ := r.vol.eq
      rw [he] at hmem ⊢
      have hleft : Reads (s.vol.with_mem mem) inode' data :=
        (hread data hreads).left ok.size (s.vol.with_mem_same mem) fun x hx => hmem x ((hzone x).1 hx)
      exact hleft hc (hmode ▸ hb)
    · have hreg := (hl'.ok.list hc).1
      have hwords := hwords (by rw [← hmode, hreg]; rfl)
      have hc₀ : inode_is_chunked inode = true := by
        rw [← hc]
        unfold inode_is_chunked
        rw [hwords 0 (by decide), hwords 9 (by decide)]
      have hbytes := hholds hc₀
      obtain ⟨blocks, es, segs, hlist, hpieces, hflat⟩ := hbytes.pieces
      have hzone : ∀ b ∈ blocks, InodeZone s.vol inode b := fun b hb =>
        (InodeZone.of_list hc₀).2 ((hlist.zone_iff hE).2 hb)
      have hlist' := r.vol.listed hlist (fun b hb => hmem b (hzone b hb)) fun b hb =>
        r.durable.owned (some ino) b ((r.owner (some ino) b).2 ⟨inode, hi, hzone b hb⟩)
      have hread : FileHolds s'.vol cs inode (inode.file data).bytes :=
        ⟨hc₀, hbytes.i_size, hbytes.small, blocks, es, segs, hlist', hpieces, hflat⟩
      rw [hk.same_file hk' data]
      exact hread.congr hwords hsize

/-- A mount after an unmount shows the same store. -/
lemma Remounted.represents (r : Remounted s s') (ok : FsOk s) (rep : Represents md5 D s st cs) :
    Represents md5 D s' st cs := by
  refine ⟨r.held ok rep.held, rep.known, fun ino => ?_⟩
  have hold := rep.files ino
  cases hi : s.inodes ino with
  | none =>
    rw [hi] at hold
    generalize st ino = o at hold
    cases hold
    rw [r.gone ino hi]
    exact .none
  | some inode =>
    rw [hi] at hold
    generalize st ino = o at hold
    cases hold with
    | some hshow =>
      obtain ⟨inode', hi', hshow'⟩ := r.shows ok hi hshow
      rw [hi']
      exact .some hshow'

/-! ## Runs -/

/-- A step shows what it does to the store. -/
lemma Represents.step (rep : Represents md5 D s st cs) (h : Sound s)
    (hinj : ∀ a b, D a → D b → md5 a = md5 b → a = b) (hres : ¬ s.Resizes op)
    (hD : ∀ seg ∈ s.chunks md5 op, D seg) (hs : s.step md5 op = some s') :
    s'.vol.dev.bs = s.vol.dev.bs ∧ ∃ cs', Represents md5 D s' (st.step s.vol.dev.bs op) cs' := by
  rcases h.cases hs with ⟨hop, step⟩ | ⟨⟨keep, rfl⟩, r⟩
  · exact ⟨step.own.toSameMount.bs, rep.step_one h.ok hinj hop hres hD hs⟩
  · refine ⟨?_, cs, r.represents h.ok rep⟩
    rw [Dev.bs, r.vol.bits, Dev.bs]

/-- The steps that are shown in the store: chunks in `D`, and no size of a chunked file changed. -/
def Fs.Shown (md5 : List UInt8 → UInt64) (D : List UInt8 → Prop) (s : Fs) (op : FsOp) : Prop :=
  ¬ s.Bare op ∧ ¬ s.Resizes op ∧ ∀ seg ∈ s.chunks md5 op, D seg

instance Fs.decidableShown (md5 : List UInt8 → UInt64) (D : List UInt8 → Prop) [DecidablePred D] (s : Fs)
    (op : FsOp) : Decidable (s.Shown md5 D op) :=
  inferInstanceAs (Decidable (_ ∧ _ ∧ _))

/-- A run shows what its steps do to the store. -/
lemma Represents.run {ops : List FsOp} (rep : Represents md5 D s st cs) (h : Sound s)
    (hinj : ∀ a b, D a → D b → md5 a = md5 b → a = b)
    (r : Run (Fs.step md5) (Fs.Shown md5 D) s ops s') :
    Sound s' ∧ ∃ cs', Represents md5 D s' (ops.foldl (Store.step s.vol.dev.bs) st) cs' := by
  induction r generalizing st cs with
  | nil => exact ⟨h, cs, rep⟩
  | cons hc hs _ ih =>
    obtain ⟨hbs, cs', rep'⟩ := rep.step h hinj hc.2.1 hc.2.2 hs
    obtain ⟨h', cs'', rep''⟩ := ih rep' (h.step hc.1 hs)
    rw [hbs] at rep''
    exact ⟨h', cs'', rep''⟩

/-- The files on an image. -/
def Image.store (img : Image) : Store := fun ino =>
  (img.fs.inodes ino).map fun inode =>
    inode.file fun pos => file_byte img.fs.vol inode (pos / img.bs) (pos % img.bs)

/-- The first mount shows the files on the image. -/
lemma FirstMount.represents {img : Image} {m : SuperBlock} {survives : Bool}
    (hm : FirstMount md5 img m survives) (hv : SoundImage img) : Represents md5 D (m.fs survives) img.store [] := by
  refine ⟨hm.held, fun c hc => absurd hc List.not_mem_nil, fun ino => ?_⟩
  unfold Image.store
  rw [hm.inodes]
  cases hi : img.fs.inodes ino with
  | none => exact .none
  | some inode =>
    have hc := (hv.inodes ino inode hi).1
    refine .some (.intro (hm.reads ino inode _ hi fun _ _ b o _ ho => ?_) fun h => ?_)
    · have ho : o < img.bs := ho
      have hbs : img.fs.vol.dev.bs = img.bs := rfl
      have hpos : 0 < img.bs := Nat.zero_lt_of_lt ho
      have hdiv : (b * img.bs + o) / img.bs = b := by
        rw [Nat.mul_comm, Nat.mul_add_div hpos, Nat.div_eq_of_lt ho, Nat.add_zero]
      have hmod : (b * img.bs + o) % img.bs = o := by
        rw [Nat.mul_comm, Nat.mul_add_mod, Nat.mod_eq_of_lt ho]
      rw [hbs, hdiv, hmod]
    · rw [hc] at h
      cases h

/-- An inode that was written to the inode table and read again. -/
structure SameInode (inode inode' : Inode) : Prop where
  i_mode : inode'.i_mode = inode.i_mode
  i_nlink : inode'.i_nlink = inode.i_nlink
  i_size : inode'.i_size = inode.i_size
  i_rdev : inode.i_mode = .dev → inode'.i_rdev = inode.i_rdev
  i_data : inode.i_mode ≠ .dev → ∀ k < 10, inode'.i_data k = inode.i_data k

lemma RawInode.Keeps.same_inode {raw : RawInode} (h : raw.Keeps inode) (h' : raw.Keeps inode') :
    SameInode inode inode' := by
  have hmode : inode'.i_mode = inode.i_mode := h'.i_mode.symm.trans h.i_mode
  exact ⟨hmode, h'.i_nlinks.symm.trans h.i_nlinks, h'.i_size.symm.trans h.i_size,
    fun hdev => (h'.i_rdev (hmode.trans hdev)).symm.trans (h.i_rdev hdev),
    fun hdev k hk => (h'.i_zone (hmode ▸ hdev) k hk).symm.trans (h.i_zone hdev k hk)⟩

/-- A mount finds what was there before the unmount. -/
structure MountedAgain (s s' : Fs) : Prop where
  sbi : s'.vol.sbi = s.vol.sbi
  s_sbh : s'.s_sbh.bh.mem 1 = s.s_sbh.bh.mem 1
  zbit : ∀ x, zbit s'.vol x = zbit s.vol x
  inodes : ∀ ino, Option.Rel SameInode (s.inodes ino) (s'.inodes ino)
  owned : ∀ i x, s.owner i x → s'.vol.dev.bh.mem x = s.vol.dev.bh.mem x
  rest : ∀ x, ¬ InArea s.vol x → s'.vol.dev.bh.mem x = s.vol.dev.bh.mem x

lemma Remounted.again (r : Remounted s s') : MountedAgain s s' := by
  refine ⟨r.vol.sbi, r.s_sbh, fun x => r.vol.zbit x, fun ino => ?_, fun i x hi => r.mem x fun _ => ⟨i, hi⟩,
    fun x hx => r.mem x fun harea => absurd harea hx⟩
  cases hi : s.inodes ino with
  | none =>
    rw [r.gone ino hi]
    exact .none
  | some inode =>
    obtain ⟨inode', raw, hi', hk, hk'⟩ := r.inodes ino inode hi
    rw [hi']
    exact .some (hk.same_inode hk')

lemma Fs.cominix_iget_eq (s : Fs) (ino : Nat) :
    s.cominix_iget ino = (V2_cominix_iget s.vol.sbi s.vol.dev s.itable ino).toOption := by
  unfold Fs.cominix_iget
  cases V2_cominix_iget s.vol.sbi s.vol.dev s.itable ino <;> rfl

/-- Without inodes without links an unmount and a mount succeed exactly when there is a root. -/
lemma Sound.remount_iff (h : Sound s) (ha : s.s_sbh.attached = true)
    (hlinks : ∀ ino inode, s.inodes ino = some inode → inode.i_nlink ≠ 0) {keep : Nat → Bool} :
    (∃ s', s.remount keep = some s') ↔ ∃ root, s.inodes 1 = some root := by
  have r := @Durable.remounted s keep h.ok h.durable ha hlinks
  have hrun : s.remount keep = (s.sync_inodes.sync_buffers keep).fill_super := by
    unfold Fs.remount
    refine if_pos (List.all_eq_true.2 fun ino _ => ?_)
    cases hi : s.inodes ino with
    | none => rfl
    | some inode =>
      rw [Option.all_some, bne_iff_ne]
      exact hlinks ino inode hi
  rw [hrun, @Durable.fill_super s keep h.ok h.durable ha]
  -- what is read for the root is what the mounted file system has
  have hroot : (s.reopened keep).inodes 1 = (V2_cominix_iget s.vol.sbi
      (s.sync_inodes.sync_buffers keep).vol.dev (s.sync_inodes.sync_buffers keep).itable 1).toOption :=
    Fs.cominix_iget_eq (s.reopened keep) 1
  cases hget : V2_cominix_iget s.vol.sbi (s.sync_inodes.sync_buffers keep).vol.dev
      (s.sync_inodes.sync_buffers keep).itable 1 with
  | error err =>
    rw [hget] at hroot
    constructor
    · rintro ⟨s', hs⟩
      cases hs
    · rintro ⟨root, hi⟩
      obtain ⟨root', -, hroot', -⟩ := r.inodes 1 root hi
      rw [hroot] at hroot'
      cases hroot'
  | ok inode =>
    rw [hget] at hroot
    refine ⟨fun _ => ?_, fun _ => ⟨_, rfl⟩⟩
    cases hi : s.inodes 1 with
    | some root => exact ⟨root, rfl⟩
    | none =>
      -- what was not there would not be read
      rw [r.gone 1 hi] at hroot
      cases hroot

/-- The buffer of the superblock is written when the block size did not change. -/
lemma FirstMount.attached {img : Image} {m : SuperBlock} {survives : Bool}
    (hm : FirstMount md5 img m survives) (hsbh : img.bs = 1024 ∨ survives = true) :
    (m.fs survives).s_sbh.attached = true := by
  change (m.vol.dev.s_blocksize_bits == 10 || survives) = true
  rcases hsbh with hbs | hs
  · have hbits : m.vol.dev.s_blocksize_bits = 10 :=
      Nat.pow_right_injective (Nat.le_refl 2) (hm.bs.trans hbs)
    rw [hbits]
    rfl
  · rw [hs, Bool.or_true]

/-- After every run from a first mount whose superblock buffer is written, the file system can be
unmounted and mounted again exactly when there is a root, and the mount finds what was there. The VFS
unmounts when no inode is without links. -/
theorem mounts_again {img : Image} {m : SuperBlock} {rdonly survives : Bool} {ops : List FsOp}
    (hv : SoundImage img) (h : cominix_fill_super img rdonly = some (.mounted m))
    (hsbh : img.bs = 1024 ∨ survives = true)
    (r : Run (Fs.step md5) (fun s op => ¬ s.Bare op) (m.fs survives) ops s)
    (hlinks : ∀ ino inode, s.inodes ino = some inode → inode.i_nlink ≠ 0) (keep : Nat → Bool) :
    ((∃ s', s.remount keep = some s') ↔ ∃ root, s.inodes 1 = some root) ∧
    ∀ s', s.remount keep = some s' → MountedAgain s s' := by
  have hm : FirstMount md5 img m survives := hv.first_mount h
  have hstep : ∀ {s op s'}, ¬ Fs.Bare s op → Sound s ∧ s.s_sbh.attached = true →
      s.step md5 op = some s' → Sound s' ∧ s'.s_sbh.attached = true :=
    fun hc hi hs => ⟨hi.1.step hc hs, hi.1.attached hi.2 hs⟩
  obtain ⟨hs, ha⟩ := r.inv hstep ⟨hm.sound, hm.attached hsbh⟩
  exact ⟨hs.remount_iff ha hlinks, fun s' hr => (hs.durable.remount hs.ok hr).again⟩

/-- The file that was chunked is there after one more mount. -/
theorem mounts_again_heap : ∃ m s, cominix_fill_super heap_image false = some (.mounted m) ∧
    Run (Fs.step fun _ => 0) (fun s op => ¬ s.Bare op) (m.fs false) heap_ops s ∧
    ∃ s', s.remount (fun _ => false) = some s' ∧ MountedAgain s s' := by
  have h : ((((cominix_fill_super heap_image false).bind FillSuper.s_fs_info).bind fun m =>
      heap_ops.foldlM (fun s op => if ¬ s.Bare op then s.step (fun _ => 0) op else none)
        (m.fs false)).bind fun s => s.remount fun _ => false).isSome = true := by
    decide +kernel
  obtain ⟨s', h⟩ := Option.isSome_iff_exists.1 h
  obtain ⟨s, h, hs⟩ := Option.bind_eq_some_iff.1 h
  obtain ⟨m, hm, h⟩ := Option.bind_eq_some_iff.1 h
  obtain ⟨r, hr, hm⟩ := Option.bind_eq_some_iff.1 hm
  obtain rfl := FillSuper.s_fs_info_some hm
  have hrun : Run (Fs.step fun _ => 0) (fun s op => ¬ s.Bare op) (m.fs false) heap_ops s := .of_foldlM h
  have hbs : heap_image.bs = 1024 := by decide +kernel
  have hm : FirstMount (fun _ => 0) heap_image m false := heap_image_sound.first_mount hr
  have hok := (hm.sound.run (fun _ _ hc => hc) hrun).ok
  exact ⟨m, s, hr, hrun, s', hs, (mounts_again heap_image_sound hr (.inl hbs) hrun
    (Fs.remount_inv hok hs).1 fun _ => false).2 s' hs⟩

end CominixFs
