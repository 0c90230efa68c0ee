import CominixFs.BlockMap
import CominixFs.File
import CominixFs.Lib.Runs

/-!
# The end of a file

A file that is not chunked, written and truncated. A write maps its blocks before the size grows, and
`cominix_write_failed` cuts off what it mapped in vain; the VFS sets the size by itself, for the
driver has no `setattr`. As long as that never makes the file smaller, and no copy of a write stops
short, no block from the end of the file on is mapped (`no_block_past_end`).
-/

namespace CominixFs
open Bytes Forest

/-- A file and the volume it is on. -/
structure OpenFile where
  vol : Vol
  inode : Inode

/-- The loop of `block_write_begin` over `n` blocks from `b` on, where `getblk` says for each which
buffers there are: whether all were mapped. -/
def block_write_begin (getblk : Nat → Nat → Bool) : Nat → Nat → OpenFile → Option (OpenFile × Bool)
  | 0, _, s => some (s, true)
  | n + 1, b, s =>
    match get_block (getblk b) s.vol s.inode b true with
    | none => none
    | some (vol, inode, .failed _) => some (⟨vol, inode⟩, false)
    | some (vol, inode, _) => block_write_begin getblk n (b + 1) ⟨vol, inode⟩

/-- `cominix_write_failed`. -/
def cominix_write_failed (s : OpenFile) (to' : Nat) : Option OpenFile :=
  if s.inode.i_size < to' then
    match cominix_truncate s.vol s.inode with
    | none => none
    | some (vol, inode) => some ⟨vol, inode⟩
  else some s

/-- `cominix_write_begin`. -/
def cominix_write_begin (getblk : Nat → Nat → Bool) (s : OpenFile) (pos len : Nat) :
    Option (OpenFile × Bool) :=
  let first := pos / s.vol.dev.bs
  match block_write_begin getblk (end_block s.vol (pos + len) - first) first s with
  | none => none
  | some (s, true) => some (s, true)
  | some (s, false) =>
    match cominix_write_failed s (pos + len) with
    | none => none
    | some s => some (s, false)

/-- `generic_write_end`, after `copied` bytes were copied. -/
def generic_write_end (s : OpenFile) (pos copied : Nat) : OpenFile :=
  if s.inode.i_size < pos + copied then
    ⟨s.vol, { s.inode with i_size := pos + copied, dirty := true }⟩
  else s

/-- What happens to a file: a write of `len` bytes of which `copied` could be copied, a page written
back, a size set by the VFS, a truncation, or something that others do. -/
inductive FileOp where
  | write (pos len copied : Nat) (getblk : Nat → Nat → Bool)
  | writeback (block : Nat) (data : Mem)
  | setattr (size : Nat)
  | truncate
  | other (vol : Vol)

/-- One step. `none` is a `BUG()`. -/
def file_step (s : OpenFile) : FileOp → Option OpenFile
  | .write pos len copied getblk =>
    match cominix_write_begin getblk s pos len with
    | none => none
    | some (s, true) => some (generic_write_end s pos copied)
    | some (s, false) => some s
  | .writeback block data =>
    match get_block (fun _ => true) s.vol s.inode block false with
    | none => none
    | some (vol, inode, .mapped nr _) =>
      some ⟨{ vol with dev := (vol.dev.store nr data).mark_buffer_dirty nr }, inode⟩
    | some (vol, inode, _) => some ⟨vol, inode⟩
  -- the inode operations are empty, so this is `simple_setattr`
  | .setattr size => some ⟨s.vol, { s.inode with i_size := size, dirty := true }⟩
  | .truncate =>
    match cominix_truncate s.vol s.inode with
    | none => none
    | some (vol, inode) => some ⟨vol, inode⟩
  | .other vol => some ⟨vol, s.inode⟩

/-- What the VFS keeps to: nothing goes past the largest size. -/
def VfsOk (s : OpenFile) : FileOp → Prop
  | .write pos len copied _ => copied ≤ len ∧ pos + len ≤ s.vol.sbi.s_maxbytes
  | .writeback block _ => Within s.vol block
  | .setattr size => size ≤ s.vol.sbi.s_maxbytes
  | .truncate => True
  | .other vol => Apart s.vol vol s.inode.i_data

/-- No size set makes the file smaller, and the bytes copied of a write reach its last block. -/
def KeepsEnd (s : OpenFile) : FileOp → Prop
  | .write pos len copied _ =>
    end_block s.vol (pos + len) ≤ end_block s.vol (max s.inode.i_size (pos + copied))
  | .setattr size => s.inode.i_size ≤ size
  | _ => True

/-- A new regular file. -/
structure NewFile (s : OpenFile) : Prop extends Geometry s.vol where
  area : AreaOk s.vol
  reg : s.inode.i_mode = .reg
  empty : ∀ k < 10, s.inode.i_data k = 0
  size : s.inode.i_size = 0

/-- No block from the end of the file on is mapped. -/
def EndsAtSize (s : OpenFile) : Prop :=
  ∀ b, end_block s.vol s.inode.i_size ≤ b → blocks s.vol s.inode.i_data b = 0

/-- A file in order. -/
structure OpenOk (s : OpenFile) : Prop extends BlocksOk s.vol s.inode.i_data where
  reg : s.inode.i_mode = .reg
  size : s.inode.i_size ≤ s.vol.sbi.s_maxbytes

/-- A step that changes zone words and the mark of an inode only, and no limit of the volume. -/
structure Alike (s s' : OpenFile) : Prop extends SameMount s.vol s'.vol where
  maxbytes : s'.vol.sbi.s_maxbytes = s.vol.sbi.s_maxbytes
  reg : s'.inode.i_mode = s.inode.i_mode
  i_size : s'.inode.i_size = s.inode.i_size

variable {s s' s'' : OpenFile}

lemma Alike.refl (s : OpenFile) : Alike s s := ⟨.refl s.vol, rfl, rfl, rfl⟩

lemma Alike.trans (h : Alike s s') (h' : Alike s' s'') : Alike s s'' :=
  ⟨h.toSameMount.trans h'.toSameMount, h'.maxbytes.trans h.maxbytes, h'.reg.trans h.reg,
    h'.i_size.trans h.i_size⟩

lemma SameMount.end_block {v v' : Vol} (h : SameMount v v') (size : Nat) :
    end_block v' size = end_block v size := by
  rw [CominixFs.end_block, CominixFs.end_block, h.bs]

lemma end_block_mono {v : Vol} {n m : Nat} (h : n ≤ m) : end_block v n ≤ end_block v m :=
  Nat.div_le_div_right (by omega)

lemma Alike.ok (h : Alike s s') (ok : OpenOk s) (hblocks : BlocksOk s'.vol s'.inode.i_data) :
    OpenOk s' :=
  ⟨hblocks, h.reg.trans ok.reg, by rw [h.i_size, h.maxbytes]; exact ok.size⟩

/-- Mapping a block leaves the others as they are. -/
lemma OpenOk.get_block (ok : OpenOk s) {getblk : Nat → Bool} {b : Nat} (hb : Within s.vol b) :
    ∃ s' r, get_block getblk s.vol s.inode b true = some (s'.vol, s'.inode, r) ∧ OpenOk s' ∧
      Alike s s' ∧ ∀ b', b' ≠ b →
        blocks s'.vol s'.inode.i_data b' = blocks s.vol s.inode.i_data b' := by
  obtain ⟨⟨v, inode, r⟩, hrun, hstep, hok, hsame, hsbi⟩ := ok.toBlocksOk.get_block getblk true hb
  obtain ⟨g, hg, hgot⟩ :=
    @get_block_spec s.vol s.inode getblk true b ok.tree ok.area (ok.sizeOk hb) hb
  rw [hrun] at hg
  cases hg
  have hlike : Alike s ⟨v, inode⟩ := by
    have hmax := congrArg SbInfo.s_maxbytes hsbi
    cases hgot with
    | found _ => exact .refl s
    | hole _ hc => cases hc
    | failed _ _ _ => exact ⟨hsame, hmax, rfl, rfl⟩
    | new _ _ _ => exact ⟨hsame, hmax, rfl, rfl⟩
  refine ⟨⟨v, inode⟩, r, hrun, hlike.ok ok hok, hlike, fun b' hne => ?_⟩
  dsimp only
  cases hstep with
  | found _ => rfl
  | hole _ hc => cases hc
  | added _ _ _ hmap _ =>
    rw [hmap, Function.update_of_ne hne]
  | failed _ _ _ hnode _ =>
    by_cases hb' : Within s.vol b'
    · rw [blocks_within ((within_congr hlike.maxbytes hsame).2 hb'), blocks_within hb', zone_of,
        block_path_congr hlike.maxbytes hsame.bits, hnode _ 0 (ok.path hb')]
      rfl
    · rw [blocks_not_within hb', blocks_not_within]
      exact fun h => hb' ((within_congr hlike.maxbytes hsame).1 h)

/-- The blocks of a write are mapped, or some of them, and the others are left as they are. -/
lemma OpenOk.block_write_begin {getblk : Nat → Nat → Bool} : ∀ n b {s}, OpenOk s →
    (∀ b' < b + n, Within s.vol b') →
    ∃ s' all, block_write_begin getblk n b s = some (s', all) ∧ OpenOk s' ∧ Alike s s' ∧
      ∀ b', b + n ≤ b' → blocks s'.vol s'.inode.i_data b' = blocks s.vol s.inode.i_data b' := by
  intro n
  induction n with
  | zero => exact fun b s ok _ => ⟨s, true, rfl, ok, .refl s, fun _ _ => rfl⟩
  | succ n ih =>
    intro b s ok hin
    obtain ⟨s₁, r, hrun, ok₁, hlike, hkeep⟩ := @OpenOk.get_block s ok (getblk b) b (hin b (by omega))
    have hgo : ∃ s' all, CominixFs.block_write_begin getblk n (b + 1) s₁ = some (s', all) ∧
        OpenOk s' ∧ Alike s s' ∧ ∀ b', b + (n + 1) ≤ b' →
          blocks s'.vol s'.inode.i_data b' = blocks s.vol s.inode.i_data b' := by
      obtain ⟨s', all, hrun', ok', hlike', hkeep'⟩ := ih (b + 1) ok₁ fun b' hb' =>
        (within_congr hlike.maxbytes hlike.toSameMount).2 (hin b' (by omega))
      refine ⟨s', all, hrun', ok', hlike.trans hlike', fun b' hb' => ?_⟩
      rw [hkeep' b' (by omega), hkeep b' (by omega)]
    unfold CominixFs.block_write_begin
    rw [hrun]
    cases r with
    | failed err => exact ⟨s₁, false, rfl, ok₁, hlike, fun b' hb' => hkeep b' (by omega)⟩
    | mapped nr new => exact hgo
    | hole => exact hgo

/-- Truncating a file cuts its map off at the end. -/
lemma OpenOk.truncate (ok : OpenOk s) : ∃ v inode,
    cominix_truncate s.vol s.inode = some (v, inode) ∧ OpenOk ⟨v, inode⟩ ∧ Alike s ⟨v, inode⟩ ∧
      ∀ b, blocks v inode.i_data b
        = if b < end_block s.vol s.inode.i_size then blocks s.vol s.inode.i_data b else 0 := by
  have hsize : s.inode.i_size < 2 ^ 63 := by
    have h1 := ok.size
    have h2 := ok.maxbytes
    omega
  obtain ⟨v, inode, hrun, htail, hok, hsame, hsbi, heq⟩ := ok.toBlocksOk.truncate hsize
  have hlike : Alike s ⟨v, inode⟩ := by
    refine ⟨hsame, congrArg SbInfo.s_maxbytes hsbi, ?_, ?_⟩
    · dsimp only
      rw [heq]
    · dsimp only
      rw [heq]
  refine ⟨v, inode, ?_, hlike.ok ok hok, hlike, htail.map⟩
  unfold cominix_truncate
  rw [ok.tree.not_chunked ok.area.zmap rfl, if_neg Bool.false_ne_true, ok.reg]
  exact hrun

/-- Writing to a mapped block leaves the tree as it is. -/
lemma OpenOk.writeback (ok : OpenOk s) {b : Nat} (hb : Within s.vol b) (data : Mem) :
    ∃ s', file_step s (.writeback b data) = some s' ∧ OpenOk s' ∧ Alike s s' ∧
      ∀ b', blocks s'.vol s'.inode.i_data b' = blocks s.vol s.inode.i_data b' := by
  obtain ⟨g, hg, hgot⟩ :=
    @get_block_spec s.vol s.inode (fun _ => true) false b ok.tree ok.area (ok.sizeOk hb) hb
  dsimp only [file_step]
  rw [hg]
  cases hgot with
  | hole _ _ => exact ⟨s, rfl, ok, .refl s, fun _ => rfl⟩
  | failed _ hc _ => cases hc
  | new _ hc _ => cases hc
  | found h0 =>
    have hw : Wrote s.vol { s.vol with dev := (s.vol.dev.store ((forest s.vol s.inode.i_data).node
        (block_path s.vol b)) data).mark_buffer_dirty ((forest s.vol s.inode.i_data).node
        (block_path s.vol b)) } ((forest s.vol s.inode.i_data).node (block_path s.vol b)) :=
      ⟨⟨rfl, rfl, rfl, rfl, rfl⟩, rfl, rfl, rfl, fun x hx =>
        ⟨Buffers.set_mem_of_ne _ _ hx, Buffers.mark_dirty_of_ne _ hx⟩⟩
    obtain ⟨hstep, htree, hnode⟩ := ok.tree.wrote (ok.path hb) h0 hw
    have hok := ok.toBlocksOk.congr hstep.toZmapStep rfl htree fun p n hp h0 => by
      rw [hnode p n hp] at h0
      obtain ⟨b', hb', hsuf, hb0⟩ := ok.full p n hp h0
      refine ⟨b', hb', hsuf, ?_⟩
      rw [hnode _ 0 (ok.path hb')]
      exact hb0
    refine ⟨⟨_, s.inode⟩, rfl, ⟨hok, ok.reg, ok.size⟩, ⟨hw.toSameMount, rfl, rfl, rfl⟩,
      fun b' => ?_⟩
    by_cases hb' : Within s.vol b'
    · rw [blocks_within hb', zone_of, ← hnode _ 0 (ok.path hb')]
      exact if_pos hb'
    · rw [blocks_not_within hb']
      exact if_neg hb'

/-- A write leaves nothing mapped from the end of what it should have written on, unless the size
reaches there, and from the end of the file on when it could not map its blocks. -/
lemma OpenOk.write (ok : OpenOk s) (hend : EndsAtSize s) {pos len copied : Nat}
    {getblk : Nat → Nat → Bool} (hvfs : VfsOk s (.write pos len copied getblk))
    (hkeeps : KeepsEnd s (.write pos len copied getblk)) :
    ∃ s', file_step s (.write pos len copied getblk) = some s' ∧ OpenOk s' ∧ EndsAtSize s' := by
  obtain ⟨hcopied, hmax⟩ := hvfs
  have hbs := s.vol.dev.bs_pos
  have hfirst : pos / s.vol.dev.bs ≤ end_block s.vol (pos + len) :=
    Nat.div_le_div_right (by omega)
  have hsum : pos / s.vol.dev.bs + (end_block s.vol (pos + len) - pos / s.vol.dev.bs)
      = end_block s.vol (pos + len) := Nat.add_sub_cancel' hfirst
  obtain ⟨s₁, all, hrun, ok₁, hlike, hkeep⟩ := @OpenOk.block_write_begin getblk
    (end_block s.vol (pos + len) - pos / s.vol.dev.bs) (pos / s.vol.dev.bs) s ok fun b hb => by
      rw [hsum, lt_end_block] at hb
      exact Nat.lt_of_lt_of_le hb hmax
  rw [hsum] at hkeep
  dsimp only [file_step, cominix_write_begin]
  rw [hrun]
  cases all with
  | true =>
    have hwrite : ∀ size, max s.inode.i_size (pos + copied) = size → ∀ b,
        end_block s₁.vol size ≤ b → blocks s₁.vol s₁.inode.i_data b = 0 := by
      rintro size rfl b hb
      rw [hlike.end_block] at hb
      rw [hkeep b (Nat.le_trans hkeeps hb)]
      exact hend b (Nat.le_trans (end_block_mono (Nat.le_max_left _ _)) hb)
    refine ⟨_, rfl, ?_⟩
    dsimp only [generic_write_end]
    by_cases hgrow : s₁.inode.i_size < pos + copied
    · rw [if_pos hgrow]
      refine ⟨⟨ok₁.toBlocksOk, ok₁.reg, ?_⟩, hwrite (pos + copied) ?_⟩
      · rw [hlike.maxbytes]
        exact Nat.le_trans (Nat.add_le_add_left hcopied pos) hmax
      · rw [hlike.i_size] at hgrow
        exact Nat.max_eq_right (Nat.le_of_lt hgrow)
    · rw [if_neg hgrow]
      refine ⟨ok₁, hwrite s₁.inode.i_size ?_⟩
      rw [hlike.i_size] at hgrow ⊢
      exact Nat.max_eq_left (Nat.le_of_not_lt hgrow)
  | false =>
    dsimp only [cominix_write_failed]
    by_cases hcut : s₁.inode.i_size < pos + len
    · obtain ⟨v, inode, hrun', ok', hlike', hmap⟩ := ok₁.truncate
      rw [if_pos hcut, hrun']
      refine ⟨_, rfl, ok', fun b hb => ?_⟩
      rw [hlike'.i_size, hlike'.end_block] at hb
      exact (hmap b).trans (if_neg (Nat.not_lt.2 hb))
    · rw [if_neg hcut]
      refine ⟨_, rfl, ok₁, fun b hb => ?_⟩
      rw [hlike.end_block, hlike.i_size] at hb
      rw [hlike.i_size] at hcut
      rw [hkeep b (Nat.le_trans (end_block_mono (Nat.le_of_not_lt hcut)) hb)]
      exact hend b hb

/-- A step that keeps the end is taken, and keeps a file in order that ends at its size. -/
lemma OpenOk.step (ok : OpenOk s) (hend : EndsAtSize s) (op : FileOp) (hvfs : VfsOk s op)
    (hkeeps : KeepsEnd s op) : ∃ s', file_step s op = some s' ∧ OpenOk s' ∧ EndsAtSize s' := by
  cases op with
  | write pos len copied getblk => exact ok.write hend hvfs hkeeps
  | writeback b data =>
    obtain ⟨s', hrun, ok', hlike, hmap⟩ := ok.writeback hvfs data
    refine ⟨s', hrun, ok', fun b' hb' => ?_⟩
    rw [hlike.end_block, hlike.i_size] at hb'
    rw [hmap]
    exact hend b' hb'
  | setattr size =>
    exact ⟨_, rfl, ⟨ok.toBlocksOk, ok.reg, hvfs⟩, fun b hb =>
      hend b (Nat.le_trans (end_block_mono hkeeps) hb)⟩
  | truncate =>
    obtain ⟨v, inode, hrun, ok', hlike, hmap⟩ := ok.truncate
    refine ⟨⟨v, inode⟩, ?_, ok', fun b hb => ?_⟩
    · dsimp only [file_step]
      rw [hrun]
    · rw [hlike.end_block, hlike.i_size] at hb
      exact (hmap b).trans (if_neg (Nat.not_lt.2 hb))
  | other vol =>
    obtain ⟨hok, hmap⟩ := ok.toBlocksOk.apart hvfs
    have hmax : vol.sbi.s_maxbytes = s.vol.sbi.s_maxbytes := hvfs.maxbytes
    refine ⟨⟨vol, s.inode⟩, rfl, ⟨hok, ok.reg, by rw [hmax]; exact ok.size⟩, fun b hb => ?_⟩
    rw [hvfs.toSameMount.end_block] at hb
    exact (hmap b).trans (hend b hb)

lemma NewFile.ok (h : NewFile s) : OpenOk s ∧ EndsAtSize s := by
  have hblocks : BlocksOk s.vol s.inode.i_data := ⟨h.toGeometry, h.area, .empty s.vol h.empty,
    fun p n hp h0 => absurd (forest_empty h.empty p n hp) h0⟩
  refine ⟨⟨hblocks, h.reg, by rw [h.size]; exact Nat.zero_le _⟩, fun b _ => ?_⟩
  by_cases hb : Within s.vol b
  · rw [blocks_within hb]
    exact forest_empty h.empty _ 0 (hblocks.path hb)
  · exact blocks_not_within hb

/-- As long as no size set makes the file smaller and no copy of a write stops short of its last
block, no block from the end of the file on is mapped, and every further step can be taken. -/
theorem no_block_past_end {ops : List FileOp} (hnew : NewFile s)
    (r : Run file_step (fun s op => VfsOk s op ∧ KeepsEnd s op) s ops s') :
    EndsAtSize s' ∧ ∀ op, VfsOk s' op → KeepsEnd s' op → ∃ s'', file_step s' op = some s'' := by
  obtain ⟨ok, hend⟩ := r.inv (P := fun s => OpenOk s ∧ EndsAtSize s)
    (fun {s op _} hop h hrun => by
      obtain ⟨s', hrun', h'⟩ := h.1.step h.2 op hop.1 hop.2
      rw [hrun] at hrun'
      cases hrun'
      exact h') hnew.ok
  exact ⟨hend, fun op hvfs hkeeps => (ok.step hend op hvfs hkeeps).imp fun _ h => h.1⟩

/-- A file of the small volume with nothing in it. -/
def empty_file : OpenFile := ⟨file_vol, empty_inode⟩

lemma empty_file_new : NewFile empty_file :=
  ⟨⟨by decide, by decide⟩, file_vol_area, rfl, fun _ _ => rfl, rfl⟩

/-- A block is written. -/
theorem no_block_past_end_one : ∃ s',
    Run file_step (fun s op => VfsOk s op ∧ KeepsEnd s op) empty_file
      [.write 0 1024 1024 fun _ _ => true] s' ∧ EndsAtSize s' := by
  obtain ⟨ok, hend⟩ := empty_file_new.ok
  have hvfs : VfsOk empty_file (.write 0 1024 1024 fun _ _ => true) :=
    show 1024 ≤ 1024 ∧ 0 + 1024 ≤ 2 ^ 31 by decide
  have hkeeps : KeepsEnd empty_file (.write 0 1024 1024 fun _ _ => true) :=
    show end_block file_vol 1024 ≤ end_block file_vol 1024 from Nat.le_refl _
  obtain ⟨s', hrun, -⟩ := ok.step hend _ hvfs hkeeps
  have r := Run.cons (C := fun s op => VfsOk s op ∧ KeepsEnd s op) ⟨hvfs, hkeeps⟩ hrun (.nil s')
  exact ⟨s', r, (no_block_past_end empty_file_new r).1⟩

/-- A block is written, the file is made empty and then longer again: the block was still mapped
when the file was empty, and its bytes are back. -/
theorem stale_bytes_return : ∃ s₁ s₂ s₃ s₄,
    file_step empty_file (.write 0 1024 1024 fun _ _ => true) = some s₁ ∧
    file_step s₁ (.writeback 0 fun _ => 7) = some s₂ ∧
    file_step s₂ (.setattr 0) = some s₃ ∧ ¬ EndsAtSize s₃ ∧
    file_step s₃ (.setattr 1024) = some s₄ ∧ file_byte s₄.vol s₄.inode 0 5 = 7 := by
  have h : ((file_step empty_file (.write 0 1024 1024 fun _ _ => true)).bind fun s =>
      (file_step s (.writeback 0 fun _ => 7)).bind fun s => (file_step s (.setattr 0)).bind fun s₃ =>
      (file_step s₃ (.setattr 1024)).map fun s₄ =>
        (decide (blocks s₃.vol s₃.inode.i_data 0 = 0), file_byte s₄.vol s₄.inode 0 5))
      = some (false, 7) := by
    decide +kernel
  simp only [Option.bind_eq_some_iff, Option.map_eq_some_iff, Prod.mk.injEq] at h
  obtain ⟨s₁, h₁, s₂, h₂, s₃, h₃, s₄, h₄, hmapped, hbyte⟩ := h
  refine ⟨s₁, s₂, s₃, s₄, h₁, h₂, h₃, fun hend => ?_, h₄, hbyte⟩
  have hsize : s₃.inode.i_size = 0 := by
    cases h₃
    rfl
  have hzero : end_block s₃.vol s₃.inode.i_size ≤ 0 := by
    rw [hsize, end_block, Nat.zero_add]
    exact Nat.le_of_eq (Nat.div_eq_of_lt (Nat.sub_lt s₃.vol.dev.bs_pos Nat.one_pos))
  exact of_decide_eq_false hmapped (hend 0 hzero)

end CominixFs
