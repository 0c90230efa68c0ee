import CominixFs.ChunkLoop
import CominixFs.HashtableMap
import CominixFs.InodeBlocks
import CominixFs.InodeTable

/-!
# Chunking and reading a file (`file.c`)

`chunk_and_replace` chunks a file, frees its zones and makes it a chunked one; `chunked_file_read`
reads such a file; `cminix_proc_write` is how chunking is asked for. `none` is a `BUG()`.
-/

namespace CominixFs
open Bytes

/-- A file and the volume it is on. -/
structure FileState where
  vol : Vol
  itable : Itable
  ino : Nat
  inode : Inode

/-- `get_list_head`. -/
def get_list_head (inode : Inode) : Nat := inode.i_data 1

/-- The end of `chunk_and_replace`: the zones of the file are freed and the list takes their place. -/
def replace (s : FileState) (head last ll_size : Nat) : Option FileState :=
  let fsize := s.inode.i_size
  match cominix_truncate s.vol { s.inode with i_size := 0 } with
  | none => none
  | some (vol, inode) =>
    let inode := switch_inode_to_chunked { inode with i_size := fsize }
    if 2 ^ 32 ≤ ll_size then none
    else
      let inode := ((inode.set_data 1 head).set_data 2 ll_size).set_data 3 last
      match cominix_write_inode vol.sbi vol.dev s.itable s.ino inode with
      | none => none
      | some itable => some { s with vol, itable, inode := cominix_set_inode inode 0 }

/-- `chunk_and_replace`, and what it returns. -/
def chunk_and_replace (f : Filp) (md5 : List UInt8 → UInt64) (s : FileState) :
    Option (Int × FileState) :=
  match chunk_file f md5 s.vol with
  | none => none
  | some (_, false, c) => some (-1, { s with vol := c.vol })
  | some (head, true, c) =>
    match replace { s with vol := c.vol } head c.last c.ll_size with
    | none => none
    | some s => some (0, s)

/-- `chunk_copy_into_buffer`: what it returns, and the bytes copied. -/
def chunk_copy_into_buffer (d : Dev) (chunk : ChunkEntry) (count : Nat) (pos : Int) :
    Option (Int × List UInt8) :=
  let to_read := min (count : Int) ((chunk.size : Int).bmod (2 ^ 64) - pos)
  if to_read ≤ 0 then some (0, [])
  else
    match read_data_storage d ((chunk.location + 24 + pos.toNat) % 2 ^ 64) to_read.toNat with
    | none => none
    | some buf => some (to_read.bmod (2 ^ 32), buf)

/-- What `chunked_file_read` returns, what `*pos` is then, and the bytes in the buffer. -/
structure ChunkedRead where
  ret : Int
  pos : Nat
  buf : List UInt8

/-- `chunked_file_read`; `count` fits an `ssize_t`, as the VFS sees to. -/
def chunked_file_read (v : Vol) (inode : Inode) (count pos : Nat) : Option ChunkedRead :=
  if inode.i_size ≤ pos then some ⟨0, pos, []⟩
  else if !inode_is_chunked inode then none
  else
    match ll_search_left v.dev pos (2 ^ 96) (get_list_head inode) 0 with
    | none => none
    | some (chunk, found_pos) =>
      if chunk.location = 0 ∨ chunk.size = 0 then none
      else
        match chunk_copy_into_buffer v.dev chunk count (pos - found_pos) with
        | none => none
        | some (ret, buf) => some ⟨ret, if 0 < ret then pos + ret.toNat else pos, buf⟩

/-- What `cminix_proc_write` meets before the file is looked at: whether the name could be copied,
and the file it opened, if any, with whether it is on this kind of file system. -/
structure ProcWrite where
  count : Nat
  copied : Bool
  opened : Option (Bool × FileState)

/-- `cminix_proc_write`: what it returns, and the file it opened. -/
def cminix_proc_write (f : Filp) (md5 : List UInt8 → UInt64) (w : ProcWrite) :
    Option (Int × Option FileState) :=
  if !w.copied then some (-1, w.opened.map Prod.snd)
  else
    match w.opened with
    | none => some (-1, none)
    | some (false, s) => some (-1, some s)
    | some (true, s) =>
      if s.inode.i_mode ≠ .reg then some (-1, some s)
      else if s.inode.i_fop ≠ .cominix_file_operations then some (-1, some s)
      else
        match chunk_and_replace f md5 s with
        | none => none
        -- what chunk_and_replace returned is dropped
        | some (_, s) => some (w.count, some s)

/-- Some read that chunking makes fails: one of the cutter's, or one of the read loop's. -/
def reads_fail (f : Filp) : Nat → Nat → Nat → Bool
  | 0, _, _ => false
  | fuel + 1, call, f_pos =>
    if f_pos < f.i_size then
      let (chunk_size, call') := cdc_get_chunk_size f call f_pos
      (List.range' call (call' - call)).any (fun k => (f.results k).isNone) ||
        match read_loop f chunk_size (chunk_size + 1) call' f_pos [] with
        | .bug => false
        | .failed => true
        | .done _ f_pos call => reads_fail f fuel call f_pos
    else false

/-- Some read made while a file is chunked fails. -/
def Filp.read_fails (f : Filp) : Bool := reads_fail f (f.i_size + 1) 0 0

/-- The byte at an offset of a block of a file; a block that is not mapped reads as zeroes. -/
def file_byte (v : Vol) (inode : Inode) (block off : Nat) : UInt8 :=
  if zone_of v inode.i_data block = 0 then 0 else v.dev.bh.mem (zone_of v inode.i_data block) off

/-- A write to the proc file that chunks this file is atomic, and tells what it did: when a read
fails the file and the free zones are as before and the result is negative, and only a chunked file
is answered with `count`. -/
structure AtomicChunking (f : Filp) (count : Nat) (s : FileState) (ret : Int) (s' : FileState) :
    Prop where
  reported : f.read_fails = true → ret < 0
  unchunked : f.read_fails = true → inode_is_chunked s'.inode = false
  size : f.read_fails = true → s'.inode.i_size = s.inode.i_size
  zones : f.read_fails = true → s'.inode.i_data = s.inode.i_data
  contents : f.read_fails = true → ∀ b off, Within s.vol b → off < s.vol.dev.bs →
    file_byte s'.vol s'.inode b off = file_byte s.vol s.inode b off
  free : f.read_fails = true → ∀ z, InArea s.vol z → zbit s'.vol z = zbit s.vol z
  switched : ret = count → inode_is_chunked s'.inode = true

/-- How the reads of a turn ended. -/
lemma chunk_turn_reads {f : Filp} {md5 : List UInt8 → UInt64} {s s' : ChunkLoop} {ok : Bool}
    {n call : Nat} (hc : cdc_get_chunk_size f s.call s.f_pos = (n, call))
    (h : chunk_turn f md5 s = some (ok, s')) :
    ok = false ∧ read_loop f n (n + 1) call s.f_pos [] = .failed ∨
    ok = true ∧ ∃ buf, read_loop f n (n + 1) call s.f_pos [] = .done buf s'.f_pos s'.call := by
  unfold chunk_turn at h
  rw [hc] at h
  dsimp only at h
  by_cases h0 : n = 0
  · rw [if_pos h0] at h
    cases h
  rw [if_neg h0] at h
  cases hr : read_loop f n (n + 1) call s.f_pos [] with
  | bug =>
    simp only [hr] at h
    cases h
  | failed =>
    simp only [hr] at h
    cases h
    exact .inl ⟨rfl, rfl⟩
  | done buf f_pos call' =>
    simp only [hr] at h
    split at h
    · cases h
    · split at h
      · cases h
      · split at h
        · cases h
        · cases h
          exact .inr ⟨rfl, buf, rfl⟩

/-- The loop gives up only when a read fails. -/
lemma chunk_loop_failed {f : Filp} {md5 : List UInt8 → UInt64} : ∀ {fuel s s'},
    chunk_loop f md5 fuel s = some (false, s') → reads_fail f fuel s.call s.f_pos = true := by
  intro fuel
  induction fuel with
  | zero => intro s s' h; cases h
  | succ fuel ih =>
    intro s s' h
    simp only [chunk_loop] at h
    by_cases hlt : s.f_pos < f.i_size
    · rw [if_pos hlt] at h
      rcases hc : cdc_get_chunk_size f s.call s.f_pos with ⟨n, call⟩
      simp only [reads_fail, hc]
      rw [if_pos hlt, Bool.or_eq_true]
      right
      cases ht : chunk_turn f md5 s with
      | none =>
        simp only [ht] at h
        cases h
      | some r =>
        obtain ⟨ok, s₁⟩ := r
        rcases chunk_turn_reads hc ht with ⟨rfl, hr⟩ | ⟨rfl, buf, hr⟩
        · rw [hr]
        · rw [hr]
          simp only [ht] at h
          exact ih h
    · rw [if_neg hlt] at h
      split at h
      · cases h
      · cases h

lemma cominix_set_inode_data (inode : Inode) (rdev : Nat) :
    (cominix_set_inode inode rdev).i_data = inode.i_data := by
  unfold cominix_set_inode
  cases inode.i_mode with
  | reg =>
    dsimp only
    split
    · rfl
    · rfl
  | _ => rfl

/-- The markers of a chunked inode stay when other zone words are set. -/
lemma inode_is_chunked_set_data {inode : Inode} {k x : Nat} (h0 : k ≠ 0) (h9 : k ≠ 9) :
    inode_is_chunked (inode.set_data k x) = inode_is_chunked inode := by
  unfold inode_is_chunked Inode.set_data
  dsimp only
  rw [Function.update_of_ne h0.symm, Function.update_of_ne h9.symm]

/-- A file whose zones were replaced by the list is a chunked one. -/
lemma replace_chunked {s s' : FileState} {head last ll_size : Nat}
    (h : replace s head last ll_size = some s') : inode_is_chunked s'.inode = true := by
  unfold replace at h
  split at h
  · cases h
  · dsimp only at h
    split at h
    · cases h
    · split at h
      · cases h
      · cases h
        dsimp only
        rw [inode_is_chunked, cominix_set_inode_data]
        change inode_is_chunked (Inode.set_data _ 3 _) = true
        rw [inode_is_chunked_set_data (by decide) (by decide),
          inode_is_chunked_set_data (by decide) (by decide),
          inode_is_chunked_set_data (by decide) (by decide)]
        rfl

/-- `chunk_and_replace` gives up only when a read fails, and otherwise leaves a chunked file. -/
lemma chunk_and_replace_result {f : Filp} {md5 : List UInt8 → UInt64} {s s' : FileState} {ret : Int}
    (h : chunk_and_replace f md5 s = some (ret, s')) :
    f.read_fails = true ∨ inode_is_chunked s'.inode = true := by
  unfold chunk_and_replace at h
  cases hf : chunk_file f md5 s.vol with
  | none =>
    simp only [hf] at h
    cases h
  | some r =>
    obtain ⟨head, ok, c⟩ := r
    cases ok with
    | false =>
      left
      unfold chunk_file at hf
      split at hf
      · cases hf
      · split at hf
        · cases hf
        · split at hf
          · cases hf
          · rename_i hloop
            cases hf
            exact chunk_loop_failed hloop
    | true =>
      right
      simp only [hf] at h
      split at h
      · cases h
      · rename_i hr
        cases h
        exact replace_chunked hr

/-- Asking for a regular file that is not chunked to be chunked is atomic and tells what was done
exactly when no read fails: what `chunk_and_replace` returns is dropped. -/
theorem proc_write_atomic_iff {f : Filp} {md5 : List UInt8 → UInt64} {w : ProcWrite}
    {s : FileState} {ret : Int} {r : Option FileState} (hcopied : w.copied = true)
    (hopened : w.opened = some (true, s)) (hreg : s.inode.i_mode = .reg)
    (hops : s.inode.i_fop = .cominix_file_operations)
    (h : cminix_proc_write f md5 w = some (ret, r)) :
    (∃ s', r = some s' ∧ AtomicChunking f w.count s ret s') ↔ f.read_fails = false := by
  unfold cminix_proc_write at h
  rw [hcopied, hopened] at h
  simp only [Bool.not_true, Bool.false_eq_true, if_false, hreg, hops, ne_eq, not_true] at h
  cases hrun : chunk_and_replace f md5 s with
  | none =>
    simp only [hrun] at h
    cases h
  | some p =>
    obtain ⟨ret', s'⟩ := p
    simp only [hrun] at h
    cases h
    constructor
    · rintro ⟨_, -, at'⟩
      by_contra hfail
      have hneg := at'.reported (Bool.not_eq_false _ ▸ hfail)
      omega
    · intro hok
      have hno : ¬ f.read_fails = true := by rw [hok]; exact Bool.false_ne_true
      refine ⟨s', rfl, fun h => absurd h hno, fun h => absurd h hno, fun h => absurd h hno,
        fun h => absurd h hno, fun h => absurd h hno, fun h => absurd h hno, fun _ => ?_⟩
      exact (chunk_and_replace_result hrun).resolve_left hno

/-- The small volume with a file of three bytes in zone 4; zones 5 and 6 are free. -/
def vol64K_file : Vol := { vol64K with
  sbi := { vol64K.sbi with s_firstdatazone := 4, heap_brk := 8208 }
  dev := vol64K.dev.store 4 (ofList [1, 2, 3])
  s_zmap := ⟨fun _ j => j = 0 ∨ j = 1 ∨ j = 4, fun _ j => j = 0 ∨ j = 1 ∨ j = 4, fun _ => false⟩ }

def file64K : FileState where
  vol := vol64K_file
  itable := ⟨fun _ _ => ⟨.reg, 1, 3, fun _ => 0⟩, fun _ _ => ⟨.reg, 1, 3, fun _ => 0⟩, fun _ => false⟩
  ino := 2
  inode := {
    i_mode := .reg
    i_nlink := 1
    i_size := 3
    i_rdev := 0
    i_data := fun k => if k = 0 then 4 else 0
    i_fop := .cominix_file_operations
    a_ops := .cominix_aops
    dirty := false }

/-- Asking for it to be chunked, in five bytes. -/
def write64K : ProcWrite := ⟨5, true, some (true, file64K)⟩

/-- Chunked with full reads it is switched. -/
theorem proc_write_atomic_iff_full : ∃ ret s',
    cminix_proc_write ⟨[1, 2, 3], fun _ => some 2⟩ (fun _ => 0) write64K = some (ret, some s') ∧
    AtomicChunking ⟨[1, 2, 3], fun _ => some 2⟩ 5 file64K ret s' := by
  have h : (cminix_proc_write ⟨[1, 2, 3], fun _ => some 2⟩ (fun _ => 0) write64K).map Prod.fst
      = some 5 := by
    decide +kernel
  obtain ⟨⟨ret, r⟩, hrun, -⟩ := Option.map_eq_some_iff.1 h
  obtain ⟨s', rfl, atomic⟩ := (@proc_write_atomic_iff ⟨[1, 2, 3], fun _ => some 2⟩ _ write64K file64K
    ret r rfl rfl rfl rfl hrun).2 (by decide)
  exact ⟨ret, s', hrun, atomic⟩

/-- The first read fails: the file is not chunked, zone 5 stays in use, and 5 is returned. -/
theorem proc_write_drops_error : ∃ ret s',
    cminix_proc_write ⟨[1, 2, 3], fun _ => none⟩ (fun _ => 0) write64K = some (ret, some s') ∧
    ret = 5 ∧ inode_is_chunked s'.inode = false ∧ zbit file64K.vol 5 = false ∧
    zbit s'.vol 5 = true ∧ ¬ AtomicChunking ⟨[1, 2, 3], fun _ => none⟩ 5 file64K ret s' := by
  have h : (cminix_proc_write ⟨[1, 2, 3], fun _ => none⟩ (fun _ => 0) write64K).bind (fun p =>
      p.2.map fun s => (p.1, inode_is_chunked s.inode, zbit s.vol 5)) = some (5, false, true) := by
    decide +kernel
  simp only [Option.bind_eq_some_iff, Option.map_eq_some_iff, Prod.mk.injEq] at h
  obtain ⟨⟨ret, r⟩, hrun, s', hr, hret, hchunked, hbit⟩ := h
  dsimp only at hr hret
  subst hr hret
  refine ⟨5, s', hrun, rfl, hchunked, by decide, hbit, fun atomic => ?_⟩
  have hneg := atomic.reported (by decide)
  omega

lemma SameMount.block_path {v v' : Vol} (h : SameMount v v') (b : Nat) :
    block_path v' b = block_path v b := by
  have hmax : v'.sbi.s_maxbytes = v.sbi.s_maxbytes := by rw [h.sbi]
  unfold CominixFs.block_path block_to_path INDIRCOUNT
  rw [hmax, h.bits, h.bs]

/-- Growing a list leaves the blocks of a file alone. -/
lemma ListGrown.tree {v v' : Vol} {blocks : List Nat} {z : Nat → Nat}
    (g : ListGrown v v' blocks) (ok : VolOk v)
    (tree : TreeOk v z) (hesb : ¬ TreeZone v z v.sbi.extra_sb_location) :
    TreeOk v' z ∧ ∀ p n, (shape v).Path p n → (forest v' z).node p = (forest v z).node p := by
  have hnot : ∀ x, TreeZone v z x → x ∉ blocks := by
    intro x hx hmem
    have hset := (tree.zone x hx).2
    rw [(g.free x hmem).2] at hset
    cases hset
  have hz : ∀ p n, (shape v).Path p n → (forest v z).node p ≠ 0 → TreeZone v z _ :=
    fun p n hp h0 => ⟨h0, p, n, hp, rfl⟩
  refine tree.frame g.toZmapStep (fun x hx => ?_) (fun p n hp h0 => ?_) fun p n hp h0 hc => ?_
  · exact (g.zbit x (tree.zone x hx).1).2 (.inr (tree.zone x hx).2)
  · have hx := hz p _ hp h0
    exact (g.mem_out _ (ok.low (tree.zone _ hx).1) (fun he => hesb (he ▸ hx)) (hnot _ hx)).1
  · exact g.kept _ (hnot _ (hz p _ hp h0)) hc

/-- Growing a list leaves the contents of a file alone. -/
lemma ListGrown.file_byte {v v' : Vol} {blocks : List Nat} {inode : Inode} (g : ListGrown v v' blocks)
    (ok : VolOk v) (tree : TreeOk v inode.i_data) (size : SizeOk v)
    (hesb : ¬ TreeZone v inode.i_data v.sbi.extra_sb_location) {b : Nat} (hb : Within v b)
    (off : Nat) : file_byte v' inode b off = file_byte v inode b off := by
  have hkeep : ∀ x, TreeZone v inode.i_data x → v'.dev.bh.mem x = v.dev.bh.mem x := by
    intro x hx
    obtain ⟨harea, hset⟩ := tree.zone x hx
    refine (g.mem_out x (ok.low harea) (fun he => hesb (he ▸ hx)) fun hmem => ?_).1
    rw [(g.free x hmem).2] at hset
    cases hset
  have hnode := (g.tree ok tree hesb).2
  have hpath := block_path_spec size hb
  have hzone : zone_of v' inode.i_data b = zone_of v inode.i_data b := by
    rw [zone_of, g.block_path, hnode _ _ hpath, zone_of]
  unfold CominixFs.file_byte
  rw [hzone]
  by_cases h0 : zone_of v inode.i_data b = 0
  · rw [if_pos h0, if_pos h0]
  · rw [if_neg h0, if_neg h0, hkeep _ ⟨h0, _, _, hpath, rfl⟩]

/-- When a read of the read loop fails, inode and contents are as before, but the blocks of the list
so far stay in use, the head at least. -/
theorem read_error_leaks {f : Filp} {md5 : List UInt8 → UInt64} {s s' : FileState}
    (ok : VolOk s.vol) (tree : TreeOk s.vol s.inode.i_data) (size : SizeOk s.vol)
    (hesb : ¬ TreeZone s.vol s.inode.i_data s.vol.sbi.extra_sb_location)
    (h : chunk_and_replace f md5 s = some (-1, s')) :
    s'.inode = s.inode ∧ s'.itable = s.itable ∧
      (∀ b off, Within s.vol b → file_byte s'.vol s'.inode b off = file_byte s.vol s.inode b off) ∧
      ∃ blocks, blocks ≠ [] ∧ Takes s.vol s'.vol blocks := by
  unfold chunk_and_replace at h
  cases hf : chunk_file f md5 s.vol with
  | none =>
    simp only [hf] at h
    cases h
  | some r =>
    obtain ⟨head, fine, c⟩ := r
    cases fine with
    | true =>
      simp only [hf] at h
      split at h
      · cases h
      · cases h
    | false =>
      simp only [hf] at h
      cases h
      obtain ⟨init, inv, -⟩ := chunk_file_list ok hf
      exact ⟨rfl, rfl, fun b off hb => inv.grown.file_byte ok tree size hesb hb off, _, by simp,
        inv.grown.toTakes⟩

end CominixFs
