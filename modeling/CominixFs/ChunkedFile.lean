import CominixFs.Chunkings

/-!
# Chunked files

What a chunking that succeeds leaves (`Switched`): the blocks of the file are free, and those of the
list are its own. A chunked file whose entries are stored chunks is read as the bytes of these chunks
one after the other (`chunked_file_read_spec`).
-/

namespace CominixFs
open Bytes

/-- A file that had the blocks of its tree has those of a list of entries. -/
structure Switched (v v' : Vol) (inode inode' : Inode) (blocks : List Nat) (es : List ChunkEntry) :
    Prop where
  listed : Listed v' inode' blocks es
  own : OwnStep v v' (TreeZone v inode.i_data) (· ∈ blocks)
  exact : Exact v v' (TreeZone v inode.i_data) (· ∈ blocks)
  chunked : inode_is_chunked inode' = true
  mode : inode'.i_mode = .reg
  nlink : inode'.i_nlink = inode.i_nlink
  i_size : inode'.i_size = inode.i_size
  i_fop : inode'.i_fop = .chunked_file_operations
  a_ops : inode'.a_ops = .empty_aops

variable {md5 : List UInt8 → UInt64} {f : Filp} {v v' : Vol} {inode : Inode} {cs cs' : List Stored}
  {head : Nat} {c : ChunkLoop}

lemma OwnStep.congr {old new old' new' : Nat → Prop} (h : OwnStep v v' old new)
    (ho : ∀ x, old x ↔ old' x) (hn : ∀ x, new x ↔ new' x) : OwnStep v v' old' new' := by
  obtain rfl : old = old' := funext fun x => propext (ho x)
  obtain rfl : new = new' := funext fun x => propext (hn x)
  exact h

lemma Exact.congr {old new old' new' : Nat → Prop} (h : Exact v v' old new)
    (ho : ∀ x, old x ↔ old' x) (hn : ∀ x, new x ↔ new' x) : Exact v v' old' new' := by
  obtain rfl : old = old' := funext fun x => propext (ho x)
  obtain rfl : new = new' := funext fun x => propext (hn x)
  exact h

/-- An unchunked regular file is truncated. -/
lemma cominix_truncate_reg {inode : Inode} (hc : inode_is_chunked inode = false)
    (hreg : inode.i_mode = .reg) : cominix_truncate v inode = truncate v inode := by
  unfold cominix_truncate
  rw [hc, if_neg Bool.false_ne_true, hreg]

/-- What `cominix_set_inode` makes of a file that was switched. -/
lemma set_inode_chunked {inode : Inode} (hreg : inode.i_mode = .reg)
    (hc : inode_is_chunked inode = true) : cominix_set_inode inode 0
      = { inode with i_fop := .chunked_file_operations, a_ops := .empty_aops } := by
  unfold cominix_set_inode
  rw [hreg]
  dsimp only
  rw [if_pos hc]

/-- Replacing the zones of a regular file by a list. -/
lemma ListLoop.replace {s' : FileState} {init : List Nat} {s : FileState} (ok : VolOk s.vol)
    (ready : FileReady s.vol s.inode) (hreg : s.inode.i_mode = .reg) (inv : ListLoop s.vol c init)
    (hhead : (init ++ [c.last]).head? = some head)
    (h : replace { s with vol := c.vol } head c.last c.ll_size = some s') :
    Switched s.vol s'.vol s.inode s'.inode (init ++ [c.last]) (c.log.map Prod.fst) := by
  obtain ⟨inode, ht, hn, hi⟩ := replace_inv h
  have hreadyc := inv.grown.ready ok ready
  obtain ⟨htreec, hnodec⟩ := inv.grown.tree ok ready.tree ready.esb
  have hzonec : ∀ x, TreeZone c.vol s.inode.i_data x ↔ TreeZone s.vol s.inode.i_data x :=
    fun x => treeZone_congr inv.grown.toSameMount hnodec
  have hblocks : ∀ x, x ∈ init ++ [c.last] → InUse c.vol x ∧ ¬ TreeZone s.vol s.inode.i_data x := by
    intro x hx
    obtain ⟨harea, hfree⟩ := inv.grown.free x hx
    refine ⟨inv.grown.inUse.2 ⟨harea, (inv.grown.zbit x harea).2 (.inl hx)⟩, fun hz => ?_⟩
    rw [(ready.tree.zone x hz).2] at hfree
    cases hfree
  -- an unchunked regular file is truncated to nothing
  have hnc : inode_is_chunked { s.inode with i_size := 0 } = false :=
    htreec.not_chunked inv.ok.zmap rfl
  have htrunc : Truncated c.vol { s.inode with i_size := 0 } s'.vol inode := by
    obtain ⟨v₁, i₁, hrun, htr⟩ := @truncate_spec c.vol { s.inode with i_size := 0 } htreec
      inv.ok.area hreadyc.size (Nat.two_pow_pos 63)
    rw [cominix_truncate_reg hnc hreg] at ht
    obtain ⟨rfl, rfl⟩ := Prod.mk.inj (Option.some.inj (hrun.symm.trans ht))
    exact htr
  have hempty := htrunc.empty rfl
  have hmode : inode.i_mode = .reg := by rw [htrunc.inode_eq]; exact hreg
  have hnlink : inode.i_nlink = s.inode.i_nlink := by rw [htrunc.inode_eq]
  -- the file after the switch
  generalize hsw : (((switch_inode_to_chunked { inode with i_size := s.inode.i_size }).set_data 1
    head).set_data 2 c.ll_size).set_data 3 c.last = sw at hi
  have hswc : inode_is_chunked sw = true := by
    rw [← hsw, inode_is_chunked_set_data (by decide) (by decide),
      inode_is_chunked_set_data (by decide) (by decide),
      inode_is_chunked_set_data (by decide) (by decide)]
    rfl
  have hswm : sw.i_mode = .reg := by rw [← hsw]; exact hmode
  rw [set_inode_chunked hswm hswc] at hi
  have hdata : s'.inode.i_data 1 = head ∧ s'.inode.i_data 2 = c.ll_size ∧
      s'.inode.i_data 3 = c.last := by
    rw [hi, ← hsw]
    exact ⟨rfl, rfl, rfl⟩
  have hleft : ∀ x ∈ init ++ [c.last], zbit s'.vol x = true ∧
      s'.vol.dev.bh.mem x = c.vol.dev.bh.mem x ∧ s'.vol.dev.bh.dirty x = c.vol.dev.bh.dirty x := by
    intro x hx
    obtain ⟨hu, hnz⟩ := hblocks x hx
    have hnz' : ¬ TreeZone c.vol s.inode.i_data x := fun hz => hnz ((hzonec x).1 hz)
    exact ⟨(htrunc.step.zbit x hu.1).2 (.inl ⟨hu.2, hnz'⟩), htrunc.step.out x hnz' fun _ => hu.2⟩
  have hlistc : Listed c.vol s'.inode (init ++ [c.last]) (c.log.map Prod.fst) := by
    refine ⟨?_, ?_, ?_, inv.grown.nodup, fun b hb => (hblocks b hb).1, inv.list, fun hes b hb => ?_⟩
    · rw [hhead, get_list_head, hdata.1]
    · rw [hdata.2.1, inv.size, List.length_map]
    · rw [List.getLast?_append, hdata.2.2]
      rfl
    · refine .inl (inv.dirty (fun h0 => hes ?_) b hb)
      rw [h0]
      rfl
  have hown : OwnStep s.vol c.vol (TreeZone s.vol s.inode.i_data)
      fun x => x ∈ init ++ [c.last] ∨ TreeZone s.vol s.inode.i_data x :=
    (@OwnStep.frame _ _ _ _ (inv.grown.own ok) (TreeZone s.vol s.inode.i_data)
      fun x hx => ⟨ready.tree.zone x hx, id⟩).congr (fun x => by simp) fun x => Iff.rfl
  have hown' : OwnStep c.vol s'.vol
      (fun x => x ∈ init ++ [c.last] ∨ TreeZone s.vol s.inode.i_data x) (· ∈ init ++ [c.last]) :=
    (@OwnStep.frame _ _ _ _ htrunc.step.own (· ∈ init ++ [c.last])
      fun x hx => ⟨(hblocks x hx).1, fun hz => (hblocks x hx).2 ((hzonec x).1 hz)⟩).congr
        (fun x => by dsimp only; rw [hzonec x, or_comm]) fun x => by simp [hempty x]
  refine ⟨hlistc.frame htrunc.step.toZmapStep hleft, hown.trans hown', ?_, ?_, ?_, ?_, ?_, ?_, ?_⟩
  · have hex : Exact s.vol c.vol (TreeZone s.vol s.inode.i_data)
        fun x => x ∈ init ++ [c.last] ∨ TreeZone s.vol s.inode.i_data x :=
      (inv.grown.exact.frame (TreeZone s.vol s.inode.i_data)).congr (fun x => by simp)
        fun x => Iff.rfl
    have hex' : Exact c.vol s'.vol
        (fun x => x ∈ init ++ [c.last] ∨ TreeZone s.vol s.inode.i_data x) (· ∈ init ++ [c.last]) :=
      (htrunc.step.exact.frame (· ∈ init ++ [c.last])).congr
        (fun x => by dsimp only; rw [hzonec x, or_comm]) fun x => by simp [hempty x]
    exact hex.trans hex'
  · rw [hi]
    exact hswc
  · rw [hi]
    exact hswm
  · rw [hi, ← hsw]
    exact hnlink
  · rw [hi, ← hsw]
    rfl
  · rw [hi]
  · rw [hi]

/-! ## Reading -/

/-- An entry stands for a segment of the file: a stored chunk at its location has the bytes. -/
structure Piece (cs : List Stored) (e : ChunkEntry) (seg : List UInt8) : Prop where
  size : e.size = seg.length
  pos : 0 < seg.length
  max : seg.length ≤ MaxSize
  chunk : ∃ c ∈ cs, c.loc = e.location ∧ c.data = seg

/-- The entries of a chunked file are pieces of these bytes. -/
structure FileHolds (v : Vol) (cs : List Stored) (inode : Inode) (bytes : List UInt8) : Prop where
  chunked : inode_is_chunked inode = true
  i_size : inode.i_size = bytes.length
  small : bytes.length < 2 ^ 63
  pieces : ∃ blocks es segs, Listed v inode blocks es ∧ List.Forall₂ (Piece cs) es segs ∧
    segs.flatten = bytes

lemma Piece.mono {e : ChunkEntry} {seg : List UInt8} (h : Piece cs e seg) (hsub : cs ⊆ cs') :
    Piece cs' e seg := by
  obtain ⟨c, hc, hloc, hdata⟩ := h.chunk
  exact ⟨h.size, h.pos, h.max, c, hsub hc, hloc, hdata⟩

lemma total_pieces {es : List ChunkEntry} {segs : List (List UInt8)}
    (h : List.Forall₂ (Piece cs) es segs) : total es = segs.flatten.length := by
  induction h with
  | nil => rfl
  | cons he _ ih => rw [total_cons, List.flatten_cons, List.length_append, he.size, ih]

lemma pieces_split {es₁ es₂ : List ChunkEntry} {e : ChunkEntry} {segs : List (List UInt8)}
    (h : List.Forall₂ (Piece cs) (es₁ ++ e :: es₂) segs) : ∃ segs₁ seg segs₂,
      segs = segs₁ ++ seg :: segs₂ ∧ List.Forall₂ (Piece cs) es₁ segs₁ ∧ Piece cs e seg := by
  induction es₁ generalizing segs with
  | nil =>
    cases h with
    | @cons _ seg _ segs he _ => exact ⟨[], seg, segs, rfl, .nil, he⟩
  | cons x es₁ ih =>
    cases h with
    | @cons _ seg₀ _ segs hx htail =>
      obtain ⟨segs₁, seg, segs₂, rfl, h1, h2⟩ := ih htail
      exact ⟨seg₀ :: segs₁, seg, segs₂, rfl, .cons hx h1, h2⟩

/-- Part of a slice. -/
lemma slice_part {m : Mem} {o k a n : Nat} (h : a + n ≤ k) :
    slice m (o + a) n = ((slice m o k).drop a).take n := by
  rw [show k = a + (n + (k - a - n)) by omega, slice_add, slice_add,
    List.drop_left' (slice_length _ _ _), List.take_left' (slice_length _ _ _)]

/-- The bytes of a stored chunk are read from the device. -/
lemma chunk_copy_eq {c : Stored} (lay : HeapLayout v) (inv : HeapInv v cs) (hc : c ∈ cs) {a n : Nat}
    (hn : 0 < n) (h : a + n ≤ c.data.length) :
    read_data_storage v.dev ((c.loc + 24 + a) % 2 ^ 64) n = some ((c.data.drop a).take n) := by
  have hstop := inv.below c hc
  have habove := inv.above c hc
  have htable := lay.table_pos
  have hbrk := lay.brk_le
  have hlt : v.dev.nblocks * v.dev.bs ≤ 2 ^ 32 * 4096 :=
    Nat.mul_le_mul lay.nblocks (Dev.bs_bounds lay.bits).2.1
  unfold Stored.stop at hstop
  rw [Nat.mod_eq_of_lt (by omega), read_data_storage_eq (by omega) (by omega) (by omega) lay.nblocks,
    slice_part h, (inv.holds c hc).data]

/-- The search of a chunked file returns the entry of the position. -/
lemma FileHolds.search {bytes : List UInt8} (ok : VolOk v) (h : FileHolds v cs inode bytes) {pos : Nat}
    (hpos : pos < bytes.length) : ∃ (before seg after : List UInt8) (e : ChunkEntry) (c : Stored),
      bytes = before ++ seg ++ after ∧ before.length ≤ pos ∧ pos < before.length + seg.length ∧
      seg.length ≤ MaxSize ∧ e.size = seg.length ∧ c ∈ cs ∧ c.loc = e.location ∧ c.data = seg ∧
      ll_search_left v.dev pos (2 ^ 96) (get_list_head inode) 0 = some (e, (before.length : Int)) := by
  obtain ⟨blocks, es, segs, listed, pieces, rfl⟩ := h.pieces
  have htotal := total_pieces pieces
  have hsmall := h.small
  have hsizes : ∀ e ∈ es, 0 < e.size := by
    intro e he
    obtain ⟨i, hi, rfl⟩ := List.getElem_of_mem he
    have hpiece := List.Forall₂.get pieces hi (pieces.length_eq ▸ hi)
    rw [List.get_eq_getElem] at hpiece
    rw [hpiece.size]
    exact hpiece.pos
  have hin : ∀ b ∈ blocks, b < v.dev.nblocks := fun b hb => ok.lt_nblocks (listed.used b hb).1
  -- distinct blocks of the normal area are fewer than the calls the search may take
  have hlen : blocks.length ≤ 2 ^ 96 := by
    have hle : blocks.length ≤ v.sbi.s_nzones := by
      have hsub : blocks ⊆ List.range v.sbi.s_nzones :=
        fun b hb => List.mem_range.2 (listed.used b hb).1.2
      have := listed.nodup.length_le_of_subset hsub
      rwa [List.length_range] at this
    have hnz := ok.zmap.nzones_lt
    have : (2 : Nat) ^ 31 ≤ 2 ^ 96 := Nat.pow_le_pow_right Nat.two_pos (by decide)
    omega
  have hsearch := @ll_search_left_eq v.dev pos blocks es listed.list (2 ^ 96) 0 _ listed.head hlen hin
    hsizes (by omega) (Nat.zero_le _)
  rw [Nat.cast_zero] at hsearch
  rcases hl : locate pos es 0 with ⟨_ | e, a⟩
  · obtain ⟨ha, hle⟩ := locate_none hl
    have := hle (Nat.zero_le _)
    omega
  · obtain ⟨es₁, es₂, rfl, ha, h1, h2⟩ := locate_some (Nat.zero_le _) hl
    obtain ⟨segs₁, seg, segs₂, rfl, hbefore, hpiece⟩ := pieces_split pieces
    have hsum := total_pieces hbefore
    obtain ⟨c, hc, hloc, hdata⟩ := hpiece.chunk
    have hsize := hpiece.size
    rw [Nat.zero_add, hsum] at ha
    rw [hl] at hsearch
    subst ha
    refine ⟨segs₁.flatten, seg, segs₂.flatten, e, c, ?_, h1, by omega, hpiece.max, hsize, hc, hloc,
      hdata, hsearch⟩
    rw [List.flatten_append, List.flatten_cons, List.append_assoc]

/-- The length of a read fits an `int`. -/
lemma read_bmod {r : Nat} (h : r ≤ MaxSize) : (r : Int).bmod (2 ^ 32) = r := by
  have hmax : MaxSize = 65536 := rfl
  exact Int.bmod_eq_of_le (by omega) (by omega)

/-- A read at the end or past it returns 0 and leaves the position. Before the end it returns how many
bytes of the file from the position on it has put in the buffer, at least one, and moves the position
past them. -/
theorem chunked_file_read_spec {bytes : List UInt8} (ok : VolOk v) (inv : HeapInv v cs)
    (h : FileHolds v cs inode bytes) {count pos : Nat} (hcount : 0 < count) :
    (bytes.length ≤ pos → chunked_file_read v inode count pos = some ⟨0, pos, []⟩) ∧
    (pos < bytes.length → ∃ r : Nat, 1 ≤ r ∧ r ≤ min count (bytes.length - pos) ∧
      chunked_file_read v inode count pos = some ⟨r, pos + r, (bytes.drop pos).take r⟩) := by
  have hsize := h.i_size
  constructor
  · intro hpast
    unfold chunked_file_read
    rw [if_pos (by omega)]
  · intro hpos
    obtain ⟨before, seg, after, e, c, hbytes, h1, h2, hmax, hesize, hc, hloc, hdata, hsearch⟩ :=
      h.search ok hpos
    have hmax' : MaxSize = 65536 := rfl
    have hplace := (inv.place ok.lay c hc).1
    have hlen : bytes.length = before.length + seg.length + after.length := by
      rw [hbytes, List.length_append, List.length_append]
    generalize hA : before.length = A at *
    obtain ⟨a, rfl⟩ : ∃ a, pos = A + a := ⟨pos - A, by omega⟩
    -- what is asked for, but not past the end of the chunk
    obtain ⟨r, hr⟩ : ∃ r, r = min count (seg.length - a) := ⟨_, rfl⟩
    have hr0 : 0 < r := by omega
    have hrmax : r ≤ MaxSize := by omega
    have hra : a + r ≤ c.data.length := by rw [hdata]; omega
    have hcopy := chunk_copy_eq ok.lay inv hc hr0 hra
    have hbuf : (c.data.drop a).take r = (bytes.drop (A + a)).take r := by
      rw [hdata] at hra ⊢
      have hin : r ≤ (seg.drop a).length := by
        rw [List.length_drop]
        exact Nat.le_sub_of_add_le' hra
      rw [hbytes, List.append_assoc, ← hA, List.drop_length_add_append,
        List.drop_append_of_le_length (Nat.le_of_add_right_le hra), List.take_append_of_le_length hin]
    have hinto : chunk_copy_into_buffer v.dev e count (((A + a : Nat) : Int) - A)
        = some ((r : Int), (bytes.drop (A + a)).take r) := by
      have hoff : ((A + a : Nat) - A : Int) = a := by omega
      have hread : min (count : Int) ((e.size : Int).bmod (2 ^ 64) - a) = r := by
        rw [hesize, Int.bmod_eq_of_le (by omega) (by omega)]
        omega
      unfold chunk_copy_into_buffer
      rw [hoff, hread, if_neg (Int.not_le.2 (Int.natCast_pos.2 hr0)), ← hloc, Int.toNat_natCast,
        Int.toNat_natCast, hcopy, hbuf, read_bmod hrmax]
    refine ⟨r, hr0, by omega, ?_⟩
    unfold chunked_file_read
    rw [if_neg (by omega), h.chunked, hsearch]
    simp only [Bool.not_true, Bool.false_eq_true, if_false]
    rw [if_neg (by omega), hinto]
    dsimp only
    rw [if_pos (Int.natCast_pos.2 hr0), Int.toNat_natCast]

/-- Reads one after the other until one returns 0, each at the position that the one before has left;
`counts k` is what read number `k` asks for. -/
def read_chunked (v : Vol) (inode : Inode) (counts : Nat → Nat) : Nat → Nat → Nat →
    Option (List UInt8)
  | 0, _, _ => none
  | fuel + 1, k, pos =>
    match chunked_file_read v inode (counts k) pos with
    | none => none
    | some r =>
      if r.ret ≤ 0 then some []
      else (read_chunked v inode counts fuel (k + 1) r.pos).map (r.buf ++ ·)

/-- Reads from a position on, of whatever lengths, return the rest of the file. -/
theorem read_chunked_eq {bytes : List UInt8} {counts : Nat → Nat} (ok : VolOk v)
    (inv : HeapInv v cs) (h : FileHolds v cs inode bytes) (hcounts : ∀ k, 0 < counts k) :
    ∀ {fuel k pos}, bytes.length - pos < fuel →
      read_chunked v inode counts fuel k pos = some (bytes.drop pos) := by
  intro fuel
  induction fuel with
  | zero => intro k pos hfuel; omega
  | succ fuel ih =>
    intro k pos hfuel
    obtain ⟨hpast, hbefore⟩ := @chunked_file_read_spec _ _ _ bytes ok inv h (counts k) pos (hcounts k)
    simp only [read_chunked]
    by_cases hle : bytes.length ≤ pos
    · rw [hpast hle, List.drop_eq_nil_of_le hle]
      exact if_pos (Int.le_refl 0)
    · obtain ⟨r, hr0, hr, hread⟩ := hbefore (Nat.not_le.1 hle)
      clear hbefore hpast
      have hfuel' : bytes.length - (pos + r) < fuel := by omega
      rw [hread]
      dsimp only
      rw [if_neg (Int.not_le.2 (Int.natCast_pos.2 hr0)), ih hfuel', Option.map_some,
        ← List.drop_drop, List.take_append_drop]

/-! ## What a chunking leaves -/

/-- On the chunks of a file and those stored the hash is injective. -/
def HashInjective (md5 : List UInt8 → UInt64) (cs : List Stored) (segs : List (List UInt8)) : Prop :=
  ∀ a b, (a ∈ segs ∨ ∃ c ∈ cs, c.data = a) → (b ∈ segs ∨ ∃ c ∈ cs, c.data = b) → md5 a = md5 b → a = b

/-- The entries of the loop are pieces of the file. -/
lemma LoopInv.pieces {init : List Nat} {segs segs' : List (List UInt8)}
    (inv : LoopInv md5 f v cs c init cs' segs) (hinj : HashInjective md5 cs segs')
    (hsub : segs ⊆ segs') : List.Forall₂ (Piece cs') (c.log.map Prod.fst) segs := by
  have hentries := inv.data.entries
  refine List.forall₂_iff_get.2 ⟨hentries.length_eq, fun i h1 h2 => ?_⟩
  have hentry := hentries.get h1 h2
  obtain ⟨st, hst, hloc, hhash⟩ := hentry.chunk
  refine ⟨hentry.size, hentry.pos, hentry.max, st, hst, hloc, hinj _ _ ?_ (.inl ?_) ?_⟩
  · rcases inv.new st hst with hold | hnew
    · exact .inr ⟨st, hold, rfl⟩
    · exact .inl (hsub hnew)
  · exact hsub (List.get_mem segs ⟨i, h2⟩)
  · rw [inv.data.hash st hst] at hhash
    exact UInt64.toNat_inj.1 hhash

/-- A file that was chunked holds the bytes its reads returned. -/
lemma LoopInv.fileHolds {init : List Nat} {segs segs' : List (List UInt8)} {s s' : FileState}
    (inv : LoopInv md5 f s.vol cs c init cs' segs) (ok : VolOk s.vol)
    (ready : FileReady s.vol s.inode) (hreg : s.inode.i_mode = .reg)
    (hsize : s.inode.i_size = f.i_size) (hsmall : f.i_size < 2 ^ 63) (hend : c.f_pos = f.i_size)
    (hinj : HashInjective md5 cs segs') (hsub : segs ⊆ segs')
    (hhead : (init ++ [c.last]).head? = some head)
    (h : replace { s with vol := c.vol } head c.last c.ll_size = some s') :
    FileHolds s'.vol cs' s'.inode f.bytes := by
  have hsw := inv.list.replace ok ready hreg hhead h
  refine ⟨hsw.chunked, hsw.i_size.trans hsize, hsmall, _, _, segs, hsw.listed, inv.pieces hinj hsub, ?_⟩
  rw [inv.data.flatten, hend, Filp.i_size, List.take_length]

end CominixFs
