import CominixFs.ChunkedFile

/-!
# Chunking where there is room

With room in the heap for the chunks that are new and a free zone for every block of the list,
chunking a file whose reads are full meets no `BUG()`, and the file that it leaves is read as before
(`chunked_read_agrees`).
-/

namespace CominixFs
open Bytes

/-- From this break on the heap has room for the chunks whose hashes are not among those stored. -/
def HeapRoom (v : Vol) (md5 : List UInt8 → UInt64) : List Nat → Nat → List (List UInt8) → Prop
  | _, _, [] => True
  | hashes, brk, seg :: segs =>
    if (md5 seg).toNat ∈ hashes then HeapRoom v md5 hashes brk segs
    else round_brk v.dev brk + (24 + seg.length) < v.sbi.max_brk ∧
      HeapRoom v md5 ((md5 seg).toNat :: hashes) (round_brk v.dev brk + (24 + seg.length)) segs

/-- Zones are free for a list of `n` entries. -/
def ListRoom (v : Vol) (n : Nat) : Prop :=
  ∃ free : List Nat, free.Nodup ∧ (∀ z ∈ free, InArea v z ∧ zbit v z = false) ∧
    list_blocks v.dev n ≤ free.length

variable {md5 : List UInt8 → UInt64} {f : Filp} {v v' : Vol} {cs cs' : List Stored} {head : Nat}
  {s s' : ChunkLoop}

/-- A full read fills the buffer at once. -/
lemma read_loop_full (hf : f.Full) {n call pos : Nat} (h0 : 0 < n) (hin : pos + n ≤ f.i_size) :
    read_loop f n (n + 1) call pos [] = .done ((f.bytes.drop pos).take n) (pos + n) (call + 1) := by
  obtain ⟨k, rfl⟩ : ∃ k, n = k + 1 := ⟨n - 1, by omega⟩
  have hlen : ((f.bytes.drop pos).take (k + 1)).length = k + 1 := by
    unfold Filp.i_size at hin
    rw [List.length_take, List.length_drop]
    omega
  rw [read_loop, if_neg (by rw [List.length_nil]; omega), hf]
  dsimp only
  rw [if_neg (by rw [List.length_nil, hlen]; omega), List.nil_append, hlen, read_loop,
    if_pos (by omega)]

/-- An allocation with room. -/
lemma chunk_alloc_room (ok : VolOk v) {size : Nat} (h0 : 0 < size)
    (hroom : round_brk v.dev v.sbi.heap_brk + (24 + size) < v.sbi.max_brk) :
    ∃ v', chunk_alloc v size = some (v', round_brk v.dev v.sbi.heap_brk) := by
  have hmax := ok.lay.max_lt
  have hbelow := ok.below
  have hbrk := ok.lay.brk_ge
  have hbuckets := ok.lay.buckets_pos
  have htable := ok.lay.table_size
  have hesb : v.sbi.extra_sb_location < v.dev.nblocks := by
    have h1 := ok.lay.esb_below
    have h2 := ok.lay.table_in
    have h3 : (v.sbi.extra_sb_location + 1) * v.dev.bs ≤ v.dev.nblocks * v.dev.bs := by omega
    exact Nat.le_of_mul_le_mul_right h3 v.dev.bs_pos
  unfold chunk_alloc
  rw [if_neg (by omega), if_neg (by omega)]
  dsimp only
  rw [Nat.mod_eq_of_lt (by omega), if_neg (by omega)]
  unfold update_brk_on_disk
  dsimp only
  rw [if_pos hesb]
  exact ⟨_, rfl⟩

/-- A chunk that is not stored is filled in where there is room. -/
lemma Held.fill_room (held : Held md5 v cs) {seg : List UInt8} (h0 : 0 < seg.length)
    (hmax : seg.length ≤ MaxSize) (hnew : ∀ c ∈ cs, c.hash ≠ (md5 seg).toNat)
    (hroom : round_brk v.dev v.sbi.heap_brk + (24 + seg.length) < v.sbi.max_brk) :
    ∃ v', search_or_fill v (md5 seg) seg
      = some (v', round_brk v.dev v.sbi.heap_brk, true) := by
  have hmax' : MaxSize = 65536 := rfl
  have hmd : (chunk_metadata (md5 seg) seg).length = seg.length := chunk_metadata_length (by omega)
  obtain ⟨v₁, halloc⟩ := chunk_alloc_room held.ok h0 hroom
  rw [← hmd] at halloc
  obtain ⟨v', hrun, -⟩ := chunk_fill_hashtable_run held.ok.lay hmd h0 halloc
  refine ⟨v', ?_⟩
  unfold search_or_fill
  rw [chunk_search_hashtable_eq held.ok.lay held.heap, lookup_eq_zero hnew]
  dsimp only
  rw [if_neg (not_not.2 rfl), hrun]

/-- A zone is free for one more block of the list. -/
lemma ListLoop.room {init : List Nat} {n : Nat} (ok : VolOk v) (inv : ListLoop v s init)
    (room : ListRoom v n) (hlt : s.log.length < n) : EntryRoom s.vol s.log.length := by
  have hE := entries_per_block_pos ok.lay.bits
  have hE' : entries_per_block s.vol.dev = entries_per_block v.dev := by
    rw [entries_per_block, inv.grown.bs]
    rfl
  by_cases hfull : s.log.length % entries_per_block s.vol.dev = 0 ∧ s.log.length ≠ 0
  · right
    right
    obtain ⟨free, nodup, hfree, hlen⟩ := room
    -- the list is made of full blocks, so of fewer than are free
    have hblocks := inv.list.length (hE'.symm ▸ hE)
    rw [List.length_map] at hblocks
    unfold list_blocks at hblocks hlen
    rw [hE'] at hfull hblocks
    generalize entries_per_block v.dev = E at *
    have hfew : (s.log.length - 1) / E + 1 < (n - 1) / E + 1 := by
      have hq : (s.log.length - 1) / E < s.log.length / E := by
        obtain ⟨q, hq⟩ := Nat.dvd_of_mod_eq_zero hfull.1
        have hpos : 0 < q := Nat.pos_of_ne_zero fun h => hfull.2 (by rw [hq, h, Nat.mul_zero])
        rw [hq, Nat.mul_div_cancel_left _ hE, Nat.div_lt_iff_lt_mul hE]
        have : 0 < E * q := Nat.mul_pos hE hpos
        rw [Nat.mul_comm q E]
        omega
      have hle : s.log.length / E ≤ (n - 1) / E := Nat.div_le_div_right (by omega)
      omega
    have hsub : ¬ free ⊆ init ++ [s.last] := by
      intro hsub
      have := nodup.length_le_of_subset hsub
      omega
    obtain ⟨z, hz, hnot⟩ : ∃ z ∈ free, z ∉ init ++ [s.last] := by
      by_contra hall
      push Not at hall
      exact hsub hall
    obtain ⟨harea, hbit⟩ := hfree z hz
    refine ⟨z, inv.grown.inArea.2 harea, ?_⟩
    rw [← Bool.not_eq_true, inv.grown.zbit z harea, hbit]
    simp [hnot]
  · rw [not_and_or, not_not] at hfull
    exact hfull.imp_right .inl

lemma round_brk_congr {d d' : Dev} (h : d'.bs = d.bs) (brk : Nat) :
    round_brk d' brk = round_brk d brk := by
  unfold round_brk block_no
  rw [h]

lemma EntryRoom.takes {n : Nat} (h : EntryRoom v n) (ht : Takes v v' []) : EntryRoom v' n := by
  have hE : entries_per_block v'.dev = entries_per_block v.dev := by
    rw [entries_per_block, ht.bs]
    rfl
  rcases h with h | h | ⟨z, harea, hfree⟩
  · exact .inl (hE ▸ h)
  · exact .inr (.inl h)
  · refine .inr (.inr ⟨z, ht.inArea.2 harea, ?_⟩)
    rw [← Bool.not_eq_true, ht.zbit z harea, hfree]
    simp

/-- There is room for what is left of the file. -/
structure Roomy (v : Vol) (md5 : List UInt8 → UInt64) (f : Filp) (s : ChunkLoop) (cs' : List Stored)
    (n : Nat) : Prop where
  heap : HeapRoom v md5 (cs'.map Stored.hash) s.vol.sbi.heap_brk (segments (f.bytes.drop s.f_pos))
  list : ListRoom v n
  left : s.log.length + (segments (f.bytes.drop s.f_pos)).length ≤ n

lemma drop_ne_nil {pos : Nat} (h : pos < f.i_size) : f.bytes.drop pos ≠ [] := by
  intro hnil
  have hlen := congrArg List.length hnil
  rw [List.length_drop, List.length_nil] at hlen
  unfold Filp.i_size at h
  omega

/-- The chunk is found, or stored. -/
lemma LoopInv.search_room {init : List Nat} {segs segs' : List (List UInt8)} {seg : List UInt8}
    (inv : LoopInv md5 f v cs s init cs' segs) (h0 : 0 < seg.length) (hmax : seg.length ≤ MaxSize)
    (heap : HeapRoom v md5 (cs'.map Stored.hash) s.vol.sbi.heap_brk (seg :: segs')) :
    ∃ v₁ loc filled, search_or_fill s.vol (md5 seg) seg = some (v₁, loc, filled) ∧ loc ≠ 0 := by
  have held : Held md5 s.vol cs' := ⟨inv.list.ok, inv.data.heap, inv.data.hash⟩
  simp only [HeapRoom] at heap
  by_cases hmem : (md5 seg).toNat ∈ cs'.map Stored.hash
  · obtain ⟨c, hc, hhash⟩ := List.mem_map.1 hmem
    have hloc := (held.heap.place held.ok.lay c hc).1
    have hlook := lookup_eq_of_mem held.heap.nodup hc
    rw [hhash] at hlook
    exact ⟨s.vol, c.loc, false, held.search hloc.ne' hlook, hloc.ne'⟩
  · rw [if_neg hmem] at heap
    have hmaxb : s.vol.sbi.max_brk = v.sbi.max_brk := by rw [inv.list.grown.sbi]
    have hnew : ∀ c ∈ cs', c.hash ≠ (md5 seg).toNat :=
      fun c hc he => hmem (List.mem_map.2 ⟨c, hc, he⟩)
    obtain ⟨v₁, hrun⟩ := held.fill_room h0 hmax hnew (by
      rw [round_brk_congr inv.list.grown.bs, hmaxb]
      exact heap.1)
    refine ⟨v₁, _, true, hrun, ?_⟩
    have hmax' : MaxSize = 65536 := rfl
    rcases search_or_fill_inv held.ok.lay ⟨h0, by omega⟩ hrun with ⟨h, -⟩ | ⟨-, -, hf, -⟩
    · cases h
    · have := hf.ge
      have := held.ok.lay.brk_ge
      have := held.ok.lay.table_pos
      omega

/-- A turn of the loop where there is room. -/
lemma LoopInv.turn_room {init : List Nat} {segs : List (List UInt8)} {n : Nat} (ok : VolOk v)
    (hf : f.Full) (inv : LoopInv md5 f v cs s init cs' segs) (hlt : s.f_pos < f.i_size)
    (room : Roomy v md5 f s cs' n) : ∃ s', chunk_turn f md5 s = some (true, s') ∧
      s.f_pos < s'.f_pos ∧ ∃ init' cs'' segs', LoopInv md5 f v cs s' init' cs'' segs' ∧
        Roomy v md5 f s' cs'' n := by
  have hrest := drop_ne_nil hlt
  have hcut := cut_bounds hrest
  have hsize := cdc_get_chunk_size_eq hf.noFail s.call s.f_pos
  obtain ⟨-, -, hin⟩ := cdc_get_chunk_size_bounds s.call hlt
  have hseglen : ((f.bytes.drop s.f_pos).take (cut (f.bytes.drop s.f_pos))).length
      = cut (f.bytes.drop s.f_pos) := by
    rw [List.length_take]
    omega
  have hheap := room.heap
  have hleft := room.left
  rw [segments_cons hrest] at hheap hleft
  rw [List.length_cons] at hleft
  -- a chunk is cut, read, found or stored, and its entry is appended
  have hrun : ∃ s', chunk_turn f md5 s = some (true, s') := by
    obtain ⟨v₁, loc, filled, hsearch, hloc⟩ := inv.search_room (by omega) (by omega) hheap
    obtain ⟨hok, ht, -, hloc64, hmem⟩ := inv.list.searched ok (by omega) (by omega) hsearch
    have hroom := (inv.list.room ok room.list (by omega)).takes ht
    have hmax : MaxSize = 65536 := rfl
    obtain ⟨v', news, init', b', happ, -⟩ := inv.list.append hok ht (fun b hb => (hmem b hb).1)
      (e := ⟨loc, cut (f.bytes.drop s.f_pos)⟩) ⟨hloc64, by dsimp only; omega⟩ hroom
    unfold chunk_turn
    rcases hc : cdc_get_chunk_size f s.call s.f_pos with ⟨k, call⟩
    rw [hc] at hsize hin
    dsimp only at hsize hin ⊢
    subst hsize
    rw [if_neg (by omega), read_loop_full hf (by omega) hin]
    dsimp only
    rw [hsearch]
    dsimp only
    rw [if_neg hloc, happ]
    exact ⟨_, rfl⟩
  obtain ⟨s', hturn⟩ := hrun
  obtain ⟨-, seg, loc, filled, v₁, t⟩ := (chunk_turn_inv hlt hturn).resolve_left
    fun ⟨h, _⟩ => Bool.noConfusion h
  obtain ⟨init', news, cs'', -, inv', hfill⟩ := inv.turn ok hlt t
  have hseg : seg = (f.bytes.drop s.f_pos).take (cut (f.bytes.drop s.f_pos)) := by
    conv_lhs => rw [t.bytes]
    rw [t.size, hsize]
  have hnext : (f.bytes.drop s.f_pos).drop (cut (f.bytes.drop s.f_pos)) = f.bytes.drop s'.f_pos := by
    rw [List.drop_drop, t.f_pos, hseg, hseglen]
  have hpos := t.pos
  rw [← hseg, hnext] at hheap
  rw [hnext] at hleft
  refine ⟨s', hturn, by rw [t.f_pos]; omega, init', cs'', _, inv', ?_, room.list, ?_⟩
  · simp only [HeapRoom] at hheap
    rcases hfill with ⟨-, rfl, hbrk, hlook⟩ | ⟨-, rfl, hnew, hbrk⟩
    · have hmem : (md5 seg).toNat ∈ cs''.map Stored.hash := by
        obtain ⟨c, hc, hhash, -⟩ := lookup_mem (hlook ▸ t.loc_ne)
        exact List.mem_map.2 ⟨c, hc, hhash⟩
      rw [if_pos hmem] at hheap
      rw [hbrk]
      exact hheap
    · have hmem : (md5 seg).toNat ∉ cs'.map Stored.hash := by
        intro h
        obtain ⟨c, hc, hhash⟩ := List.mem_map.1 h
        exact hnew c hc hhash
      rw [if_neg hmem] at hheap
      have held : Held md5 s.vol cs' := ⟨inv.list.ok, inv.data.heap, inv.data.hash⟩
      have hround := round_brk_congr inv.list.grown.bs s.vol.sbi.heap_brk
      obtain ⟨v₂, hfillrun⟩ := held.fill_room t.pos t.max hnew (by
        rw [hround, show s.vol.sbi.max_brk = v.sbi.max_brk by rw [inv.list.grown.sbi]]
        exact hheap.1)
      rw [t.search] at hfillrun
      cases hfillrun
      rw [hbrk, hround]
      exact hheap.2
  · rw [t.log, List.length_append, List.length_singleton]
    omega

/-- The loop ends at the end of the file. -/
lemma LoopInv.loop_room {n : Nat} (ok : VolOk v) (hf : f.Full) : ∀ {fuel s init cs' segs},
    LoopInv md5 f v cs s init cs' segs → Roomy v md5 f s cs' n → f.i_size - s.f_pos < fuel →
      ∃ s', chunk_loop f md5 fuel s = some (true, s') := by
  intro fuel
  induction fuel with
  | zero => intro s init cs' segs _ _ hfuel; omega
  | succ fuel ih =>
    intro s init cs' segs inv room hfuel
    have hle := inv.data.le
    simp only [chunk_loop]
    by_cases hlt : s.f_pos < f.i_size
    · obtain ⟨s', hturn, hpos, init', cs'', segs', inv', room'⟩ := inv.turn_room ok hf hlt room
      rw [if_pos hlt, hturn]
      exact ih inv' room' (by omega)
    · rw [if_neg hlt, if_pos (by omega)]
      exact ⟨s, rfl⟩

/-- Chunking a file ends when its reads are full and there is room for it. -/
lemma Held.chunk_file_room (held : Held md5 v cs) (hf : f.Full)
    (heap : HeapRoom v md5 (cs.map Stored.hash) v.sbi.heap_brk (segments f.bytes))
    (list : ListRoom v (segments f.bytes).length) :
    ∃ head s, chunk_file f md5 v = some (head, true, s) := by
  rcases ll_alloc_new_block_spec held.ok.zmap with ⟨-, hfull⟩ | ⟨v₁, head, ha, -, -, hdev, hsbi, ht⟩
  · obtain ⟨free, -, hfree, hlen⟩ := list
    cases free with
    | nil =>
      unfold list_blocks at hlen
      exact absurd hlen (Nat.not_succ_le_zero _)
    | cons z free =>
      obtain ⟨harea, hbit⟩ := hfree z List.mem_cons_self
      rw [hfull z harea] at hbit
      cases hbit
  · have hhead : head < v₁.dev.nblocks := by
      rw [hdev]
      exact held.ok.lt_nblocks (ht.free head (by simp)).1
    have hz : zero_out_block v₁ head = some { v₁ with dev := v₁.dev.store head fun _ => 0 } := if_pos hhead
    have inv : LoopInv md5 f v cs _ [] cs [] := held.start ha hz
    have room : Roomy v md5 f ⟨{ v₁ with dev := v₁.dev.store head fun _ => 0 }, head, 0, 0, 0, []⟩ cs
        (segments f.bytes).length := ⟨by dsimp only; rw [hsbi]; exact heap, list, by simp⟩
    have hfuel : f.i_size - 0 < f.i_size + 1 := Nat.lt_succ_self _
    obtain ⟨s', hloop⟩ := inv.loop_room held.ok hf room hfuel
    refine ⟨head, s', ?_⟩
    unfold chunk_file
    rw [ha]
    dsimp only
    rw [hz]
    dsimp only
    rw [hloop]

/-- The inode has a slot in the inode table. -/
def HasSlot (v : Vol) (ino : Nat) : Prop := (cominix_V2_raw_inode v.sbi v.dev ino).isSome = true

lemma HasSlot.congr {ino : Nat} (h : HasSlot v ino) (hm : SameMount v v') : HasSlot v' ino := by
  unfold HasSlot cominix_V2_raw_inode at *
  rw [hm.bs, hm.nblocks, hm.sbi]
  exact h

/-- A regular file with the bytes that its reads return, to be chunked on a volume with room. -/
structure Chunkable (md5 : List UInt8 → UInt64) (cs : List Stored) (f : Filp) (s : FileState) :
    Prop where
  ready : FileReady s.vol s.inode
  reg : s.inode.i_mode = .reg
  i_size : s.inode.i_size = f.i_size
  maxbytes : f.i_size ≤ s.vol.sbi.s_maxbytes
  slot : HasSlot s.vol s.ino
  heap : HeapRoom s.vol md5 (cs.map Stored.hash) s.vol.sbi.heap_brk (segments f.bytes)
  list : ListRoom s.vol (segments f.bytes).length

/-- There are no more chunks than bytes. -/
lemma segs_length_le {entries : List ChunkEntry} {segs : List (List UInt8)}
    (h : List.Forall₂ (Entry md5 cs) entries segs) : segs.length ≤ segs.flatten.length := by
  induction h with
  | nil => exact Nat.zero_le _
  | cons he _ ih =>
    have := he.pos
    rw [List.length_cons, List.flatten_cons, List.length_append]
    omega

/-- Replacing the zones of a file ends. -/
lemma replace_room {s : FileState} {c : ChunkLoop} {init : List Nat} (ok : VolOk s.vol)
    (ready : FileReady s.vol s.inode) (hreg : s.inode.i_mode = .reg) (slot : HasSlot s.vol s.ino)
    (inv : ListLoop s.vol c init) (hn : c.ll_size < 2 ^ 32) :
    ∃ s', replace { s with vol := c.vol } head c.last c.ll_size = some s' := by
  have hreadyc := inv.grown.ready ok ready
  have hnc : inode_is_chunked { s.inode with i_size := 0 } = false :=
    hreadyc.tree.not_chunked inv.ok.zmap rfl
  obtain ⟨v', inode', hrun, htr⟩ := @truncate_spec c.vol { s.inode with i_size := 0 }
    hreadyc.tree inv.ok.area hreadyc.size (Nat.two_pow_pos 63)
  have hslot := (slot.congr inv.grown.toSameMount).congr htr.step.toSameMount
  unfold HasSlot at hslot
  unfold replace
  dsimp only
  rw [cominix_truncate_reg hnc hreg, hrun]
  dsimp only
  rw [if_neg (by omega)]
  unfold cominix_write_inode
  cases hs : cominix_V2_raw_inode v'.sbi v'.dev s.ino with
  | none =>
    rw [hs] at hslot
    cases hslot
  | some p => exact ⟨_, rfl⟩

/-- Chunking a file whose reads are full, where there is room, ends, and the file is read as before:
a read at the end or past it returns 0, one before it puts some of the bytes from there on in the
buffer, returns how many and moves the position past them, and reads one after the other return the
rest of the file. -/
theorem chunked_read_agrees {s : FileState} (held : Held md5 s.vol cs) (hf : f.Full)
    (h : Chunkable md5 cs f s) (hinj : HashInjective md5 cs (segments f.bytes)) :
    ∃ s', chunk_and_replace f md5 s = some (0, s') ∧
      (∀ count pos, 0 < count → count < 2 ^ 63 →
        (f.i_size ≤ pos → chunked_file_read s'.vol s'.inode count pos = some ⟨0, pos, []⟩) ∧
        (pos < f.i_size → ∃ r : Nat, 1 ≤ r ∧ r ≤ min count (f.i_size - pos) ∧
          chunked_file_read s'.vol s'.inode count pos
            = some ⟨r, pos + r, (f.bytes.drop pos).take r⟩)) ∧
      ∀ counts : Nat → Nat, (∀ k, 0 < counts k) → ∀ k pos,
        read_chunked s'.vol s'.inode counts (f.i_size + 1) k pos = some (f.bytes.drop pos) := by
  obtain ⟨head, c, hfile⟩ := held.chunk_file_room hf h.heap h.list
  obtain ⟨hin, hend⟩ := InLoop.of_chunk_file hfile
  obtain ⟨init, cs', segs, inv, hhead⟩ := hin.inv held
  obtain ⟨hsegs, -⟩ := inv.finished hf.noFail (hend rfl)
  have hmax := h.ready.size.maxbytes
  have hle := h.maxbytes
  have hn : c.ll_size < 2 ^ 32 := by
    have h1 := inv.data.entries.length_eq
    have h2 := segs_length_le inv.data.entries
    have h3 := congrArg List.length inv.data.flatten
    rw [List.length_take] at h3
    rw [List.length_map] at h1
    rw [inv.list.size]
    unfold Filp.i_size at hle
    omega
  obtain ⟨s', hr⟩ := @replace_room head s c init held.ok h.ready h.reg h.slot inv.list hn
  have hrun : chunk_and_replace f md5 s = some (0, s') := by
    unfold chunk_and_replace
    rw [hfile]
    dsimp only
    rw [hr]
  have heldc : Held md5 c.vol cs' := ⟨inv.list.ok, inv.data.heap, inv.data.hash⟩
  obtain ⟨held', -⟩ := heldc.replace (s := { s with vol := c.vol })
    (inv.list.grown.ready held.ok h.ready) hr
  have hholds : FileHolds s'.vol cs' s'.inode f.bytes :=
    inv.fileHolds held.ok h.ready h.reg h.i_size (by omega) (hend rfl) hinj
      (hsegs ▸ List.Subset.refl _) hhead hr
  refine ⟨s', hrun, fun count pos h0 _ => chunked_file_read_spec held'.ok held'.heap hholds h0,
    fun counts hcounts k pos => ?_⟩
  exact read_chunked_eq held'.ok held'.heap hholds hcounts (by unfold Filp.i_size; omega)

/-- Three bytes that are read at once. -/
def three_bytes : Filp := ⟨[1, 2, 3], fun _ => some 2⟩

lemma three_bytes_full : three_bytes.Full := by
  intro call pos count
  simp [kernel_read, three_bytes]

lemma three_bytes_segments : segments three_bytes.bytes = [[1, 2, 3]] := by decide

/-- They are read two at a time from the second one on. -/
theorem chunked_read_agrees_three : ∃ s',
    chunk_and_replace three_bytes (fun _ => 0) ⟨vol64K_copies, file64K.itable, 2, file_in 4⟩
      = some (0, s') ∧
    (∃ r : Nat, 1 ≤ r ∧ r ≤ 2 ∧
      chunked_file_read s'.vol s'.inode 2 1 = some ⟨r, 1 + r, [2, 3].take r⟩) ∧
    chunked_file_read s'.vol s'.inode 2 3 = some ⟨0, 3, []⟩ ∧
    read_chunked s'.vol s'.inode (fun _ => 2) 4 0 1 = some [2, 3] := by
  have hchunkable : Chunkable (fun _ => 0) [] three_bytes
      ⟨vol64K_copies, file64K.itable, 2, file_in 4⟩ := by
    refine ⟨file_in_ready rfl rfl (.inr ⟨⟨by decide, by decide⟩, by decide⟩) (by decide), rfl,
      rfl, by decide, by unfold HasSlot; decide, ?_, ⟨[5], by simp, ?_, ?_⟩⟩
    · rw [three_bytes_segments]
      exact ⟨by decide, trivial⟩
    · intro z hz
      rw [List.mem_singleton.1 hz]
      exact ⟨⟨by decide, by decide⟩, by decide⟩
    · rw [three_bytes_segments]
      decide
  have hinj : HashInjective (fun _ => 0) [] (segments three_bytes.bytes) := by
    intro a b ha hb _
    rw [three_bytes_segments] at ha hb
    simp only [List.mem_singleton, List.not_mem_nil, false_and, exists_false, or_false] at ha hb
    rw [ha, hb]
  obtain ⟨s', hrun, hone, hread⟩ := chunked_read_agrees (s := ⟨vol64K_copies, file64K.itable, 2,
    file_in 4⟩) vol64K_copies_held three_bytes_full hchunkable hinj
  exact ⟨s', hrun, (hone 2 1 Nat.two_pos (by decide)).2 (by decide),
    (hone 2 3 Nat.two_pos (by decide)).1 (by decide), hread (fun _ => 2) (fun _ => Nat.two_pos) 0 1⟩

end CominixFs
