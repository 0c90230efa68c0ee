import CominixFs.ChunkedFile

/-!
# Deduplication

Files that are the same from a common cut on are cut there into the same chunks. So once one of them
is chunked nothing of that part is stored again when the other one is: its entries are those of
the first file, in the lists that are stored too, and the break moves for the chunks before it only
(`shared_tail_stored_once`).
-/

namespace CominixFs
open Bytes

/-- A file cut into chunks of these sizes, the first `i` of which end where `tail` starts. -/
structure CutAtTail (f : Filp) (sizes : List Nat) (i : Nat) (tail : List UInt8) : Prop where
  cut : ∃ calls, chunk_sizes f calls (f.i_size + 1) 0 = some sizes
  tail_eq : f.bytes.drop (sizes.take i).sum = tail

/-- Chunking a file on a volume finds every chunk from number `j` on, which starts at `pos`, and
takes over these entries, which its stored list then has from there on. -/
structure TailFound (f : Filp) (md5 : List UInt8 → UInt64) (v : Vol) (j pos : Nat)
    (entries : List ChunkEntry) : Prop where
  found : ∀ head s, InLoop f md5 v head s → pos ≤ s.f_pos → s.f_pos < f.i_size →
    ∃ e, entries[s.log.length - j]? = some e ∧ (cdc_get_chunk_size f s.call s.f_pos).1 = e.size ∧
      search_or_fill s.vol (md5 ((f.bytes.drop s.f_pos).take e.size))
        ((f.bytes.drop s.f_pos).take e.size) = some (s.vol, e.location, false)
  log : ∀ head s, chunk_file f md5 v = some (head, true, s) →
    s.log.drop j = entries.map fun e => (e, false)
  heap_brk : ∀ head s, chunk_file f md5 v = some (head, true, s) →
    ∃ s₁, InLoop f md5 v head s₁ ∧ s₁.f_pos = pos ∧ s.vol.sbi.heap_brk = s₁.vol.sbi.heap_brk
  stored : ∀ s s', s.vol = v → FileReady v s.inode → s.inode.i_mode = .reg →
    chunk_and_replace f md5 s = some (0, s') →
    ∃ blocks es, Listed s'.vol s'.inode blocks es ∧ es.drop j = entries

variable {md5 : List UInt8 → UInt64} {f : Filp} {v v' : Vol} {cs cs' cs₀ : List Stored} {head : Nat}
  {s s' : ChunkLoop}

/-! ## Cuts -/

lemma segments_pos : ∀ {rest : List UInt8}, ∀ seg ∈ segments rest, 0 < seg.length := by
  intro rest
  induction hn : rest.length using Nat.strongRecOn generalizing rest with
  | ind n ih =>
    intro seg hseg
    by_cases h : rest = []
    · rw [h, segments_nil] at hseg
      cases hseg
    · have hcut := cut_bounds h
      rw [segments_cons h] at hseg
      rcases List.mem_cons.1 hseg with rfl | hseg
      · rw [List.length_take]
        omega
      · exact ih _ (by rw [List.length_drop]; omega) rfl seg hseg

/-- The chunks after the first ones are those of the bytes after them. -/
lemma segments_drop : ∀ (k : Nat) (rest : List UInt8), (segments rest).drop k
    = segments (rest.drop (((segments rest).map List.length).take k).sum) := by
  intro k
  induction k with
  | zero => intro rest; rfl
  | succ k ih =>
    intro rest
    by_cases h : rest = []
    · rw [h, segments_nil]
      rfl
    · have hcut := cut_bounds h
      have hlen : (rest.take (cut rest)).length = cut rest := by
        rw [List.length_take]
        omega
      rw [segments_cons h, List.drop_succ_cons, ih, List.map_cons, List.take_succ_cons, List.sum_cons,
        List.drop_drop, hlen]

/-- When no read fails the sizes are those of the chunks. -/
lemma chunk_sizes_eq (hf : f.NoFail) (call : Nat → Nat) : ∀ {fuel pos}, f.i_size - pos < fuel →
    chunk_sizes f call fuel pos = some ((segments (f.bytes.drop pos)).map List.length) := by
  intro fuel
  induction fuel with
  | zero => intro pos h; omega
  | succ fuel ih =>
    intro pos hfuel
    have hlen : (f.bytes.drop pos).length = f.i_size - pos := List.length_drop
    simp only [chunk_sizes]
    by_cases hlt : pos < f.i_size
    · have hrest : f.bytes.drop pos ≠ [] := by
        intro h
        rw [h, List.length_nil] at hlen
        omega
      have hcut := cut_bounds hrest
      have htake : ((f.bytes.drop pos).take (cut (f.bytes.drop pos))).length
          = cut (f.bytes.drop pos) := by
        rw [List.length_take]
        omega
      rw [if_pos hlt, cdc_get_chunk_size_eq hf, ih (by omega), segments_cons hrest, List.map_cons,
        List.drop_drop, htake]
      rfl
    · have hrest : f.bytes.drop pos = [] := List.length_eq_zero_iff.1 (by omega)
      rw [if_neg hlt, hrest, segments_nil]
      rfl

lemma CutAtTail.sizes_eq {sizes : List Nat} {i : Nat} {tail : List UInt8}
    (h : CutAtTail f sizes i tail) (hf : f.NoFail) : sizes = (segments f.bytes).map List.length := by
  obtain ⟨calls, hcalls⟩ := h.cut
  rw [chunk_sizes_eq hf calls (by omega)] at hcalls
  exact (Option.some.inj hcalls).symm

/-- The chunks from the cut on are those of the tail. -/
lemma CutAtTail.segments {sizes : List Nat} {i : Nat} {tail : List UInt8}
    (h : CutAtTail f sizes i tail) (hf : f.NoFail) :
    (CominixFs.segments f.bytes).drop i = CominixFs.segments tail := by
  rw [segments_drop, ← h.sizes_eq hf, h.tail_eq]

lemma sum_take_lt {l : List Nat} (hpos : ∀ x ∈ l, 0 < x) {n j : Nat} (hn : n < l.length)
    (hj : n < j) : (l.take n).sum < (l.take j).sum := by
  have hx := hpos _ (List.getElem_mem hn)
  rw [show j = n + (j - n - 1 + 1) by omega, List.take_add, List.sum_append,
    List.drop_eq_getElem_cons hn, List.take_succ_cons, List.sum_cons]
  omega

/-! ## The loop -/

/-- How far the loop has come. -/
lemma LoopInv.place {init : List Nat} {segs : List (List UInt8)}
    (inv : LoopInv md5 f v cs s init cs' segs) (hf : f.NoFail) :
    segs.length = s.log.length ∧ segs = (segments f.bytes).take s.log.length ∧
      segments (f.bytes.drop s.f_pos) = (segments f.bytes).drop s.log.length ∧
      s.f_pos = (((segments f.bytes).map List.length).take s.log.length).sum := by
  have hlen : segs.length = s.log.length := by
    have := inv.data.entries.length_eq
    rw [List.length_map] at this
    exact this.symm
  have hcuts := inv.cuts hf
  have htake : segs = (segments f.bytes).take s.log.length := by
    rw [← hcuts, ← hlen, List.take_left]
  refine ⟨hlen, htake, ?_, ?_⟩
  · rw [← hcuts, ← hlen, List.drop_left]
  · have hflat := congrArg List.length inv.data.flatten
    have hle := inv.data.le
    unfold Filp.i_size at hle
    rw [List.length_flatten, List.length_take, Nat.min_eq_left hle] at hflat
    rw [← List.map_take, ← htake, hflat]

/-- The entry of a chunk that is stored, and where the chunk is found from then on. -/
lemma Held.entry {entries : List ChunkEntry} {segs : List (List UInt8)} {k : Nat}
    (held : Held md5 v cs) (hsub : cs₀ <:+ cs) (h : List.Forall₂ (Entry md5 cs₀) entries segs)
    {seg : List UInt8} (hseg : segs[k]? = some seg) :
    ∃ e, entries[k]? = some e ∧ e.size = seg.length ∧ e.location ≠ 0 ∧
      lookup (md5 seg).toNat cs = e.location := by
  obtain ⟨hk, hsegk⟩ := List.getElem?_eq_some_iff.1 hseg
  have hk' : k < entries.length := by
    rw [h.length_eq]
    exact hk
  have hentry := List.Forall₂.get h hk' hk
  rw [List.get_eq_getElem, List.get_eq_getElem, hsegk] at hentry
  obtain ⟨c, hc, hloc, hhash⟩ := hentry.chunk
  have h0 : entries[k].location ≠ 0 := by
    rw [← hloc]
    exact (held.heap.place held.ok.lay c (hsub.subset hc)).1.ne'
  refine ⟨entries[k], List.getElem?_eq_getElem hk', hentry.size, h0, ?_⟩
  rw [← hhash, lookup_eq_of_mem held.heap.nodup (hsub.subset hc), hloc]

/-- The same segments have the same entries, whatever is stored in between. -/
lemma Held.entries_eq (held : Held md5 v cs) (hsub : cs₀ <:+ cs) :
    ∀ {entries entries' : List ChunkEntry} {segs : List (List UInt8)},
      List.Forall₂ (Entry md5 cs₀) entries segs → List.Forall₂ (Entry md5 cs) entries' segs →
        entries' = entries := by
  intro entries entries' segs h
  induction h generalizing entries' with
  | nil =>
    intro h'
    cases h'
    rfl
  | @cons e seg entries segs he _ ih =>
    intro h'
    cases h' with
    | @cons e' _ _ _ he' htail =>
      have hloc : e'.location = e.location :=
        (he'.lookup held.heap.nodup).symm.trans ((he.mono hsub.subset).lookup held.heap.nodup)
      have hsize : e'.size = e.size := he'.size.trans he.size.symm
      have heq : e' = e := by
        cases e
        cases e'
        cases hloc
        cases hsize
        rfl
      rw [heq, ih htail]

/-- The next chunk of a state inside the tail. -/
lemma LoopInv.next {init : List Nat} {segs : List (List UInt8)} {j : Nat}
    (inv : LoopInv md5 f v cs s init cs' segs) (hf : f.NoFail) (hlt : s.f_pos < f.i_size)
    (hj : j ≤ s.log.length) : ((segments f.bytes).drop j)[s.log.length - j]?
      = some ((f.bytes.drop s.f_pos).take (cut (f.bytes.drop s.f_pos))) := by
  have hrest : f.bytes.drop s.f_pos ≠ [] := by
    intro h
    have hlen := congrArg List.length h
    rw [List.length_drop, List.length_nil] at hlen
    unfold Filp.i_size at hlt
    omega
  have hdrop := (inv.place hf).2.2.1
  rw [segments_cons hrest] at hdrop
  rw [List.getElem?_drop, show j + (s.log.length - j) = s.log.length + 0 by omega,
    ← List.getElem?_drop, ← hdrop]
  rfl

/-- Inside the tail the next chunk is found, and a turn only appends its entry. -/
lemma InLoop.in_tail {entries : List ChunkEntry} {j : Nat} (held : Held md5 v cs) (hf : f.NoFail)
    (hsub : cs₀ <:+ cs) (hstored : List.Forall₂ (Entry md5 cs₀) entries ((segments f.bytes).drop j))
    (h : InLoop f md5 v head s) (hlt : s.f_pos < f.i_size) (hj : j ≤ s.log.length) :
    (∃ e, entries[s.log.length - j]? = some e ∧
      (cdc_get_chunk_size f s.call s.f_pos).1 = e.size ∧
      search_or_fill s.vol (md5 ((f.bytes.drop s.f_pos).take e.size))
        ((f.bytes.drop s.f_pos).take e.size) = some (s.vol, e.location, false)) ∧
    ∀ s', chunk_turn f md5 s = some (true, s') →
      s'.vol.sbi.heap_brk = s.vol.sbi.heap_brk ∧ ∃ e, s'.log = s.log ++ [(e, false)] := by
  obtain ⟨init, cs', segs, inv, -⟩ := h.inv held
  have helds : Held md5 s.vol cs' := ⟨inv.list.ok, inv.data.heap, inv.data.hash⟩
  obtain ⟨e, he, hsize, h0, hlook⟩ := helds.entry (hsub.trans inv.old) hstored (inv.next hf hlt hj)
  have hcut : e.size = cut (f.bytes.drop s.f_pos) := by
    have hle : cut (f.bytes.drop s.f_pos) ≤ (f.bytes.drop s.f_pos).length := by
      rw [← cdc_get_chunk_size_eq hf s.call, List.length_drop]
      have := (cdc_get_chunk_size_bounds s.call hlt).2.2
      unfold Filp.i_size at this
      omega
    rw [hsize, List.length_take, Nat.min_eq_left hle]
  rw [← hcut] at hlook
  have hsearch := helds.search h0 hlook
  refine ⟨⟨e, he, by rw [cdc_get_chunk_size_eq hf, hcut], hsearch⟩, fun s' ht => ?_⟩
  rcases chunk_turn_inv hlt ht with ⟨hfalse, -⟩ | ⟨-, seg, loc, filled, v₁, t⟩
  · cases hfalse
  obtain ⟨init', news, cs'', -, -, hfill⟩ := inv.turn held.ok hlt t
  have hseg : seg = (f.bytes.drop s.f_pos).take e.size := by
    conv_lhs => rw [t.bytes]
    rw [t.size, cdc_get_chunk_size_eq hf, hcut]
  rcases hfill with ⟨rfl, -, hbrk, -⟩ | ⟨-, -, hnew, -⟩
  · exact ⟨hbrk, _, t.log⟩
  · -- a new chunk would have a hash that is not stored
    rw [← hseg, lookup_eq_zero hnew] at hlook
    exact absurd hlook.symm h0

/-- From chunk `j` on everything is found, and the break stays where it was. -/
lemma InLoop.past {entries : List ChunkEntry} {j : Nat} (held : Held md5 v cs) (hf : f.NoFail)
    (hsub : cs₀ <:+ cs) (hstored : List.Forall₂ (Entry md5 cs₀) entries ((segments f.bytes).drop j))
    (h : InLoop f md5 v head s) : s.log.length ≤ j ∨ (∀ p ∈ s.log.drop j, p.2 = false) ∧
      ∃ s₁, InLoop f md5 v head s₁ ∧ s₁.log.length = j ∧
        s.vol.sbi.heap_brk = s₁.vol.sbi.heap_brk := by
  induction h with
  | start _ _ => exact .inl (Nat.zero_le _)
  | @turn s s' hs hlt ht ih =>
    by_cases hj : j ≤ s.log.length
    · right
      obtain ⟨hbrk, e, hlog⟩ := (hs.in_tail held hf hsub hstored hlt hj).2 s' ht
      have hbefore : (∀ p ∈ s.log.drop j, p.2 = false) ∧ ∃ s₁, InLoop f md5 v head s₁ ∧
          s₁.log.length = j ∧ s.vol.sbi.heap_brk = s₁.vol.sbi.heap_brk := by
        rcases ih with hle | hpast
        · have heq : s.log.length = j := Nat.le_antisymm hle hj
          refine ⟨?_, s, hs, heq, rfl⟩
          rw [List.drop_eq_nil_of_le hle]
          exact List.forall_mem_nil _
        · exact hpast
      obtain ⟨hflags, s₁, hs₁, hlen, hbrk₁⟩ := hbefore
      refine ⟨?_, s₁, hs₁, hlen, hbrk.trans hbrk₁⟩
      rw [hlog, List.drop_append_of_le_length hj, List.forall_mem_append]
      exact ⟨hflags, by simp⟩
    · left
      obtain ⟨-, seg, loc, filled, v₁, t⟩ := (chunk_turn_inv hlt ht).resolve_left
        fun ⟨h, _⟩ => Bool.noConfusion h
      rw [t.log, List.length_append, List.length_singleton]
      omega

/-- Before the first chunk the break is where it was. -/
lemma InLoop.brk_start (ok : VolOk v) (h : InLoop f md5 v head s) (hlog : s.log.length = 0) :
    s.vol.sbi.heap_brk = v.sbi.heap_brk := by
  cases h with
  | @start v₁ v₂ ha hz =>
    have hsbi₁ : v₁.sbi = v.sbi := by
      rcases ll_alloc_new_block_spec ok.zmap with ⟨hnone, -⟩ | ⟨v', new, hnew, -, -, -, hsbi, -⟩
      · rw [ha] at hnone
        cases hnone
      · rw [ha] at hnew
        cases hnew
        exact hsbi
    unfold zero_out_block at hz
    split at hz
    · cases hz
      rw [← hsbi₁]
    · cases hz
  | turn hs hlt ht =>
    obtain ⟨-, seg, loc, filled, v₁, t⟩ := (chunk_turn_inv hlt ht).resolve_left
      fun ⟨h, _⟩ => Bool.noConfusion h
    rw [t.log, List.length_append, List.length_singleton] at hlog
    omega

/-- Where the position is past the start of the tail, so are the chunks. -/
lemma LoopInv.past_iff {init : List Nat} {segs : List (List UInt8)} {j : Nat}
    (inv : LoopInv md5 f v cs s init cs' segs) (hf : f.NoFail) (hlt : s.f_pos < f.i_size)
    (hpos : (((segments f.bytes).map List.length).take j).sum ≤ s.f_pos) : j ≤ s.log.length := by
  obtain ⟨-, -, hdrop, hplace⟩ := inv.place hf
  by_contra hj
  have hn : s.log.length < ((segments f.bytes).map List.length).length := by
    by_contra hn
    rw [List.length_map] at hn
    rw [List.drop_eq_nil_of_le (Nat.not_lt.1 hn)] at hdrop
    have hrest : f.bytes.drop s.f_pos ≠ [] := by
      intro h
      have hlen := congrArg List.length h
      rw [List.length_drop, List.length_nil] at hlen
      unfold Filp.i_size at hlt
      omega
    rw [segments_cons hrest] at hdrop
    cases hdrop
  have hpieces : ∀ x ∈ (segments f.bytes).map List.length, 0 < x := by
    rw [List.forall_mem_map]
    exact segments_pos
  have := sum_take_lt hpieces hn (Nat.not_le.1 hj)
  omega

/-- A file that was chunked has the entries of its chunks for a list. -/
lemma Held.stored_list {s s' : FileState} (held : Held md5 s.vol cs) (ready : FileReady s.vol s.inode)
    (hreg : s.inode.i_mode = .reg) {ok : Bool} {c : ChunkLoop}
    (hfile : chunk_file f md5 s.vol = some (head, ok, c))
    (h : CominixFs.chunk_and_replace f md5 s = some (0, s')) :
    ok = true ∧ ∃ blocks, Listed s'.vol s'.inode blocks (c.log.map Prod.fst) := by
  obtain ⟨head', ok', c', hfile', hcase⟩ := chunk_and_replace_inv h
  rw [hfile] at hfile'
  cases hfile'
  obtain ⟨hok, -, hr⟩ := hcase.resolve_left fun h => by cases h.2.1
  obtain ⟨init, cs', segs, inv, hhead⟩ := (InLoop.of_chunk_file hfile).1.inv held
  exact ⟨hok, _, (inv.list.replace held.ok ready hreg hhead hr).listed⟩

/-- A tail that is stored is found when a file with this tail is chunked. -/
lemma Held.tail_found {entries : List ChunkEntry} {sizes : List Nat} {j : Nat} {tail : List UInt8}
    (held : Held md5 v cs) (hf : f.NoFail) (hsub : cs₀ <:+ cs)
    (hstored : List.Forall₂ (Entry md5 cs₀) entries (segments tail))
    (hcut : CutAtTail f sizes j tail) : TailFound f md5 v j (sizes.take j).sum entries := by
  have hsizes := hcut.sizes_eq hf
  rw [← hcut.segments hf] at hstored
  have hlog : ∀ head s, chunk_file f md5 v = some (head, true, s) →
      s.log.drop j = entries.map fun e => (e, false) := by
    intro head s hfile
    obtain ⟨hs, hend⟩ := InLoop.of_chunk_file hfile
    obtain ⟨init, cs', segs, inv, -⟩ := hs.inv held
    have helds : Held md5 s.vol cs' := ⟨inv.list.ok, inv.data.heap, inv.data.hash⟩
    have hentries : (s.log.drop j).map Prod.fst = entries := by
      apply helds.entries_eq (hsub.trans inv.old) hstored
      rw [List.map_drop]
      rw [← (inv.finished hf (hend rfl)).1]
      exact List.forall₂_drop j inv.data.entries
    have hflags : ∀ p ∈ s.log.drop j, p.2 = false := by
      rcases hs.past held hf hsub hstored with hle | ⟨hflags, -⟩
      · rw [List.drop_eq_nil_of_le hle]
        exact List.forall_mem_nil _
      · exact hflags
    rw [← hentries, List.map_map]
    conv_lhs => rw [← List.map_id (s.log.drop j)]
    apply List.map_congr_left
    intro p hp
    exact Prod.ext rfl (hflags p hp)
  refine ⟨fun head s hs hpos hlt => ?_, hlog, fun head s hfile => ?_,
    fun s s' hv ready hreg hrun => ?_⟩
  · obtain ⟨init, cs', segs, inv, -⟩ := hs.inv held
    have hj := inv.past_iff (j := j) hf hlt (hsizes ▸ hpos)
    exact (hs.in_tail held hf hsub hstored hlt hj).1
  · obtain ⟨hs, hpos⟩ := InLoop.of_chunk_file hfile
    rcases hs.past held hf hsub hstored with hle | ⟨-, s₁, hs₁, hlen, hbrk⟩
    · -- the tail is empty
      obtain ⟨init, cs', segs, inv, -⟩ := hs.inv held
      have hlen : sizes.length = s.log.length := by
        rw [hsizes, List.length_map, (inv.finished hf (hpos rfl)).2]
      refine ⟨s, hs, ?_, rfl⟩
      rw [(inv.place hf).2.2.2, ← hsizes, List.take_of_length_le hlen.le,
        List.take_of_length_le (hlen.le.trans hle)]
    · obtain ⟨init, cs', segs, inv, -⟩ := hs₁.inv held
      refine ⟨s₁, hs₁, ?_, hbrk⟩
      rw [(inv.place hf).2.2.2, hlen, hsizes]
  · subst hv
    obtain ⟨head, ok, c, hfile, -⟩ := chunk_and_replace_inv hrun
    obtain ⟨rfl, blocks, hl⟩ := held.stored_list ready hreg hfile hrun
    refine ⟨blocks, _, hl, ?_⟩
    rw [← List.map_drop, hlog head c hfile, List.map_map]
    exact List.map_id entries

/-- Files with a common tail that is cut off both of them by a cut are cut there alike, and once the
one is chunked, whatever is chunked after it, chunking the other stores nothing of the tail again: the
stored lists of both have the same entries for it. -/
theorem shared_tail_stored_once {x y : Filp} (hx : x.NoFail) (hy : y.NoFail) {xs ys : List Nat}
    {i j : Nat} {tail : List UInt8} (hxs : CutAtTail x xs i tail) (hys : CutAtTail y ys j tail)
    {s s' t : FileState} (held : Held md5 s.vol cs) (ready : FileReady s.vol s.inode)
    {head : Nat} {c : ChunkLoop} (hfile : chunk_file x md5 s.vol = some (head, true, c))
    (hchunk : chunk_and_replace x md5 s = some (0, s')) {files : List Chunking}
    (run : Chunkings md5 s'.vol files t.vol) (ready' : FileReady t.vol t.inode) :
    xs.drop i = ys.drop j ∧ (c.log.map fun p => p.1.size) = xs ∧
      (s.inode.i_mode = .reg → ∃ blocks, Listed s'.vol s'.inode blocks (c.log.map Prod.fst)) ∧
      TailFound y md5 t.vol j (ys.take j).sum ((c.log.drop i).map Prod.fst) ∧
      ∀ ret t', j = 0 → chunk_and_replace y md5 t = some (ret, t') →
        t'.vol.sbi.heap_brk = t.vol.sbi.heap_brk := by
  obtain ⟨hs, hend⟩ := InLoop.of_chunk_file hfile
  obtain ⟨init, cs₁, segs, inv, -⟩ := hs.inv held
  obtain ⟨hsegs, -⟩ := inv.finished hx (hend rfl)
  have hentries := inv.data.entries
  rw [hsegs] at hentries
  -- what was chunked is stored in every later state
  have held' : Held md5 s'.vol cs₁ := by
    obtain ⟨head', ok, c', hfile', hcase⟩ := chunk_and_replace_inv hchunk
    rw [hfile] at hfile'
    cases hfile'
    obtain ⟨-, -, hr⟩ := hcase.resolve_left fun h => by cases h.1
    have heldc : Held md5 c.vol cs₁ := ⟨inv.list.ok, inv.data.heap, inv.data.hash⟩
    exact (heldc.replace (inv.list.grown.ready held.ok ready) hr).1
  obtain ⟨cs₂, heldt, hsub⟩ := held'.chunkings run
  have hstored : List.Forall₂ (Entry md5 cs₁) ((c.log.drop i).map Prod.fst) (segments tail) := by
    rw [← hxs.segments hx, List.map_drop]
    exact List.forall₂_drop i hentries
  have hfound := heldt.tail_found hy hsub hstored hys
  refine ⟨?_, ?_, fun hreg => (held.stored_list ready hreg hfile hchunk).2, hfound,
    fun ret t' hj hrun => ?_⟩
  · rw [hxs.sizes_eq hx, hys.sizes_eq hy, ← List.map_drop, ← List.map_drop, hxs.segments hx,
      hys.segments hy]
  · rw [hxs.sizes_eq hx]
    have hsizes : ∀ {entries : List ChunkEntry} {segs : List (List UInt8)},
        List.Forall₂ (Entry md5 cs₁) entries segs →
          entries.map ChunkEntry.size = segs.map List.length := by
      intro entries segs h
      induction h with
      | nil => rfl
      | cons he _ ih => rw [List.map_cons, List.map_cons, he.size, ih]
    rw [← hsizes hentries, List.map_map]
    rfl
  · subst hj
    rw [← hys.segments hy] at hstored
    obtain ⟨head', ok, c', -, hfile', -, -, hsbi⟩ := heldt.chunk_and_replace ready' hrun
    obtain ⟨hs', -⟩ := InLoop.of_chunk_file hfile'
    rw [hsbi]
    rcases hs'.past heldt hy hsub hstored with hle | ⟨-, s₁, hs₁, hlen, hbrk⟩
    · exact hs'.brk_start heldt.ok (Nat.le_zero.1 hle)
    · exact hbrk.trans (hs₁.brk_start heldt.ok hlen)

/-- A file of two chunks, and the same behind a chunk of other bytes. -/
def two_chunks : Filp := ⟨189 :: (List.replicate 2047 0 ++ [31, 189]), fun _ => some 65536⟩

def three_chunks : Filp := ⟨List.replicate 2048 0 ++ 31 :: two_chunks.bytes, fun _ => some 65536⟩

/-- A hash that tells their chunks apart. -/
def sum_hash (seg : List UInt8) : UInt64 := seg.foldl (fun h b => h * 31 + b.toUInt64) 7

/-- Another file that is chunked in between. -/
def byte_chunking (itable : Itable) : Chunking := ⟨⟨[9], fun _ => some 1⟩, itable, 3, file_in 6⟩

/-- What a chunking that returns 0 leaves. -/
def chunked (f : Filp) (md5 : List UInt8 → UInt64) (s : FileState) : Option FileState :=
  (chunk_and_replace f md5 s).bind fun r => if r.1 = 0 then some r.2 else none

lemma chunked_eq {s t : FileState} (h : chunked f md5 s = some t) :
    chunk_and_replace f md5 s = some (0, t) := by
  obtain ⟨⟨ret, t'⟩, hrun, hr⟩ := Option.bind_eq_some_iff.1 h
  dsimp only at hr
  split at hr
  · rename_i h0
    rw [hrun, h0, Option.some.inj hr]
  · cases hr

/-- The fields that say where a file can be chunked. -/
def ready_fields (v : Vol) : List Nat :=
  [v.dev.s_blocksize_bits, v.sbi.s_maxbytes, v.sbi.s_firstdatazone, v.sbi.s_nzones,
    v.sbi.extra_sb_location]

/-- The three chunkings, one after the other. -/
lemma three_chunkings : ∃ s v t,
    chunk_and_replace two_chunks sum_hash ⟨vol64K_copies, file64K.itable, 2, file_in 4⟩
      = some (0, s) ∧
    chunking_step sum_hash s.vol (byte_chunking s.itable) = some v ∧
    chunk_and_replace three_chunks sum_hash ⟨v, s.itable, 4, file_in 0⟩ = some (0, t) ∧
    ready_fields s.vol = [10, 2147483647, 4, 8, 7] ∧ zbit s.vol 6 = true ∧
    ready_fields v = [10, 2147483647, 4, 8, 7] := by
  have h : (((chunked two_chunks sum_hash ⟨vol64K_copies, file64K.itable, 2, file_in 4⟩).bind fun s =>
      (chunking_step sum_hash s.vol (byte_chunking s.itable)).bind fun v =>
        (chunked three_chunks sum_hash ⟨v, s.itable, 4, file_in 0⟩).map fun t => (s, v, t)).map
          fun r => (ready_fields r.1.vol, zbit r.1.vol 6, ready_fields r.2.1))
      = some ([10, 2147483647, 4, 8, 7], true, [10, 2147483647, 4, 8, 7]) := by
    decide +kernel
  simp only [Option.map_eq_some_iff, Option.bind_eq_some_iff, Prod.mk.injEq] at h
  obtain ⟨r, ⟨s, hs, v, hv, t, ht, rfl⟩, hfields, hbit, hfields'⟩ := h
  exact ⟨s, v, t, chunked_eq hs, hv, chunked_eq ht, hfields, hbit, hfields'⟩

lemma two_chunks_noFail : two_chunks.NoFail := fun _ => Option.some_ne_none 65536

lemma three_chunks_noFail : three_chunks.NoFail := fun _ => Option.some_ne_none 65536

lemma two_chunks_cut : CutAtTail two_chunks [2049, 1] 0 two_chunks.bytes := by
  refine ⟨⟨fun _ => 0, ?_⟩, rfl⟩
  rw [chunk_sizes_eq two_chunks_noFail _ (by omega)]
  decide +kernel

lemma three_chunks_cut : CutAtTail three_chunks [2049, 2049, 1] 1 two_chunks.bytes := by
  refine ⟨⟨fun _ => 0, ?_⟩, by decide +kernel⟩
  rw [chunk_sizes_eq three_chunks_noFail _ (by omega)]
  decide +kernel

/-- The second file takes over the entries of both chunks of the first one. -/
theorem shared_tail_stored_once_moved : ∃ s' v t',
    chunk_and_replace two_chunks sum_hash ⟨vol64K_copies, file64K.itable, 2, file_in 4⟩
      = some (0, s') ∧
    chunking_step sum_hash s'.vol (byte_chunking s'.itable) = some v ∧
    chunk_and_replace three_chunks sum_hash ⟨v, s'.itable, 4, file_in 0⟩ = some (0, t') ∧
    ∃ blocks es blocks' es', Listed s'.vol s'.inode blocks es ∧ es.map ChunkEntry.size = [2049, 1] ∧
      Listed t'.vol t'.inode blocks' es' ∧ es'.drop 1 = es := by
  obtain ⟨s', v, t', hs, hv, ht, hfields, hbit, hfields'⟩ := three_chunkings
  simp only [ready_fields, List.cons.injEq] at hfields hfields'
  obtain ⟨hbits, hmax, hfirst, hnz, hesb, -⟩ := hfields
  obtain ⟨hbits', hmax', -, -, hesb', -⟩ := hfields'
  have hready : FileReady vol64K_copies (file_in 4) :=
    file_in_ready rfl rfl (.inr ⟨⟨by decide, by decide⟩, by decide⟩) (by decide)
  have hready₁ : FileReady s'.vol (file_in 6) :=
    file_in_ready hbits hmax (.inr ⟨⟨by rw [hfirst]; decide, by rw [hnz]; decide⟩, hbit⟩)
      (by rw [hesb]; decide)
  have hready' : FileReady v (file_in 0) :=
    file_in_ready hbits' hmax' (.inl rfl) (by rw [hesb']; decide)
  obtain ⟨head, ok, c, hfile, hend⟩ := chunk_and_replace_inv hs
  obtain ⟨rfl, -⟩ := hend.resolve_left fun h => by cases h.2.1
  have run : Chunkings sum_hash s'.vol [byte_chunking s'.itable] v := .cons hready₁ hv (.nil v)
  obtain ⟨-, hsizes, hlist, hfound, -⟩ := shared_tail_stored_once (t := ⟨v, s'.itable, 4, file_in 0⟩)
    two_chunks_noFail three_chunks_noFail two_chunks_cut three_chunks_cut vol64K_copies_held hready
    hfile hs run hready'
  obtain ⟨blocks, hl⟩ := hlist rfl
  obtain ⟨blocks', es', hl', hdrop⟩ := hfound.stored _ t' rfl hready' rfl ht
  refine ⟨s', v, t', hs, hv, ht, blocks, _, blocks', es', hl, ?_, hl', hdrop⟩
  rw [List.map_map]
  exact hsizes

end CominixFs
