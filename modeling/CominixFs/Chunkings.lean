import CominixFs.CdcLocal
import CominixFs.Owners

/-!
# Files chunked one after the other

Every state of the chunk loop (`InLoop`) holds the chunks stored before it and those stored since
(`InLoop.inv`), and so does the volume a chunking leaves (`chunk_and_replace_held`). What was stored
once is found ever after (`Held.lookup_later`).
-/

namespace CominixFs
open Bytes

/-- A mounted volume whose heap holds these chunks, each under the hash of its data. -/
structure Held (md5 : List UInt8 → UInt64) (v : Vol) (cs : List Stored) : Prop where
  ok : VolOk v
  heap : HeapInv v cs
  hash : ∀ c ∈ cs, c.hash = (md5 c.data).toNat

/-- The blocks of a file that is going to be chunked are in order. -/
structure FileReady (v : Vol) (inode : Inode) : Prop where
  tree : TreeOk v inode.i_data
  size : SizeOk v
  esb : ¬ TreeZone v inode.i_data v.sbi.extra_sb_location

/-- The states of the chunk loop, from the zeroed list head on. -/
inductive InLoop (f : Filp) (md5 : List UInt8 → UInt64) (v : Vol) (head : Nat) : ChunkLoop → Prop where
  | start {v₁ v₂} :
    ll_alloc_new_block v = some (v₁, head) →
    zero_out_block v₁ head = some v₂ →
    InLoop f md5 v head ⟨v₂, head, 0, 0, 0, []⟩
  | turn {s s'} :
    InLoop f md5 v head s →
    s.f_pos < f.i_size →
    chunk_turn f md5 s = some (true, s') →
    InLoop f md5 v head s'

/-- What holds in every state of the chunk loop: the list, the chunks stored so far, and the file cut
as the cutter cuts it when no read fails. -/
structure LoopInv (md5 : List UInt8 → UInt64) (f : Filp) (v : Vol) (cs : List Stored) (s : ChunkLoop)
    (init : List Nat) (cs' : List Stored) (segs : List (List UInt8)) : Prop where
  list : ListLoop v s init
  data : DataLoop md5 f s cs' segs
  old : cs <:+ cs'
  new : ∀ c ∈ cs', c ∈ cs ∨ c.data ∈ segs
  cuts : f.NoFail → segs ++ segments (f.bytes.drop s.f_pos) = segments f.bytes

variable {md5 : List UInt8 → UInt64} {f : Filp} {v v' : Vol} {inode : Inode} {cs cs' : List Stored}
  {head : Nat} {s s' : ChunkLoop}

/-- The location in an entry is the one its segment is found at. -/
lemma Entry.lookup {e : ChunkEntry} {seg : List UInt8} (h : Entry md5 cs e seg)
    (nd : (cs.map Stored.hash).Nodup) : lookup (md5 seg).toNat cs = e.location := by
  obtain ⟨c, hc, hloc, hhash⟩ := h.chunk
  rw [← hhash, lookup_eq_of_mem nd hc, hloc]

/-- A chunk that is stored is found. -/
lemma Held.search (held : Held md5 v cs) {seg : List UInt8} {loc : Nat} (h0 : loc ≠ 0)
    (h : lookup (md5 seg).toNat cs = loc) :
    search_or_fill v (md5 seg) seg = some (v, loc, false) := by
  unfold search_or_fill
  rw [chunk_search_hashtable_eq held.ok.lay held.heap, h]
  dsimp only
  rw [if_pos h0]

/-- Blocks of the normal area may change, and which of them are in use. -/
lemma Held.low {S : Nat → Prop} (held : Held md5 v cs) (h : SameMount v v')
    (hbrk : v'.sbi.heap_brk = v.sbi.heap_brk) (ok : VolOk v') (hlow : ∀ b, S b → Low v b)
    (hmem : ∀ b, ¬ S b → v'.dev.bh.mem b = v.dev.bh.mem b) : Held md5 v' cs :=
  ⟨ok, held.heap.low held.ok.lay h hbrk hlow hmem, held.hash⟩

/-! ## The loop -/

/-- The zeroed head leaves the heap alone. -/
lemma Held.start {v₁ v₂ : Vol} (held : Held md5 v cs) (ha : ll_alloc_new_block v = some (v₁, head))
    (hz : zero_out_block v₁ head = some v₂) :
    LoopInv md5 f v cs ⟨v₂, head, 0, 0, 0, []⟩ [] cs [] := by
  have hlist := ListLoop.start held.ok ha hz
  rcases ll_alloc_new_block_spec held.ok.zmap with ⟨hnone, -⟩ | ⟨v', new, hnew, -, -, hdev, hsbi, ht⟩
  · rw [ha] at hnone
    cases hnone
  rw [ha] at hnew
  obtain ⟨rfl, rfl⟩ := Prod.mk.inj (Option.some.inj hnew)
  have hlow : Low v head := held.ok.low (ht.free head (by simp)).1
  unfold zero_out_block at hz
  split at hz
  · obtain rfl := Option.some.inj hz
    have hheld := held.low (S := (· = head)) hlist.grown.toSameMount (by dsimp only; rw [hsbi])
      hlist.ok (fun b hb => hb ▸ hlow) fun b hb => by
        dsimp only
        rw [Dev.store_bh, Buffers.set_mem_of_ne _ _ hb, hdev]
    exact ⟨hlist, ⟨hheld.heap, hheld.hash, rfl, Nat.zero_le _, .nil⟩, List.suffix_refl _,
      fun _ hc => .inl hc, fun _ => rfl⟩
  · cases hz

/-- A turn keeps the invariant. -/
lemma LoopInv.turn {init : List Nat} {segs : List (List UInt8)} {seg : List UInt8} {loc : Nat}
    {filled : Bool} {v₁ : Vol} (ok : VolOk v) (inv : LoopInv md5 f v cs s init cs' segs)
    (hlt : s.f_pos < f.i_size) (t : Turn f md5 s s' seg loc filled v₁) :
    ∃ init' news cs'', init' ++ [s'.last] = init ++ [s.last] ++ news ∧
      LoopInv md5 f v cs s' init' cs'' (segs ++ [seg]) ∧
      (filled = false ∧ cs'' = cs' ∧ s'.vol.sbi.heap_brk = s.vol.sbi.heap_brk ∧
        lookup (md5 seg).toNat cs' = loc ∨
      filled = true ∧ cs'' = ⟨loc, (md5 seg).toNat, seg⟩ :: cs' ∧
        (∀ c ∈ cs', c.hash ≠ (md5 seg).toNat) ∧ s'.vol.sbi.heap_brk = loc + (24 + seg.length)) := by
  obtain ⟨init', news, hinit, hlist, -⟩ := inv.list.turn ok t
  obtain ⟨cs'', hdata, hfill⟩ := inv.data.turn ok inv.list t
  have hnew : ∀ c ∈ cs', c ∈ cs ∨ c.data ∈ segs ++ [seg] :=
    fun c hc => (inv.new c hc).imp_right (List.mem_append_left _)
  refine ⟨init', news, cs'', hinit, ⟨hlist, hdata, ?_, ?_, fun hf => ?_⟩, hfill⟩
  · rcases hfill with ⟨-, rfl, -⟩ | ⟨-, rfl, -⟩
    · exact inv.old
    · exact inv.old.trans (List.suffix_cons _ _)
  · rcases hfill with ⟨-, rfl, -⟩ | ⟨-, rfl, -⟩
    · exact hnew
    · exact List.forall_mem_cons.2 ⟨.inr (by simp), hnew⟩
  · have hrest : f.bytes.drop s.f_pos ≠ [] := by
      intro h
      have hlen := congrArg List.length h
      rw [List.length_drop, List.length_nil] at hlen
      unfold Filp.i_size at hlt
      omega
    have hseg : seg.length = cut (f.bytes.drop s.f_pos) := by
      rw [t.size, cdc_get_chunk_size_eq hf]
    have hnext : (f.bytes.drop s.f_pos).drop (cut (f.bytes.drop s.f_pos)) = f.bytes.drop s'.f_pos := by
      rw [List.drop_drop, t.f_pos, hseg]
    have hthis : (f.bytes.drop s.f_pos).take (cut (f.bytes.drop s.f_pos)) = seg := by
      rw [← hseg]
      exact t.bytes.symm
    rw [← inv.cuts hf, segments_cons hrest, hnext, hthis, List.append_assoc]
    rfl

/-- At the end of the file its chunks are those the cutter makes. -/
lemma LoopInv.finished {init : List Nat} {segs : List (List UInt8)}
    (inv : LoopInv md5 f v cs s init cs' segs) (hf : f.NoFail) (hend : s.f_pos = f.i_size) :
    segs = segments f.bytes ∧ s.log.length = (segments f.bytes).length := by
  have hcuts := inv.cuts hf
  have hlen := inv.data.entries.length_eq
  rw [hend, Filp.i_size, List.drop_length, segments_nil, List.append_nil] at hcuts
  rw [List.length_map] at hlen
  exact ⟨hcuts, by rw [hlen, hcuts]⟩

/-- Every state of the loop holds what was stored before it. -/
lemma InLoop.inv (held : Held md5 v cs) (h : InLoop f md5 v head s) :
    ∃ init cs' segs, LoopInv md5 f v cs s init cs' segs ∧ (init ++ [s.last]).head? = some head := by
  induction h with
  | start ha hz => exact ⟨[], cs, [], held.start ha hz, rfl⟩
  | turn _ hlt ht ih =>
    obtain ⟨init, cs', segs, inv, hhead⟩ := ih
    rcases chunk_turn_inv hlt ht with ⟨hfalse, -⟩ | ⟨-, seg, loc, filled, v₁, t⟩
    · cases hfalse
    · obtain ⟨init', news, cs'', hinit, inv', -⟩ := inv.turn held.ok hlt t
      refine ⟨init', cs'', _, inv', ?_⟩
      rw [hinit, List.head?_append, hhead]
      rfl

/-- The loop ends in one of its states, and at the end of the file when no read failed. -/
lemma InLoop.chunk_loop {fuel : Nat} {ok : Bool} (h : InLoop f md5 v head s)
    (hrun : chunk_loop f md5 fuel s = some (ok, s')) :
    InLoop f md5 v head s' ∧ (ok = true → s'.f_pos = f.i_size) := by
  induction fuel generalizing s with
  | zero => cases hrun
  | succ fuel ih =>
    simp only [CominixFs.chunk_loop] at hrun
    by_cases hlt : s.f_pos < f.i_size
    · rw [if_pos hlt] at hrun
      cases ht : chunk_turn f md5 s with
      | none =>
        simp only [ht] at hrun
        cases hrun
      | some r =>
        obtain ⟨ok₁, s₁⟩ := r
        simp only [ht] at hrun
        cases ok₁ with
        | true => exact ih (.turn h hlt ht) hrun
        | false =>
          obtain ⟨-, rfl⟩ := (chunk_turn_inv hlt ht).resolve_right fun h => Bool.noConfusion h.1
          cases hrun
          exact ⟨h, fun h => Bool.noConfusion h⟩
    · rw [if_neg hlt] at hrun
      by_cases heq : s.f_pos = f.i_size
      · rw [if_pos heq] at hrun
        cases hrun
        exact ⟨h, fun _ => heq⟩
      · rw [if_neg heq] at hrun
        cases hrun

/-- `chunk_file` ends in a state of its loop. -/
lemma InLoop.of_chunk_file {ok : Bool} (h : chunk_file f md5 v = some (head, ok, s)) :
    InLoop f md5 v head s ∧ (ok = true → s.f_pos = f.i_size) := by
  unfold chunk_file at h
  cases ha : ll_alloc_new_block v with
  | none =>
    simp only [ha] at h
    cases h
  | some p =>
    obtain ⟨v₁, head'⟩ := p
    simp only [ha] at h
    cases hz : zero_out_block v₁ head' with
    | none =>
      simp only [hz] at h
      cases h
    | some v₂ =>
      simp only [hz] at h
      cases hl : CominixFs.chunk_loop f md5 (f.i_size + 1) ⟨v₂, head', 0, 0, 0, []⟩ with
      | none =>
        simp only [hl] at h
        cases h
      | some r =>
        obtain ⟨ok', s'⟩ := r
        simp only [hl] at h
        cases h
        exact (InLoop.start ha hz).chunk_loop hl

/-! ## The end of a chunking -/

/-- Freeing what a file has leaves the heap alone. -/
lemma Held.treeStep {old new : Nat → Prop} (held : Held md5 v cs) (h : TreeStep v v' old new)
    (hold : ∀ x, old x → InArea v x) (hesb : ¬ old v.sbi.extra_sb_location) : Held md5 v' cs := by
  refine ⟨held.ok.step h.toZmapStep ?_ fun hin hset => ?_, h.heap held.ok hold held.heap, held.hash⟩
  · exact held.ok.lay.congr h.sbi_eq h.bits h.nblocks
  · exact (h.zbit _ hin).2 (.inl ⟨hset, hesb⟩)

/-- A file in order stays so while a list grows. -/
lemma ListGrown.ready {blocks : List Nat} (g : ListGrown v v' blocks) (ok : VolOk v)
    (ready : FileReady v inode) : FileReady v' inode := by
  obtain ⟨htree, hnode⟩ := g.tree ok ready.tree ready.esb
  have hmax : v'.sbi.s_maxbytes = v.sbi.s_maxbytes := by rw [g.sbi]
  refine ⟨htree, ⟨g.bits ▸ ready.size.bits, hmax ▸ ready.size.pos, hmax ▸ ready.size.maxbytes⟩, ?_⟩
  rw [treeZone_congr g.toSameMount hnode, g.esb]
  exact ready.esb

/-- A truncation does nothing, or truncates the tree. -/
lemma cominix_truncate_inv {inode' : Inode} (ok : VolOk v) (ready : FileReady v inode)
    (hsize : inode.i_size < 2 ^ 63) (h : cominix_truncate v inode = some (v', inode')) :
    v' = v ∧ inode' = inode ∨ Truncated v inode v' inode' := by
  have hrun : truncate v inode = some (v', inode') → Truncated v inode v' inode' := by
    intro hr
    obtain ⟨v₁, i₁, hrun, ht⟩ := truncate_spec ready.tree ok.area ready.size hsize
    rw [hr] at hrun
    cases hrun
    exact ht
  unfold cominix_truncate at h
  split at h
  · cases h
    exact .inl ⟨rfl, rfl⟩
  · cases hm : inode.i_mode with
    | reg =>
      rw [hm] at h
      exact .inr (hrun h)
    | dir =>
      rw [hm] at h
      exact .inr (hrun h)
    | lnk =>
      rw [hm] at h
      exact .inr (hrun h)
    | dev =>
      rw [hm] at h
      cases h
      exact .inl ⟨rfl, rfl⟩
    | other =>
      rw [hm] at h
      cases h
      exact .inl ⟨rfl, rfl⟩

/-- Everything a `replace` that returns has done. -/
lemma replace_inv {s s' : FileState} {head last ll_size : Nat}
    (h : replace s head last ll_size = some s') : ∃ inode,
      cominix_truncate s.vol { s.inode with i_size := 0 } = some (s'.vol, inode) ∧
      ll_size < 2 ^ 32 ∧ s'.inode = cominix_set_inode ((((switch_inode_to_chunked
        { inode with i_size := s.inode.i_size }).set_data 1 head).set_data 2 ll_size).set_data 3
          last) 0 := by
  unfold replace at h
  cases ht : cominix_truncate s.vol { s.inode with i_size := 0 } with
  | none =>
    simp only [ht] at h
    cases h
  | some r =>
    obtain ⟨vol, inode⟩ := r
    simp only [ht] at h
    by_cases hn : 2 ^ 32 ≤ ll_size
    · rw [if_pos hn] at h
      cases h
    · rw [if_neg hn] at h
      split at h
      · cases h
      · cases h
        exact ⟨inode, rfl, Nat.not_le.1 hn, rfl⟩

/-- `chunk_and_replace` chunks the file, and replaces its zones when no read failed. -/
lemma chunk_and_replace_inv {s s' : FileState} {ret : Int}
    (h : chunk_and_replace f md5 s = some (ret, s')) : ∃ head ok c,
      chunk_file f md5 s.vol = some (head, ok, c) ∧
      (ok = false ∧ ret = -1 ∧ s' = { s with vol := c.vol } ∨
       ok = true ∧ ret = 0 ∧ replace { s with vol := c.vol } head c.last c.ll_size = some s') := by
  unfold chunk_and_replace at h
  cases hf : chunk_file f md5 s.vol with
  | none =>
    simp only [hf] at h
    cases h
  | some r =>
    obtain ⟨head, ok, c⟩ := r
    refine ⟨head, ok, c, rfl, ?_⟩
    cases ok with
    | false =>
      simp only [hf] at h
      cases h
      exact .inl ⟨rfl, rfl, rfl⟩
    | true =>
      simp only [hf] at h
      cases hr : replace { s with vol := c.vol } head c.last c.ll_size with
      | none =>
        simp only [hr] at h
        cases h
      | some s₁ =>
        simp only [hr] at h
        cases h
        exact .inr ⟨rfl, rfl, rfl⟩

/-- Replacing the zones of a file leaves the heap and its break alone. -/
lemma Held.replace {s s' : FileState} {last ll_size : Nat} (held : Held md5 s.vol cs)
    (ready : FileReady s.vol s.inode) (h : replace s head last ll_size = some s') :
    Held md5 s'.vol cs ∧ s'.vol.sbi = s.vol.sbi := by
  obtain ⟨inode, ht, -, -⟩ := replace_inv h
  have ready₀ : FileReady s.vol { s.inode with i_size := 0 } := ⟨ready.tree, ready.size, ready.esb⟩
  rcases cominix_truncate_inv held.ok ready₀ (Nat.two_pow_pos 63) ht with ⟨hv, -⟩ | ht
  · rw [hv]
    exact ⟨held, rfl⟩
  · exact ⟨held.treeStep ht.step (fun x hx => (ready.tree.zone x hx).1) ready.esb, ht.step.sbi_eq⟩

/-- Whatever a chunking returns, the chunks stored before it are still there. -/
lemma Held.chunk_and_replace {s s' : FileState} {ret : Int} (held : Held md5 s.vol cs)
    (ready : FileReady s.vol s.inode) (h : chunk_and_replace f md5 s = some (ret, s')) :
    ∃ head ok c cs', chunk_file f md5 s.vol = some (head, ok, c) ∧ Held md5 s'.vol cs' ∧ cs <:+ cs' ∧
      s'.vol.sbi = c.vol.sbi := by
  obtain ⟨head, ok, c, hfile, hend⟩ := chunk_and_replace_inv h
  obtain ⟨hin, -⟩ := InLoop.of_chunk_file hfile
  obtain ⟨init, cs', segs, inv, -⟩ := hin.inv held
  have heldc : Held md5 c.vol cs' := ⟨inv.list.ok, inv.data.heap, inv.data.hash⟩
  refine ⟨head, ok, c, cs', hfile, ?_⟩
  rcases hend with ⟨-, -, rfl⟩ | ⟨-, -, hr⟩
  · exact ⟨heldc, inv.old, rfl⟩
  · obtain ⟨hheld, hsbi⟩ := heldc.replace (inv.list.grown.ready held.ok ready) hr
    exact ⟨hheld, inv.old, hsbi⟩

/-! ## Runs -/

/-- A file to be chunked, with what its reads return. -/
structure Chunking where
  f : Filp
  itable : Itable
  ino : Nat
  inode : Inode

/-- A chunking, whatever it returns. -/
def chunking_step (md5 : List UInt8 → UInt64) (v : Vol) (c : Chunking) : Option Vol :=
  (CominixFs.chunk_and_replace c.f md5 ⟨v, c.itable, c.ino, c.inode⟩).map fun r => r.2.vol

/-- Files whose blocks are in order are chunked one after the other. -/
def Chunkings (md5 : List UInt8 → UInt64) : Vol → List Chunking → Vol → Prop :=
  Run (chunking_step md5) fun v c => FileReady v c.inode

/-- What is stored stays stored. -/
lemma Held.chunkings {files : List Chunking} (held : Held md5 v cs) (run : Chunkings md5 v files v') :
    ∃ cs', Held md5 v' cs' ∧ cs <:+ cs' := by
  apply run.inv (P := fun v => ∃ cs', Held md5 v cs' ∧ cs <:+ cs') ?_ ⟨cs, held, List.suffix_refl _⟩
  rintro v c v' ready ⟨cs₁, held₁, hsub⟩ hstep
  obtain ⟨r, hr, rfl⟩ := Option.map_eq_some_iff.1 hstep
  obtain ⟨-, -, -, cs₂, -, held₂, hsub₂, -⟩ := held₁.chunk_and_replace ready hr
  exact ⟨cs₂, held₂, hsub.trans hsub₂⟩

/-- A file with one zone, or none. -/
def file_in (zone : Nat) : Inode := { file64K.inode with i_data := fun k => if k = 0 then zone else 0 }

/-- The small volume with two files of the same three bytes, in the zones 4 and 6. -/
def vol64K_copies : Vol := { vol64K_file with
  dev := vol64K_file.dev.store 6 (ofList [1, 2, 3])
  s_zmap := ⟨fun _ j => j = 0 ∨ j = 1 ∨ j = 3 ∨ j = 4, fun _ j => j = 0 ∨ j = 1 ∨ j = 3 ∨ j = 4,
    fun _ => false⟩ }

lemma vol64K_copies_held : Held md5 vol64K_copies [] := by
  refine ⟨⟨?_, ⟨by decide, by decide, by decide, by decide, by decide⟩, by decide, by decide,
    .inr ⟨⟨by decide, by decide⟩, by decide⟩⟩, ?_, by simp⟩
  · exact ⟨⟨⟨by decide, by decide, by decide, by decide, by decide, by decide, by decide, by decide⟩,
      by decide, by decide, by decide, by decide⟩, by decide, by decide, by decide⟩
  · refine ⟨.nil, by simp, by simp, by simp, by simp, by simp, by simp, by simp, trivial, ?_⟩
    have hwords : ∀ i < 2, le vol64K_copies.dev.flat (8192 + i * 8) 8 = 0 := by decide +kernel
    exact hwords

lemma file_in_ready {v : Vol} {zone : Nat} (hbits : v.dev.s_blocksize_bits = 10)
    (hmax : v.sbi.s_maxbytes = 2147483647) (harea : zone = 0 ∨ InArea v zone ∧ zbit v zone = true)
    (hesb : v.sbi.extra_sb_location ≠ zone) : FileReady v (file_in zone) := by
  have hzero : ∀ k < 10, k ≠ 0 → (file_in zone).i_data k = 0 := fun k _ hk => if_neg hk
  have htree : TreeOk v (file_in zone).i_data := by
    rcases harea with rfl | harea
    · exact .empty v fun k _ => ite_self 0
    · exact .one hzero harea
  refine ⟨htree, ⟨by rw [hbits]; decide, by rw [hmax]; decide, by rw [hmax]; decide⟩, ?_⟩
  rintro ⟨h0, p, n, hp, he⟩
  rw [(forest_one hzero p n hp (he ▸ h0)).1] at he
  exact hesb he.symm

end CominixFs
