import Mathlib.Data.List.Forall2
import CominixFs.Cdc
import CominixFs.Area
import CominixFs.LinkedList

/-!
# The chunk loop of `chunk_and_replace` (`file.c`)

Each turn cuts a chunk, reads it, searches the hashtable for its hash, fills it in when it is new
and appends an entry to the unrolled list. `none` is a `BUG()` or a turn that never ends; the flag
of a result is false when a read failed and `chunk_and_replace` returns -1.
-/

namespace CominixFs
open Bytes

/-- How the inner read loop ends. -/
inductive ReadEnd where
  | done (buf : List UInt8) (f_pos call : Nat)
  | failed
  | bug

/-- The `while (to_read > 0)`: every read asks for `chunk_size` bytes, whatever is left of `buf`, so
after a short read the next one can run over its end. -/
def read_loop (f : Filp) (chunk_size : Nat) : Nat → Nat → Nat → List UInt8 → ReadEnd
  | 0, _, _, _ => .bug
  | fuel + 1, call, f_pos, buf =>
    if chunk_size ≤ buf.length then .done buf f_pos call
    else
      match kernel_read f call f_pos chunk_size with
      | none => .failed
      | some read =>
        if chunk_size < buf.length + read.length then .bug
        else read_loop f chunk_size fuel (call + 1) (f_pos + read.length) (buf ++ read)

/-- The locals of the chunk loop. The log has the entries appended and whether each chunk was
filled in; the program does not keep it. -/
structure ChunkLoop where
  vol : Vol
  last : Nat
  ll_size : Nat
  f_pos : Nat
  call : Nat
  log : List (ChunkEntry × Bool)

/-- One turn of the chunk loop; `md5` is the first half of the digest. -/
def chunk_turn (f : Filp) (md5 : List UInt8 → UInt64) (s : ChunkLoop) : Option (Bool × ChunkLoop) :=
  let (chunk_size, call) := cdc_get_chunk_size f s.call s.f_pos
  if chunk_size = 0 then none
  else
    match read_loop f chunk_size (chunk_size + 1) call s.f_pos [] with
    | .bug => none
    | .failed => some (false, s)
    | .done buf f_pos call =>
      match search_or_fill s.vol (md5 buf) buf with
      | none => none
      | some (vol, location, filled) =>
        if location = 0 then none
        else
          match ll_append vol s.last s.ll_size ⟨location, chunk_size⟩ with
          | none => none
          | some (vol, last, ll_size) =>
            some (true, ⟨vol, last, ll_size, f_pos, call, s.log ++ [(⟨location, chunk_size⟩, filled)]⟩)

/-- The chunk loop. A turn advances `f_pos`, so `i_size` turns are enough. -/
def chunk_loop (f : Filp) (md5 : List UInt8 → UInt64) : Nat → ChunkLoop → Option (Bool × ChunkLoop)
  | 0, _ => none
  | fuel + 1, s =>
    if s.f_pos < f.i_size then
      match chunk_turn f md5 s with
      | none => none
      | some (false, s) => some (false, s)
      | some (true, s) => chunk_loop f md5 fuel s
    else if s.f_pos = f.i_size then some (true, s) else none

/-- The list head is allocated and zeroed, then the file is chunked. -/
def chunk_file (f : Filp) (md5 : List UInt8 → UInt64) (v : Vol) :
    Option (Nat × Bool × ChunkLoop) :=
  match ll_alloc_new_block v with
  | none => none
  | some (v, head) =>
    match zero_out_block v head with
    | none => none
    | some v =>
      match chunk_loop f md5 (f.i_size + 1) ⟨v, head, 0, 0, 0, []⟩ with
      | none => none
      | some (ok, s) => some (head, ok, s)

/-- A read loop that ends has read the bytes of the chunk. -/
lemma read_loop_done {f : Filp} {n : Nat} : ∀ {fuel call f_pos buf buf' f_pos' call'},
    buf.length ≤ n →
    read_loop f n fuel call f_pos buf = .done buf' f_pos' call' →
    ∃ read, buf' = buf ++ read ∧ read = (f.bytes.drop f_pos).take read.length ∧
      buf'.length = n ∧ f_pos' = f_pos + read.length := by
  intro fuel
  induction fuel with
  | zero => intro call f_pos buf buf' f_pos' call' _ h; cases h
  | succ fuel ih =>
    intro call f_pos buf buf' f_pos' call' hbuf h
    simp only [read_loop] at h
    by_cases hdone : n ≤ buf.length
    · rw [if_pos hdone] at h
      cases h
      exact ⟨[], by simp, by simp, by omega, by simp⟩
    · rw [if_neg hdone] at h
      cases hr : kernel_read f call f_pos n with
      | none => simp [hr] at h
      | some read =>
        rw [hr] at h
        dsimp only at h
        by_cases hover : n < buf.length + read.length
        · rw [if_pos hover] at h
          cases h
        · rw [if_neg hover] at h
          obtain ⟨more, h1, h2, h3, h4⟩ := ih (by rw [List.length_append]; omega) h
          have hread : read = (f.bytes.drop f_pos).take read.length := by
            unfold kernel_read at hr
            rw [Option.map_eq_some_iff] at hr
            obtain ⟨m, -, hm⟩ := hr
            conv_lhs => rw [← hm]
            rw [← hm, List.length_take]
            exact List.take_eq_take_iff.2 (by omega)
          refine ⟨read ++ more, by rw [h1, List.append_assoc], ?_, h3, by
            rw [h4, List.length_append, Nat.add_assoc]⟩
          rw [List.length_append, List.take_add, ← hread, List.drop_drop, ← h2]

/-- Everything a turn of the loop that goes on has done. -/
structure Turn (f : Filp) (md5 : List UInt8 → UInt64) (s s' : ChunkLoop) (seg : List UInt8)
    (loc : Nat) (filled : Bool) (v : Vol) : Prop where
  size : seg.length = (cdc_get_chunk_size f s.call s.f_pos).1
  bytes : seg = (f.bytes.drop s.f_pos).take seg.length
  f_pos : s'.f_pos = s.f_pos + seg.length
  pos : 0 < seg.length
  max : seg.length ≤ MaxSize
  le : s'.f_pos ≤ f.i_size
  search : search_or_fill s.vol (md5 seg) seg = some (v, loc, filled)
  loc_ne : loc ≠ 0
  append : ll_append v s.last s.ll_size ⟨loc, seg.length⟩ = some (s'.vol, s'.last, s'.ll_size)
  log : s'.log = s.log ++ [(⟨loc, seg.length⟩, filled)]

lemma chunk_turn_inv {f : Filp} {md5 : List UInt8 → UInt64} {s s' : ChunkLoop} {ok : Bool}
    (hpos : s.f_pos < f.i_size) (h : chunk_turn f md5 s = some (ok, s')) :
    ok = false ∧ s' = s ∨ ok = true ∧ ∃ seg loc filled v, Turn f md5 s s' seg loc filled v := by
  obtain ⟨h0, hmax, hend⟩ := cdc_get_chunk_size_bounds s.call hpos
  unfold chunk_turn at h
  rcases hc : cdc_get_chunk_size f s.call s.f_pos with ⟨n, call⟩
  rw [hc] at h h0 hmax hend
  dsimp only at h h0 hmax hend
  rw [if_neg (by omega)] at h
  cases hr : read_loop f n (n + 1) call s.f_pos [] with
  | bug => simp [hr] at h
  | failed =>
    rw [hr] at h
    simp only [Option.some.injEq, Prod.mk.injEq] at h
    exact .inl ⟨h.1.symm, h.2.symm⟩
  | done buf f_pos call' =>
    obtain ⟨read, rfl, hread, hlen, hf⟩ := read_loop_done (Nat.zero_le _) hr
    rw [hr] at h
    dsimp only at h
    cases hs : search_or_fill s.vol (md5 buf) buf with
    | none => simp [hs] at h
    | some r =>
      obtain ⟨v, loc, filled⟩ := r
      rw [hs] at h
      dsimp only at h
      by_cases hl : loc = 0
      · simp [hl] at h
      · rw [if_neg hl] at h
        cases ha : ll_append v s.last s.ll_size ⟨loc, n⟩ with
        | none => simp [ha] at h
        | some r =>
          obtain ⟨v', last, ll_size⟩ := r
          rw [ha] at h
          simp only [Option.some.injEq, Prod.mk.injEq] at h
          obtain ⟨h1, rfl⟩ := h
          refine .inr ⟨h1.symm, buf, loc, filled, v, ?_, hread, hf, by omega, by omega, ?_, hs, hl,
            ?_, ?_⟩
          · rw [hc]; exact hlen
          · dsimp only; omega
          · rw [hlen]; exact ha
          · rw [hlen]

/-- What chunking does to the normal area before the file's own blocks are freed: it takes the
blocks of the list and writes to no other. -/
structure ListGrown (v v' : Vol) (blocks : List Nat) : Prop extends Takes v v' blocks where
  mem_out : ∀ b, Low v b → b ≠ v.sbi.extra_sb_location → b ∉ blocks →
    v'.dev.bh.mem b = v.dev.bh.mem b ∧ v'.dev.bh.dirty b = v.dev.bh.dirty b
  kept : ∀ b, b ∉ blocks → v.dev.bh.Covered b → v'.dev.bh.Covered b

lemma SameMount.low {v v' : Vol} (h : SameMount v v') {b : Nat} : Low v' b ↔ Low v b := by
  have hht : v'.sbi.hashtable = v.sbi.hashtable := by rw [h.sbi]
  unfold Low
  rw [h.bs, hht]

lemma SameMount.esb {v v' : Vol} (h : SameMount v v') :
    v'.sbi.extra_sb_location = v.sbi.extra_sb_location := by rw [h.sbi]

lemma ListGrown.heap {v v₁ v₂ : Vol} {blocks : List Nat} (g : ListGrown v v₁ blocks)
    (h : HeapFrame v₁ v₂) : ListGrown v v₂ blocks := by
  refine ⟨?_, ?_, fun b hb hc => h.covered b (g.kept b hb hc)⟩
  · have ht := g.toTakes.trans (.of_eq h.toSameMount h.s_zmap h.printk)
    rwa [List.append_nil] at ht
  · intro b hb hne hnot
    obtain ⟨h1, h2⟩ := h.mem_low b (g.low.2 hb) (g.esb ▸ hne)
    obtain ⟨h3, h4⟩ := g.mem_out b hb hne hnot
    exact ⟨h1.trans h3, h2.trans h4⟩

lemma ListGrown.append {v v₁ v₂ : Vol} {blocks news : List Nat} {last : Nat}
    (g : ListGrown v v₁ blocks) (hlast : last ∈ blocks) (h : Appended v₁ v₂ last news) :
    ListGrown v v₂ (blocks ++ news) := by
  have hsub : ∀ b, b ∉ blocks ++ news → b ∉ last :: news := by
    intro b hb hm
    rcases List.mem_cons.1 hm with rfl | hm
    · exact hb (List.mem_append_left _ hlast)
    · exact hb (List.mem_append_right _ hm)
  refine ⟨g.toTakes.trans h.toTakes, ?_, ?_⟩
  · intro b hb hne hnot
    obtain ⟨h1, h2⟩ := h.mem_out b (hsub b hnot)
    obtain ⟨h3, h4⟩ := g.mem_out b hb hne fun hm => hnot (List.mem_append_left _ hm)
    exact ⟨h1.trans h3, h2.trans h4⟩
  · intro b hnot hc
    obtain ⟨h1, h2⟩ := h.mem_out b (hsub b hnot)
    exact (g.kept b (fun hm => hnot (List.mem_append_left _ hm)) hc).congr h1 (by rw [h.disk])
      fun hd => h2 ▸ hd

/-- The blocks of the list and the entries in them, in the course of the loop. -/
structure ListLoop (v : Vol) (s : ChunkLoop) (init : List Nat) : Prop where
  ok : VolOk s.vol
  grown : ListGrown v s.vol (init ++ [s.last])
  list : ListOk s.vol.dev (init ++ [s.last]) (s.log.map Prod.fst)
  size : s.ll_size = s.log.length
  dirty : s.log ≠ [] → ∀ b ∈ init ++ [s.last], s.vol.dev.bh.dirty b = true

lemma entries_per_block_pos {d : Dev} (h : 10 ≤ d.s_blocksize_bits ∧ d.s_blocksize_bits ≤ 12) :
    0 < entries_per_block d := by
  have := (Dev.bs_bounds h).1
  unfold entries_per_block
  omega

/-- The search or the fill leaves the blocks of the list alone. -/
lemma ListLoop.searched {v v₁ : Vol} {s : ChunkLoop} {init : List Nat} {hash : UInt64}
    {seg : List UInt8} {loc : Nat} {filled : Bool} (ok : VolOk v) (inv : ListLoop v s init)
    (hpos : 0 < seg.length) (hmax : seg.length ≤ MaxSize)
    (h : search_or_fill s.vol hash seg = some (v₁, loc, filled)) :
    VolOk v₁ ∧ Takes s.vol v₁ [] ∧ ListGrown v v₁ (init ++ [s.last]) ∧ loc < 2 ^ 64 ∧
      ∀ b ∈ init ++ [s.last], v₁.dev.bh.mem b = s.vol.dev.bh.mem b ∧
        v₁.dev.bh.dirty b = s.vol.dev.bh.dirty b := by
  have hmax' : MaxSize = 65536 := rfl
  rcases search_or_fill_inv inv.ok.lay ⟨hpos, by omega⟩ h with
    ⟨-, rfl, -, hs⟩ | ⟨-, -, hf, hlay, -⟩
  · exact ⟨inv.ok, .of_eq (.refl _) rfl rfl, inv.grown, chunk_search_hashtable_lt hs,
      fun _ _ => ⟨rfl, rfl⟩⟩
  · obtain ⟨hok, ht⟩ := inv.ok.heap hf.toHeapFrame hlay
    refine ⟨hok, ht, inv.grown.heap hf.toHeapFrame, ?_, fun b hb => ?_⟩
    · have := hf.room
      have := inv.ok.lay.max_lt
      omega
    · obtain ⟨harea, hfree⟩ := inv.grown.free b hb
      exact hf.mem_low b (inv.ok.low (inv.grown.inArea.2 harea))
        (inv.grown.esb ▸ ok.ne_esb harea hfree)

/-- Where there is room for it an entry is appended. -/
lemma ListLoop.append {v v₁ : Vol} {s : ChunkLoop} {init : List Nat} {e : ChunkEntry}
    (inv : ListLoop v s init) (hok : VolOk v₁) (ht : Takes s.vol v₁ [])
    (hmem : ∀ b ∈ init ++ [s.last], v₁.dev.bh.mem b = s.vol.dev.bh.mem b)
    (he : e.location < 2 ^ 64 ∧ e.size < 2 ^ 64) (hroom : EntryRoom v₁ s.log.length) :
    ∃ v' news init' b', ll_append v₁ s.last s.ll_size e = some (v', b', s.ll_size + 1) ∧
      init' ++ [b'] = init ++ [s.last] ++ news ∧
      ListOk v'.dev (init' ++ [b']) (s.log.map Prod.fst ++ [e]) ∧ Appended v₁ v' s.last news := by
  have hE := entries_per_block_pos hok.lay.bits
  have hblocks : ∀ b ∈ init ++ [s.last], InArea s.vol b ∧ zbit s.vol b = true := by
    intro b hb
    have harea := (inv.grown.free b hb).1
    exact ⟨inv.grown.inArea.2 harea, (inv.grown.zbit b harea).2 (.inl hb)⟩
  have hlen : s.ll_size = (s.log.map Prod.fst).length := by rw [inv.size, List.length_map]
  rw [hlen]
  exact ll_append_spec hE hok.zmap (inv.list.congr ht.bs hmem) inv.grown.nodup
    (fun b hb => (ht.zbit b (hblocks b hb).1).2 (.inr (hblocks b hb).2))
    (hok.lt_nblocks (ht.inArea.2 (hblocks _ (by simp)).1)) hok.nzones_le he
    (by rw [List.length_map]; exact hroom)

/-- A turn keeps the list, longer by the entry appended. -/
lemma ListLoop.turn {v : Vol} {f : Filp} {md5 : List UInt8 → UInt64} {s s' : ChunkLoop}
    {init : List Nat} {seg : List UInt8} {loc : Nat} {filled : Bool} {v₁ : Vol} (ok : VolOk v)
    (inv : ListLoop v s init) (t : Turn f md5 s s' seg loc filled v₁) :
    ∃ init' news, init' ++ [s'.last] = init ++ [s.last] ++ news ∧ ListLoop v s' init' ∧
      Appended v₁ s'.vol s.last news := by
  have hmax : MaxSize = 65536 := rfl
  have hseg := t.max
  obtain ⟨hok, ht, hgrown, hloc, hmem⟩ := inv.searched ok t.pos t.max t.search
  have happ := t.append
  have hroom := ll_append_room hok.zmap happ
  rw [inv.size] at hroom
  obtain ⟨v', news, init', b', hrun, hinit, hlist, happended⟩ := inv.append hok ht
    (fun b hb => (hmem b hb).1) (e := ⟨loc, seg.length⟩) ⟨hloc, by dsimp only; omega⟩ hroom
  rw [happ, Option.some.injEq, Prod.mk.injEq, Prod.mk.injEq] at hrun
  obtain ⟨rfl, rfl, hsize⟩ := hrun
  refine ⟨init', news, hinit, ⟨?_, ?_, ?_, ?_, ?_⟩, happended⟩
  · exact hok.takes happended.toTakes
      (hok.lay.congr happended.sbi_eq happended.bits happended.nblocks)
  · rw [hinit]
    exact hgrown.append (by simp) happended
  · rw [t.log, List.map_append]
    exact hlist
  · rw [hsize, t.log, inv.size, List.length_append]
    rfl
  · intro _ b hb
    rw [hinit] at hb
    by_cases hbn : b ∈ s.last :: news
    · exact happended.dirty b hbn
    · have hbi : b ∈ init ++ [s.last] := by
        rcases List.mem_append.1 hb with hb | hb
        · exact hb
        · exact absurd (List.mem_cons_of_mem _ hb) hbn
      rw [(happended.mem_out b hbn).2, (hmem b hbi).2]
      refine inv.dirty (fun h0 => ?_) b hbi
      have hnil := inv.list
      rw [h0] at hnil
      cases init with
      | nil =>
        rw [List.nil_append, List.mem_singleton] at hbi
        exact hbn (hbi ▸ List.mem_cons_self)
      | cons x init =>
        have := hnil.length (entries_per_block_pos inv.ok.lay.bits)
        simp [list_blocks] at this

/-- What every turn keeps holds after the loop. -/
lemma chunk_loop_induction {f : Filp} {md5 : List UInt8 → UInt64} {P : ChunkLoop → Prop}
    (step : ∀ {s s' seg loc filled v}, P s → Turn f md5 s s' seg loc filled v → P s') :
    ∀ {fuel s s' ok}, P s → chunk_loop f md5 fuel s = some (ok, s') → P s' := by
  intro fuel
  induction fuel with
  | zero => intro s s' ok _ h; cases h
  | succ fuel ih =>
    intro s s' ok hs h
    simp only [chunk_loop] at h
    by_cases hlt : s.f_pos < f.i_size
    · rw [if_pos hlt] at h
      cases ht : chunk_turn f md5 s with
      | none =>
        simp only [ht] at h
        cases h
      | some r =>
        obtain ⟨ok₁, s₁⟩ := r
        rcases chunk_turn_inv hlt ht with ⟨rfl, rfl⟩ | ⟨rfl, seg, loc, filled, v, t⟩
        · simp only [ht] at h
          cases h
          exact hs
        · simp only [ht] at h
          exact ih (step hs t) h
    · rw [if_neg hlt] at h
      split at h
      · cases h
        exact hs
      · cases h

/-- The zeroed head is a list without entries. -/
lemma ListLoop.start {v v₁ v₂ : Vol} {head : Nat} (ok : VolOk v)
    (h : ll_alloc_new_block v = some (v₁, head)) (hz : zero_out_block v₁ head = some v₂) :
    ListLoop v ⟨v₂, head, 0, 0, 0, []⟩ [] := by
  rcases ll_alloc_new_block_spec ok.zmap with ⟨hnone, -⟩ | ⟨v', new, hnew, h0, -, hdev, hsbi, ht⟩
  · rw [h] at hnone
    cases hnone
  rw [h] at hnew
  obtain ⟨rfl, rfl⟩ := Prod.mk.inj (Option.some.inj hnew)
  unfold zero_out_block at hz
  split at hz
  · obtain rfl := Option.some.inj hz
    have hne : ∀ b, b ≠ head → (v₁.dev.store head fun _ => 0).bh.mem b = v₁.dev.bh.mem b :=
      fun b hb => Buffers.set_mem_of_ne _ _ hb
    have htake : Takes v { v₁ with dev := v₁.dev.store head fun _ => 0 } [head] := by
      have := ht.trans (Takes.of_eq ⟨rfl, rfl, rfl, rfl, rfl⟩ rfl rfl :
        Takes v₁ { v₁ with dev := v₁.dev.store head fun _ => 0 } [])
      rwa [List.append_nil] at this
    refine ⟨?_, ⟨htake, ?_, ?_⟩, ?_, rfl, fun h => absurd rfl h⟩
    · refine ok.takes htake (ok.lay.congr hsbi ?_ ?_)
      · change v₁.dev.s_blocksize_bits = _
        rw [hdev]
      · change v₁.dev.nblocks = _
        rw [hdev]
    · intro b _ _ hb
      rw [← hdev]
      exact ⟨hne b (by simpa using hb), rfl⟩
    · intro b hb hc
      rw [← hdev] at hc
      exact hc.congr (hne b (by simpa using hb)) rfl id
    · refine .last (Nat.zero_le _) (fun i e h => by simp at h) (fun i _ _ => ?_) ?_
      · dsimp only
        rw [Dev.store_bh, Buffers.set_mem_self, arr_get_zero]
      · dsimp only
        rw [Dev.store_bh, Buffers.set_mem_self]
        exact ptr_next_zero _
  · cases hz

/-- However chunking ends it has taken the blocks of a list and, beside them, changed no other block
below the hashtable than the extra superblock. -/
lemma chunk_file_list {f : Filp} {md5 : List UInt8 → UInt64} {v : Vol} {head : Nat} {ok : Bool}
    {s : ChunkLoop} (vok : VolOk v) (h : chunk_file f md5 v = some (head, ok, s)) :
    ∃ init, ListLoop v s init ∧ (init ++ [s.last]).head? = some head := by
  unfold chunk_file at h
  cases ha : ll_alloc_new_block v with
  | none =>
    simp only [ha] at h
    cases h
  | some p =>
    obtain ⟨v₁, head'⟩ := p
    simp only [ha] at h
    cases hz : zero_out_block v₁ head' with
    | none =>
      simp only [hz] at h
      cases h
    | some v₂ =>
      simp only [hz] at h
      cases hl : chunk_loop f md5 (f.i_size + 1) ⟨v₂, head', 0, 0, 0, []⟩ with
      | none =>
        simp only [hl] at h
        cases h
      | some r =>
        obtain ⟨ok', s'⟩ := r
        simp only [hl] at h
        cases h
        apply @chunk_loop_induction f md5
          (fun s => ∃ init, ListLoop v s init ∧ (init ++ [s.last]).head? = some head) ?_ _ _ _ _
          ⟨[], ListLoop.start vok ha hz, rfl⟩ hl
        rintro s s' seg loc filled v' ⟨init, inv, hhead⟩ t
        obtain ⟨init', news, hinit, inv', -⟩ := inv.turn vok t
        refine ⟨init', inv', ?_⟩
        rw [hinit, List.head?_append, hhead]
        rfl

/-- An entry stands for a segment of the file: its size is the segment's and a stored chunk at its
location has the segment's hash. -/
structure Entry (md5 : List UInt8 → UInt64) (cs : List Stored) (e : ChunkEntry) (seg : List UInt8) :
    Prop where
  size : e.size = seg.length
  pos : 0 < seg.length
  max : seg.length ≤ MaxSize
  chunk : ∃ c ∈ cs, c.loc = e.location ∧ c.hash = (md5 seg).toNat

lemma Entry.mono {md5 : List UInt8 → UInt64} {cs cs' : List Stored} {e : ChunkEntry}
    {seg : List UInt8} (h : Entry md5 cs e seg) (hsub : cs ⊆ cs') : Entry md5 cs' e seg := by
  obtain ⟨c, hc, hloc, hhash⟩ := h.chunk
  exact ⟨h.size, h.pos, h.max, c, hsub hc, hloc, hhash⟩

/-- The chunks of the heap, each under the hash of its data, and the segments of the file so far. -/
structure DataLoop (md5 : List UInt8 → UInt64) (f : Filp) (s : ChunkLoop) (cs : List Stored)
    (segs : List (List UInt8)) : Prop where
  heap : HeapInv s.vol cs
  hash : ∀ c ∈ cs, c.hash = (md5 c.data).toNat
  flatten : segs.flatten = f.bytes.take s.f_pos
  le : s.f_pos ≤ f.i_size
  entries : List.Forall₂ (Entry md5 cs) (s.log.map Prod.fst) segs

/-- A turn appends the segment read, and stores it when no stored chunk has its hash. -/
lemma DataLoop.turn {v : Vol} {f : Filp} {md5 : List UInt8 → UInt64} {s s' : ChunkLoop}
    {init : List Nat} {cs : List Stored} {segs : List (List UInt8)} {seg : List UInt8} {loc : Nat}
    {filled : Bool} {v₁ : Vol} (ok : VolOk v) (inv : ListLoop v s init)
    (data : DataLoop md5 f s cs segs) (t : Turn f md5 s s' seg loc filled v₁) :
    ∃ cs', DataLoop md5 f s' cs' (segs ++ [seg]) ∧
      (filled = false ∧ cs' = cs ∧ s'.vol.sbi.heap_brk = s.vol.sbi.heap_brk ∧
        lookup (md5 seg).toNat cs = loc ∨
      filled = true ∧ cs' = ⟨loc, (md5 seg).toNat, seg⟩ :: cs ∧
        (∀ c ∈ cs, c.hash ≠ (md5 seg).toNat) ∧ s'.vol.sbi.heap_brk = loc + (24 + seg.length)) := by
  have hmax : MaxSize = 65536 := rfl
  have hseg := t.max
  obtain ⟨init', news, hinit, inv', happ⟩ := inv.turn ok t
  have hlow : ∀ b, b ∈ s.last :: news → Low s'.vol b := by
    intro b hb
    have hb' : b ∈ init' ++ [s'.last] := by
      rw [hinit]
      rcases List.mem_cons.1 hb with rfl | hb
      · simp
      · exact List.mem_append_right _ hb
    exact inv'.ok.low (inv'.grown.inArea.2 (inv'.grown.free b hb').1)
  have hkeep : ∀ cs', HeapLayout v₁ → HeapInv v₁ cs' → HeapInv s'.vol cs' := fun cs' hlay h =>
    h.low hlay happ.toSameMount (by rw [happ.sbi_eq]) (fun b hb => happ.low.1 (hlow b hb))
      fun b hb => (happ.mem_out b hb).1
  have hflatten : (segs ++ [seg]).flatten = f.bytes.take s'.f_pos := by
    rw [List.flatten_append, List.flatten_singleton, data.flatten, t.f_pos, List.take_add, ← t.bytes]
  have hlog : s'.log.map Prod.fst = s.log.map Prod.fst ++ [⟨loc, seg.length⟩] := by
    rw [t.log, List.map_append]
    rfl
  have hmem : ∀ cs', cs ⊆ cs' → (∃ c ∈ cs', c.loc = loc ∧ c.hash = (md5 seg).toNat) →
      List.Forall₂ (Entry md5 cs') (s'.log.map Prod.fst) (segs ++ [seg]) := by
    intro cs' hsub hchunk
    rw [hlog]
    refine List.rel_append (data.entries.imp fun e sg h => h.mono hsub) ?_
    exact .cons ⟨rfl, t.pos, t.max, hchunk⟩ .nil
  rcases data.heap.search_or_fill inv.ok.lay ⟨t.pos, by omega⟩ t.search with
    ⟨hfalse, rfl, h0, hl⟩ | ⟨htrue, hnew, hf, hlay, hinv⟩
  · refine ⟨cs, ⟨hkeep cs inv.ok.lay data.heap, data.hash, hflatten, t.le, ?_⟩,
      .inl ⟨hfalse, rfl, by rw [happ.sbi_eq], hl⟩⟩
    obtain ⟨c, hc, hhash, hloc⟩ := lookup_mem (by rw [hl]; exact h0)
    exact hmem cs (List.Subset.refl _) ⟨c, hc, hloc.trans hl, hhash⟩
  · refine ⟨_, ⟨hkeep _ hlay hinv, ?_, hflatten, t.le, ?_⟩,
      .inr ⟨htrue, rfl, hnew, by rw [happ.sbi_eq, hf.brk]⟩⟩
    · exact List.forall_mem_cons.2 ⟨rfl, data.hash⟩
    · exact hmem _ (List.subset_cons_self _ _) ⟨_, List.mem_cons_self, rfl, rfl⟩

end CominixFs
