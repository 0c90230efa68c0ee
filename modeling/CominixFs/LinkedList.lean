import CominixFs.ZoneBitmap

/-!
# The unrolled list of chunk entries (`linked_list.h`)

A block holds `entries_per_block` entries of 16 bytes; its last 4 bytes are the number of the next
block. `ListOk` says that blocks hold a list of entries; `ll_append` puts one more entry at the end
(`ListOk.append_room`, `ListOk.append_block`) and `ll_search_left` finds the entry of a position by
the sum of the sizes before it (`ll_search_left_eq`). `none` is a `BUG()`, a null dereference or a
recursion that never ends: more than `2 ^ 96` calls repeat a block and a sum.
-/

namespace CominixFs
open Bytes

/-- `struct chunk_entry`. -/
structure ChunkEntry where
  location : Nat
  size : Nat
deriving DecidableEq, Repr

def entries_per_block (d : Dev) : Nat := d.bs / 16 - 1

/-- `*ptr_next`. -/
def ptr_next (d : Dev) (m : Mem) : Nat := le m (d.bs - 4) 4

/-- `arr[i]`. -/
def arr_get (m : Mem) (i : Nat) : ChunkEntry := ⟨le m (16 * i) 8, le m (16 * i + 8) 8⟩

/-- `arr[i] = e`. -/
def arr_set (m : Mem) (i : Nat) (e : ChunkEntry) : Mem :=
  put (put m (16 * i) 8 e.location) (16 * i + 8) 8 e.size

/-- `ll_alloc_new_block`. -/
def ll_alloc_new_block (v : Vol) : Option (Vol × Nat) :=
  let (v, new) := cominix_new_block_sb v
  if new % 2 ^ 32 = 0 then none else some (v, new % 2 ^ 32)

/-- `zero_out_block`: the buffer is not marked dirty. -/
def zero_out_block (v : Vol) (block : Nat) : Option Vol :=
  if block < v.dev.nblocks then some { v with dev := v.dev.store block fun _ => 0 } else none

/-- `arr[i] = new_entry` at the end of `ll_append`. -/
def ll_store (v : Vol) (block i ll_size : Nat) (new_entry : ChunkEntry) : Vol × Nat × Nat :=
  let d := v.dev.store block (arr_set (v.dev.bh.mem block) i new_entry)
  ({ v with dev := d.mark_buffer_dirty block }, block, ll_size + 1)

/-- `ll_append`: the volume, the last block and the number of entries. -/
def ll_append (v : Vol) (last ll_size : Nat) (new_entry : ChunkEntry) : Option (Vol × Nat × Nat) :=
  if last < v.dev.nblocks then
    let i := ll_size % entries_per_block v.dev
    if i = 0 ∧ ll_size ≠ 0 then
      match ll_alloc_new_block v with
      | none => none
      | some (v, new) =>
        let d := v.dev.store last (put (v.dev.bh.mem last) (v.dev.bs - 4) 4 new)
        let d := d.mark_buffer_dirty last
        if new < d.nblocks then
          some (ll_store { v with dev := d.store new fun _ => 0 } new i ll_size new_entry)
        else none
    else some (ll_store v last i ll_size new_entry)
  else none

/-- The loop of `ll_search_left` over one block. Sums are `ssize_t`. -/
def ll_search_block (m : Mem) (pos : Int) : Nat → Nat → Int → Option ChunkEntry × Int
  | 0, _, accum => (none, accum)
  | n + 1, i, accum =>
    let e := arr_get m i
    if e.size = 0 then (none, accum)
    else if pos < (accum + e.size).bmod (2 ^ 64) then (some e, accum)
    else ll_search_block m pos n (i + 1) ((accum + e.size).bmod (2 ^ 64))

/-- `ll_search_left`: the entry, or zeroes when the position is too large, and the sum before it. -/
def ll_search_left (d : Dev) (pos : Int) : Nat → Nat → Int → Option (ChunkEntry × Int)
  | 0, _, _ => none
  | fuel + 1, head, accum =>
    if pos < accum then none
    else if head < d.nblocks then
      match ll_search_block (d.bh.mem head) pos (entries_per_block d) 0 accum with
      | (some e, accum) => some (e, accum)
      | (none, accum) =>
        let next := ptr_next d (d.bh.mem head)
        if next = 0 then some (⟨0, 0⟩, accum) else ll_search_left d pos fuel next accum
    else none

/-- A block holds these entries from the front. -/
def BlockHolds (m : Mem) (es : List ChunkEntry) : Prop :=
  ∀ i e, es[i]? = some e → arr_get m i = e

/-- Blocks linked one to the next hold these entries, full blocks first. -/
inductive ListOk (d : Dev) : List Nat → List ChunkEntry → Prop where
  | last {b es} :
    es.length ≤ entries_per_block d →
    BlockHolds (d.bh.mem b) es →
    (∀ i, es.length ≤ i → i < entries_per_block d → (arr_get (d.bh.mem b) i).size = 0) →
    ptr_next d (d.bh.mem b) = 0 →
    ListOk d [b] es
  | cons {b b' bs es es'} :
    es.length = entries_per_block d →
    BlockHolds (d.bh.mem b) es →
    ptr_next d (d.bh.mem b) = b' →
    b' ≠ 0 →
    es' ≠ [] →
    ListOk d (b' :: bs) es' →
    ListOk d (b :: b' :: bs) (es ++ es')

section Entries

variable {m : Mem} {i j : Nat} {e : ChunkEntry}

lemma arr_get_set (hl : e.location < 2 ^ 64) (hs : e.size < 2 ^ 64) :
    arr_get (arr_set m i e) i = e := by
  unfold arr_get arr_set
  rw [le_put_disjoint (by omega), le_put hl, le_put hs]

lemma arr_get_set_ne (h : j ≠ i) : arr_get (arr_set m i e) j = arr_get m j := by
  unfold arr_get arr_set
  rw [le_put_disjoint (by omega), le_put_disjoint (by omega), le_put_disjoint (by omega),
    le_put_disjoint (by omega)]

lemma entries_lt {d : Dev} (hi : i < entries_per_block d) : 16 * i + 16 ≤ d.bs - 4 := by
  unfold entries_per_block at hi
  omega

lemma ptr_next_set {d : Dev} (hi : i < entries_per_block d) :
    ptr_next d (arr_set m i e) = ptr_next d m := by
  have := entries_lt hi
  unfold ptr_next arr_set
  rw [le_put_disjoint (by omega), le_put_disjoint (by omega)]

lemma arr_get_put_next {d : Dev} {v : Nat} (hi : i < entries_per_block d) :
    arr_get (put m (d.bs - 4) 4 v) i = arr_get m i := by
  have := entries_lt hi
  unfold arr_get
  rw [le_put_disjoint (by omega), le_put_disjoint (by omega)]

lemma arr_get_zero : arr_get (fun _ => 0) i = ⟨0, 0⟩ := by
  unfold arr_get
  rw [le_zero, le_zero]

lemma ptr_next_zero (d : Dev) : ptr_next d (fun _ => 0) = 0 := le_zero 4 _

end Entries

/-- Only the blocks of the list matter. -/
lemma ListOk.congr {d d' : Dev} {blocks : List Nat} {es : List ChunkEntry} (h : ListOk d blocks es)
    (hbs : d'.bs = d.bs) (hmem : ∀ b ∈ blocks, d'.bh.mem b = d.bh.mem b) : ListOk d' blocks es := by
  have hE : entries_per_block d' = entries_per_block d := by rw [entries_per_block, hbs]; rfl
  have hN : ∀ m, ptr_next d' m = ptr_next d m := fun m => by rw [ptr_next, hbs]; rfl
  induction h with
  | last hlen hold hzero hnext =>
    have hb := hmem _ List.mem_cons_self
    exact .last (hE ▸ hlen) (hb ▸ hold) (hb ▸ hE ▸ hzero) (by rw [hN, hb]; exact hnext)
  | cons hlen hold hnext hne hes _ ih =>
    have hb := hmem _ List.mem_cons_self
    exact .cons (hE ▸ hlen) (hb ▸ hold) (by rw [hN, hb]; exact hnext) hne hes
      (ih fun b hm => hmem b (List.mem_cons_of_mem _ hm))

/-- The number of blocks for `n` entries. -/
def list_blocks (d : Dev) (n : Nat) : Nat := (n - 1) / entries_per_block d + 1

lemma ListOk.length {d : Dev} {blocks : List Nat} {es : List ChunkEntry}
    (hE : 0 < entries_per_block d) (h : ListOk d blocks es) :
    blocks.length = list_blocks d es.length := by
  unfold list_blocks
  induction h with
  | last hlen _ _ _ =>
    rw [Nat.div_eq_of_lt (by omega)]
    rfl
  | cons hlen _ _ _ hes _ ih =>
    have hpos := List.length_pos_of_ne_nil hes
    rw [List.length_cons, ih, List.length_append, hlen, Nat.add_sub_assoc hpos,
      Nat.add_div_left _ hE]

/-- A list is its full blocks and its last block, and whatever follows the full blocks continues
them. -/
lemma ListOk.split {d : Dev} {blocks : List Nat} {es : List ChunkEntry} (h : ListOk d blocks es) :
    ∃ init b es₀ es₁, blocks = init ++ [b] ∧ es = es₀ ++ es₁ ∧
      es₀.length = init.length * entries_per_block d ∧ ListOk d [b] es₁ ∧ (es₁ = [] → init = []) ∧
      ∀ d' bs' es', d'.bs = d.bs → (∀ x ∈ init, d'.bh.mem x = d.bh.mem x) → es' ≠ [] →
        ListOk d' (b :: bs') es' → ListOk d' (init ++ b :: bs') (es₀ ++ es') := by
  induction h with
  | @last b es hlen hold hzero hnext =>
    exact ⟨[], b, [], es, rfl, rfl, by simp, .last hlen hold hzero hnext, fun _ => rfl,
      fun d' bs' es' _ _ _ h => h⟩
  | @cons b b' bs es es' hlen hold hnext hne hes hrest ih =>
    obtain ⟨init, c, es₀, es₁, hblocks, hes', hlen₀, hlast, hnil, hcont⟩ := ih
    refine ⟨b :: init, c, es ++ es₀, es₁, by rw [hblocks]; rfl, by rw [hes', List.append_assoc],
      ?_, hlast, ?_, ?_⟩
    · rw [List.length_append, hlen, hlen₀, List.length_cons, Nat.add_mul, Nat.one_mul, Nat.add_comm]
    · rintro rfl
      have hes₀ : es₀ = [] := by simpa [hnil rfl] using hlen₀
      rw [hes', hes₀] at hes
      exact absurd rfl hes
    · intro d' bs' es'' hbs hmem hes'' hok
      have hb := hmem b List.mem_cons_self
      have hrec := hcont d' bs' es'' hbs (fun x hx => hmem x (List.mem_cons_of_mem _ hx)) hes'' hok
      have hE : entries_per_block d' = entries_per_block d := by rw [entries_per_block, hbs]; rfl
      have hN : ptr_next d' (d'.bh.mem b) = b' := by rw [hb, ptr_next, hbs]; exact hnext
      rw [List.append_assoc]
      cases init with
      | nil =>
        obtain rfl : b' = c := (List.cons.inj hblocks).1
        exact .cons (hE ▸ hlen) (hb ▸ hold) hN hne (by simp [hes'']) hrec
      | cons x init =>
        obtain rfl : b' = x := (List.cons.inj hblocks).1
        exact .cons (hE ▸ hlen) (hb ▸ hold) hN hne (by simp [hes'']) hrec

/-- One more entry in the last block, when it has room. -/
lemma ListOk.append_room {d d' : Dev} {init : List Nat} {b : Nat} {es : List ChunkEntry}
    {e : ChunkEntry} (hE : 0 < entries_per_block d) (h : ListOk d (init ++ [b]) es)
    (hroom : es.length % entries_per_block d ≠ 0 ∨ es = [])
    (he : e.location < 2 ^ 64 ∧ e.size < 2 ^ 64) (hbs : d'.bs = d.bs)
    (hlast : d'.bh.mem b = arr_set (d.bh.mem b) (es.length % entries_per_block d) e)
    (hmem : ∀ x ∈ init, d'.bh.mem x = d.bh.mem x) : ListOk d' (init ++ [b]) (es ++ [e]) := by
  have hE' : entries_per_block d' = entries_per_block d := by rw [entries_per_block, hbs]; rfl
  have hN : ∀ m, ptr_next d' m = ptr_next d m := fun m => by rw [ptr_next, hbs]; rfl
  obtain ⟨init', b', es₀, es₁, hblocks, rfl, hlen₀, hok, hnil, hcont⟩ := h.split
  obtain ⟨rfl, hbb⟩ := List.append_inj' hblocks rfl
  obtain rfl : b = b' := by simpa using hbb
  have hmod : (es₀ ++ es₁).length % entries_per_block d = es₁.length % entries_per_block d := by
    rw [List.length_append, hlen₀, Nat.add_comm, Nat.add_mul_mod_self_right]
  rw [List.append_assoc]
  refine hcont d' [] (es₁ ++ [e]) hbs hmem (by simp) ?_
  cases hok with
  | last hlen hold hzero hnext =>
    have hlt : es₁.length < entries_per_block d := by
      rcases hroom with hr | hr
      · by_contra hge
        exact hr (by rw [hmod, Nat.le_antisymm hlen (by omega), Nat.mod_self])
      · rw [(List.append_eq_nil_iff.1 hr).2]
        exact hE
    rw [hmod, Nat.mod_eq_of_lt hlt] at hlast
    refine .last (by rw [hE', List.length_append, List.length_singleton]; omega) ?_ ?_ ?_
    · intro i x hx
      rw [hlast]
      by_cases hi : i = es₁.length
      · subst hi
        rw [List.getElem?_concat_length, Option.some.injEq] at hx
        rw [arr_get_set he.1 he.2, hx]
      · have hlen' := (List.getElem?_eq_some_iff.1 hx).1
        rw [List.length_append, List.length_singleton] at hlen'
        rw [arr_get_set_ne hi]
        exact hold i x (by rwa [List.getElem?_append_left (by omega)] at hx)
    · intro i hi hiE
      rw [List.length_append, List.length_singleton] at hi
      rw [hE'] at hiE
      rw [hlast, arr_get_set_ne (by omega)]
      exact hzero i (by omega) hiE
    · rw [hN, hlast, ptr_next_set hlt]
      exact hnext

/-- One more entry in a new block, when the last one is full. -/
lemma ListOk.append_block {d d' : Dev} {init : List Nat} {b : Nat} {es : List ChunkEntry}
    {e : ChunkEntry} {new : Nat} (hE : 0 < entries_per_block d) (h : ListOk d (init ++ [b]) es)
    (hfull : es.length % entries_per_block d = 0) (hes : es ≠ [])
    (he : e.location < 2 ^ 64 ∧ e.size < 2 ^ 64) (hnew : new ≠ 0 ∧ new < 2 ^ 32)
    (hbs : d'.bs = d.bs) (hnewmem : d'.bh.mem new = arr_set (fun _ => 0) 0 e)
    (hlast : d'.bh.mem b = put (d.bh.mem b) (d.bs - 4) 4 new)
    (hmem : ∀ x ∈ init, d'.bh.mem x = d.bh.mem x) : ListOk d' (init ++ [b, new]) (es ++ [e]) := by
  have hE' : entries_per_block d' = entries_per_block d := by rw [entries_per_block, hbs]; rfl
  have hN : ∀ m, ptr_next d' m = ptr_next d m := fun m => by rw [ptr_next, hbs]; rfl
  obtain ⟨init', b', es₀, es₁, hblocks, rfl, hlen₀, hok, hnil, hcont⟩ := h.split
  obtain ⟨rfl, hbb⟩ := List.append_inj' hblocks rfl
  obtain rfl : b = b' := by simpa using hbb
  have hmod : (es₀ ++ es₁).length % entries_per_block d = es₁.length % entries_per_block d := by
    rw [List.length_append, hlen₀, Nat.add_comm, Nat.add_mul_mod_self_right]
  rw [List.append_assoc]
  refine hcont d' [new] (es₁ ++ [e]) hbs hmem (by simp) ?_
  cases hok with
  | last hlen hold hzero hnext =>
    have hes₁ : es₁ ≠ [] := by
      rintro rfl
      rw [hnil rfl] at hlen₀
      exact hes (by simpa using hlen₀)
    have hlenE : es₁.length = entries_per_block d := by
      by_contra hlt
      rw [hmod, Nat.mod_eq_of_lt (by omega)] at hfull
      exact hes₁ (List.length_eq_zero_iff.1 hfull)
    refine .cons (hE' ▸ hlenE) ?_ ?_ hnew.1 (by simp) (.last ?_ ?_ ?_ ?_)
    · intro i x hx
      rw [hlast, arr_get_put_next (by rw [← hlenE]; exact (List.getElem?_eq_some_iff.1 hx).1)]
      exact hold i x hx
    · rw [hN, hlast]
      exact le_put hnew.2
    · rw [hE', List.length_singleton]
      omega
    · intro i x hx
      obtain ⟨hi, rfl⟩ := List.getElem?_eq_some_iff.1 hx
      obtain rfl : i = 0 := by simpa using hi
      rw [hnewmem, arr_get_set he.1 he.2]
      rfl
    · intro i hi _
      rw [List.length_singleton] at hi
      rw [hnewmem, arr_get_set_ne (by omega), arr_get_zero]
    · rw [hN, hnewmem, ptr_next_set hE, ptr_next_zero]

/-- What `ll_append` does beside storing the entry: it takes at most one block and marks the last
block and the one taken. -/
structure Appended (v v' : Vol) (last : Nat) (news : List Nat) : Prop extends Takes v v' news where
  sbi_eq : v'.sbi = v.sbi
  dirty : ∀ x ∈ last :: news, v'.dev.bh.dirty x = true
  mem_out : ∀ x, x ∉ last :: news → v'.dev.bh.mem x = v.dev.bh.mem x ∧
    v'.dev.bh.dirty x = v.dev.bh.dirty x

/-- There is room for one more entry, in the last block or in a free zone. -/
def EntryRoom (v : Vol) (n : Nat) : Prop :=
  n % entries_per_block v.dev ≠ 0 ∨ n = 0 ∨ ∃ z, InArea v z ∧ zbit v z = false

/-- `ll_alloc_new_block` returns a zone it took when one is free. -/
lemma ll_alloc_new_block_spec {v : Vol} (ok : ZmapOk v) :
    (ll_alloc_new_block v = none ∧ ∀ z, InArea v z → zbit v z = true) ∨
    ∃ v' new, ll_alloc_new_block v = some (v', new) ∧ new ≠ 0 ∧ new < 2 ^ 32 ∧ v'.dev = v.dev ∧
      v'.sbi = v.sbi ∧ Takes v v' [new] := by
  obtain ⟨v', z, heq, hdev, hsbi, ⟨h0, ht, -⟩ | ⟨h0, -, hfull⟩⟩ := cominix_new_block_spec ok
  · have hlt := (ht.free z (by simp)).1.2
    have hz := ok.nzones_lt
    have hmod : z % 2 ^ 32 = z := Nat.mod_eq_of_lt (by omega)
    refine .inr ⟨v', z, ?_, h0, by omega, hdev, hsbi, ht⟩
    unfold ll_alloc_new_block
    rw [cominix_new_block_sb_eq, heq]
    simp only [hmod]
    rw [if_neg h0]
  · refine .inl ⟨?_, hfull⟩
    unfold ll_alloc_new_block
    rw [cominix_new_block_sb_eq, heq, h0]
    rfl

/-- The list after `ll_append` is the list with the entry at its end. -/
lemma ll_append_spec {v : Vol} {init : List Nat} {b : Nat} {es : List ChunkEntry} {e : ChunkEntry}
    (hE : 0 < entries_per_block v.dev) (ok : ZmapOk v) (h : ListOk v.dev (init ++ [b]) es)
    (nd : (init ++ [b]).Nodup) (hset : ∀ x ∈ init ++ [b], zbit v x = true)
    (hb : b < v.dev.nblocks) (hnz : v.sbi.s_nzones ≤ v.dev.nblocks)
    (he : e.location < 2 ^ 64 ∧ e.size < 2 ^ 64) (hroom : EntryRoom v es.length) :
    ∃ v' news init' b', ll_append v b es.length e = some (v', b', es.length + 1) ∧
      init' ++ [b'] = init ++ [b] ++ news ∧ ListOk v'.dev (init' ++ [b']) (es ++ [e]) ∧
      Appended v v' b news := by
  have hbi : ∀ x ∈ init, x ≠ b := by
    rintro x hx rfl
    have := (List.nodup_append.1 nd).2.2 x hx x (by simp)
    exact this rfl
  by_cases hfull : es.length % entries_per_block v.dev = 0 ∧ es.length ≠ 0
  · have hes : es ≠ [] := fun e => hfull.2 (by simp [e])
    rcases ll_alloc_new_block_spec ok with ⟨-, hnone⟩ | ⟨v1, new, hnew, h0, hlt, hdev, hsbi, ht⟩
    · rcases hroom with hr | hr | ⟨z, hz, hfree⟩
      · exact absurd hfull.1 hr
      · exact absurd hr hfull.2
      · rw [hnone z hz] at hfree
        cases hfree
    · obtain ⟨harea, hfree⟩ := ht.free new (by simp)
      have hne : ∀ x ∈ init ++ [b], x ≠ new := by
        rintro x hx rfl
        rw [hset x hx] at hfree
        cases hfree
      have hnb : new ≠ b := fun e => hne b (by simp) e.symm
      have hin : new < v1.dev.nblocks := by rw [hdev]; exact lt_of_lt_of_le harea.2 hnz
      have hrun : ll_append v b es.length e = some (ll_store { v1 with dev := ((v1.dev.store b
          (put (v1.dev.bh.mem b) (v1.dev.bs - 4) 4 new)).mark_buffer_dirty b).store new fun _ => 0 }
          new 0 es.length e) := by
        unfold ll_append
        rw [if_pos hb]
        dsimp only
        rw [if_pos hfull, hnew]
        dsimp only
        rw [if_pos (by exact hin), hfull.1]
      refine ⟨_, [new], init ++ [b], new, hrun, rfl, ?_, ?_⟩
      · rw [List.append_assoc]
        refine h.append_block hE hfull.1 hes he ⟨h0, hlt⟩ (by simp [hdev]) ?_ ?_ ?_
        · simp
        · simp [Buffers.set_mem_of_ne _ _ hnb.symm, hdev]
        · intro x hx
          have hxn : x ≠ new := hne x (by simp [hx])
          simp [Buffers.set_mem_of_ne _ _ hxn, Buffers.set_mem_of_ne _ _ (hbi x hx), hdev]
      · have hsame : SameMount v1 { v1 with dev := ((((v1.dev.store b (put (v1.dev.bh.mem b)
            (v1.dev.bs - 4) 4 new)).mark_buffer_dirty b).store new fun _ => 0).store new
            (arr_set (fun _ => 0) 0 e)).mark_buffer_dirty new } := ⟨rfl, rfl, rfl, rfl, rfl⟩
        have htake := ht.trans (Takes.of_eq hsame rfl rfl)
        rw [List.append_nil] at htake
        refine ⟨?_, hsbi, ?_, ?_⟩
        · simpa using htake
        · intro x hx
          rcases List.mem_cons.1 hx with rfl | hx
          · exact Buffers.mark_dirty_of_dirty _ (by simp)
          · rw [List.mem_singleton.1 hx]
            simp
        · intro x hx
          simp only [List.mem_cons, List.not_mem_nil, or_false, not_or] at hx
          simp [Buffers.set_mem_of_ne _ _ hx.1, Buffers.set_mem_of_ne _ _ hx.2, hdev,
            Buffers.mark_dirty_of_ne _ hx.1, Buffers.mark_dirty_of_ne _ hx.2]
  · have hrun : ll_append v b es.length e
        = some (ll_store v b (es.length % entries_per_block v.dev) es.length e) := by
      unfold ll_append
      rw [if_pos hb]
      dsimp only
      rw [if_neg hfull]
    refine ⟨_, [], init, b, hrun, by simp, ?_, ?_⟩
    · refine h.append_room hE ?_ he rfl (by simp) ?_
      · by_cases h0 : es.length = 0
        · exact .inr (List.length_eq_zero_iff.1 h0)
        · exact .inl fun hm => hfull ⟨hm, h0⟩
      · intro x hx
        exact v.dev.bh.set_mem_of_ne _ (hbi x hx)
    · refine ⟨.of_eq ⟨rfl, rfl, rfl, rfl, rfl⟩ rfl rfl, rfl, ?_, ?_⟩
      · intro x hx
        rw [List.mem_singleton.1 hx]
        simp
      · intro x hx
        simp only [List.mem_cons, List.not_mem_nil, or_false] at hx
        exact ⟨v.dev.bh.set_mem_of_ne _ hx, Buffers.mark_dirty_of_ne _ hx⟩

/-- `ll_append` returns only when there is room. -/
lemma ll_append_room {v : Vol} {b n : Nat} {e : ChunkEntry} {r : Vol × Nat × Nat} (ok : ZmapOk v)
    (h : ll_append v b n e = some r) : EntryRoom v n := by
  by_contra hroom
  unfold EntryRoom at hroom
  push Not at hroom
  obtain ⟨h0, hn, hfull⟩ := hroom
  rcases ll_alloc_new_block_spec ok with ⟨hnone, -⟩ | ⟨v1, new, -, -, -, -, -, ht⟩
  · unfold ll_append at h
    simp [h0, hn, hnone] at h
  · obtain ⟨harea, hfree⟩ := ht.free new (by simp)
    exact hfull new harea hfree

/-- The entry of a position and the sum of the sizes before it. -/
def locate (pos : Nat) : List ChunkEntry → Nat → Option ChunkEntry × Nat
  | [], accum => (none, accum)
  | e :: es, accum =>
    if pos < accum + e.size then (some e, accum) else locate pos es (accum + e.size)

/-- The sum of the sizes. -/
def total (es : List ChunkEntry) : Nat := (es.map ChunkEntry.size).sum

@[simp] lemma total_nil : total [] = 0 := rfl

@[simp] lemma total_cons (e : ChunkEntry) (es : List ChunkEntry) :
    total (e :: es) = e.size + total es := rfl

@[simp] lemma total_append (es es' : List ChunkEntry) : total (es ++ es') = total es + total es' := by
  simp [total]

lemma ssize_add {a b : Nat} (h : a + b < 2 ^ 63) :
    ((a : Int) + (b : Int)).bmod (2 ^ 64) = ((a + b : Nat) : Int) := by
  rw [Int.bmod_eq_of_le] <;> push_cast <;> omega

/-- Without the entry of the position, the search has summed up all sizes. -/
lemma locate_none {pos : Nat} {es : List ChunkEntry} {accum a : Nat}
    (h : locate pos es accum = (none, a)) : a = accum + total es ∧ (accum ≤ pos → a ≤ pos) := by
  induction es generalizing accum with
  | nil =>
    cases h
    exact ⟨rfl, id⟩
  | cons e es ih =>
    simp only [locate] at h
    by_cases hlt : pos < accum + e.size
    · rw [if_pos hlt] at h
      cases h
    · rw [if_neg hlt] at h
      obtain ⟨h1, h2⟩ := ih h
      exact ⟨by rw [h1, total_cons, Nat.add_assoc], fun _ => h2 (by omega)⟩

lemma locate_append {pos : Nat} {es es' : List ChunkEntry} {accum : Nat} :
    locate pos (es ++ es') accum = match locate pos es accum with
      | (some e, a) => (some e, a)
      | (none, a) => locate pos es' a := by
  induction es generalizing accum with
  | nil => rfl
  | cons e es ih =>
    simp only [List.cons_append, locate]
    by_cases hlt : pos < accum + e.size
    · rw [if_pos hlt, if_pos hlt]
    · rw [if_neg hlt, if_neg hlt]
      exact ih

/-- The entry found covers the position. -/
lemma locate_some {pos : Nat} {es : List ChunkEntry} {accum a : Nat} {e : ChunkEntry}
    (hpos : accum ≤ pos) (h : locate pos es accum = (some e, a)) :
    ∃ es₁ es₂, es = es₁ ++ e :: es₂ ∧ a = accum + total es₁ ∧ a ≤ pos ∧ pos < a + e.size := by
  induction es generalizing accum with
  | nil => cases h
  | cons x es ih =>
    simp only [locate] at h
    by_cases hlt : pos < accum + x.size
    · rw [if_pos hlt] at h
      cases h
      exact ⟨[], es, rfl, rfl, hpos, hlt⟩
    · rw [if_neg hlt] at h
      obtain ⟨es₁, es₂, rfl, ha, h1, h2⟩ := ih (by omega) h
      exact ⟨x :: es₁, es₂, rfl, by rw [ha, total_cons, Nat.add_assoc], h1, h2⟩

/-- The loop over a block searches the entries it holds. -/
lemma ll_search_block_eq {m : Mem} {pos : Nat} {es : List ChunkEntry} :
    ∀ {n i accum : Nat}, (∀ k e, es[k]? = some e → arr_get m (i + k) = e) → es.length ≤ n →
      (∀ k, es.length ≤ k → k < n → (arr_get m (i + k)).size = 0) → (∀ e ∈ es, 0 < e.size) →
      accum + total es < 2 ^ 63 →
      ll_search_block m pos n i accum = ((locate pos es accum).1, ((locate pos es accum).2 : Int)) := by
  induction es with
  | nil =>
    intro n i accum _ _ hzero _ _
    cases n with
    | zero => rfl
    | succ n =>
      have h0 := hzero 0 (Nat.zero_le _) (Nat.succ_pos n)
      rw [Nat.add_zero] at h0
      simp only [ll_search_block, h0]
      rfl
  | cons e es ih =>
    intro n i accum hold hlen hzero hsize htotal
    rw [List.length_cons] at hlen
    rw [List.forall_mem_cons] at hsize
    rw [total_cons] at htotal
    obtain ⟨n, rfl⟩ : ∃ k, n = k + 1 := ⟨n - 1, by omega⟩
    have he := hold 0 e rfl
    rw [Nat.add_zero] at he
    simp only [ll_search_block, locate, he]
    rw [if_neg (by omega), ssize_add (by omega)]
    by_cases hlt : pos < accum + e.size
    · rw [if_pos (by exact_mod_cast hlt), if_pos hlt]
    · rw [if_neg (by exact_mod_cast hlt), if_neg hlt]
      refine ih (fun k x hx => ?_) (by omega) (fun k h1 h2 => ?_) hsize.2 (by omega)
      · rw [Nat.add_assoc, Nat.add_comm 1]
        exact hold (k + 1) x hx
      · rw [Nat.add_assoc, Nat.add_comm 1]
        exact hzero (k + 1) (by rw [List.length_cons]; omega) (by omega)

/-- The search of a list finds the entry of the position, or zeroes past the end. -/
lemma ll_search_left_eq {d : Dev} {pos : Nat} {blocks : List Nat} {es : List ChunkEntry}
    (h : ListOk d blocks es) : ∀ {fuel accum head : Nat}, blocks.head? = some head →
      blocks.length ≤ fuel → (∀ b ∈ blocks, b < d.nblocks) → (∀ e ∈ es, 0 < e.size) →
      accum + total es < 2 ^ 63 → accum ≤ pos →
      ll_search_left d pos fuel head accum
        = some ((locate pos es accum).1.getD ⟨0, 0⟩, ((locate pos es accum).2 : Int)) := by
  induction h with
  | @last b es hlen hold hzero hnext =>
    intro fuel accum head hhead hfuel hin hsize htotal hpos
    obtain rfl : b = head := by simpa using hhead
    obtain ⟨fuel, rfl⟩ : ∃ k, fuel = k + 1 := ⟨fuel - 1, by simp at hfuel; omega⟩
    have hblock := @ll_search_block_eq (d.bh.mem b) pos es (entries_per_block d) 0 accum
      (by simpa [BlockHolds] using hold) hlen (by simpa using hzero) hsize htotal
    simp only [ll_search_left, hblock]
    rw [if_neg (by omega), if_pos (hin b (by simp))]
    cases hl : (locate pos es accum).1 with
    | some e => rfl
    | none => simp [hnext]
  | @cons b b' bs es es' hlen hold hnext hne hes _ ih =>
    intro fuel accum head hhead hfuel hin hsize htotal hpos
    obtain rfl : b = head := by simpa using hhead
    obtain ⟨fuel, rfl⟩ : ∃ k, fuel = k + 1 := ⟨fuel - 1, by simp at hfuel; omega⟩
    rw [total_append] at htotal
    have hblock := @ll_search_block_eq (d.bh.mem b) pos es (entries_per_block d) 0 accum
      (by simpa [BlockHolds] using hold) (by omega) (by omega) (fun e he => hsize e (by simp [he]))
      (by omega)
    simp only [ll_search_left, hblock]
    rw [if_neg (by omega), if_pos (hin b (by simp)), locate_append]
    rcases hl : locate pos es accum with ⟨_ | e, a⟩
    · obtain ⟨ha, hle⟩ := locate_none hl
      simp only [hnext]
      rw [if_neg hne]
      exact ih rfl (by simp at hfuel ⊢; omega) (fun x hx => hin x (List.mem_cons_of_mem _ hx))
        (fun e he => hsize e (by simp [he])) (by omega) (hle hpos)
    · rfl

/-- The `i`-th block of the list that starts at `head`. -/
def list_block (d : Dev) (head : Nat) : Nat → Nat
  | 0 => head
  | i + 1 => list_block d (ptr_next d (d.bh.mem head)) i

/-- The blocks of a list are those reached from its head. -/
lemma ListOk.list_block {d : Dev} {blocks : List Nat} {es : List ChunkEntry}
    (h : ListOk d blocks es) : ∀ {head i b : Nat}, blocks.head? = some head →
      blocks[i]? = some b → list_block d head i = b := by
  induction h with
  | last _ _ _ _ =>
    intro head i b hhead hi
    obtain rfl := Option.some.inj hhead
    obtain ⟨hlt, rfl⟩ := List.getElem?_eq_some_iff.1 hi
    obtain rfl : i = 0 := by simpa using hlt
    rfl
  | cons _ _ hnext _ _ _ ih =>
    intro head i b hhead hi
    obtain rfl := Option.some.inj hhead
    cases i with
    | zero => exact Option.some.inj hi
    | succ i =>
      rw [CominixFs.list_block, hnext]
      exact ih rfl hi

end CominixFs
