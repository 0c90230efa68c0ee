import CominixFs.Lib.Runs
import CominixFs.HashtableMap
import CominixFs.LinkedList

/-!
# Runs of `ll_append` and the search after them

Whatever is appended to a zeroed head block is stored in order along the next pointers, and the
search of a position returns the entry whose bytes it falls in (`unrolled_list`).
-/

namespace CominixFs
open Bytes

/-- The volume, the last block and the number of entries. -/
structure AppendRun where
  vol : Vol
  last : Nat
  ll_size : Nat

def append_step (s : AppendRun) (e : ChunkEntry) : Option AppendRun :=
  (ll_append s.vol s.last s.ll_size e).map fun r => ⟨r.1, r.2.1, r.2.2⟩

/-- An entry of two 64-bit fields that is not empty. -/
def EntryOk (e : ChunkEntry) : Prop := e.location < 2 ^ 64 ∧ 0 < e.size ∧ e.size < 2 ^ 64

/-- A block size of 512 to 4096 bytes, a bitmap that covers the normal area inside the device, and
a zeroed block of it in use. -/
structure HeadOk (v : Vol) (head : Nat) : Prop where
  bits : 9 ≤ v.dev.s_blocksize_bits ∧ v.dev.s_blocksize_bits ≤ 12
  zmap : ZmapOk v
  nzones_le : v.sbi.s_nzones ≤ v.dev.nblocks
  area : InArea v head
  used : zbit v head = true
  zero : v.dev.bh.mem head = fun _ => 0

/-- The blocks from the head to the last one hold the entries in order. -/
structure Holding (d : Dev) (head last : Nat) (es : List ChunkEntry) (blocks : List Nat) : Prop where
  head : blocks.head? = some head
  last : blocks.getLast? = some last
  nodup : blocks.Nodup
  list : ListOk d blocks es

/-- The entry of a position: the sum of the sizes before it is at most the position, and with its
own it is larger. -/
def Covers (es : List ChunkEntry) (pos k : Nat) : Prop :=
  k < es.length ∧ total (es.take k) ≤ pos ∧ pos < total (es.take (k + 1))

/-- What a search returns. -/
inductive Found (es : List ChunkEntry) (pos : Nat) : Option (ChunkEntry × Int) → Prop where
  | past :
    total es ≤ pos →
    Found es pos (some (⟨0, 0⟩, (total es : Nat)))
  | entry {k e} :
    pos < total es →
    es[k]? = some e →
    Covers es pos k →
    (∀ j, Covers es pos j → j = k) →
    Found es pos (some (e, (total (es.take k) : Nat)))

lemma entries_per_block_pos_512 {d : Dev} (h : 9 ≤ d.s_blocksize_bits) : 0 < entries_per_block d := by
  have : 2 ^ 9 ≤ d.bs := Nat.pow_le_pow_right Nat.two_pos h
  unfold entries_per_block
  omega

/-- The invariant of a run of appends. -/
structure AppendInv (v : Vol) (head : Nat) (s : AppendRun) (es : List ChunkEntry) : Prop where
  zmap : ZmapStep v s.vol
  size : s.ll_size = es.length
  holding : ∃ init, Holding s.vol.dev head s.last es (init ++ [s.last]) ∧
    ∀ b ∈ init ++ [s.last], InArea v b ∧ zbit s.vol b = true

lemma HeadOk.start {v : Vol} {head : Nat} (ok : HeadOk v head) : AppendInv v head ⟨v, head, 0⟩ [] := by
  refine ⟨.refl v, rfl, [], ⟨rfl, rfl, by simp, ?_⟩, ?_⟩
  · refine .last (Nat.zero_le _) (fun i e h => by simp at h) (fun i _ _ => ?_) ?_
    · dsimp only
      rw [ok.zero, arr_get_zero]
    · dsimp only
      rw [ok.zero]
      exact ptr_next_zero _
  · intro b hb
    rw [List.nil_append, List.mem_singleton] at hb
    subst hb
    exact ⟨ok.area, ok.used⟩

/-- One more entry at the end. -/
lemma AppendInv.step {v : Vol} {head : Nat} {s s' : AppendRun} {es : List ChunkEntry} {e : ChunkEntry}
    (ok : HeadOk v head) (inv : AppendInv v head s es) (he : EntryOk e)
    (h : append_step s e = some s') : AppendInv v head s' (es ++ [e]) := by
  obtain ⟨init, hold, hblocks⟩ := inv.holding
  unfold append_step at h
  obtain ⟨r, hr, rfl⟩ := Option.map_eq_some_iff.1 h
  rw [inv.size] at hr
  have hzmap := ok.zmap.step inv.zmap
  have hbits : 9 ≤ s.vol.dev.s_blocksize_bits := by
    rw [inv.zmap.bits]
    exact ok.bits.1
  have hin : ∀ b ∈ init ++ [s.last], b < s.vol.dev.nblocks := by
    intro b hb
    rw [inv.zmap.nblocks]
    exact lt_of_lt_of_le (hblocks b hb).1.2 ok.nzones_le
  obtain ⟨v', news, init', b', hrun, hinit, hlist, happ⟩ := ll_append_spec
    (entries_per_block_pos_512 hbits) hzmap hold.list hold.nodup (fun b hb => (hblocks b hb).2)
    (hin _ (by simp)) (by rw [inv.zmap.nzones, inv.zmap.nblocks]; exact ok.nzones_le)
    ⟨he.1, he.2.2⟩ (ll_append_room hzmap hr)
  rw [hr, Option.some.injEq] at hrun
  subst hrun
  have hfree : ∀ b ∈ news, b ∉ init ++ [s.last] := by
    intro b hb hmem
    have h1 := (happ.free b hb).2
    rw [(hblocks b hmem).2] at h1
    cases h1
  refine ⟨inv.zmap.trans happ.toZmapStep, by dsimp only; rw [List.length_append]; rfl, init',
    ⟨?_, by rw [List.getLast?_append]; rfl, ?_, hlist⟩, ?_⟩
  · dsimp only
    rw [hinit, List.head?_append, hold.head]
    rfl
  · dsimp only
    rw [hinit]
    refine List.nodup_append.2 ⟨hold.nodup, happ.nodup, ?_⟩
    rintro b hb c hc rfl
    exact hfree b hc hb
  · intro b hb
    dsimp only at hb ⊢
    rw [hinit] at hb
    rcases List.mem_append.1 hb with hb | hb
    · have harea := (hblocks b hb).1
      exact ⟨harea, (happ.zbit b (inv.zmap.inArea.2 harea)).2 (.inr (hblocks b hb).2)⟩
    · have harea := (happ.free b hb).1
      exact ⟨inv.zmap.inArea.1 harea, (happ.zbit b harea).2 (.inl hb)⟩

lemma total_take_le (es : List ChunkEntry) {j k : Nat} (h : j ≤ k) :
    total (es.take j) ≤ total (es.take k) := by
  rw [show k = j + (k - j) by omega, List.take_add, total_append]
  omega

/-- Only one entry covers a position. -/
lemma Covers.unique {es : List ChunkEntry} {pos j k : Nat} (hj : Covers es pos j)
    (hk : Covers es pos k) : j = k := by
  obtain ⟨-, hj1, hj2⟩ := hj
  obtain ⟨-, hk1, hk2⟩ := hk
  rcases Nat.lt_trichotomy j k with h | h | h
  · have := total_take_le es (show j + 1 ≤ k from h)
    omega
  · exact h
  · have := total_take_le es (show k + 1 ≤ j from h)
    omega

/-- The search of the entries is what a search should return. -/
lemma locate_found (es : List ChunkEntry) (pos : Nat) :
    Found es pos (some ((locate pos es 0).1.getD ⟨0, 0⟩, ((locate pos es 0).2 : Nat))) := by
  rcases hl : locate pos es 0 with ⟨_ | e, a⟩
  · obtain ⟨ha, hle⟩ := locate_none hl
    rw [Nat.zero_add] at ha
    subst ha
    exact .past (hle (Nat.zero_le _))
  · obtain ⟨es₁, es₂, rfl, ha, h1, h2⟩ := locate_some (Nat.zero_le _) hl
    rw [Nat.zero_add] at ha
    subst ha
    have htake : (es₁ ++ e :: es₂).take es₁.length = es₁ := List.take_left
    have hcov : Covers (es₁ ++ e :: es₂) pos es₁.length := by
      refine ⟨by simp, by rw [htake]; exact h1, ?_⟩
      rw [List.take_add_one, htake, total_append, List.getElem?_append_right (Nat.le_refl _)]
      simpa using h2
    have hmem : (es₁ ++ e :: es₂)[es₁.length]? = some e := by simp
    have hfound := Found.entry (e := e) (by rw [total_append, total_cons]; omega) hmem hcov
      fun j hj => hj.unique hcov
    rwa [htake] at hfound

/-- After any run of appends to a zeroed head block the blocks hold the entries in order, and the
search of every position finds the entry that covers it, while the sizes sum to less than 2^63. -/
theorem unrolled_list {v : Vol} {head : Nat} (ok : HeadOk v head) {es : List ChunkEntry}
    {s : AppendRun} (run : Run append_step (fun _ e => EntryOk e) ⟨v, head, 0⟩ es s) :
    s.ll_size = es.length ∧ (∃ blocks, Holding s.vol.dev head s.last es blocks) ∧
      (∀ i < entries_per_block s.vol.dev, 16 * i + 16 ≤ s.vol.dev.bs - 4) ∧
      (total es < 2 ^ 63 → ∀ pos : Nat, Found es pos (ll_search_left s.vol.dev pos (2 ^ 96) head 0)) := by
  have key : ∀ {s₀ : AppendRun} {es₀ es : List ChunkEntry} {s : AppendRun},
      Run append_step (fun _ e => EntryOk e) s₀ es s → AppendInv v head s₀ es₀ →
        AppendInv v head s (es₀ ++ es) ∧ ∀ e ∈ es, EntryOk e := by
    intro s₀ es₀ es s run
    induction run generalizing es₀ with
    | nil => exact fun inv => ⟨by rwa [List.append_nil], by simp⟩
    | cons he hstep _ ih =>
      intro inv
      obtain ⟨h1, h2⟩ := ih (inv.step ok he hstep)
      rw [List.append_assoc] at h1
      exact ⟨h1, List.forall_mem_cons.2 ⟨he, h2⟩⟩
  obtain ⟨inv, hsize⟩ := key run ok.start
  rw [List.nil_append] at inv
  obtain ⟨init, hold, hblocks⟩ := inv.holding
  refine ⟨inv.size, ⟨_, hold⟩, fun i hi => entries_lt hi, fun htotal pos => ?_⟩
  have hnb := ok.zmap.nzones_lt
  have hin : ∀ b ∈ init ++ [s.last], b < s.vol.dev.nblocks := by
    intro b hb
    rw [inv.zmap.nblocks]
    exact lt_of_lt_of_le (hblocks b hb).1.2 ok.nzones_le
  -- distinct blocks of the normal area are fewer than the calls the search may take
  have hlen : (init ++ [s.last]).length ≤ 2 ^ 96 := by
    have hle : (init ++ [s.last]).length ≤ v.sbi.s_nzones := by
      have hsub : init ++ [s.last] ⊆ List.range v.sbi.s_nzones :=
        fun b hb => List.mem_range.2 (hblocks b hb).1.2
      have := List.Nodup.length_le_of_subset hold.nodup hsub
      rwa [List.length_range] at this
    have : (2 : Nat) ^ 31 ≤ 2 ^ 96 := Nat.pow_le_pow_right Nat.two_pos (by decide)
    omega
  have hsearch := @ll_search_left_eq s.vol.dev pos _ es hold.list (2 ^ 96) 0 head hold.head hlen
    hin (fun e he => (hsize e he).2.1) (by omega) (Nat.zero_le _)
  rw [Nat.cast_zero] at hsearch
  rw [hsearch]
  exact locate_found es pos

/-- `vol64K` with zone 7 in use. -/
def vol64K_used : Vol :=
  { vol64K with s_zmap := ⟨fun _ i => i == 0 || i == 2, fun _ i => i == 0 || i == 2, fun _ => false⟩ }

lemma vol64K_head : HeadOk vol64K_used 7 :=
  ⟨by decide, ⟨by decide, by decide, by decide, by decide, by decide⟩, by decide,
    ⟨by decide, by decide⟩, by decide, rfl⟩

/-- Two entries, and the search of the fourth byte. -/
theorem unrolled_list_two : ∃ s, Run append_step (fun _ e => EntryOk e) ⟨vol64K_used, 7, 0⟩
      [⟨8208, 3⟩, ⟨8300, 5⟩] s ∧ s.ll_size = 2 ∧
    Found [⟨8208, 3⟩, ⟨8300, 5⟩] 3 (ll_search_left s.vol.dev 3 (2 ^ 96) 7 0) := by
  have h : ((append_step ⟨vol64K_used, 7, 0⟩ ⟨8208, 3⟩).bind fun s =>
      (append_step s ⟨8300, 5⟩).map fun s => s.ll_size) = some 2 := by
    decide +kernel
  simp only [Option.bind_eq_some_iff, Option.map_eq_some_iff] at h
  obtain ⟨s₁, h1, s₂, h2, hsize⟩ := h
  have run : Run append_step (fun _ e => EntryOk e) ⟨vol64K_used, 7, 0⟩
      [⟨8208, 3⟩, ⟨8300, 5⟩] s₂ :=
    .cons (by unfold EntryOk; decide) h1 (.cons (by unfold EntryOk; decide) h2 (.nil _))
  exact ⟨s₂, run, hsize, (unrolled_list vol64K_head run).2.2.2 (by decide) 3⟩

/-- An entry of 2^63 bytes is not found: its size counts as negative. -/
theorem search_overflows : ∃ s, Run append_step (fun _ e => EntryOk e) ⟨vol64K_used, 7, 0⟩
      [⟨8208, 2 ^ 63⟩] s ∧ ¬ Found [⟨8208, 2 ^ 63⟩] 0 (ll_search_left s.vol.dev 0 (2 ^ 96) 7 0) := by
  have h : ((append_step ⟨vol64K_used, 7, 0⟩ ⟨8208, 2 ^ 63⟩).map fun s =>
      ll_search_left s.vol.dev 0 (2 ^ 96) 7 0) = some (some (⟨0, 0⟩, -2 ^ 63)) := by
    decide +kernel
  obtain ⟨s, hs, hsearch⟩ := Option.map_eq_some_iff.1 h
  refine ⟨s, .cons (by unfold EntryOk; decide) hs (.nil _), fun hfound => ?_⟩
  rw [hsearch] at hfound
  generalize hr : some ((⟨0, 0⟩ : ChunkEntry), (-2 ^ 63 : Int)) = r at hfound
  cases hfound with
  | past hle => exact absurd hle (by decide)
  | entry _ _ _ _ =>
    have := (Prod.mk.inj (Option.some.inj hr)).2
    omega

end CominixFs
