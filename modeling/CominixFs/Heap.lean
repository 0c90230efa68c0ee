import CominixFs.HeapAlloc

/-!
# The heap as a list of chunks

The abstract heap is the list of stored chunks, the last one first. `HeapOk` says that a flat memory
holds it: the chunks lie one above the other, each header and data is as stored, and the bucket words
and `next` fields link the chunks of each bucket from the last stored to the first.

`HeapOk.congr` is the frame rule, `HeapOk.push` the insertion of a chunk and
`HeapOk.search_chain_eq` the walk of a bucket.
-/

namespace CominixFs
open Bytes

/-- A stored chunk. -/
structure Stored where
  loc : Nat
  hash : Nat
  data : List UInt8

/-- One past the last byte of a chunk. -/
def Stored.stop (c : Stored) : Nat := c.loc + (24 + c.data.length)

/-- The location of the last stored chunk of bucket `i`, or 0. -/
def bucketHead (nb i : Nat) : List Stored → Nat
  | [] => 0
  | c :: cs => if c.hash % nb = i then c.loc else bucketHead nb i cs

/-- The location of the chunk with this hash, or 0. -/
def lookup (h : Nat) : List Stored → Nat
  | [] => 0
  | c :: cs => if c.hash = h then c.loc else lookup h cs

/-- The memory holds the header and the data of a chunk. -/
structure Holds (m : Mem) (c : Stored) : Prop where
  hash : le m c.loc 8 = c.hash
  length : le m (c.loc + 8) 4 = c.data.length
  data : slice m (c.loc + 24) c.data.length = c.data

/-- The `next` field of each chunk is the chunk stored before it in its bucket. -/
def Linked (m : Mem) (nb : Nat) : List Stored → Prop
  | [] => True
  | c :: cs => le m (c.loc + 16) 8 = bucketHead nb (c.hash % nb) cs ∧ Linked m nb cs

/-- A memory with a hashtable of `nb` buckets at `ht` holds the chunks below `brk`. -/
structure HeapOk (m : Mem) (bs ht nb brk : Nat) (cs : List Stored) : Prop where
  apart : cs.Pairwise fun c c' => c'.stop ≤ c.loc
  above : ∀ c ∈ cs, ht + nb * 8 ≤ c.loc
  below : ∀ c ∈ cs, c.stop ≤ brk
  head : ∀ c ∈ cs, c.loc % bs + 24 ≤ bs
  hash_lt : ∀ c ∈ cs, c.hash < 2 ^ 64
  size : ∀ c ∈ cs, 0 < c.data.length ∧ c.data.length < 2 ^ 32
  nodup : (cs.map Stored.hash).Nodup
  holds : ∀ c ∈ cs, Holds m c
  linked : Linked m nb cs
  bucket : ∀ i < nb, le m (ht + i * 8) 8 = bucketHead nb i cs

lemma bucketHead_mem {nb i : Nat} {cs : List Stored} (h : bucketHead nb i cs ≠ 0) :
    ∃ c ∈ cs, c.loc = bucketHead nb i cs ∧ c.hash % nb = i := by
  induction cs with
  | nil => exact absurd rfl h
  | cons c cs ih =>
    simp only [bucketHead] at h ⊢
    by_cases hc : c.hash % nb = i
    · rw [if_pos hc]
      exact ⟨c, List.mem_cons_self, rfl, hc⟩
    · rw [if_neg hc] at h ⊢
      obtain ⟨c', hmem, hc'⟩ := ih h
      exact ⟨c', List.mem_cons_of_mem _ hmem, hc'⟩

lemma lookup_eq_of_mem {c : Stored} {cs : List Stored} (nd : (cs.map Stored.hash).Nodup)
    (h : c ∈ cs) : lookup c.hash cs = c.loc := by
  induction cs with
  | nil => cases h
  | cons d cs ih =>
    rw [List.map_cons, List.nodup_cons] at nd
    simp only [lookup]
    cases h with
    | head => rw [if_pos rfl]
    | tail _ h =>
      have hne : d.hash ≠ c.hash := fun e => nd.1 (e ▸ List.mem_map_of_mem h)
      rw [if_neg hne, ih nd.2 h]

lemma lookup_eq_zero {h : Nat} {cs : List Stored} (hn : ∀ c ∈ cs, c.hash ≠ h) :
    lookup h cs = 0 := by
  induction cs with
  | nil => rfl
  | cons c cs ih =>
    rw [List.forall_mem_cons] at hn
    simp only [lookup]
    rw [if_neg hn.1, ih hn.2]

lemma lookup_mem {h : Nat} {cs : List Stored} (hn : lookup h cs ≠ 0) :
    ∃ c ∈ cs, c.hash = h ∧ c.loc = lookup h cs := by
  induction cs with
  | nil => exact absurd rfl hn
  | cons c cs ih =>
    simp only [lookup] at hn ⊢
    by_cases hc : c.hash = h
    · rw [if_pos hc]
      exact ⟨c, List.mem_cons_self, hc, rfl⟩
    · rw [if_neg hc] at hn ⊢
      obtain ⟨c', hmem, hc'⟩ := ih hn
      exact ⟨c', List.mem_cons_of_mem _ hmem, hc'⟩

/-- A chunk's header and data depend on its own bytes only. -/
lemma Holds.congr {m m' : Mem} {c : Stored} (h : Holds m c)
    (agree : ∀ a, c.loc ≤ a → a < c.stop → m' a = m a) : Holds m' c := by
  unfold Stored.stop at agree
  refine ⟨?_, ?_, ?_⟩
  · rw [← h.hash]
    exact le_congr fun i h1 h2 => agree i (by omega) (by omega)
  · rw [← h.length]
    exact le_congr fun i h1 h2 => agree i (by omega) (by omega)
  · conv_rhs => rw [← h.data]
    exact slice_congr fun i h1 h2 => agree i (by omega) (by omega)

lemma Linked.congr {m m' : Mem} {nb : Nat} {cs : List Stored} (h : Linked m nb cs)
    (agree : ∀ c ∈ cs, ∀ a, c.loc ≤ a → a < c.stop → m' a = m a) : Linked m' nb cs := by
  induction cs with
  | nil => trivial
  | cons c cs ih =>
    rw [List.forall_mem_cons] at agree
    refine ⟨?_, ih h.2 agree.2⟩
    rw [← h.1]
    apply le_congr
    intro i h1 h2
    exact agree.1 i (by omega) (by unfold Stored.stop; omega)

/-- Nothing outside the table and the heap matters. -/
lemma HeapOk.congr {m m' : Mem} {bs ht nb brk : Nat} {cs : List Stored}
    (ok : HeapOk m bs ht nb brk cs) (hbrk : ht + nb * 8 ≤ brk)
    (agree : ∀ a, ht ≤ a → a < brk → m' a = m a) : HeapOk m' bs ht nb brk cs := by
  have hin : ∀ c ∈ cs, ∀ a, c.loc ≤ a → a < c.stop → m' a = m a := by
    intro c hc a h1 h2
    have := ok.above c hc
    have := ok.below c hc
    exact agree a (by omega) (by omega)
  refine { ok with
    holds := fun c hc => (ok.holds c hc).congr (hin c hc)
    linked := ok.linked.congr hin
    bucket := ?_ }
  intro i hi
  rw [← ok.bucket i hi]
  have : (i + 1) * 8 ≤ nb * 8 := Nat.mul_le_mul_right _ hi
  exact le_congr fun a h1 h2 => agree a (by omega) (by omega)

/-- A chunk written above the break, linked in front of its bucket, is one more chunk. -/
lemma HeapOk.push {m m' : Mem} {bs ht nb brk : Nat} {cs : List Stored} {c : Stored}
    (ok : HeapOk m bs ht nb brk cs) (hnb : 0 < nb) (habove : ht + nb * 8 ≤ brk)
    (hbrk : brk ≤ c.loc) (hhead : c.loc % bs + 24 ≤ bs) (hhash : c.hash < 2 ^ 64)
    (hsize : 0 < c.data.length ∧ c.data.length < 2 ^ 32) (hnew : ∀ c' ∈ cs, c'.hash ≠ c.hash)
    (hholds : Holds m' c) (hnext : le m' (c.loc + 16) 8 = bucketHead nb (c.hash % nb) cs)
    (hbucket : le m' (ht + c.hash % nb * 8) 8 = c.loc)
    (agree : ∀ a, ht ≤ a → a < brk → (a < ht + c.hash % nb * 8 ∨ ht + c.hash % nb * 8 + 8 ≤ a) →
      m' a = m a) : HeapOk m' bs ht nb c.stop (c :: cs) := by
  have hstop : c.stop = c.loc + (24 + c.data.length) := rfl
  have hin : ∀ c' ∈ cs, ∀ a, c'.loc ≤ a → a < c'.stop → m' a = m a := by
    intro c' hc' a h1 h2
    have h3 := ok.above c' hc'
    have h4 := ok.below c' hc'
    have h5 : c.hash % nb + 1 ≤ nb := Nat.mod_lt _ hnb
    have h6 : (c.hash % nb + 1) * 8 ≤ nb * 8 := Nat.mul_le_mul_right _ h5
    exact agree a (by omega) (by omega) (by omega)
  refine ⟨?_, ?_, ?_, ?_, ?_, ?_, ?_, ?_, ⟨hnext, ok.linked.congr hin⟩, ?_⟩
  · rw [List.pairwise_cons]
    exact ⟨fun c' hc' => (ok.below c' hc').trans hbrk, ok.apart⟩
  · exact List.forall_mem_cons.2 ⟨habove.trans hbrk, ok.above⟩
  · refine List.forall_mem_cons.2 ⟨le_refl _, fun c' hc' => ?_⟩
    have := ok.below c' hc'
    omega
  · exact List.forall_mem_cons.2 ⟨hhead, ok.head⟩
  · exact List.forall_mem_cons.2 ⟨hhash, ok.hash_lt⟩
  · exact List.forall_mem_cons.2 ⟨hsize, ok.size⟩
  · rw [List.map_cons, List.nodup_cons]
    refine ⟨fun hmem => ?_, ok.nodup⟩
    obtain ⟨c', hc', he⟩ := List.mem_map.1 hmem
    exact hnew c' hc' he
  · exact List.forall_mem_cons.2 ⟨hholds, fun c' hc' => (ok.holds c' hc').congr (hin c' hc')⟩
  · intro i hi
    simp only [bucketHead]
    by_cases hci : c.hash % nb = i
    · subst hci
      rw [if_pos rfl, hbucket]
    · rw [if_neg hci, ← ok.bucket i hi]
      have h6 : (i + 1) * 8 ≤ nb * 8 := Nat.mul_le_mul_right _ hi
      exact le_congr fun a h1 h2 => agree a (by omega) (by omega) (by omega)

/-- Chunks take room: there are no more of them than bytes below the break. -/
lemma length_le_of_apart {cs : List Stored} {brk : Nat}
    (apart : cs.Pairwise fun c c' => c'.stop ≤ c.loc) (below : ∀ c ∈ cs, c.stop ≤ brk) :
    cs.length ≤ brk := by
  induction cs generalizing brk with
  | nil => exact Nat.zero_le _
  | cons c cs ih =>
    rw [List.pairwise_cons] at apart
    have h1 := ih apart.2 apart.1
    have h2 := below c List.mem_cons_self
    unfold Stored.stop at h2
    rw [List.length_cons]
    omega

/-- The walk of a bucket finds the chunk with the hash, or runs off the end of the chain. -/
lemma search_chain_eq {d : Dev} {nb h : Nat} {cs : List Stored} (hn : d.nblocks ≤ 2 ^ 32)
    (linked : Linked d.flat nb cs) (holds : ∀ c ∈ cs, Holds d.flat c)
    (place : ∀ c ∈ cs, 0 < c.loc ∧ c.loc % d.bs + 24 ≤ d.bs ∧ c.stop ≤ d.nblocks * d.bs) :
    ∀ {fuel}, cs.length < fuel →
      search_chain d h fuel (bucketHead nb (h % nb) cs) = some (lookup h cs) := by
  induction cs with
  | nil =>
    intro fuel hf
    obtain ⟨fuel, rfl⟩ : ∃ k, fuel = k + 1 := ⟨fuel - 1, by simp at hf; omega⟩
    simp [search_chain, bucketHead, lookup]
  | cons c cs ih =>
    intro fuel hf
    rw [List.length_cons] at hf
    rw [List.forall_mem_cons] at holds place
    have ih := @ih linked.2 holds.2 place.2
    simp only [bucketHead, lookup]
    by_cases hb : c.hash % nb = h % nb
    · obtain ⟨fuel, rfl⟩ : ∃ k, fuel = k + 1 := ⟨fuel - 1, by omega⟩
      obtain ⟨h0, hhead, hstop⟩ := place.1
      have hload : load_blockoff d c.loc = some (c.loc / d.bs, c.loc % d.bs) :=
        load_blockoff_eq h0 (by unfold Stored.stop at hstop; omega) hn
      have hhash : le (d.bh.mem (c.loc / d.bs)) (c.loc % d.bs) 8 = c.hash := by
        have := d.le_mem (a := c.loc) (k := 0) (w := 8) (by omega)
        rw [Nat.add_zero, Nat.add_zero, holds.1.hash] at this
        exact this
      have hnext : le (d.bh.mem (c.loc / d.bs)) (c.loc % d.bs + 16) 8 = bucketHead nb (h % nb) cs := by
        rw [d.le_mem (by omega), linked.1, hb]
      rw [if_pos hb]
      simp only [search_chain, hload, hhash, hnext]
      rw [if_neg (by omega)]
      by_cases hc : c.hash = h
      · rw [if_pos hc, if_pos hc]
      · rw [if_neg hc, if_neg hc]
        exact ih (by omega)
    · have hc : c.hash ≠ h := fun e => hb (by rw [e])
      rw [if_neg hb, if_neg hc]
      exact ih (by omega)

end CominixFs
