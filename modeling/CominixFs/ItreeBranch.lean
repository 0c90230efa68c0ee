import CominixFs.ItreeFree

/-!
# The branch of a path (`get_branch`, `find_shared`)

`get_branch` follows a path from the inode down to its end or to the first hole on it, and leaves
the entries on the way (`get_branch_spec`). `climb` goes back up over the indirect blocks that hold
nothing before the path (`climb_entries`).
-/

namespace CominixFs
open Bytes Forest

/-- Where the entry of a path lies. -/
def ptr (t : Forest) : List Nat → Ptr
  | [] => .i_data 0
  | [k] => .i_data k
  | j :: k :: p => .word (t.node (k :: p)) j

/-- The entry of a path. -/
def entry (t : Forest) (p : List Nat) : Indirect := ⟨ptr t p, t.node p⟩

/-- The entries on a path, the last one first. -/
def entries (t : Forest) : List Nat → List Indirect
  | [] => []
  | j :: p => entry t (j :: p) :: entries t p

/-- The blocks above the end of a path are there. -/
def Live (t : Forest) (p : List Nat) : Prop := ∀ q, q ≠ [] → q <:+ p → q ≠ p → t.node q ≠ 0

variable {v : Vol} {inode : Inode} {z : Nat → Nat} {t t' : Forest} {p q r : List Nat} {n : Nat}

lemma ptr_cons (hp : p ≠ []) (j : Nat) : ptr t (j :: p) = .word (t.node p) j := by
  cases p with
  | nil => exact absurd rfl hp
  | cons k p => rfl

@[simp] lemma entries_length (p : List Nat) : (entries t p).length = p.length := by
  induction p with
  | nil => rfl
  | cons j p ih => rw [entries, List.length_cons, List.length_cons, ih]

lemma Live.cons (h : Live t p) (h0 : p ≠ [] → t.node p ≠ 0) (j : Nat) : Live t (j :: p) := by
  intro q hq hs hne
  rcases List.suffix_cons_iff.1 hs with he | hs
  · exact absurd he hne
  · by_cases hqp : q = p
    · subst hqp
      exact h0 hq
    · exact h q hq hs hqp

lemma Live.tail {j : Nat} (h : Live t (j :: p)) : Live t p ∧ (p ≠ [] → t.node p ≠ 0) := by
  refine ⟨fun q hq hs hne => h q hq (hs.trans (List.suffix_cons j p)) fun e => ?_,
    fun hp => h p hp (List.suffix_cons j p) (List.cons_ne_self j p).symm⟩
  have := hs.length_le
  rw [e, List.length_cons] at this
  omega

/-- The entry of a live path reads its block. -/
lemma ptr_get (h : Live (forest v inode.i_data) p) (hp : p ≠ []) :
    (ptr (forest v inode.i_data) p).get v inode = (forest v inode.i_data).node p := by
  cases p with
  | nil => exact absurd rfl hp
  | cons j p =>
    cases p with
    | nil => rfl
    | cons k p => exact (node_cons_of_ne (by simp) (h.tail.2 (by simp)) j).symm

lemma verify_entries (h : Live (forest v inode.i_data) p) :
    verify_chain v inode (entries (forest v inode.i_data) p) = true := by
  induction p with
  | nil => rfl
  | cons j p ih =>
    rw [verify_chain, entries, List.all_cons, Bool.and_eq_true]
    refine ⟨?_, ih h.tail.1⟩
    rw [beq_iff_eq, entry, ptr_get h (by simp)]

lemma verify_reverse (chain : List Indirect) :
    verify_chain v inode chain.reverse = verify_chain v inode chain := by
  simp [verify_chain]

/-- `get_branch` goes down to the end of the path or to the first hole. -/
lemma get_branch_loop_spec (hblocks : ∀ q m, (shape v).Path q m →
      (forest v inode.i_data).node q < v.dev.nblocks) : ∀ {offsets p n},
    (shape v).Path (offsets.reverse ++ p) n → p ≠ [] → Live (forest v inode.i_data) p →
    ∃ r, p <:+ r ∧ r <:+ offsets.reverse ++ p ∧ Live (forest v inode.i_data) r ∧
      (r = offsets.reverse ++ p ∨ (forest v inode.i_data).node r = 0) ∧
      get_branch_loop v inode (entries (forest v inode.i_data) p.tail).reverse
        (entry (forest v inode.i_data) p) offsets
        = ⟨(entries (forest v inode.i_data) r).reverse, (forest v inode.i_data).node r != 0, none⟩ := by
  intro offsets
  induction offsets with
  | nil =>
    intro p n hpath hp hlive
    refine ⟨p, List.suffix_refl _, List.suffix_append _ _, hlive, .inl rfl, ?_⟩
    obtain ⟨j, p, rfl⟩ := List.exists_cons_of_ne_nil hp
    simp only [get_branch_loop, entries, List.reverse_cons, List.tail_cons]
    rfl
  | cons off offsets ih =>
    intro p n hpath hp hlive
    obtain ⟨m, hm⟩ := hpath.of_append hp
    have hrev : (off :: offsets).reverse ++ p = offsets.reverse ++ (off :: p) := by simp
    have hchain : (entries (forest v inode.i_data) p.tail).reverse
        ++ [entry (forest v inode.i_data) p] = (entries (forest v inode.i_data) p).reverse := by
      obtain ⟨j, p, rfl⟩ := List.exists_cons_of_ne_nil hp
      simp [entries]
    simp only [get_branch_loop, hchain, verify_reverse, verify_entries hlive]
    by_cases h0 : (forest v inode.i_data).node p = 0
    · refine ⟨p, List.suffix_refl _, List.suffix_append _ _, hlive, .inr h0, ?_⟩
      rw [if_pos (by exact h0), h0]
      rfl
    · have hlt := hblocks p m hm
      rw [if_neg (by exact h0), if_neg (by simp only [entry]; omega), if_pos trivial]
      have hentry : (⟨.word (entry (forest v inode.i_data) p).key off,
          v.dev.word (entry (forest v inode.i_data) p).key off⟩ : Indirect)
          = entry (forest v inode.i_data) (off :: p) := by
        rw [entry, entry, ptr_cons hp, node_cons_of_ne hp h0]
        rfl
      rw [hentry, hrev]
      rw [hrev] at hpath
      obtain ⟨r, h1, h2, h3, h4, h5⟩ := ih hpath (by simp) (hlive.cons (fun _ => h0) off)
      exact ⟨r, (List.suffix_cons _ _).trans h1, h2, h3, h4, h5⟩

/-- Zones are blocks of the device. -/
lemma TreeOk.lt_nblocks (ok : TreeOk v z) (hn : v.sbi.s_nzones ≤ v.dev.nblocks)
    (h0 : 0 < v.dev.nblocks) (hp : (shape v).Path p n) : (forest v z).node p < v.dev.nblocks := by
  by_cases hz : (forest v z).node p = 0
  · rw [hz]
    exact h0
  · exact lt_of_lt_of_le (ok.zone _ ⟨hz, p, n, hp, rfl⟩).1.2 hn

/-- The branch of a path of the inode. -/
lemma get_branch_spec (ok : TreeOk v inode.i_data) (hn : v.sbi.s_nzones ≤ v.dev.nblocks)
    (h0 : 0 < v.dev.nblocks) (hp : (shape v).Path p n) :
    ∃ r, r ≠ [] ∧ r <:+ p ∧ Live (forest v inode.i_data) r ∧
      (r = p ∨ (forest v inode.i_data).node r = 0) ∧
      get_branch v inode p.reverse
        = ⟨(entries (forest v inode.i_data) r).reverse, (forest v inode.i_data).node r != 0, none⟩ := by
  have hsplit : ∃ (l : List Nat) (k : Nat), p = l.reverse ++ [k] := by
    refine ⟨p.dropLast.reverse, p.getLast hp.ne_nil, ?_⟩
    rw [List.reverse_reverse, List.dropLast_append_getLast]
  obtain ⟨l, k, rfl⟩ := hsplit
  have hlive : Live (forest v inode.i_data) [k] := by
    intro q hq hs hne
    rcases List.suffix_cons_iff.1 hs with he | hs
    · exact absurd he hne
    · exact absurd (List.suffix_nil.1 hs) hq
  obtain ⟨r, h1, h2, h3, h4, h5⟩ := get_branch_loop_spec
    (fun q m hq => ok.lt_nblocks hn h0 hq) hp (by simp) hlive
  refine ⟨r, fun e => ?_, h2, h3, h4, ?_⟩
  · rw [e] at h1
    cases List.suffix_nil.1 h1
  · rw [List.reverse_append, List.reverse_reverse]
    exact h5

lemma all_zeroes_iff {d : Dev} {bh : Nat} : ∀ {k}, all_zeroes d bh k = true ↔
    ∀ j < k, d.word bh j = 0 := by
  intro k
  induction k with
  | zero => simp [all_zeroes]
  | succ k ih =>
    rw [all_zeroes, Bool.and_eq_true, beq_iff_eq, ih]
    constructor
    · rintro ⟨h1, h2⟩ j hj
      rcases Nat.lt_succ_iff_lt_or_eq.1 hj with hj | rfl
      · exact h2 j hj
      · exact h1
    · exact fun h => ⟨h k (Nat.lt_succ_self k), fun j hj => h j (Nat.lt_succ_of_lt hj)⟩

/-- The climb stops at a path above, and the blocks passed hold nothing before the path; the one it
stops in does. -/
lemma climb_entries : ∀ {p}, p ≠ [] → ∃ r, r ≠ [] ∧ r <:+ p ∧
    climb v (entries (forest v z) p) = entries (forest v z) r ∧
    (∀ i c, (i :: c) <:+ p → r <:+ c → ∀ j < i, v.dev.word ((forest v z).node c) j = 0) ∧
    ∀ i c, r = i :: c → c ≠ [] → ∃ j < i, v.dev.word ((forest v z).node c) j ≠ 0 := by
  intro p
  have hstop : ∀ p : List Nat, ∀ i c, (i :: c) <:+ p → p <:+ c →
      ∀ j < i, v.dev.word ((forest v z).node c) j = 0 := by
    intro p i c h1 h2
    have := h1.length_le
    have := h2.length_le
    simp at *
    omega
  induction p with
  | nil => exact fun h => absurd rfl h
  | cons i p ih =>
    intro _
    cases p with
    | nil =>
      refine ⟨[i], by simp, List.suffix_refl _, rfl, hstop _, fun i' c he hc => ?_⟩
      exact absurd (List.cons.inj he).2.symm hc
    | cons k p =>
      have hstep : climb v (entries (forest v z) (i :: k :: p))
          = if all_zeroes v.dev ((forest v z).node (k :: p)) i then
              climb v (entries (forest v z) (k :: p))
            else entries (forest v z) (i :: k :: p) := rfl
      rw [hstep]
      by_cases hz : all_zeroes v.dev ((forest v z).node (k :: p)) i = true
      · rw [if_pos hz]
        obtain ⟨r, hr, hs, heq, hzero, hlast⟩ := ih (by simp)
        refine ⟨r, hr, hs.trans (List.suffix_cons _ _), heq, fun i' c h1 h2 => ?_, hlast⟩
        rcases List.suffix_cons_iff.1 h1 with he | h1
        · obtain ⟨rfl, rfl⟩ := List.cons.inj he
          exact all_zeroes_iff.1 hz
        · exact hzero i' c h1 h2
      · rw [if_neg hz]
        refine ⟨_, by simp, List.suffix_refl _, rfl, hstop _, fun i' c he _ => ?_⟩
        obtain ⟨rfl, rfl⟩ := List.cons.inj he
        rw [all_zeroes_iff] at hz
        push Not at hz
        exact hz

end CominixFs
