import CominixFs.FreeCount
import CominixFs.NameRun
import Mathlib.Data.Finset.Max

/-!
# Inode numbers (`bitmap.c`, `namei.c`, `inode.c`)

`cominix_new_inode` takes a number by its bit and `cominix_evict_inode` gives it back. An inode bitmap
that is right (`ImapOk`) stays right through every sequence of operations on names, whatever changes of
pages fail in them, and an operation that fails takes no number and gives none back (`call_imap`). So
a new inode gets the lowest number left, and what `cominix_statfs` reports is how many can still be
made (`inodes_counted`).
-/

namespace CominixFs
open Bitmap

namespace NameFs

/-- The numbers of no inode. -/
def free_inodes (s : NameFs) : Finset Nat :=
  (Finset.Icc 1 s.sbi.s_ninodes).filter fun i => (s.inodes i).isSome = false

/-- The numbers of the inodes. -/
def used_inodes (s : NameFs) : Finset Nat :=
  (Finset.Icc 1 s.sbi.s_ninodes).filter fun i => (s.inodes i).isSome = true

/-- The inode bitmap is right, as it is made with an image: every number has its bit, which is clear
when it is free, and the bits that stand for no number are set. -/
structure ImapOk (s : NameFs) : Prop where
  bits : 9 ≤ s.s_blocksize_bits ∧ s.s_blocksize_bits ≤ 12
  imap_blocks : s.sbi.s_imap_blocks < 2 ^ 16
  ninodes : s.sbi.s_ninodes < s.sbi.s_imap_blocks * s.bits_per_zone
  ino : ∀ i, (s.inodes i).isSome = true → 0 < i ∧ i ≤ s.sbi.s_ninodes
  bit : ∀ i < s.sbi.s_imap_blocks * s.bits_per_zone, s.ibit i = false ↔ i ∈ s.free_inodes

/-- `n` calls of `cominix_new_inode`, and the results. -/
def new_inodes (mode : Ftype) : Nat → NameFs → NameFs × List (Except DirErr Nat)
  | 0, s => (s, [])
  | n + 1, s => ((new_inodes mode n (cominix_new_inode s mode true).1).1,
      (cominix_new_inode s mode true).2 :: (new_inodes mode n (cominix_new_inode s mode true).1).2)

/-- The bits are those of the inodes, the lowest number left is given out, and as many can be given
out as are reported. -/
structure InodesCounted (s : NameFs) : Prop where
  bit : ∀ i, 0 < i → i ≤ s.sbi.s_ninodes → (s.ibit i = true ↔ (s.inodes i).isSome = true)
  lowest : ∀ mode, (cominix_new_inode s mode true).2 =
    if h : s.free_inodes.Nonempty then .ok (s.free_inodes.min' h) else .error .ENOSPC
  calls : ∀ mode n, (∀ r ∈ (new_inodes mode n s).2, r.isOk = true) ↔ n ≤ s.free_inodes.card
  statfs : ∀ m : SuperBlock, m.vol.sbi = s.sbi → m.vol.dev.s_blocksize_bits = s.s_blocksize_bits →
    m.s_imap = s.s_imap → (cominix_statfs m).f_ffree = s.free_inodes.card ∧
    (cominix_statfs m).f_ffree + s.used_inodes.card = (cominix_statfs m).f_files

/-! ## States with the same numbers taken -/

/-- The same numbers are taken in both, with the same bits. -/
structure SameTable (s s' : NameFs) : Prop where
  sbi : s'.sbi = s.sbi
  s_blocksize_bits : s'.s_blocksize_bits = s.s_blocksize_bits
  ibit : ∀ i, s'.ibit i = s.ibit i
  isSome : ∀ i, (s'.inodes i).isSome = (s.inodes i).isSome

variable {s s' s'' t : NameFs} {ino i : Nat} {mode : Ftype} {memory : Bool}

lemma mem_free_inodes :
    i ∈ s.free_inodes ↔ 0 < i ∧ i ≤ s.sbi.s_ninodes ∧ (s.inodes i).isSome = false := by
  unfold free_inodes
  rw [Finset.mem_filter, Finset.mem_Icc, and_assoc]
  rfl

/-- The size of the bitmap stays, so the table and the bits are all there is to show. -/
lemma ImapOk.of_table (ok : s.ImapOk) (hsbi : s'.sbi = s.sbi)
    (hbits : s'.s_blocksize_bits = s.s_blocksize_bits)
    (hino : ∀ i, (s'.inodes i).isSome = true → 0 < i ∧ i ≤ s.sbi.s_ninodes)
    (hbit : ∀ i < s.sbi.s_imap_blocks * s.bits_per_zone, s'.ibit i = false ↔ i ∈ s'.free_inodes) :
    s'.ImapOk := by
  have hw : s'.bits_per_zone = s.bits_per_zone := by
    unfold bits_per_zone
    rw [hbits]
  refine ⟨?_, ?_, ?_, ?_, ?_⟩
  · rw [hbits]
    exact ok.bits
  · rw [hsbi]
    exact ok.imap_blocks
  · rw [hsbi, hw]
    exact ok.ninodes
  · rw [hsbi]
    exact hino
  · rw [hsbi, hw]
    exact hbit

namespace SameTable

lemma refl (s : NameFs) : SameTable s s := ⟨rfl, rfl, fun _ => rfl, fun _ => rfl⟩

lemma trans (h : SameTable s s') (h' : SameTable s' s'') : SameTable s s'' :=
  ⟨h'.sbi.trans h.sbi, h'.s_blocksize_bits.trans h.s_blocksize_bits,
    fun i => (h'.ibit i).trans (h.ibit i), fun i => (h'.isSome i).trans (h.isSome i)⟩

lemma modify (h : SameTable s t) (i : Nat) (f : Node → Node) : SameTable s (t.modify i f) :=
  h.trans ⟨rfl, rfl, fun _ => rfl, fun j => t.modify_isSome i j f⟩

lemma on_dir (h : SameTable s t) (d : Nat) (r : Directory × Option DirErr) :
    SameTable s (t.on_dir d r).1 := h.modify d _

lemma inc (h : SameTable s t) (i : Nat) : SameTable s (inode_inc_link_count t i) := h.modify i _

lemma dec (h : SameTable s t) (i : Nat) : SameTable s (inode_dec_link_count t i) := h.modify i _

lemma free_inodes (h : SameTable s t) : t.free_inodes = s.free_inodes := by
  ext i
  rw [mem_free_inodes, mem_free_inodes, h.sbi, h.isSome]

lemma imapOk (h : SameTable s t) (ok : s.ImapOk) : t.ImapOk := by
  refine ok.of_table h.sbi h.s_blocksize_bits (fun i hi => ?_) fun i hi => ?_
  · rw [h.isSome] at hi
    exact ok.ino i hi
  · rw [h.ibit, h.free_inodes]
    exact ok.bit i hi

end SameTable

/-! ## Taking and giving back a number -/

/-- The number the scan stops at is in the bitmap, and is the first whose bit is clear. -/
lemma new_inode_loop_first {i j : Nat} (h : new_inode_loop s = some (i, j)) :
    i < s.sbi.s_imap_blocks ∧ ∀ n < j + i * s.bits_per_zone, s.ibit n = true := by
  obtain ⟨i', hi', hf, hbefore⟩ := (List.findSome?_range_eq_some _).1 h
  dsimp only at hf
  split at hf
  · rename_i hlt
    cases hf
    refine ⟨hi', fun n hn => ?_⟩
    have hmod := Nat.mod_lt n s.bits_per_zone_pos
    have hle : n / s.bits_per_zone ≤ i := by
      apply Nat.lt_succ_iff.1
      apply (Nat.div_lt_iff_lt_mul s.bits_per_zone_pos).2
      rw [Nat.succ_mul]
      omega
    unfold ibit bitAt
    rcases Nat.lt_or_eq_of_le hle with hblock | hblock
    · have hnone := hbefore _ hblock
      dsimp only at hnone
      split at hnone
      · cases hnone
      · exact (find_first_zero_bit_spec _ s.bits_per_zone).2.1 _ (by omega)
    · have hdm := Nat.div_add_mod' n s.bits_per_zone
      rw [hblock] at hdm ⊢
      exact (find_first_zero_bit_spec _ s.bits_per_zone).2.1 _ (by omega)
  · cases hf

/-- When the scan finds nothing every bit is set. -/
lemma new_inode_loop_none (h : new_inode_loop s = none) :
    ∀ n < s.sbi.s_imap_blocks * s.bits_per_zone, s.ibit n = true := by
  intro n hn
  have hnone := List.findSome?_range_eq_none.1 h (n / s.bits_per_zone)
    ((Nat.div_lt_iff_lt_mul s.bits_per_zone_pos).2 hn)
  dsimp only at hnone
  have hmod := Nat.mod_lt n s.bits_per_zone_pos
  unfold ibit bitAt
  split at hnone
  · cases hnone
  · exact (find_first_zero_bit_spec _ s.bits_per_zone).2.1 _ (by omega)

lemma ImapOk.lt (ok : s.ImapOk) (h : i ∈ s.free_inodes) :
    i < s.sbi.s_imap_blocks * s.bits_per_zone :=
  (mem_free_inodes.1 h).2.1.trans_lt ok.ninodes

/-- A bit of the bitmap that is set stands for no free number. -/
lemma ImapOk.set (ok : s.ImapOk) (h : s.ibit i = true) : i ∉ s.free_inodes := by
  intro hmem
  rw [(ok.bit i (ok.lt hmem)).2 hmem] at h
  cases h

/-- The outcomes of `cominix_new_inode`: no memory, no number left, or the lowest number. -/
lemma ImapOk.new_inode (ok : s.ImapOk) (mode : Ftype) (memory : Bool) :
    (memory = false ∧ cominix_new_inode s mode memory = (s, .error .ENOMEM)) ∨
    (s.free_inodes = ∅ ∧ cominix_new_inode s mode memory = (s, .error .ENOSPC)) ∨
    ∃ s' ino, cominix_new_inode s mode memory = (s', .ok ino) ∧ ino ∈ s.free_inodes ∧
      ∀ i ∈ s.free_inodes, ino ≤ i := by
  cases memory with
  | false => exact .inl ⟨rfl, rfl⟩
  | true =>
    right
    unfold cominix_new_inode
    rw [if_neg (by decide)]
    cases hloop : new_inode_loop s with
    | none =>
      left
      refine ⟨Finset.eq_empty_of_forall_notMem fun i hi => ?_, rfl⟩
      exact ok.set (new_inode_loop_none hloop i (ok.lt hi)) hi
    | some p =>
      obtain ⟨i, j⟩ := p
      obtain ⟨hj, hbit⟩ := new_inode_loop_some hloop
      obtain ⟨hi, hfirst⟩ := new_inode_loop_first hloop
      have hlt : j + i * s.bits_per_zone < s.sbi.s_imap_blocks * s.bits_per_zone := by
        have := Nat.mul_le_mul_right s.bits_per_zone (Nat.succ_le_of_lt hi)
        rw [Nat.succ_mul] at this
        omega
      have hclear : s.ibit (j + i * s.bits_per_zone) = false := by
        unfold ibit bitAt
        rw [Nat.add_mul_div_right _ _ s.bits_per_zone_pos, Nat.div_eq_of_lt hj, Nat.zero_add,
          Nat.add_mul_mod_self_right, Nat.mod_eq_of_lt hj]
        exact hbit
      have hmem := (ok.bit _ hlt).1 hclear
      obtain ⟨hpos, hle, -⟩ := mem_free_inodes.1 hmem
      have hvalid : ¬ (j + i * s.bits_per_zone = 0 ∨ s.sbi.s_ninodes < j + i * s.bits_per_zone) := by
        omega
      right
      dsimp only
      rw [hbit, if_neg Bool.false_ne_true]
      refine ⟨_, j + i * s.bits_per_zone, if_neg hvalid, hmem, fun k hk => ?_⟩
      by_contra hlow
      exact ok.set (hfirst k (by omega)) hk

/-- When one number changes with its bit the bitmap stays right, and only that number is taken or given
back. -/
lemma ImapOk.change {b : Bool} (ok : s.ImapOk) (hsbi : s'.sbi = s.sbi)
    (hbits : s'.s_blocksize_bits = s.s_blocksize_bits) (hpos : 0 < ino) (hle : ino ≤ s.sbi.s_ninodes)
    (hsome : ∀ i, (s'.inodes i).isSome = if i = ino then b else (s.inodes i).isSome)
    (hbit : ∀ i, s'.ibit i = if i = ino then b else s.ibit i) :
    s'.ImapOk ∧ ∀ i, i ∈ s'.free_inodes ↔ if i = ino then b = false else i ∈ s.free_inodes := by
  have hfree : ∀ i, i ∈ s'.free_inodes ↔ if i = ino then b = false else i ∈ s.free_inodes := by
    intro i
    rw [mem_free_inodes, hsbi, hsome]
    split
    · rename_i he
      rw [he]
      exact ⟨fun h => h.2.2, fun h => ⟨hpos, hle, h⟩⟩
    · exact mem_free_inodes.symm
  refine ⟨ok.of_table hsbi hbits (fun i hi => ?_) fun i hi => ?_, hfree⟩
  · rw [hsome] at hi
    split at hi
    · rename_i he
      rw [he]
      exact ⟨hpos, hle⟩
    · exact ok.ino i hi
  · rw [hfree, hbit]
    split
    · exact Iff.rfl
    · exact ok.bit i hi

/-- A new inode takes its number, and no other. -/
lemma ImapOk.taken (ok : s.ImapOk) (h : cominix_new_inode s mode memory = (s', .ok ino)) :
    s'.ImapOk ∧ s'.free_inodes = s.free_inodes.erase ino := by
  obtain ⟨-, hpos, hle, hsbi, hbits, hinodes, hbit⟩ := new_inode_ok h
  obtain ⟨ok', hfree⟩ := ok.change (b := true) hsbi hbits hpos hle
    (fun i => by rw [hinodes, Function.update_apply]; split <;> rfl) hbit
  refine ⟨ok', ?_⟩
  ext i
  rw [hfree, Finset.mem_erase]
  split
  · rename_i he
    simp [he]
  · rename_i he
    simp [he]

lemma ImapOk.no_inode {err : DirErr} (ok : s.ImapOk)
    (h : cominix_new_inode s mode memory = (s', .error err)) : s' = s := by
  rcases ok.new_inode mode memory with ⟨-, heq⟩ | ⟨-, heq⟩ | ⟨t, ino, heq, -, -⟩
  · rw [heq] at h
    cases h
    rfl
  · rw [heq] at h
    cases h
    rfl
  · rw [heq] at h
    cases h

/-- `cominix_free_inode` clears the bit of a number. -/
lemma free_inode_bit (hpos : 0 < ino) (hle : ino ≤ s.sbi.s_ninodes)
    (h : s.sbi.s_ninodes < s.sbi.s_imap_blocks * s.bits_per_zone) :
    (cominix_free_inode s ino).ibit ino = false := by
  have hw : 2 ^ (s.s_blocksize_bits + 3) = s.bits_per_zone := by
    rw [bits_per_zone, Nat.pow_add, Nat.mul_comm]
  have hblock : ino / s.bits_per_zone < s.sbi.s_imap_blocks :=
    (Nat.div_lt_iff_lt_mul s.bits_per_zone_pos).2 (by omega)
  unfold cominix_free_inode
  rw [if_neg (by omega)]
  dsimp only
  rw [hw, if_neg (by omega), ibit_assign (Nat.mod_lt _ s.bits_per_zone_pos), Nat.div_add_mod',
    if_pos rfl]

/-- An inode without links goes, with its bit. -/
lemma ImapOk.gone (ok : s.ImapOk) (hsome : (s.inodes ino).isSome = true) (h : s.i_nlink ino = 0) :
    (∀ i, ((cominix_evict_inode s ino).inodes i).isSome
      = if i = ino then false else (s.inodes i).isSome) ∧
    ∀ i, (cominix_evict_inode s ino).ibit i = if i = ino then false else s.ibit i := by
  obtain ⟨hpos, hle⟩ := ok.ino ino hsome
  obtain ⟨-, -, hinodes, hbit⟩ := evict_unlinked s ino h
  refine ⟨fun i => ?_, fun i => ?_⟩
  · rw [hinodes, Function.update_apply]
    split
    · rfl
    · rfl
  · split
    · rename_i he
      rw [he]
      unfold cominix_evict_inode
      rw [if_pos h]
      exact free_inode_bit hpos hle ok.ninodes
    · rename_i hne
      exact hbit i hne

lemma ImapOk.evicted (ok : s.ImapOk) (hsome : (s.inodes ino).isSome = true) :
    (cominix_evict_inode s ino).ImapOk := by
  by_cases h : s.i_nlink ino = 0
  · obtain ⟨hpos, hle⟩ := ok.ino ino hsome
    obtain ⟨hsbi, hbits, -, -⟩ := evict_unlinked s ino h
    obtain ⟨hinodes, hbit⟩ := ok.gone hsome h
    exact (ok.change hsbi hbits hpos hle hinodes hbit).1
  · unfold cominix_evict_inode
    rw [if_neg h]
    exact ok

/-- A new inode that is dropped without links leaves nothing behind. -/
lemma ImapOk.dropped (ok : s.ImapOk) (hnew : cominix_new_inode s mode memory = (s', .ok ino))
    (h : SameTable s' t) (hz : t.i_nlink ino = 0) : SameTable s (cominix_evict_inode t ino) := by
  obtain ⟨hclear, hpos, hle, hsbi, hbits, hinodes, hbit⟩ := new_inode_ok hnew
  have hsome : (t.inodes ino).isSome = true := by
    rw [h.isSome, hinodes, Function.update_self]
    rfl
  have hfree : ino ∈ s.free_inodes := (ok.bit ino (hle.trans_lt ok.ninodes)).1 hclear
  obtain ⟨hesbi, hebits, -, -⟩ := evict_unlinked t ino hz
  obtain ⟨heinodes, hebit⟩ := (h.imapOk (ok.taken hnew).1).gone hsome hz
  refine ⟨hesbi.trans (h.sbi.trans hsbi), hebits.trans (h.s_blocksize_bits.trans hbits),
    fun i => ?_, fun i => ?_⟩
  · rw [hebit, h.ibit, hbit]
    split
    · rename_i he
      rw [he, hclear]
    · rfl
  · rw [heinodes, h.isSome, hinodes]
    split
    · rename_i he
      rw [he, (mem_free_inodes.1 hfree).2.2]
    · rename_i hne
      rw [Function.update_of_ne hne]

/-! ## The operations -/

/-- The bitmap stays right, and an operation that fails takes no number and gives none back. -/
def Counted (s : NameFs) (r : NameFs × Option DirErr) : Prop :=
  r.1.ImapOk ∧ (r.2 ≠ none → SameTable s r.1)

variable {d dir : Nat} {name : List UInt8}

lemma SameTable.counted {r : NameFs × Option DirErr} (h : SameTable s r.1) (ok : s.ImapOk) :
    Counted s r := ⟨h.imapOk ok, fun _ => h⟩

lemma new_inode_nlink (h : cominix_new_inode s mode memory = (s', .ok ino)) : s'.i_nlink ino = 1 := by
  obtain ⟨-, -, -, -, -, hinodes, -⟩ := new_inode_ok h
  rw [update_i_nlink hinodes, Function.update_self]
  rfl

lemma new_inode_isSome (h : cominix_new_inode s mode memory = (s', .ok ino)) :
    (s'.inodes ino).isSome = true := by
  obtain ⟨-, -, -, -, -, hinodes, -⟩ := new_inode_ok h
  rw [hinodes, Function.update_self]
  rfl

/-- The link count of the inode that is changed, and those of the others. -/
lemma relink_nlink {f : Nat → Nat} (h : (s.inodes ino).isSome = true) (i : Nat) :
    (s.relink ino f).i_nlink i = if i = ino then f (s.i_nlink ino) else s.i_nlink i := by
  rw [relink_i_nlink h, Function.update_apply]

/-- A new file gets its name, or is dropped. -/
lemma ImapOk.add_new (ok : s.ImapOk) (hnew : cominix_new_inode s mode memory = (s', .ok ino))
    (io : Commit) : Counted s (add_nondir s' d name ino io) := by
  have hsome := new_inode_isSome hnew
  unfold add_nondir
  rcases cominix_add_link (s'.dir d) name ino io with ⟨d', _ | err⟩
  · have h := (SameTable.refl s').on_dir d (d', none)
    exact ⟨h.imapOk (ok.taken hnew).1, fun hne => absurd rfl hne⟩
  · have h := (SameTable.refl s').on_dir d (d', some err)
    refine (ok.dropped hnew (h.dec ino) ?_).counted ok
    rw [inode_dec_eq, relink_nlink (by rw [h.isSome, hsome]), if_pos rfl, on_dir_eq, redir_i_nlink,
      new_inode_nlink hnew]
    decide

lemma ImapOk.mknod (ok : s.ImapOk) (rdev : Nat) (io : Commit) :
    Counted s (cominix_mknod s d name mode rdev memory io) := by
  unfold cominix_mknod
  split
  · exact (SameTable.refl s).counted ok
  · split
    · rename_i s' err hnew
      rw [ok.no_inode hnew]
      exact (SameTable.refl s).counted ok
    · rename_i s' ino hnew
      exact ok.add_new hnew io

lemma ImapOk.symlink (ok : s.ImapOk) (symname : List UInt8) (page_symlink : Option DirErr)
    (io : Commit) : Counted s (cominix_symlink s d name symname memory page_symlink io) := by
  unfold cominix_symlink
  split
  · exact (SameTable.refl s).counted ok
  · split
    · rename_i s' err hnew
      rw [ok.no_inode hnew]
      exact (SameTable.refl s).counted ok
    · rename_i s' ino hnew
      cases page_symlink with
      | none => exact ok.add_new hnew io
      | some err =>
        refine (ok.dropped hnew ((SameTable.refl s').dec ino) ?_).counted ok
        rw [inode_dec_eq, relink_nlink (new_inode_isSome hnew), if_pos rfl, new_inode_nlink hnew]
        decide

/-- An inode with links stays when it gets no name. -/
lemma link_same (hn : s.i_nlink ino ≠ 0) (hmax : s.i_nlink ino < s_max_links) (io : Commit) :
    SameTable s (cominix_link s ino d name io).1 := by
  have hinc := (SameTable.refl s).inc ino
  unfold cominix_link add_nondir
  rcases cominix_add_link ((inode_inc_link_count s ino).dir d) name ino io with ⟨d', _ | err⟩
  · exact hinc.on_dir d (d', none)
  · have h := hinc.on_dir d (d', some err)
    have hsome := isSome_of_nlink hn
    have hlinks : (inode_dec_link_count ((inode_inc_link_count s ino).on_dir d (d', some err)).1
        ino).i_nlink ino = s.i_nlink ino := by
      rw [inode_dec_eq, relink_nlink (by rw [h.isSome, hsome]), if_pos rfl, on_dir_eq, redir_i_nlink,
        inode_inc_eq, relink_nlink hsome, if_pos rfl, drop_inc_nlink hmax.le]
    have hstays : cominix_evict_inode (inode_dec_link_count
        ((inode_inc_link_count s ino).on_dir d (d', some err)).1 ino) ino
        = inode_dec_link_count ((inode_inc_link_count s ino).on_dir d (d', some err)).1 ino := by
      unfold cominix_evict_inode
      rw [hlinks, if_neg hn]
    change SameTable s (cominix_evict_inode (inode_dec_link_count
      ((inode_inc_link_count s ino).on_dir d (d', some err)).1 ino) ino)
    rw [hstays]
    exact h.dec ino

/-- `out_fail` of `cominix_mkdir` drops the new directory. -/
lemma ImapOk.mkdir_failed (ok : s.ImapOk) (hnew : cominix_new_inode s mode memory = (s', .ok ino))
    (h : SameTable s' t) (hlinks : t.i_nlink ino = 2) : SameTable s (mkdir_fail t dir ino) := by
  have hsome : (t.inodes ino).isSome = true := by
    rw [h.isSome, new_inode_isSome hnew]
  refine (ok.dropped hnew ((h.dec ino).dec ino) ?_).dec dir
  rw [inode_dec_eq, relink_nlink (by rw [(h.dec ino).isSome, new_inode_isSome hnew]), if_pos rfl,
    inode_dec_eq, relink_nlink hsome, if_pos rfl, hlinks]
  decide

lemma ImapOk.mkdir (ok : s.ImapOk) (hl : s.live dir = true) (make add : Commit) :
    Counted s (cominix_mkdir s dir name memory make add) := by
  unfold cominix_mkdir
  split
  · rename_i s' err hnew
    rw [ok.no_inode hnew]
    exact (SameTable.refl s).counted ok
  · rename_i s' ino hnew
    obtain ⟨-, -, hle, -, -, hinodes, -⟩ := new_inode_ok hnew
    -- the directory above is there, and the new one was not
    have hdir := isSome_of_live hl
    have hfree := (ok.bit ino (hle.trans_lt ok.ninodes)).1 (new_inode_ok hnew).1
    have hne : ino ≠ dir := by
      rintro rfl
      rw [(mem_free_inodes.1 hfree).2.2] at hdir
      cases hdir
    have hdir' : (s'.inodes dir).isSome = true := by
      rw [hinodes, Function.update_of_ne hne.symm]
      exact hdir
    have hinc := ((SameTable.refl s').inc dir).inc ino
    have hlinks : (inode_inc_link_count (inode_inc_link_count s' dir) ino).i_nlink ino = 2 := by
      rw [inode_inc_eq, relink_nlink
        (by rw [((SameTable.refl s').inc dir).isSome, new_inode_isSome hnew]), if_pos rfl,
        inode_inc_eq, relink_nlink hdir', if_neg hne, new_inode_nlink hnew]
      decide
    dsimp only
    rcases cominix_make_empty _ ino dir make with ⟨d₁, _ | err⟩
    · have hmade := hinc.on_dir ino (d₁, none)
      rw [on_dir_eq]
      dsimp only
      rcases cominix_add_link _ name ino add with ⟨d₂, _ | err⟩
      · have h := hmade.on_dir dir (d₂, none)
        exact ⟨h.imapOk (ok.taken hnew).1, fun hno => absurd rfl hno⟩
      · refine (ok.mkdir_failed hnew (hmade.on_dir dir (d₂, some err)) ?_).counted ok
        rw [on_dir_eq, on_dir_eq, redir_i_nlink, redir_i_nlink]
        exact hlinks
    · refine (ok.mkdir_failed hnew (hinc.on_dir ino (d₁, some err)) ?_).counted ok
      rw [on_dir_eq, redir_i_nlink]
      exact hlinks

lemma SameTable.unlink (h : SameTable s t) (d : Nat) (name : List UInt8) (ino : Nat) (io : Commit) :
    SameTable s (cominix_unlink t d name ino io).1 := by
  unfold cominix_unlink
  cases cominix_find_entry (t.dir d) name with
  | none => exact h
  | some p =>
    dsimp only
    rcases cominix_delete_entry (t.dir d) p.1 p.2 io with ⟨d', _ | err⟩
    · exact (h.on_dir d (d', none)).dec ino
    · exact h.on_dir d (d', some err)

lemma SameTable.rmdir (h : SameTable s t) (d : Nat) (name : List UInt8) (ino : Nat) (io : Commit) :
    SameTable s (cominix_rmdir t d name ino io).1 := by
  have hunlink := h.unlink d name ino io
  unfold cominix_rmdir
  split
  · rcases hr : cominix_unlink t d name ino io with ⟨t', _ | err⟩
    · rw [hr] at hunlink
      exact (hunlink.dec d).dec ino
    · rw [hr] at hunlink
      exact hunlink
  · exact h

lemma SameTable.rename_target (h : SameTable s t) (is_dir : Bool) (old_ino new_dir : Nat)
    (new_name : List UInt8) (new_ino : Option Nat) (io : Commit) :
    SameTable s (rename_target t is_dir old_ino new_dir new_name new_ino io).1 := by
  unfold CominixFs.rename_target
  cases new_ino with
  | some new_ino =>
    dsimp only
    split
    · exact h
    · cases cominix_find_entry (t.dir new_dir) new_name with
      | none => exact h
      | some p =>
        dsimp only
        rcases cominix_set_link (t.dir new_dir) p.1 p.2 old_ino io with ⟨d', _ | err⟩
        · have hset := h.on_dir new_dir (d', none)
          cases is_dir with
          | false => exact hset.dec new_ino
          | true => exact (hset.dec new_ino).dec new_ino
        · exact h.on_dir new_dir (d', some err)
  | none =>
    dsimp only
    rcases cominix_add_link (t.dir new_dir) new_name old_ino io with ⟨d', _ | err⟩
    · have hadd := h.on_dir new_dir (d', none)
      cases is_dir with
      | false => exact hadd
      | true => exact hadd.inc new_dir
    · exact h.on_dir new_dir (d', some err)

lemma SameTable.rename_source (h : SameTable s t) (is_dir : Bool) (old_dir n k old_ino new_dir : Nat)
    (delete above : Commit) :
    SameTable s (rename_source t is_dir old_dir n k old_ino new_dir delete above).1 := by
  unfold CominixFs.rename_source
  rcases cominix_delete_entry (t.dir old_dir) n k delete with ⟨d₁, _ | err⟩
  · have hdel := h.on_dir old_dir (d₁, none)
    cases is_dir with
    | false => exact hdel
    | true =>
      rw [on_dir_eq]
      dsimp only
      rw [if_pos rfl]
      rcases cominix_set_link _ cominix_dotdot.1 cominix_dotdot.2 new_dir above with ⟨d₂, _ | err⟩
      · exact (hdel.on_dir old_ino (d₂, none)).dec old_dir
      · exact hdel.on_dir old_ino (d₂, some err)
  · exact h.on_dir old_dir (d₁, some err)

lemma SameTable.rename (h : SameTable s t) (old_dir : Nat) (old_name : List UInt8)
    (old_ino new_dir : Nat) (new_name : List UInt8) (new_ino : Option Nat) (flags : Nat)
    (target delete above : Commit) :
    SameTable s (cominix_rename t old_dir old_name old_ino new_dir new_name new_ino flags target
      delete above).1 := by
  unfold cominix_rename
  split
  · exact h
  · cases cominix_find_entry (t.dir old_dir) old_name with
    | none => exact h
    | some p =>
      dsimp only
      have htarget := h.rename_target (t.S_ISDIR old_ino) old_ino new_dir new_name new_ino target
      rcases hr : CominixFs.rename_target t (t.S_ISDIR old_ino) old_ino new_dir new_name new_ino
        target with ⟨t', _ | err⟩
      · rw [hr] at htarget
        exact htarget.rename_source _ old_dir p.1 p.2 old_ino new_dir delete above
      · rw [hr] at htarget
        exact htarget

lemma SameTable.set_dead {r : NameFs × Option DirErr} (h : SameTable s r.1) (i : Nat) :
    SameTable s (set_dead i r).1 := by
  obtain ⟨t, _ | err⟩ := r
  · exact h.modify i _
  · exact h

/-- Every operation keeps the bitmap right, and one that fails leaves the numbers as they were. -/
lemma call_imap {op : NameOp} {r : NameFs × Option DirErr} (ok : s.ImapOk)
    (hc : s.call op = some r) : Counted s r := by
  have hsame := SameTable.refl s
  cases op with
  | create dir name memory io =>
    obtain ⟨-, rfl⟩ := checked hc
    exact ok.mknod 0 io
  | mknod dir name mode rdev memory io =>
    obtain ⟨-, rfl⟩ := checked hc
    exact ok.mknod rdev io
  | symlink dir name symname memory page_symlink io =>
    obtain ⟨-, rfl⟩ := checked hc
    exact ok.symlink symname page_symlink io
  | link ino dir name io =>
    obtain ⟨⟨-, -, hn, hmax⟩, rfl⟩ := checked hc
    exact (link_same hn hmax io).counted ok
  | mkdir dir name memory make add =>
    obtain ⟨⟨⟨hl, -⟩, -⟩, rfl⟩ := checked hc
    exact ok.mkdir hl make add
  | unlink dir name io =>
    obtain ⟨-, rfl⟩ := checked hc
    exact (hsame.unlink dir name _ io).counted ok
  | rmdir dir name io =>
    obtain ⟨-, rfl⟩ := checked hc
    exact ((hsame.rmdir dir name _ io).set_dead _).counted ok
  | rename old_dir old_name new_dir new_name flags target delete above =>
    obtain ⟨-, rfl⟩ := checked hc
    have h := hsame.rename old_dir old_name (s.lookup old_dir old_name) new_dir new_name
      (if s.lookup new_dir new_name = 0 then none else some (s.lookup new_dir new_name)) flags
      target delete above
    split
    · exact (h.set_dead _).counted ok
    · exact h.counted ok
  | evict ino =>
    obtain ⟨hsome, rfl⟩ := checked hc
    exact ⟨ok.evicted hsome, fun hne => absurd rfl hne⟩

lemma run_imap {C : NameFs → NameOp → Prop} {ops : List NameOp} (ok : s.ImapOk)
    (run : Run step C s ops s') : s'.ImapOk := by
  refine run.inv (fun _ h hs => ?_) ok
  obtain ⟨r, hc, rfl⟩ := Option.map_eq_some_iff.1 hs
  exact (call_imap h hc).1

/-! ## What is reported -/

/-- The number that the next inode gets. -/
lemma ImapOk.lowest (ok : s.ImapOk) (mode : Ftype) : (cominix_new_inode s mode true).2 =
    if h : s.free_inodes.Nonempty then .ok (s.free_inodes.min' h) else .error .ENOSPC := by
  rcases ok.new_inode mode true with ⟨hno, -⟩ | ⟨hnone, heq⟩ | ⟨s', ino, heq, hmem, hlow⟩
  · cases hno
  · rw [heq, dif_neg (Finset.not_nonempty_iff_eq_empty.2 hnone)]
  · rw [heq, dif_pos ⟨ino, hmem⟩]
    exact congrArg Except.ok (le_antisymm (hlow _ (Finset.min'_mem _ _)) (Finset.min'_le _ _ hmem))

/-- As many calls succeed as there are numbers left. -/
lemma ImapOk.calls (mode : Ftype) : ∀ n s, ImapOk s →
    ((∀ r ∈ (new_inodes mode n s).2, r.isOk = true) ↔ n ≤ s.free_inodes.card) := by
  intro n
  induction n with
  | zero => exact fun s _ => ⟨fun _ => Nat.zero_le _, fun _ r hr => by cases hr⟩
  | succ n ih =>
    intro s ok
    change (∀ r ∈ (cominix_new_inode s mode true).2 :: _, _) ↔ _
    rw [List.forall_mem_cons]
    rcases ok.new_inode mode true with ⟨hno, -⟩ | ⟨hnone, heq⟩ | ⟨s', ino, heq, hmem, -⟩
    · cases hno
    · rw [heq, hnone, Finset.card_empty]
      constructor
      · rintro ⟨hfirst, -⟩
        cases hfirst
      · intro hn
        cases hn
    · obtain ⟨ok', hfree⟩ := ok.taken heq
      have hpos := Finset.card_pos.2 ⟨ino, hmem⟩
      rw [heq, ih s' ok', hfree, Finset.card_erase_of_mem hmem]
      constructor
      · rintro ⟨-, hn⟩
        omega
      · intro hn
        exact ⟨rfl, by omega⟩

/-- The blocks counted are in the bitmap, and every number has its bit in them. -/
lemma ImapOk.needed (ok : s.ImapOk) {counted : Nat}
    (h : cominix_blocks_needed (s.sbi.s_ninodes + 1) (2 ^ s.s_blocksize_bits) = counted) :
    s.sbi.s_ninodes < counted * s.bits_per_zone ∧
      counted * s.bits_per_zone ≤ s.sbi.s_imap_blocks * s.bits_per_zone ∧
      counted * s.bits_per_zone < 2 ^ 32 := by
  have hninodes := ok.ninodes
  have hblocks := ok.imap_blocks
  have hw := s.bits_per_zone_pos
  have hw' : s.bits_per_zone ≤ 8 * 4096 :=
    Nat.mul_le_mul_left 8 (Nat.pow_le_pow_right (by decide) ok.bits.2)
  have hmap : s.sbi.s_imap_blocks * s.bits_per_zone ≤ (2 ^ 16 - 1) * (8 * 4096) :=
    Nat.mul_le_mul (by omega) hw'
  have hcounted : counted = (s.sbi.s_ninodes + 1 + (s.bits_per_zone - 1)) / s.bits_per_zone := by
    rw [← h, cominix_blocks_needed, Nat.mul_comm (2 ^ s.s_blocksize_bits) 8, ← bits_per_zone,
      Nat.mod_eq_of_lt (by omega : s.sbi.s_ninodes + 1 < 2 ^ 32), Nat.mod_eq_of_lt (by omega)]
  have hcover := Nat.lt_mul_div_succ (s.sbi.s_ninodes + 1 + (s.bits_per_zone - 1)) hw
  rw [← hcounted, Nat.mul_add, Nat.mul_one, Nat.mul_comm] at hcover
  have hle : counted ≤ s.sbi.s_imap_blocks := by
    rw [hcounted]
    apply Nat.lt_succ_iff.1
    apply (Nat.div_lt_iff_lt_mul hw).2
    rw [Nat.succ_mul]
    omega
  have := Nat.mul_le_mul_right s.bits_per_zone hle
  exact ⟨by omega, by omega, by omega⟩

/-- The count is that of the numbers left. -/
lemma ImapOk.count (ok : s.ImapOk) {m : SuperBlock} (hsbi : m.vol.sbi = s.sbi)
    (hbits : m.vol.dev.s_blocksize_bits = s.s_blocksize_bits) (himap : m.s_imap = s.s_imap) :
    cominix_count_free_inodes m = s.free_inodes.card := by
  obtain ⟨hcover, hle, hlt⟩ := ok.needed rfl
  have heven : 2 ^ s.s_blocksize_bits % 2 = 0 :=
    Nat.mod_eq_zero_of_dvd (dvd_pow_self 2 (by have := ok.bits.1; omega))
  unfold cominix_count_free_inodes Dev.bs
  rw [himap, hsbi, hbits, count_free_eq heven (Nat.two_pow_pos _) rfl hlt, zeros,
    Nat.count_eq_card_filter_range]
  congr 1
  ext i
  rw [Finset.mem_filter, Finset.mem_range]
  constructor
  · rintro ⟨hi, hclear⟩
    exact (ok.bit i (hi.trans_le hle)).1 hclear
  · intro hi
    exact ⟨(mem_free_inodes.1 hi).2.1.trans_lt hcover, (ok.bit i (ok.lt hi)).2 hi⟩

/-- A number is free or that of an inode. -/
lemma card_free_add_used (s : NameFs) :
    s.free_inodes.card + s.used_inodes.card = s.sbi.s_ninodes := by
  have h := Finset.card_filter_add_card_filter_not (s := Finset.Icc 1 s.sbi.s_ninodes)
    fun i => (s.inodes i).isSome = false
  simp only [Bool.not_eq_false, Nat.card_Icc, Nat.add_sub_cancel] at h
  exact h

lemma ImapOk.inodesCounted (ok : s.ImapOk) : s.InodesCounted := by
  refine ⟨fun i hpos hle => ?_, ok.lowest, fun mode n => ok.calls mode n, fun m hsbi hbits himap => ?_⟩
  · have h := ok.bit i (hle.trans_lt ok.ninodes)
    rw [mem_free_inodes] at h
    cases hb : s.ibit i with
    | false =>
      rw [(h.1 hb).2.2]
    | true =>
      rw [hb] at h
      cases hs : (s.inodes i).isSome with
      | false => cases h.2 ⟨hpos, hle, hs⟩
      | true => exact Iff.rfl
  · have hcount : (cominix_statfs m).f_ffree = s.free_inodes.card := ok.count hsbi hbits himap
    refine ⟨hcount, ?_⟩
    rw [hcount, card_free_add_used, ← hsbi]
    rfl

/-- From an inode bitmap that is right on, after every sequence of operations on names, whatever
changes of pages fail in it, the bits are those of the inodes, the next inode gets the lowest number
left, as many can be made as `cominix_statfs` reports, and an operation that fails changes none of
this. -/
theorem inodes_counted {ops : List NameOp} (ok : s.ImapOk)
    (run : Run step (fun _ _ => True) s ops s') :
    s'.InodesCounted ∧ ∀ op r err, s'.call op = some (r, some err) →
      r.InodesCounted ∧ r.free_inodes = s'.free_inodes := by
  have ok' := run_imap ok run
  refine ⟨ok'.inodesCounted, fun op r err hc => ?_⟩
  obtain ⟨hr, hsame⟩ := call_imap ok' hc
  exact ⟨hr.inodesCounted, (hsame (Option.some_ne_none err)).free_inodes⟩

lemma mkfs_image_imap : mkfs_image.ImapOk := by
  have hsome : ∀ i, (mkfs_image.inodes i).isSome = decide (i = 1) := by
    intro i
    change (Function.update (fun _ => none) 1 (some (⟨.dir, 2, false, mkfs_root⟩ : Node)) i).isSome = _
    rw [Function.update_apply]
    split
    · rename_i he
      simp [he]
    · rename_i he
      simp [he]
  refine ⟨by decide, by decide, by decide, fun i hi => ?_, fun i hi => ?_⟩
  · rw [hsome] at hi
    rw [of_decide_eq_true hi]
    decide
  · have hi : i < 8192 := hi
    rw [mem_free_inodes, hsome]
    change (decide (i % 8192 < 2) || decide (16 < i % 8192)) = false ↔ 0 < i ∧ i ≤ 16 ∧ _
    rw [Nat.mod_eq_of_lt hi, Bool.or_eq_false_iff, decide_eq_false_iff_not, decide_eq_false_iff_not,
      decide_eq_false_iff_not]
    omega

/-- A run with a file and a directory that get no name, a file whose name is not synced, a call
without memory, and a number that is given back. -/
def number_run : List NameOp :=
  [.create 1 [97] true (.prepare_failed .ENOSPC), .mkdir 1 [98] true .done (.prepare_failed .ENOSPC),
    .create 1 [99] true (.dirsync_failed DirErr.EIO), .create 1 [100] false .done,
    .create 1 [100] true .done, .mkdir 1 [101] true .done .done, .unlink 1 [100] .done, .evict 2]

theorem inodes_counted_run : ∃ s', Run step (fun _ _ => True) mkfs_image number_run s' ∧
    s'.InodesCounted ∧ ∀ op r err, s'.call op = some (r, some err) →
      r.InodesCounted ∧ r.free_inodes = s'.free_inodes := by
  have hrun : (number_run.foldlM (fun (s : NameFs) (op : NameOp) => if True then s.step op else none)
      mkfs_image).isSome = true := by
    decide +kernel
  obtain ⟨s', h⟩ := Option.isSome_iff_exists.1 hrun
  have run := Run.of_foldlM h
  exact ⟨s', run, inodes_counted mkfs_image_imap run⟩

end NameFs

end CominixFs
