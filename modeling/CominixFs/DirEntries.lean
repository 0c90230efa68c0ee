import CominixFs.Dir
import Mathlib.Data.List.Perm.Basic

/-!
# The entries of a directory

`slot` numbers the entries over all pages, `slots` lists those below the size, `entries` the live
ones and `children` the live ones other than `.` and `..`. The page-by-page operations of `Dir` are
characterised by these lists; `DirOk` is what holds of every directory that `cominix_make_empty`
started.
-/

namespace CominixFs

namespace Directory

def slot (d : Directory) (m : Nat) : Dirent := d.page (m / 64) (m % 64)

def nslots (d : Directory) : Nat := d.i_size / 64

def slots (d : Directory) : List Dirent := (List.range d.nslots).map d.slot

/-- The live entries. -/
def entries (d : Directory) : List Dirent := d.slots.filter fun de => de.inode ≠ 0

/-- The live entries other than `.` and `..`. -/
def children (d : Directory) : List Dirent :=
  d.entries.filter fun de => de.name ≠ pad dot ∧ de.name ≠ pad dotdot

/-- Store an entry and let the size grow to hold it. -/
def put (d : Directory) (m : Nat) (de : Dirent) : Directory :=
  dir_commit_chunk (d.store (m / 64) (m % 64) de) (m * 64) 64

/-- Two directories of one size with the same entries below it. -/
structure Same (d d' : Directory) : Prop where
  i_size : d'.i_size = d.i_size
  slot : ∀ m < d.nslots, d'.slot m = d.slot m

end Directory

/-- A name the VFS passes to an operation on a directory. -/
structure ValidName (name : List UInt8) : Prop where
  pos : 0 < name.length
  le : name.length ≤ s_namelen
  no_zero : 0 ∉ name
  ne_dot : name ≠ dot
  ne_dotdot : name ≠ dotdot

instance (name : List UInt8) : Decidable (ValidName name) :=
  decidable_of_iff (0 < name.length ∧ name.length ≤ s_namelen ∧ 0 ∉ name ∧ name ≠ dot ∧
      name ≠ dotdot)
    ⟨fun ⟨h1, h2, h3, h4, h5⟩ => ⟨h1, h2, h3, h4, h5⟩,
      fun h => ⟨h.pos, h.le, h.no_zero, h.ne_dot, h.ne_dotdot⟩⟩

/-- The directory of inode `ino`: whole entries, `.` and `..` first, and names the VFS passed. -/
structure DirOk (ino : Nat) (d : Directory) : Prop where
  aligned : d.i_size % 64 = 0
  two_le : 2 ≤ d.nslots
  dot : d.slot 0 = ⟨ino, pad dot⟩
  dotdot : (d.slot 1).name = pad dotdot
  dotdot_live : (d.slot 1).inode ≠ 0
  named : ∀ m < d.nslots, 2 ≤ m → (d.slot m).inode ≠ 0 →
    ∃ name, ValidName name ∧ (d.slot m).name = pad name

/-- A live entry of that name. -/
def Matches (de : Dirent) (name : List UInt8) : Prop :=
  de.inode ≠ 0 ∧ namecompare name.length s_namelen name de.name = true

/-! ## Names -/

lemma namecompare_pad {a b : List UInt8} (ha : 0 ∉ a) (hb : 0 ∉ b) (hal : a.length ≤ s_namelen)
    (hbl : b.length ≤ s_namelen) :
    namecompare a.length s_namelen a (pad b) = true ↔ a = b := by
  constructor
  · intro h
    unfold namecompare at h
    split at h
    · cases h
    · rename_i hstop
      have htake : a = (pad b).take a.length := by simpa using h
      cases Nat.lt_trichotomy a.length b.length with
      | inl hlt =>
        -- the byte after the name would be a byte of `b`
        exfalso
        apply hstop
        refine ⟨Nat.lt_of_lt_of_le hlt hbl, ?_⟩
        have hget : (pad b).getD a.length 0 = b[a.length] := by
          simp [pad, List.getD_eq_getElem?_getD, List.getElem?_append_left hlt, hlt]
        rw [hget]
        intro hz
        exact hb (hz ▸ List.getElem_mem hlt)
      | inr hge =>
        cases hge with
        | inl heq =>
          rw [htake, pad, heq, List.take_left]
        | inr hgt =>
          -- the zero after `b` would be a byte of `a`
          exfalso
          apply ha
          rw [htake, pad, List.take_append, List.mem_append]
          right
          have hne : min (a.length - b.length) (s_namelen - b.length) ≠ 0 := by omega
          rw [List.take_replicate]
          exact List.mem_replicate.2 ⟨hne, rfl⟩
  · intro h
    subst h
    unfold namecompare
    rw [if_neg]
    · simp [pad]
    · rintro ⟨-, hne⟩
      apply hne
      simp [pad, List.getD_eq_getElem?_getD, List.getElem?_append_right (Nat.le_refl a.length),
        List.getElem?_replicate]
      split <;> rfl

lemma pad_inj {a b : List UInt8} (ha : 0 ∉ a) (hb : 0 ∉ b) (hal : a.length ≤ s_namelen)
    (hbl : b.length ≤ s_namelen) (h : pad a = pad b) : a = b := by
  have hself := (namecompare_pad ha ha hal hal).2 rfl
  rw [h] at hself
  exact (namecompare_pad ha hb hal hbl).1 hself

lemma ValidName.pad_ne_dot {name : List UInt8} (h : ValidName name) : pad name ≠ pad dot :=
  fun he => h.ne_dot (pad_inj h.no_zero (by decide) h.le (by decide) he)

lemma ValidName.pad_ne_dotdot {name : List UInt8} (h : ValidName name) : pad name ≠ pad dotdot :=
  fun he => h.ne_dotdot (pad_inj h.no_zero (by decide) h.le (by decide) he)

/-! ## Pages and slots -/

/-- The pages and places the scans go through are the slots below the size. -/
lemma visited_iff {d : Directory} {n k : Nat} :
    n < dir_pages d ∧ k < cominix_last_byte d n / s_dirsize ↔ k < 64 ∧ 64 * n + k < d.nslots := by
  unfold dir_pages cominix_last_byte Directory.nslots PAGE_SIZE s_dirsize
  split <;> omega

lemma slot_page {d : Directory} {n k : Nat} (hk : k < 64) : d.slot (64 * n + k) = d.page n k := by
  have hdiv : (64 * n + k) / 64 = n := by omega
  have hmod : (64 * n + k) % 64 = k := by omega
  rw [Directory.slot, hdiv, hmod]

lemma page_slot {d : Directory} {m : Nat} : d.page (m / 64) (m % 64) = d.slot m := rfl

/-- The last byte of a page is reached at the first slot past the end. -/
lemma last_byte_iff {d : Directory} {n k : Nat} (ha : d.i_size % 64 = 0) (hk : k < 64) :
    k * s_dirsize = cominix_last_byte d n ↔ 64 * n + k = d.nslots := by
  unfold cominix_last_byte Directory.nslots PAGE_SIZE s_dirsize
  split <;> omega

/-- What `cominix_find_entry` finds is a live entry of that name. -/
lemma find_entry_some {d : Directory} {name : List UInt8} {n k : Nat}
    (h : cominix_find_entry d name = some (n, k)) :
    k < 64 ∧ 64 * n + k < d.nslots ∧ Matches (d.slot (64 * n + k)) name := by
  obtain ⟨i, hi, j, hj, hf, -, -⟩ := List.findSome?_range_range_eq_some h
  obtain ⟨hj64, hlt⟩ := visited_iff.1 ⟨hi, hj⟩
  dsimp only at hf
  split at hf
  · cases hf
  · rename_i hlive
    split at hf
    · rename_i hname
      cases hf
      rw [slot_page hj64]
      exact ⟨hj64, hlt, hlive, hname⟩
    · cases hf

/-- `cominix_find_entry` finds nothing when no live entry has that name. -/
lemma find_entry_none {d : Directory} {name : List UInt8} :
    cominix_find_entry d name = none ↔ ∀ m < d.nslots, ¬ Matches (d.slot m) name := by
  unfold cominix_find_entry
  rw [List.findSome?_range_range_eq_none]
  constructor
  · intro h m hm hmatch
    obtain ⟨hlive, hname⟩ := hmatch
    have hdm := Nat.div_add_mod m 64
    have hv := visited_iff.2 ⟨Nat.mod_lt m (by decide), by rw [hdm]; exact hm⟩
    have hnone := h (m / 64) hv.1 (m % 64) hv.2
    dsimp only at hnone
    rw [page_slot, if_neg hlive, if_pos hname] at hnone
    cases hnone
  · intro h n hn k hk
    obtain ⟨hk64, hlt⟩ := visited_iff.1 ⟨hn, hk⟩
    have hno := h _ hlt
    rw [slot_page hk64] at hno
    dsimp only
    split
    · rfl
    · rename_i hlive
      rw [if_neg fun hname => hno ⟨hlive, hname⟩]

/-- The inode of a name is read from a live entry of that name. -/
lemma inode_by_name_ne_zero {d : Directory} {name : List UInt8}
    (h : cominix_inode_by_name d name ≠ 0) :
    ∃ n k, cominix_find_entry d name = some (n, k) ∧ k < 64 ∧ 64 * n + k < d.nslots ∧
      Matches (d.slot (64 * n + k)) name ∧
      (d.slot (64 * n + k)).inode = cominix_inode_by_name d name := by
  unfold cominix_inode_by_name at h ⊢
  cases hf : cominix_find_entry d name with
  | none =>
    rw [hf] at h
    exact absurd rfl h
  | some p =>
    obtain ⟨n, k⟩ := p
    obtain ⟨hk, hlt, hm⟩ := find_entry_some hf
    exact ⟨n, k, rfl, hk, hlt, hm, by rw [slot_page hk]⟩

/-! ## Storing an entry -/

namespace Directory

lemma put_slot (d : Directory) (m m' : Nat) (de : Dirent) :
    (d.put m de).slot m' = if m' = m then de else d.slot m' := by
  have hslot : (d.put m de).slot m' = (d.store (m / 64) (m % 64) de).slot m' := by
    unfold put dir_commit_chunk slot
    split <;> rfl
  rw [hslot]
  unfold store slot
  by_cases hn : m' / 64 = m / 64
  · rw [hn]
    dsimp only
    rw [Function.update_self]
    by_cases hk : m' % 64 = m % 64
    · rw [hk, Function.update_self, if_pos (by omega)]
    · rw [Function.update_of_ne hk, if_neg fun e => hk (by rw [e])]
  · dsimp only
    rw [Function.update_of_ne hn, if_neg fun e => hn (by rw [e])]

lemma put_slot_self (d : Directory) (m : Nat) (de : Dirent) : (d.put m de).slot m = de := by
  rw [put_slot, if_pos rfl]

lemma put_slot_of_ne (d : Directory) {m m' : Nat} (de : Dirent) (h : m' ≠ m) :
    (d.put m de).slot m' = d.slot m' := by
  rw [put_slot, if_neg h]

lemma put_i_size {d : Directory} {m : Nat} {de : Dirent} :
    (d.put m de).i_size = max d.i_size (64 * (m + 1)) := by
  have hstore : (d.store (m / 64) (m % 64) de).i_size = d.i_size := rfl
  unfold put dir_commit_chunk
  rw [hstore]
  split
  · dsimp only
    omega
  · rw [hstore]
    omega

lemma put_nslots_of_lt {d : Directory} {m : Nat} {de : Dirent} (h : m < d.nslots) :
    (d.put m de).nslots = d.nslots := by
  unfold nslots at h ⊢
  rw [put_i_size]
  omega

lemma put_nslots_end {d : Directory} {de : Dirent} (ha : d.i_size % 64 = 0) :
    (d.put d.nslots de).nslots = d.nslots + 1 := by
  unfold nslots
  rw [put_i_size]
  omega

lemma put_aligned {d : Directory} {m : Nat} {de : Dirent} (ha : d.i_size % 64 = 0) :
    (d.put m de).i_size % 64 = 0 := by
  rw [put_i_size]
  omega

/-- Storing over an entry changes that place of the list. -/
lemma put_slots_of_lt {d : Directory} {m : Nat} {de : Dirent} (h : m < d.nslots) :
    (d.put m de).slots = d.slots.set m de := by
  unfold slots
  rw [put_nslots_of_lt h]
  apply List.ext_getElem
  · simp
  · intro i h1 h2
    rw [List.getElem_set]
    simp only [List.getElem_map, List.getElem_range, put_slot]
    by_cases hi : i = m
    · rw [if_pos hi, if_pos hi.symm]
    · rw [if_neg hi, if_neg (Ne.symm hi)]

/-- Storing past the last entry appends. -/
lemma put_slots_end {d : Directory} {de : Dirent} (ha : d.i_size % 64 = 0) :
    (d.put d.nslots de).slots = d.slots ++ [de] := by
  unfold slots
  rw [put_nslots_end ha, List.range_succ, List.map_append, List.map_singleton, put_slot_self]
  congr 1
  apply List.map_congr_left
  intro i hi
  exact put_slot_of_ne d de (Nat.ne_of_lt (List.mem_range.1 hi))

lemma length_slots (d : Directory) : d.slots.length = d.nslots := by
  rw [slots, List.length_map, List.length_range]

lemma getElem_slots {d : Directory} {m : Nat} (h : m < d.slots.length) : d.slots[m] = d.slot m := by
  simp [slots]

lemma mem_slots {d : Directory} {de : Dirent} : de ∈ d.slots ↔ ∃ m < d.nslots, d.slot m = de := by
  simp [slots]

lemma mem_entries {d : Directory} {de : Dirent} :
    de ∈ d.entries ↔ de.inode ≠ 0 ∧ ∃ m < d.nslots, d.slot m = de := by
  rw [entries, List.mem_filter, mem_slots]
  simp [and_comm]

lemma mem_children {d : Directory} {de : Dirent} :
    de ∈ d.children ↔ de ∈ d.entries ∧ de.name ≠ pad CominixFs.dot ∧
      de.name ≠ pad CominixFs.dotdot := by
  rw [children, List.mem_filter]
  simp

lemma Same.refl (d : Directory) : Same d d := ⟨rfl, fun _ _ => rfl⟩

lemma Same.nslots {d d' : Directory} (h : Same d d') : d'.nslots = d.nslots := by
  unfold Directory.nslots
  rw [h.i_size]

lemma Same.slots {d d' : Directory} (h : Same d d') : d'.slots = d.slots := by
  unfold Directory.slots
  rw [h.nslots]
  exact List.map_congr_left fun m hm => h.slot m (List.mem_range.1 hm)

lemma Same.entries {d d' : Directory} (h : Same d d') : d'.entries = d.entries := by
  unfold Directory.entries
  rw [h.slots]

lemma Same.children {d d' : Directory} (h : Same d d') : d'.children = d.children := by
  unfold Directory.children
  rw [h.entries]

/-- Storing past the end without letting the size grow changes no entry. -/
lemma same_store_end {d : Directory} {n k : Nat} {de : Dirent}
    (hend : 64 * n + k = d.nslots) : Same d (d.store n k de) := by
  refine ⟨rfl, fun m hm => ?_⟩
  unfold slot store
  dsimp only
  by_cases hn : m / 64 = n
  · subst hn
    rw [Function.update_self, Function.update_of_ne]
    omega
  · rw [Function.update_of_ne hn]

end Directory

/-! ## The operations -/

/-- `cominix_handle_dirsync` does not fail. -/
def Commit.Synced (io : Commit) : Prop := ∀ err, io ≠ .dirsync_failed err

lemma commit_eq_put {d : Directory} {n k : Nat} {de : Dirent} (hk : k < 64) :
    dir_commit_chunk (d.store n k de) (n * PAGE_SIZE + k * s_dirsize) s_dirsize =
      d.put (64 * n + k) de := by
  have hdiv : (64 * n + k) / 64 = n := by omega
  have hmod : (64 * n + k) % 64 = k := by omega
  have hpos : (64 * n + k) * 64 = n * PAGE_SIZE + k * s_dirsize := by
    simp only [PAGE_SIZE, s_dirsize]
    omega
  rw [Directory.put, hdiv, hmod, hpos, s_dirsize]

/-- A change that is not refused stores the entry. -/
lemma commit_entry_ok {d : Directory} {n k : Nat} {de : Dirent} {io : Commit} (hk : k < 64)
    (h : (commit_entry d n k de io).2 = none) :
    (commit_entry d n k de io).1 = d.put (64 * n + k) de := by
  cases io with
  | done => exact commit_eq_put hk
  | prepare_failed err => cases h
  | dirsync_failed err => cases h

/-- A change that fails before the page is written leaves the directory as it is. -/
lemma commit_entry_failed {d : Directory} {n k : Nat} {de : Dirent} {io : Commit}
    (hio : io.Synced) (h : (commit_entry d n k de io).2 ≠ none) :
    (commit_entry d n k de io).1 = d := by
  cases io with
  | done => exact absurd rfl h
  | prepare_failed err => rfl
  | dirsync_failed err => exact absurd rfl (hio err)

lemma commit_entry_done {d : Directory} {n k : Nat} {de : Dirent} :
    (commit_entry d n k de .done).2 = none := rfl

/-- The scan of `cominix_add_link` always stops, at the latest at the first slot past the end. -/
lemma add_link_scan_spec {d : Directory} (ha : d.i_size % 64 = 0) (name : List UInt8) :
    ∃ n k stop, add_link_scan d name = some (n, k, stop) ∧ k < 64 ∧
      match stop with
      | .dir_end => 64 * n + k = d.nslots ∧ ∀ m < d.nslots, (d.slot m).inode ≠ 0
      | .unused => 64 * n + k < d.nslots ∧ (d.slot (64 * n + k)).inode = 0
      | .EEXIST => 64 * n + k < d.nslots ∧ Matches (d.slot (64 * n + k)) name := by
  have hpages : d.nslots / 64 < dir_pages d + 1 := by
    unfold Directory.nslots dir_pages PAGE_SIZE
    omega
  have hend := (last_byte_iff ha (Nat.mod_lt d.nslots (by decide))).2 (Nat.div_add_mod d.nslots 64)
  cases hs : add_link_scan d name with
  | none =>
    have hnone := List.findSome?_range_range_eq_none.1 hs (d.nslots / 64) hpages (d.nslots % 64)
      (Nat.mod_lt _ (by decide))
    dsimp only at hnone
    rw [if_pos hend] at hnone
    cases hnone
  | some r =>
    obtain ⟨n, -, k, hk, hstop, hk', hn'⟩ := List.findSome?_range_range_eq_some hs
    have hk64 : k < 64 := hk
    -- the scan went on at every slot before
    have hbefore : ∀ m < 64 * n + k, (if m % 64 * s_dirsize = cominix_last_byte d (m / 64) then
          some (m / 64, m % 64, Stop.dir_end)
          else if (d.page (m / 64) (m % 64)).inode = 0 then some (m / 64, m % 64, Stop.unused)
          else if namecompare name.length s_namelen name (d.page (m / 64) (m % 64)).name then
            some (m / 64, m % 64, Stop.EEXIST)
          else none) = none := by
      intro m hm
      by_cases hlt : m / 64 < n
      · exact hn' _ hlt _ (Nat.mod_lt _ (by decide))
      · have heq : m / 64 = n := by omega
        rw [heq]
        exact hk' _ (by omega)
    have hle : 64 * n + k ≤ d.nslots := by
      by_contra hgt
      have hnone := hbefore d.nslots (Nat.lt_of_not_le hgt)
      rw [if_pos hend] at hnone
      cases hnone
    have hlive : ∀ m < 64 * n + k, (d.slot m).inode ≠ 0 := by
      intro m hm hfree
      have hnone := hbefore m hm
      rw [page_slot, if_pos hfree] at hnone
      split at hnone <;> cases hnone
    dsimp only at hstop
    split at hstop
    · rename_i hlast
      cases hstop
      have hat := (last_byte_iff ha hk64).1 hlast
      exact ⟨n, k, .dir_end, rfl, hk64, hat, hat ▸ hlive⟩
    · rename_i hlast
      have hlt : 64 * n + k < d.nslots :=
        Nat.lt_of_le_of_ne hle fun e => hlast ((last_byte_iff ha hk64).2 e)
      split at hstop
      · rename_i hfree
        cases hstop
        exact ⟨n, k, .unused, rfl, hk64, hlt, by rw [slot_page hk64]; exact hfree⟩
      · rename_i hin
        split at hstop
        · rename_i hname
          cases hstop
          exact ⟨n, k, .EEXIST, rfl, hk64, hlt, by rw [slot_page hk64]; exact ⟨hin, hname⟩⟩
        · cases hstop

/-- An entry that is cleared before it is stored is stored all the same. -/
lemma put_store {d : Directory} {n k : Nat} {de de' : Dirent} (hk : k < 64) :
    (d.store n k de').put (64 * n + k) de = d.put (64 * n + k) de := by
  rw [← commit_eq_put hk, ← commit_eq_put hk]
  unfold Directory.store
  simp

/-- `cominix_add_link` stores the new entry in a free slot, or behind the last entry when none is
free. -/
lemma add_link_place {d : Directory} {name : List UInt8} {ino : Nat} {io : Commit}
    (ha : d.i_size % 64 = 0) (h : (cominix_add_link d name ino io).2 = none) :
    ∃ m, (m = d.nslots ∧ (∀ m < d.nslots, (d.slot m).inode ≠ 0) ∨
        m < d.nslots ∧ (d.slot m).inode = 0) ∧
      (cominix_add_link d name ino io).1 = d.put m ⟨ino, pad name⟩ := by
  obtain ⟨n, k, stop, hs, hk, hstop⟩ := add_link_scan_spec ha name
  unfold cominix_add_link at h ⊢
  rw [hs] at h ⊢
  cases stop with
  | dir_end =>
    dsimp only at h ⊢
    exact ⟨64 * n + k, .inl hstop, (commit_entry_ok hk h).trans (put_store hk)⟩
  | unused =>
    dsimp only at h ⊢
    exact ⟨64 * n + k, .inr hstop, commit_entry_ok hk h⟩
  | EEXIST => cases h

lemma add_link_ok {d : Directory} {name : List UInt8} {ino : Nat} {io : Commit}
    (ha : d.i_size % 64 = 0) (h : (cominix_add_link d name ino io).2 = none) :
    ∃ m, (m = d.nslots ∨ m < d.nslots ∧ (d.slot m).inode = 0) ∧
      (cominix_add_link d name ino io).1 = d.put m ⟨ino, pad name⟩ := by
  obtain ⟨m, hm, heq⟩ := add_link_place ha h
  exact ⟨m, hm.imp And.left id, heq⟩

/-- `cominix_add_link` fails without a change, the last step apart. -/
lemma add_link_failed {d : Directory} {name : List UInt8} {ino : Nat} {io : Commit}
    (ha : d.i_size % 64 = 0) (hio : io.Synced) (h : (cominix_add_link d name ino io).2 ≠ none) :
    d.Same (cominix_add_link d name ino io).1 := by
  obtain ⟨n, k, stop, hs, hk, hstop⟩ := add_link_scan_spec ha name
  unfold cominix_add_link at h ⊢
  rw [hs] at h ⊢
  cases stop with
  | dir_end =>
    dsimp only at h ⊢
    rw [commit_entry_failed hio h]
    exact Directory.same_store_end hstop.1
  | unused =>
    dsimp only at h ⊢
    rw [commit_entry_failed hio h]
    exact .refl d
  | EEXIST => exact .refl d

/-- `cominix_add_link` fails, when no change does, for a name that is there only. -/
lemma add_link_done {d : Directory} {name : List UInt8} {ino : Nat} (ha : d.i_size % 64 = 0)
    (hnone : cominix_find_entry d name = none) : (cominix_add_link d name ino .done).2 = none := by
  obtain ⟨n, k, stop, hs, hk, hstop⟩ := add_link_scan_spec ha name
  unfold cominix_add_link
  rw [hs]
  cases stop with
  | dir_end => rfl
  | unused => rfl
  | EEXIST => exact absurd hstop.2 (find_entry_none.1 hnone _ hstop.1)

lemma delete_entry_ok {d : Directory} {n k : Nat} {io : Commit} (hk : k < 64)
    (h : (cominix_delete_entry d n k io).2 = none) :
    (cominix_delete_entry d n k io).1 =
      d.put (64 * n + k) { d.slot (64 * n + k) with inode := 0 } := by
  rw [slot_page hk]
  exact commit_entry_ok hk h

lemma set_link_ok {d : Directory} {n k ino : Nat} {io : Commit} (hk : k < 64)
    (h : (cominix_set_link d n k ino io).2 = none) :
    (cominix_set_link d n k ino io).1 =
      d.put (64 * n + k) { d.slot (64 * n + k) with inode := ino } := by
  rw [slot_page hk]
  exact commit_entry_ok hk h

/-! ## What holds of every directory -/

namespace DirOk

variable {ino : Nat} {d : Directory}

/-- An entry with a name the VFS passed is not one of the first two. -/
lemma of_matches (ok : DirOk ino d) {name : List UInt8} (hv : ValidName name) {m : Nat}
    (hm : m < d.nslots) (h : Matches (d.slot m) name) : 2 ≤ m ∧ (d.slot m).name = pad name := by
  obtain ⟨hlive, hname⟩ := h
  have hne : ∀ other : List UInt8, 0 ∉ other → other.length ≤ s_namelen → name ≠ other →
      (d.slot m).name ≠ pad other := by
    intro other hz hle hother heq
    rw [heq] at hname
    exact hother ((namecompare_pad hv.no_zero hz hv.le hle).1 hname)
  have h0 : m ≠ 0 := by
    rintro rfl
    exact hne CominixFs.dot (by decide) (by decide) hv.ne_dot (by rw [ok.dot])
  have h1 : m ≠ 1 := by
    rintro rfl
    exact hne CominixFs.dotdot (by decide) (by decide) hv.ne_dotdot ok.dotdot
  have h2 : 2 ≤ m := by omega
  refine ⟨h2, ?_⟩
  obtain ⟨stored, hs, he⟩ := ok.named m hm h2 hlive
  rw [he] at hname ⊢
  rw [(namecompare_pad hv.no_zero hs.no_zero hv.le hs.le).1 hname]

lemma same {d' : Directory} (ok : DirOk ino d) (h : d.Same d') : DirOk ino d' := by
  have hn := h.nslots
  have htwo := ok.two_le
  refine ⟨?_, ?_, ?_, ?_, ?_, ?_⟩
  · rw [h.i_size]; exact ok.aligned
  · rw [hn]; exact ok.two_le
  · rw [h.slot 0 (by omega)]; exact ok.dot
  · rw [h.slot 1 (by omega)]; exact ok.dotdot
  · rw [h.slot 1 (by omega)]; exact ok.dotdot_live
  · intro m hm h2
    rw [hn] at hm
    rw [h.slot m hm]
    exact ok.named m hm h2

/-- Storing an entry other than the first two, free or with a name the VFS passed. -/
lemma put (ok : DirOk ino d) {m : Nat} {de : Dirent} (h2 : 2 ≤ m) (hle : m ≤ d.nslots)
    (hname : de.inode ≠ 0 → ∃ name, ValidName name ∧ de.name = pad name) :
    DirOk ino (d.put m de) := by
  have hn : (d.put m de).nslots = d.nslots ∨ (d.put m de).nslots = d.nslots + 1 ∧ m = d.nslots := by
    cases Nat.lt_or_eq_of_le hle with
    | inl hlt => exact .inl (Directory.put_nslots_of_lt hlt)
    | inr heq =>
      subst heq
      exact .inr ⟨Directory.put_nslots_end ok.aligned, rfl⟩
  refine ⟨Directory.put_aligned ok.aligned, ?_, ?_, ?_, ?_, ?_⟩
  · have := ok.two_le
    omega
  · rw [Directory.put_slot_of_ne d de (by omega)]; exact ok.dot
  · rw [Directory.put_slot_of_ne d de (by omega)]; exact ok.dotdot
  · rw [Directory.put_slot_of_ne d de (by omega)]; exact ok.dotdot_live
  · intro m' hm' h2'
    rw [Directory.put_slot]
    split
    · exact hname
    · exact ok.named m' (by omega) h2'

/-- Another directory above. -/
lemma put_dotdot (ok : DirOk ino d) {parent : Nat} (hp : parent ≠ 0) :
    DirOk ino (d.put 1 { d.slot 1 with inode := parent }) := by
  have h1 : 1 < d.nslots := ok.two_le
  have hn : (d.put 1 { d.slot 1 with inode := parent }).nslots = d.nslots :=
    Directory.put_nslots_of_lt h1
  refine ⟨Directory.put_aligned ok.aligned, ?_, ?_, ?_, ?_, ?_⟩
  · rw [hn]; exact ok.two_le
  · rw [Directory.put_slot_of_ne d _ (by decide)]; exact ok.dot
  · rw [Directory.put_slot_self]; exact ok.dotdot
  · rw [Directory.put_slot_self]; exact hp
  · intro m hm h2
    rw [hn] at hm
    rw [Directory.put_slot_of_ne d _ (by omega)]
    exact ok.named m hm h2

lemma slots_eq (ok : DirOk ino d) :
    d.slots = ⟨ino, pad CominixFs.dot⟩ :: d.slot 1 :: d.slots.drop 2 := by
  have h0 : 0 < d.slots.length := by
    rw [Directory.length_slots]
    exact Nat.lt_of_lt_of_le (by decide) ok.two_le
  have h1 : 1 < d.slots.length := by
    rw [Directory.length_slots]
    exact ok.two_le
  conv_lhs => rw [← List.drop_zero (l := d.slots)]
  rw [List.drop_eq_getElem_cons h0, List.drop_eq_getElem_cons h1, Directory.getElem_slots h0,
    Directory.getElem_slots h1, ok.dot]

lemma mem_drop (ok : DirOk ino d) {de : Dirent} (h : de ∈ d.slots.drop 2) (hl : de.inode ≠ 0) :
    ∃ name, ValidName name ∧ de.name = pad name := by
  obtain ⟨i, hi, rfl⟩ := List.mem_iff_getElem.1 h
  rw [List.length_drop, Directory.length_slots] at hi
  rw [List.getElem_drop] at hl ⊢
  rw [Directory.getElem_slots] at hl ⊢
  exact ok.named (2 + i) (by omega) (by omega) hl

lemma children_eq (ok : DirOk ino d) :
    d.children = (d.slots.drop 2).filter fun de => de.inode ≠ 0 := by
  unfold Directory.children Directory.entries
  rw [ok.slots_eq, List.filter_filter]
  have hnames : ∀ de ∈ d.slots.drop 2, (de.inode ≠ 0 →
      de.name ≠ pad CominixFs.dot ∧ de.name ≠ pad CominixFs.dotdot) := by
    intro de hde hl
    obtain ⟨name, hv, hname⟩ := ok.mem_drop hde hl
    rw [hname]
    exact ⟨hv.pad_ne_dot, hv.pad_ne_dotdot⟩
  have hdd := ok.dotdot
  rw [List.filter_cons, List.filter_cons]
  simp only [hdd, ne_eq, not_true_eq_false, and_false, false_and, decide_false, Bool.false_and,
    Bool.false_eq_true, if_false, List.drop_succ_cons, List.drop_zero]
  apply List.filter_congr
  intro de hde
  have := hnames de hde
  by_cases hl : de.inode = 0
  · simp [hl]
  · simp [hl, this hl]

/-- The live entries are `.`, `..` and the children. -/
lemma entries_eq (ok : DirOk ino d) (hino : ino ≠ 0) :
    d.entries = ⟨ino, pad CominixFs.dot⟩ :: d.slot 1 :: d.children := by
  rw [ok.children_eq]
  unfold Directory.entries
  conv_lhs => rw [ok.slots_eq]
  rw [List.filter_cons_of_pos (by simpa using hino),
    List.filter_cons_of_pos (by simpa using ok.dotdot_live)]

end DirOk

/-! ## The children after a change -/

/-- A live entry other than `.` and `..`. -/
def Dirent.Child (de : Dirent) : Prop :=
  de.inode ≠ 0 ∧ de.name ≠ pad dot ∧ de.name ≠ pad dotdot

instance (de : Dirent) : Decidable de.Child := inferInstanceAs (Decidable (_ ∧ _))

namespace Directory

lemma children_eq_filter (d : Directory) : d.children = d.slots.filter fun de => de.Child := by
  unfold children entries
  rw [List.filter_filter]
  apply List.filter_congr
  intro de _
  unfold Dirent.Child
  by_cases h : de.inode = 0 <;> simp [h]

lemma mem_children_slot {d : Directory} {m : Nat} (hm : m < d.nslots) (hc : (d.slot m).Child) :
    d.slot m ∈ d.children := by
  rw [children_eq_filter, List.mem_filter]
  exact ⟨mem_slots.2 ⟨m, hm, rfl⟩, by simpa using hc⟩

/-- The children before and after an entry is stored over another. -/
lemma children_put {d : Directory} {m : Nat} (hm : m < d.nslots) (de : Dirent) :
    ∃ rest, d.children.Perm ([d.slot m].filter (fun de => de.Child) ++ rest) ∧
      (d.put m de).children.Perm ([de].filter (fun de => de.Child) ++ rest) := by
  have hl : m < d.slots.length := by rw [length_slots]; exact hm
  refine ⟨(d.slots.eraseIdx m).filter fun de => de.Child, ?_, ?_⟩
  · have hp := (List.getElem_cons_eraseIdx_perm hl).symm.filter (fun de : Dirent => de.Child)
    rw [getElem_slots hl] at hp
    rw [children_eq_filter, ← List.filter_append]
    exact hp
  · rw [children_eq_filter, put_slots_of_lt hm, ← List.filter_append]
    exact (List.set_perm_cons_eraseIdx hl de).filter _

/-- A new entry, in a free slot or behind the last, is one more child. -/
lemma children_add {d : Directory} {m : Nat} {de : Dirent} (ha : d.i_size % 64 = 0)
    (hm : m = d.nslots ∨ m < d.nslots ∧ (d.slot m).inode = 0) (hc : de.Child) :
    (d.put m de).children.Perm (de :: d.children) := by
  cases hm with
  | inl hend =>
    subst hend
    rw [children_eq_filter, children_eq_filter, put_slots_end ha, List.filter_append,
      List.filter_cons_of_pos (by simpa using hc), List.filter_nil]
    exact List.perm_append_singleton _ _
  | inr hfree =>
    obtain ⟨hlt, hz⟩ := hfree
    obtain ⟨rest, hold, hnew⟩ := children_put hlt de
    rw [List.filter_cons_of_neg (by simp [Dirent.Child, hz])] at hold
    rw [List.filter_cons_of_pos (by simpa using hc)] at hnew
    exact hnew.trans (hold.symm.cons de)

/-- A cleared entry is one child less. -/
lemma children_delete {d : Directory} {m : Nat} (hm : m < d.nslots) (hc : (d.slot m).Child) :
    d.children.Perm (d.slot m :: (d.put m { d.slot m with inode := 0 }).children) := by
  obtain ⟨rest, hold, hnew⟩ := children_put hm { d.slot m with inode := 0 }
  rw [List.filter_cons_of_pos (by simpa using hc)] at hold
  rw [List.filter_cons_of_neg (by simp [Dirent.Child])] at hnew
  exact hold.trans (hnew.symm.cons _)

/-- An entry made to name another inode. -/
lemma children_set {d : Directory} {m ino : Nat} (hm : m < d.nslots) (hc : (d.slot m).Child)
    (hi : ino ≠ 0) : ∃ rest, d.children.Perm (d.slot m :: rest) ∧
      (d.put m { d.slot m with inode := ino }).children.Perm
        ({ d.slot m with inode := ino } :: rest) := by
  obtain ⟨rest, hold, hnew⟩ := children_put hm { d.slot m with inode := ino }
  have hc' : ({ d.slot m with inode := ino } : Dirent).Child := ⟨hi, hc.2⟩
  rw [List.filter_cons_of_pos (by simpa using hc)] at hold
  rw [List.filter_cons_of_pos (by simpa using hc')] at hnew
  exact ⟨rest, hold, hnew⟩

/-- The entry of a directory that is not a child can change its inode number. -/
lemma children_put_dotdot {d : Directory} {m ino : Nat} (hm : m < d.nslots)
    (hc : (d.slot m).name = pad CominixFs.dotdot) :
    (d.put m { d.slot m with inode := ino }).children.Perm d.children := by
  obtain ⟨rest, hold, hnew⟩ := children_put hm { d.slot m with inode := ino }
  rw [List.filter_cons_of_neg (by simp [Dirent.Child, hc])] at hold
  rw [List.filter_cons_of_neg (by simp [Dirent.Child, hc])] at hnew
  exact hnew.trans hold.symm

end Directory

/-! ## Making and testing an empty directory -/

/-- What `cominix_make_empty` makes of a new directory. -/
lemma make_empty_ok {ino parent : Nat} {io : Commit} (hp : parent ≠ 0)
    (h : (cominix_make_empty .new ino parent io).2 = none) :
    DirOk ino (cominix_make_empty .new ino parent io).1 ∧
      ((cominix_make_empty .new ino parent io).1.slot 1).inode = parent ∧
      (cominix_make_empty .new ino parent io).1.children = [] := by
  cases io with
  | prepare_failed err => cases h
  | dirsync_failed err => cases h
  | done =>
    have hsize : (cominix_make_empty .new ino parent .done).1.i_size = 128 := by
      simp [cominix_make_empty, dir_commit_chunk, Directory.new, s_dirsize]
    have hn : (cominix_make_empty .new ino parent .done).1.nslots = 2 := by
      rw [Directory.nslots, hsize]
    have ok : DirOk ino (cominix_make_empty .new ino parent .done).1 := by
      refine ⟨by rw [hsize], Nat.le_of_eq hn.symm, rfl, rfl, hp, fun m hm h2 => ?_⟩
      omega
    refine ⟨ok, rfl, ?_⟩
    rw [ok.children_eq, List.drop_eq_nil_of_le, List.filter_nil]
    rw [Directory.length_slots, hn]

/-- The test `cominix_empty_dir` makes of an entry. -/
def empty_dir_entry (de : Dirent) (i_ino : Nat) : Bool :=
  if de.inode = 0 then true
  else if de.name.getD 0 0 ≠ 46 then false
  else if de.name.getD 1 0 = 0 then de.inode == i_ino
  else if de.name.getD 1 0 ≠ 46 then false
  else de.name.getD 2 0 == 0

lemma empty_dir_iff {d : Directory} {ino : Nat} :
    cominix_empty_dir d ino = true ↔ ∀ m < d.nslots, empty_dir_entry (d.slot m) ino = true := by
  unfold cominix_empty_dir
  simp only [List.all_eq_true, List.mem_range]
  constructor
  · intro h m hm
    have hdm := Nat.div_add_mod m 64
    have hv := visited_iff.2 ⟨Nat.mod_lt m (by decide), by rw [hdm]; exact hm⟩
    exact h _ hv.1 _ hv.2
  · intro h n hn k hk
    obtain ⟨hk64, hlt⟩ := visited_iff.1 ⟨hn, hk⟩
    have hm := h _ hlt
    rw [slot_page hk64] at hm
    exact hm

/-- A name the VFS passed does not look like `.` or `..` to `cominix_empty_dir`. -/
lemma empty_dir_entry_pad {de : Dirent} {ino : Nat} {name : List UInt8} (hv : ValidName name)
    (hl : de.inode ≠ 0) (hn : de.name = pad name) : empty_dir_entry de ino = false := by
  have hz := hv.no_zero
  have hdot := hv.ne_dot
  have hdd := hv.ne_dotdot
  have hpos := hv.pos
  unfold empty_dir_entry
  rw [if_neg hl, hn]
  cases name with
  | nil => exact absurd hpos (by decide)
  | cons a rest =>
    by_cases ha : a = 46
    · subst ha
      cases rest with
      | nil => exact absurd rfl hdot
      | cons b rest =>
        have hb : b ≠ 0 := fun e => hz (by simp [e])
        by_cases hb46 : b = 46
        · subst hb46
          cases rest with
          | nil => exact absurd rfl hdd
          | cons c rest =>
            have hc : c ≠ 0 := fun e => hz (by simp [e])
            simp [pad, hc]
        · simp [pad, hb, hb46]
    · simp [pad, ha]

/-- `cominix_empty_dir` is exact: it accepts a directory without children and no other. -/
lemma DirOk.empty_dir_iff {d : Directory} {ino : Nat} (ok : DirOk ino d) :
    cominix_empty_dir d ino = true ↔ d.children = [] := by
  rw [CominixFs.empty_dir_iff, ok.children_eq, List.filter_eq_nil_iff]
  constructor
  · intro h de hde
    obtain ⟨m, hm, rfl⟩ := Directory.mem_slots.1 (List.mem_of_mem_drop hde)
    intro hl
    have hlive : (d.slot m).inode ≠ 0 := by simpa using hl
    obtain ⟨name, hv, hname⟩ := ok.mem_drop hde hlive
    have := h m hm
    rw [empty_dir_entry_pad hv hlive hname] at this
    cases this
  · intro h m hm
    by_cases h2 : 2 ≤ m
    · have hmem : d.slot m ∈ d.slots.drop 2 := by
        rw [List.mem_iff_getElem]
        have hlen : m - 2 < (d.slots.drop 2).length := by
          rw [List.length_drop, Directory.length_slots]
          omega
        refine ⟨m - 2, hlen, ?_⟩
        rw [List.getElem_drop, Directory.getElem_slots]
        congr 1
        omega
      have hz : (d.slot m).inode = 0 := by simpa using h _ hmem
      rw [empty_dir_entry, if_pos hz]
    · by_cases h0 : m = 0
      · subst h0
        rw [ok.dot]
        unfold empty_dir_entry
        simp [pad, CominixFs.dot, s_namelen]
      · have h1 : m = 1 := by omega
        subst h1
        unfold empty_dir_entry
        rw [if_neg ok.dotdot_live, ok.dotdot]
        simp [pad, CominixFs.dotdot, s_namelen]

/-! ## The operations on a directory -/

namespace DirOk

variable {ino : Nat} {d : Directory}

lemma slot_zero_live (ok : DirOk ino d) (hino : ino ≠ 0) : (d.slot 0).inode ≠ 0 := by
  rw [ok.dot]
  exact hino

/-- `cominix_add_link` adds a child. -/
lemma add_link (ok : DirOk ino d) (hino : ino ≠ 0) {name : List UInt8} (hv : ValidName name)
    {i_ino : Nat} (hi : i_ino ≠ 0) {io : Commit}
    (h : (cominix_add_link d name i_ino io).2 = none) :
    DirOk ino (cominix_add_link d name i_ino io).1 ∧
      (cominix_add_link d name i_ino io).1.slot 1 = d.slot 1 ∧
      (cominix_add_link d name i_ino io).1.children.Perm (⟨i_ino, pad name⟩ :: d.children) := by
  obtain ⟨m, hm, heq⟩ := add_link_ok ok.aligned h
  rw [heq]
  have h2 : 2 ≤ m := by
    cases hm with
    | inl hend => rw [hend]; exact ok.two_le
    | inr hfree =>
      by_contra hlt
      have hcase : m = 0 ∨ m = 1 := by omega
      cases hcase with
      | inl h0 => exact ok.slot_zero_live hino (h0 ▸ hfree.2)
      | inr h1 => exact ok.dotdot_live (h1 ▸ hfree.2)
  have hle : m ≤ d.nslots := by
    cases hm with
    | inl hend => exact Nat.le_of_eq hend
    | inr hfree => exact Nat.le_of_lt hfree.1
  refine ⟨ok.put h2 hle fun _ => ⟨name, hv, rfl⟩, Directory.put_slot_of_ne d _ (by omega), ?_⟩
  exact Directory.children_add ok.aligned hm ⟨hi, hv.pad_ne_dot, hv.pad_ne_dotdot⟩

/-- What `cominix_find_entry` finds is a child. -/
lemma find_entry (ok : DirOk ino d) {name : List UInt8} (hv : ValidName name) {n k : Nat}
    (h : cominix_find_entry d name = some (n, k)) :
    k < 64 ∧ 64 * n + k < d.nslots ∧ 2 ≤ 64 * n + k ∧ (d.slot (64 * n + k)).Child ∧
      (d.slot (64 * n + k)).name = pad name := by
  obtain ⟨hk, hlt, hm⟩ := find_entry_some h
  obtain ⟨h2, hname⟩ := ok.of_matches hv hlt hm
  refine ⟨hk, hlt, h2, ⟨hm.1, ?_, ?_⟩, hname⟩
  · rw [hname]; exact hv.pad_ne_dot
  · rw [hname]; exact hv.pad_ne_dotdot

/-- `cominix_delete_entry` takes a child away. -/
lemma delete_entry (ok : DirOk ino d) {n k : Nat} (hk : k < 64) (hlt : 64 * n + k < d.nslots)
    (h2 : 2 ≤ 64 * n + k) (hc : (d.slot (64 * n + k)).Child) {io : Commit}
    (h : (cominix_delete_entry d n k io).2 = none) :
    DirOk ino (cominix_delete_entry d n k io).1 ∧
      (cominix_delete_entry d n k io).1.slot 1 = d.slot 1 ∧
      d.children.Perm (d.slot (64 * n + k) :: (cominix_delete_entry d n k io).1.children) := by
  rw [delete_entry_ok hk h]
  exact ⟨ok.put h2 (Nat.le_of_lt hlt) fun hz => absurd rfl hz,
    Directory.put_slot_of_ne d _ (by omega), Directory.children_delete hlt hc⟩

/-- `cominix_set_link` makes a child name another inode, and leaves the other slots. -/
lemma set_link (ok : DirOk ino d) {name : List UInt8} (hv : ValidName name) {n k i_ino : Nat}
    (hf : cominix_find_entry d name = some (n, k)) (hi : i_ino ≠ 0) {io : Commit}
    (h : (cominix_set_link d n k i_ino io).2 = none) :
    DirOk ino (cominix_set_link d n k i_ino io).1 ∧
      (cominix_set_link d n k i_ino io).1.slot 1 = d.slot 1 ∧
      (∃ rest, d.children.Perm (d.slot (64 * n + k) :: rest) ∧
        (cominix_set_link d n k i_ino io).1.children.Perm (⟨i_ino, pad name⟩ :: rest)) := by
  obtain ⟨hk, hlt, h2, hc, hname⟩ := ok.find_entry hv hf
  rw [set_link_ok hk h]
  obtain ⟨rest, hold, hnew⟩ := Directory.children_set hlt hc hi
  refine ⟨ok.put h2 (Nat.le_of_lt hlt) fun _ => ⟨name, hv, hname⟩,
    Directory.put_slot_of_ne d _ (by omega), rest, hold, ?_⟩
  rw [← hname]
  exact hnew

/-- `cominix_set_link` on `..` changes the directory above and no child. -/
lemma set_dotdot (ok : DirOk ino d) {parent : Nat} (hp : parent ≠ 0) {io : Commit}
    (h : (cominix_set_link d 0 1 parent io).2 = none) :
    DirOk ino (cominix_set_link d 0 1 parent io).1 ∧
      ((cominix_set_link d 0 1 parent io).1.slot 1).inode = parent ∧
      (cominix_set_link d 0 1 parent io).1.children.Perm d.children := by
  rw [set_link_ok (by decide) h]
  refine ⟨ok.put_dotdot hp, ?_, Directory.children_put_dotdot ok.two_le ok.dotdot⟩
  rw [Directory.put_slot_self]

end DirOk

end CominixFs
