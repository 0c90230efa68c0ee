import CominixFs.Rename
import Mathlib.Algebra.BigOperators.Group.Finset.Piecewise

/-!
# Runs of operations on names

From a fresh image on, through any sequence of operations, the link counts are those of the tree
(`link_counts_match`) and no entry dangles (`no_entry_dangles`). The first holds when no change of a
page fails. The second needs less: an entry is committed to its page before `cominix_handle_dirsync`
can fail, so a failure there is reported for a change that has been made (`created_then_freed`), and a
rename whose later changes fail leaves the earlier ones; every other failure is harmless.
-/

namespace CominixFs

namespace NameFs

/-- The live entries of a directory that is there. -/
def live_entries (s : NameFs) (d : Nat) : List Dirent :=
  if s.live d then (s.dir d).entries else []

/-- How many live entries name an inode. -/
def namings (s : NameFs) (ino : Nat) : Nat :=
  ∑ d ∈ s.inos, (s.live_entries d).countP fun de => de.inode = ino

/-- The directories that the entries of one name, `.` and `..` apart. -/
def child_dirs (s : NameFs) (d : Nat) : Finset Nat :=
  s.inos.filter fun c =>
    s.live c = true ∧ c ∈ ((s.live_entries d).filter fun de => de.Child).map (·.inode)

/-- A freshly made image: a root directory with `.` and `..`, and no other inode. -/
structure FreshImage (s : NameFs) : Prop where
  ninodes : MINIX_ROOT_INO ≤ s.sbi.s_ninodes
  bit : s.ibit MINIX_ROOT_INO = true
  root : ∃ d, s.inodes MINIX_ROOT_INO = some ⟨.dir, 2, false, d⟩ ∧ d.i_size = 2 * s_dirsize ∧
    d.page 0 0 = ⟨MINIX_ROOT_INO, pad dot⟩ ∧ d.page 0 1 = ⟨MINIX_ROOT_INO, pad dotdot⟩
  others : ∀ i ≠ MINIX_ROOT_INO, s.inodes i = none

/-- The link counts are those of the tree, and `..` names the directory above. -/
structure CountsMatch (s : NameFs) : Prop where
  file : ∀ i n, s.inodes i = some n → n.i_mode ≠ .dir → n.i_nlink = s.namings i
  dir : ∀ d, s.live d = true → s.i_nlink d = 2 + (s.child_dirs d).card
  above : ∀ c, s.live c = true → ∃ de ∈ s.live_entries c, de.name = pad dotdot
  parent : ∀ c, s.live c = true → ∀ de ∈ s.live_entries c, de.name = pad dotdot →
    (c = MINIX_ROOT_INO → de.inode = MINIX_ROOT_INO) ∧
    (c ≠ MINIX_ROOT_INO → ∀ d, c ∈ s.child_dirs d ↔ d = de.inode)

/-- Every live entry refers to an inode in use that has a link for each entry naming it, and that no
new inode takes the place of. -/
structure NoDangling (s : NameFs) : Prop where
  bit : ∀ d, ∀ de ∈ s.live_entries d, s.ibit de.inode = true
  links : ∀ d, ∀ de ∈ s.live_entries d, s.namings de.inode ≤ s.i_nlink de.inode
  fresh : ∀ mode memory s' ino, cominix_new_inode s mode memory = (s', .ok ino) → s.namings ino = 0

/-! ## Entries and links -/

variable {s s' : NameFs}

lemma FreshImage.ok (h : FreshImage s) : s.NameOk := by
  obtain ⟨d, hroot, hsize, hdot, hdotdot⟩ := h.root
  have hn : d.nslots = 2 := by rw [Directory.nslots, hsize, s_dirsize]
  have hlive : ∀ i, s.live i = true → i = MINIX_ROOT_INO := by
    intro i hl
    by_contra hi
    rw [live_of_none (h.others i hi)] at hl
    cases hl
  have hrl : s.live MINIX_ROOT_INO = true := by unfold live; rw [hroot]; rfl
  have hrd : s.dir MINIX_ROOT_INO = d := by unfold dir; rw [hroot]
  have hdok : DirOk MINIX_ROOT_INO d := by
    refine ⟨by rw [hsize, s_dirsize], Nat.le_of_eq hn.symm, hdot, ?_, ?_, fun m hm h2 => ?_⟩
    · exact congrArg Dirent.name hdotdot
    · rw [show (d.slot 1).inode = MINIX_ROOT_INO from congrArg Dirent.inode hdotdot]
      decide
    · omega
  have hchildren : d.children = [] := by
    rw [hdok.children_eq, List.drop_eq_nil_of_le, List.filter_nil]
    rw [Directory.length_slots, hn]
  have hup : s.tree.up MINIX_ROOT_INO = some MINIX_ROOT_INO := by
    rw [tree_up hrl, parent, hrd]
    exact congrArg _ (congrArg Dirent.inode hdotdot)
  have hch : ∀ i, s.tree.children i = 0 := by
    intro i
    change (if s.live i then names (s.dir i) else 0) = 0
    split
    · rename_i hl
      rw [hlive i hl, hrd, names, hchildren]
      rfl
    · rfl
  have hnamed : ∀ x, LinkTree.named s.inos s.tree.children x = 0 := by
    intro x
    unfold LinkTree.named
    apply Finset.sum_eq_zero
    intro i _
    rw [hch i, Multiset.count_zero]
  have hother : ∀ {x}, (s.tree.up x).isSome → x = MINIX_ROOT_INO := by
    intro x hx
    rw [tree_up_isSome] at hx
    exact hlive x hx
  have hlink : ∀ i, i ≠ MINIX_ROOT_INO → s.i_nlink i = 0 := fun i hi =>
    i_nlink_of_none (h.others i hi)
  have hrlink : s.i_nlink MINIX_ROOT_INO = 2 := by unfold i_nlink; rw [hroot]
  refine ⟨⟨fun {e} hl => ?_, fun {i n} hi => ?_⟩, ⟨hup, hnamed _, ?_, ?_, ?_, ?_, ?_, ?_⟩, fun i => ?_,
    fun i hd hl => ?_⟩
  · rw [hlive e hl, hrd]
    exact hdok
  · have hir : i = MINIX_ROOT_INO := by
      by_contra hne
      rw [h.others i hne] at hi
      cases hi
    rw [hir]
    exact ⟨by decide, h.ninodes, h.bit⟩
  · intro e c hc
    rw [hch] at hc
    exact absurd hc (Multiset.notMem_zero c)
  · intro x hx
    rw [hother hx]
    exact Finset.mem_range.2 (Nat.lt_succ_of_le h.ninodes)
  · intro x hx
    rw [hnamed]
    apply hlink
    rintro rfl
    rw [hup] at hx
    cases hx
  · intro x hx
    rw [hother hx, LinkTree.subdirs, hch, Multiset.countP_zero]
    exact hrlink
  · intro x hx hroot'
    exact absurd (hother hx) hroot'
  · intro e c hc
    rw [hch] at hc
    exact absurd hc (Multiset.notMem_zero c)
  · by_cases hi : i = MINIX_ROOT_INO
    · rw [hi, hrlink]
      decide
    · rw [hlink i hi]
      exact Nat.zero_le _
  · apply hlink
    rintro rfl
    rw [hrl] at hl
    cases hl

/-- The entries of one directory that name an inode. -/
lemma NameOk.count_entries (h : s.NameOk) (d x : Nat) :
    (s.live_entries d).countP (fun de => de.inode = x) =
      (if s.live d = true ∧ d = x then 1 else 0) + (if s.tree.up d = some x then 1 else 0) +
        (s.tree.children d).count x := by
  unfold live_entries
  by_cases hl : s.live d = true
  · rw [if_pos hl, (h.shape.dir hl).entries_eq (h.shape.ne_zero hl), List.countP_cons,
      List.countP_cons, tree_up hl, tree_children hl, names, Multiset.coe_count, List.count,
      List.countP_map]
    have hc : (s.dir d).children.countP (fun de => decide (de.inode = x)) =
        (s.dir d).children.countP ((· == x) ∘ (·.inode)) := by
      apply List.countP_congr
      intro de _
      simp
    rw [hc]
    have hp : (some (s.parent d) = some x) ↔ ((s.dir d).slot 1).inode = x := by
      rw [Option.some.injEq]
      rfl
    simp only [hp, hl, true_and, decide_eq_true_eq]
    omega
  · have hup : s.tree.up d = none := if_neg hl
    have hch : s.tree.children d = 0 := if_neg hl
    rw [if_neg hl, List.countP_nil, hup, hch, Multiset.count_zero, if_neg fun hc => hl hc.1,
      if_neg (Option.some_ne_none x).symm]

/-- Every link of an inode is a live entry that names it. -/
lemma NameOk.namings_eq (h : s.NameOk) (x : Nat) : s.namings x = s.i_nlink x := by
  have hlinks := h.tree.nlink_eq x
  have hdot : ∑ d ∈ s.inos, (if s.live d = true ∧ d = x then 1 else 0) =
      if (s.tree.up x).isSome then 1 else 0 := by
    rw [tree_up_isSome]
    by_cases hl : s.live x = true
    · have hx : x ∈ s.inos := h.tree.bound (by rw [tree_up_isSome]; exact hl)
      rw [if_pos hl, Finset.sum_eq_single x]
      · rw [if_pos ⟨hl, rfl⟩]
      · intro d _ hd
        rw [if_neg fun hc => hd hc.2]
      · exact fun hno => absurd hx hno
    · rw [if_neg hl]
      apply Finset.sum_eq_zero
      intro d _
      rw [if_neg]
      rintro ⟨hd, rfl⟩
      exact hl hd
  have hup : ∑ d ∈ s.inos, (if s.tree.up d = some x then 1 else 0) =
      (s.inos.filter fun c => s.tree.up c = some x).card :=
    (Finset.card_filter _ _).symm
  unfold namings
  rw [Finset.sum_congr rfl fun d _ => h.count_entries d x, Finset.sum_add_distrib,
    Finset.sum_add_distrib, hdot, hup]
  exact hlinks.symm

/-- What the entries of a directory name is there. -/
lemma NameOk.entry_some (h : s.NameOk) {d : Nat} {de : Dirent} (hde : de ∈ s.live_entries d) :
    (s.inodes de.inode).isSome = true := by
  have hl : s.live d = true := by
    unfold live_entries at hde
    split at hde
    · assumption
    · cases hde
  have hd : d ∈ s.inos := h.tree.bound (by rw [tree_up_isSome]; exact hl)
  apply isSome_of_nlink
  rw [← h.namings_eq]
  have hle : (s.live_entries d).countP (fun e => e.inode = de.inode) ≤ s.namings de.inode :=
    Finset.single_le_sum
      (f := fun d => (s.live_entries d).countP fun e => e.inode = de.inode)
      (fun _ _ => Nat.zero_le _) hd
  have hpos : 0 < (s.live_entries d).countP fun e => e.inode = de.inode :=
    List.countP_pos_iff.2 ⟨de, hde, by simp⟩
  omega

lemma NameOk.noDangling (h : s.NameOk) : s.NoDangling := by
  refine ⟨fun d de hde => ?_, fun d de _ => ?_, fun mode memory s' ino hn => ?_⟩
  · obtain ⟨n, hn⟩ := Option.isSome_iff_exists.1 (h.entry_some hde)
    exact (h.shape.ino hn).2.2
  · exact Nat.le_of_eq (h.namings_eq _)
  · rw [h.namings_eq]
    exact i_nlink_of_none (h.shape.none_of_bit (new_inode_ok hn).1)

/-- The directories a directory names are its subdirectories in the tree. -/
lemma NameOk.mem_child_dirs (h : s.NameOk) {d c : Nat} :
    c ∈ s.child_dirs d ↔ c ∈ s.tree.children d ∧ (s.tree.up c).isSome := by
  have hch : ∀ {c}, c ∈ ((s.live_entries d).filter fun de => de.Child).map (·.inode) ↔
      c ∈ s.tree.children d := by
    intro c
    unfold live_entries
    by_cases hl : s.live d = true
    · rw [if_pos hl, tree_children hl, names, Multiset.mem_coe]
      have hf : ((s.dir d).entries.filter fun de => decide de.Child) = (s.dir d).children := by
        unfold Directory.children
        apply List.filter_congr
        intro de hde
        have hne := (Directory.mem_entries.1 hde).1
        simp [Dirent.Child, hne]
      rw [hf]
    · have hnone : s.tree.children d = 0 := if_neg hl
      rw [if_neg hl, hnone]
      simp
  unfold child_dirs
  rw [Finset.mem_filter, hch, tree_up_isSome]
  constructor
  · rintro ⟨-, hl, hc⟩
    exact ⟨hc, hl⟩
  · rintro ⟨hc, hl⟩
    exact ⟨h.tree.bound (by rw [tree_up_isSome]; exact hl), hl, hc⟩

lemma NameOk.card_child_dirs (h : s.NameOk) (d : Nat) :
    (s.child_dirs d).card = s.tree.subdirs d := by
  rw [← h.tree.card_below d]
  congr 1
  ext c
  rw [h.mem_child_dirs, h.tree.mem_below, Finset.mem_erase, Finset.mem_filter]
  constructor
  · rintro ⟨hup, hroot⟩
    exact ⟨hroot, h.tree.bound (by rw [hup]; rfl), hup⟩
  · rintro ⟨hroot, -, hup⟩
    exact ⟨hup, hroot⟩

/-- The entry `..` of a directory is its second. -/
lemma NameOk.dotdot_entry (h : s.NameOk) {c : Nat} (hl : s.live c = true) {de : Dirent} :
    de ∈ s.live_entries c ∧ de.name = pad dotdot ↔ de = (s.dir c).slot 1 := by
  have ok := h.shape.dir hl
  unfold live_entries
  rw [if_pos hl, ok.entries_eq (h.shape.ne_zero hl)]
  constructor
  · rintro ⟨hmem, hname⟩
    cases hmem with
    | head => exact absurd (show pad dot = pad dotdot from hname) (by decide)
    | tail _ hmem =>
      cases hmem with
      | head => rfl
      | tail _ hmem => exact absurd hname (Directory.mem_children.1 hmem).2.2
  · rintro rfl
    exact ⟨List.mem_cons_of_mem _ List.mem_cons_self, ok.dotdot⟩

lemma NameOk.countsMatch (h : s.NameOk) : s.CountsMatch := by
  refine ⟨fun i n hi _ => ?_, fun d hl => ?_, fun c hl => ?_, fun c hl de hde hname => ?_⟩
  · rw [h.namings_eq]
    unfold i_nlink
    rw [hi]
  · rw [h.card_child_dirs]
    exact h.tree.dir (by rw [tree_up_isSome]; exact hl)
  · have hdd := (h.dotdot_entry hl).2 rfl
    exact ⟨_, hdd.1, hdd.2⟩
  · have heq := (h.dotdot_entry hl).1 ⟨hde, hname⟩
    have hup : s.tree.up c = some de.inode := by
      rw [tree_up hl, parent, heq]
    refine ⟨?_, fun hroot d => ?_⟩
    · rintro rfl
      rw [h.tree.root_up] at hup
      exact (Option.some.inj hup).symm
    · rw [h.mem_child_dirs, h.tree.mem_below, hup, Option.some.injEq]
      constructor
      · rintro ⟨hd, -⟩
        exact hd.symm
      · rintro rfl
        exact ⟨rfl, hroot⟩

/-- An unchanged state has the same entries. -/
lemma Unchanged.live_entries (u : Unchanged s s') (d : Nat) :
    s'.live_entries d = s.live_entries d := by
  unfold NameFs.live_entries
  rw [(u.agree d).live, (u.agree d).dir.entries]

end NameFs

/-! ## Operations and what may fail in them -/

/-- No change of a page fails. -/
def NameOp.all_done : NameOp → Bool
  | .create _ _ _ io | .mknod _ _ _ _ _ io | .symlink _ _ _ _ _ io | .link _ _ _ io
  | .unlink _ _ io | .rmdir _ _ io => io == .done
  | .mkdir _ _ _ make add => make == .done && add == .done
  | .rename _ _ _ _ _ target delete above => target == .done && delete == .done && above == .done
  | .evict _ => true

/-- `cominix_handle_dirsync` does not fail, that of `cominix_make_empty` apart, and in a rename no
change fails after the first. -/
def NameOp.Fine : NameOp → Prop
  | .create _ _ _ io | .mknod _ _ _ _ _ io | .symlink _ _ _ _ _ io | .link _ _ _ io
  | .unlink _ _ io | .rmdir _ _ io => io.Synced
  | .mkdir _ _ _ _ add => add.Synced
  | .rename _ _ _ _ _ target delete above => NameFs.RenameFine target delete above
  | .evict _ => True

lemma synced_of_done {io : Commit} (h : (io == .done) = true) : io.Synced := by
  intro err he
  subst he
  cases eq_of_beq h

lemma NameOp.fine_of_all_done {op : NameOp} (h : op.all_done = true) : op.Fine := by
  cases op with
  | create dir name memory io => exact synced_of_done h
  | mknod dir name mode rdev memory io => exact synced_of_done h
  | symlink dir name symname memory page_symlink io => exact synced_of_done h
  | link ino dir name io => exact synced_of_done h
  | mkdir dir name memory make add => exact synced_of_done (Bool.and_eq_true_iff.1 h).2
  | unlink dir name io => exact synced_of_done h
  | rmdir dir name io => exact synced_of_done h
  | rename old_dir old_name new_dir new_name flags target delete above =>
    obtain ⟨htd, ha⟩ := Bool.and_eq_true_iff.1 h
    obtain ⟨ht, hd⟩ := Bool.and_eq_true_iff.1 htd
    exact ⟨synced_of_done ht, fun _ => ⟨eq_of_beq hd, eq_of_beq ha⟩⟩
  | evict ino => trivial

namespace NameFs

variable {s s' : NameFs}

/-- An inode that goes had no links, so the tree is the same. -/
lemma evict_done (h : s.NameOk) (ino : Nat) : Done s (cominix_evict_inode s ino) := by
  by_cases hz : s.i_nlink ino = 0
  · obtain ⟨hsbi, -, hinodes, hbit⟩ := evict_unlinked s ino hz
    have hno : s.live ino = false := by
      cases hl : s.live ino with
      | false => rfl
      | true =>
        have := h.tree.dir (x := ino) (by rw [tree_up_isSome]; exact hl)
        change s.i_nlink ino = _ at this
        omega
    have hlive : (cominix_evict_inode s ino).live = s.live := by
      rw [update_live hinodes]
      dsimp only [Option.elim_none]
      rw [← hno, Function.update_eq_self]
    have hdir : ∀ i, s.live i = true → (cominix_evict_inode s ino).dir i = s.dir i := by
      intro i hl
      rw [update_dir hinodes, Function.update_of_ne (ne_of_live hl hno)]
    have hlink : (cominix_evict_inode s ino).i_nlink = s.i_nlink := by
      rw [update_i_nlink hinodes]
      dsimp only [Option.elim_none]
      rw [← hz, Function.update_eq_self]
    have htree : (cominix_evict_inode s ino).tree = s.tree := by
      rw [tree_congr hlive fun i hl => by rw [hdir i hl]; exact ⟨rfl, rfl⟩, hlink]
      rfl
    refine ⟨⟨⟨fun {e} hl => ?_, fun {i n} hi => ?_⟩, ?_, fun i => ?_, fun i hd hl => ?_⟩, hsbi,
      fun x hl hl' => ?_⟩
    · rw [hlive] at hl
      rw [hdir e hl]
      exact h.shape.dir hl
    · have hii : i ≠ ino := by
        rintro rfl
        rw [hinodes, Function.update_self] at hi
        cases hi
      rw [hinodes, Function.update_of_ne hii] at hi
      rw [hsbi, hbit i hii]
      exact h.shape.ino hi
    · unfold inos
      rw [hsbi, htree]
      exact h.tree
    · rw [hlink]
      exact h.link_max i
    · rw [hlink]
      by_cases hii : i = ino
      · rw [hii, hz]
      · rw [hlive] at hl
        rw [update_isdir hinodes, Function.update_of_ne hii] at hd
        exact h.dead i hd hl
    · rw [hlive, hl] at hl'
      cases hl'
  · unfold cominix_evict_inode
    rw [if_neg hz]
    exact ⟨h, rfl, fun x hl hl' => by rw [hl] at hl'; cases hl'⟩

lemma checked {α : Type} {p : Prop} [Decidable p] {a r : α}
    (h : (if p then some a else none) = some r) : p ∧ a = r := by
  obtain ⟨hp, ha⟩ := Option.ite_none_right_eq_some.1 h
  exact ⟨hp, Option.some.inj ha⟩

/-- An operation keeps the tree of links, or fails and changes nothing. -/
lemma call_outcome {op : NameOp} {r : NameFs × Option DirErr} (h : s.NameOk) (hfine : op.Fine)
    (hc : s.call op = some r) : Outcome s r := by
  cases op with
  | create dir name memory io =>
    obtain ⟨⟨hl, hv, -⟩, rfl⟩ := checked hc
    exact mknod_outcome h (by decide) hl hv hfine
  | mknod dir name mode rdev memory io =>
    obtain ⟨⟨⟨hl, hv, -⟩, hm⟩, rfl⟩ := checked hc
    exact mknod_outcome h hm hl hv hfine
  | symlink dir name symname memory page_symlink io =>
    obtain ⟨⟨hl, hv, -⟩, rfl⟩ := checked hc
    exact symlink_outcome h hl hv hfine
  | link ino dir name io =>
    obtain ⟨⟨⟨hl, hv, -⟩, hfile, hlinks, hmax⟩, rfl⟩ := checked hc
    exact link_outcome h hl hv hfile hlinks hmax hfine
  | mkdir dir name memory make add =>
    obtain ⟨⟨⟨hl, hv, -⟩, hmax⟩, rfl⟩ := checked hc
    exact mkdir_outcome h hl hv hmax hfine
  | unlink dir name io =>
    obtain ⟨⟨hdel, hfile⟩, rfl⟩ := checked hc
    exact unlink_outcome h hdel hfile hfine
  | rmdir dir name io =>
    obtain ⟨⟨hdel, hdir⟩, rfl⟩ := checked hc
    exact rmdir_outcome h hdel hdir hfine
  | rename old_dir old_name new_dir new_name flags target delete above =>
    obtain ⟨hmay, rfl⟩ := checked hc
    exact rename_outcome h hmay hfine
  | evict ino =>
    obtain ⟨-, rfl⟩ := checked hc
    exact evict_done h ino

lemma Outcome.ok {r : NameFs × Option DirErr} (h : s.NameOk) (ho : Outcome s r) : r.1.NameOk := by
  unfold Outcome at ho
  split at ho
  · exact ho.ok
  · exact ho.ok h

lemma step_ok {op : NameOp} (hfine : op.Fine) (h : s.NameOk) (hs : s.step op = some s') :
    s'.NameOk := by
  obtain ⟨r, hc, rfl⟩ := Option.map_eq_some_iff.1 hs
  exact (call_outcome h hfine hc).ok h

/-- The invariant holds after every run from a fresh image. -/
lemma run_ok {C : NameFs → NameOp → Prop} (hC : ∀ s op, C s op → op.Fine) {ops : List NameOp}
    (fresh : FreshImage s) (run : Run step C s ops s') : s'.NameOk :=
  run.inv (fun hc h hs => step_ok (hC _ _ hc) h hs) fresh.ok

/-! ## Link counts -/

/-- When no change of a page fails, the link counts are those of the tree of names after every run
from a fresh image, and an operation takes away only a directory with no entries but `.` and `..`. -/
theorem link_counts_match {ops : List NameOp} (fresh : FreshImage s)
    (run : Run step (fun _ op => op.all_done = true) s ops s') :
    s'.CountsMatch ∧ ∀ op r, op.all_done = true → s'.call op = some r →
      ∀ x, s'.live x = true → r.1.live x = false →
        ∀ de ∈ s'.live_entries x, de.name = pad dot ∨ de.name = pad dotdot := by
  have h := run_ok (fun _ _ => NameOp.fine_of_all_done) fresh run
  refine ⟨h.countsMatch, fun op r hop hc x hl hl' de hde => ?_⟩
  have hout := call_outcome h (NameOp.fine_of_all_done hop) hc
  unfold Outcome at hout
  split at hout
  · have hempty := hout.removed x hl hl'
    unfold live_entries at hde
    rw [if_pos hl] at hde
    by_contra hno
    obtain ⟨hdot, hdotdot⟩ := not_or.1 hno
    have hchild := Directory.mem_children.2 ⟨hde, hdot, hdotdot⟩
    rw [hempty] at hchild
    cases hchild
  · rw [(hout.agree x).live, hl] at hl'
    cases hl'

/-- The root directory of a fresh image. -/
def mkfs_root : Directory where
  i_size := 128
  page n k :=
    if n = 0 ∧ k = 0 then ⟨MINIX_ROOT_INO, pad dot⟩
    else if n = 0 ∧ k = 1 then ⟨MINIX_ROOT_INO, pad dotdot⟩
    else ⟨0, pad []⟩

/-- A fresh image with sixteen inodes. -/
def mkfs_image : NameFs where
  sbi := {
    s_ninodes := 16, s_nzones := 64, s_imap_blocks := 1, s_zmap_blocks := 1, s_firstdatazone := 5,
    s_log_zone_size := 0, s_maxbytes := 0, extra_sb_location := 0, hashtable := 0,
    hashtable_size := 0, heap_brk := 0, max_brk := 0 }
  s_blocksize_bits := 10
  s_imap := ⟨fun _ j => j < 2 || 16 < j, fun _ j => j < 2 || 16 < j, fun _ => false⟩
  inodes := Function.update (fun _ => none) MINIX_ROOT_INO (some ⟨.dir, 2, false, mkfs_root⟩)

lemma mkfs_image_fresh : FreshImage mkfs_image := by
  refine ⟨by decide, by decide +kernel, ⟨mkfs_root, rfl, rfl, rfl, rfl⟩, fun i hi => ?_⟩
  change Function.update (fun _ => none) MINIX_ROOT_INO (some (⟨.dir, 2, false, mkfs_root⟩ : Node)) i = _
  rw [Function.update_of_ne hi]

/-- A run with two directories, a file with two names, a directory moved over an empty one, and an
operation that finds no free name. -/
def tree_run : List NameOp :=
  [.mkdir 1 [97] true .done .done, .mkdir 1 [98] true .done .done, .create 2 [102] true .done,
    .link 4 3 [103] .done, .mkdir 2 [99] true .done .done, .unlink 3 [103] .done,
    .rename 2 [99] 1 [98] 0 .done .done .done, .create 1 [104] false .done, .evict 3]

theorem link_counts_match_run : ∃ s', Run step (fun _ op => op.all_done = true) mkfs_image tree_run s' ∧
    s'.CountsMatch ∧ ∀ op r, op.all_done = true → s'.call op = some r →
      ∀ x, s'.live x = true → r.1.live x = false →
        ∀ de ∈ s'.live_entries x, de.name = pad dot ∨ de.name = pad dotdot := by
  have hrun : (tree_run.foldlM (fun (s : NameFs) (op : NameOp) => if op.all_done = true then s.step op else none)
      mkfs_image).isSome = true := by
    decide +kernel
  obtain ⟨s', h⟩ := Option.isSome_iff_exists.1 hrun
  have run := Run.of_foldlM h
  exact ⟨s', run, link_counts_match mkfs_image_fresh run⟩

/-! ## Errors -/

lemma synced_done : Commit.done.Synced := by
  intro err he
  cases he

lemma synced_prepare_failed (err : DirErr) : (Commit.prepare_failed err).Synced := by
  intro err' he
  cases he

instance (io : Commit) : Decidable io.Synced :=
  match io with
  | .done => isTrue synced_done
  | .prepare_failed err => isTrue (synced_prepare_failed err)
  | .dirsync_failed err => isFalse fun h => h err rfl

instance (target delete above : Commit) : Decidable (RenameFine target delete above) :=
  inferInstanceAs (Decidable (_ ∧ _))

instance (op : NameOp) : Decidable op.Fine :=
  match op with
  | .create _ _ _ io | .mknod _ _ _ _ _ io | .symlink _ _ _ _ _ io | .link _ _ _ io
  | .unlink _ _ io | .rmdir _ _ io => inferInstanceAs (Decidable io.Synced)
  | .mkdir _ _ _ _ add => inferInstanceAs (Decidable add.Synced)
  | .rename _ _ _ _ _ target delete above =>
    inferInstanceAs (Decidable (RenameFine target delete above))
  | .evict _ => isTrue trivial

/-- When no `cominix_handle_dirsync` fails but that of `cominix_make_empty`, and no change of a rename
after its first, no entry dangles after any run from a fresh image, and an operation that fails
changes no entry and no link count. -/
theorem no_entry_dangles {ops : List NameOp} (fresh : FreshImage s)
    (run : Run step (fun _ op => op.Fine) s ops s') :
    s'.NoDangling ∧ ∀ op r err, op.Fine → s'.call op = some (r, some err) →
      (∀ d, r.live_entries d = s'.live_entries d) ∧ ∀ i, r.i_nlink i = s'.i_nlink i := by
  have h := run_ok (fun _ _ hc => hc) fresh run
  refine ⟨h.noDangling, fun op r err hop hc => ?_⟩
  have hu : Unchanged s' r := call_outcome h hop hc
  exact ⟨hu.live_entries, fun i => by rw [hu.i_nlink]⟩

/-- A run in which changes fail before a page is written, and a directory is made but not synced. -/
def failing_run : List NameOp :=
  [.create 1 [97] true (.prepare_failed DirErr.EIO), .mkdir 1 [98] true (.dirsync_failed DirErr.EIO) .done,
    .create 1 [97] true .done, .mkdir 1 [98] true .done .done,
    .rename 1 [97] 3 [97] 0 (.prepare_failed .ENOSPC) .done .done, .link 2 1 [99] .done]

theorem no_entry_dangles_run : ∃ s', Run step (fun _ op => op.Fine) mkfs_image failing_run s' ∧
    s'.NoDangling ∧ ∀ op r err, op.Fine → s'.call op = some (r, some err) →
      (∀ d, r.live_entries d = s'.live_entries d) ∧ ∀ i, r.i_nlink i = s'.i_nlink i := by
  have hrun : (failing_run.foldlM (fun (s : NameFs) (op : NameOp) => if op.Fine then s.step op else none)
      mkfs_image).isSome = true := by
    decide +kernel
  obtain ⟨s', h⟩ := Option.isSome_iff_exists.1 hrun
  have run := Run.of_foldlM h
  exact ⟨s', run, no_entry_dangles mkfs_image_fresh run⟩

/-- A failure of the last `cominix_handle_dirsync` of `cominix_create`: the entry is in the directory,
but the error frees the inode it names, and the next file takes its place under both names. -/
theorem created_then_freed : ∃ s₁ s₂ : NameFs, FreshImage mkfs_image ∧
    mkfs_image.call (.create 1 [97] true (.dirsync_failed DirErr.EIO)) = some (s₁, some DirErr.EIO) ∧
    mkfs_image.live_entries 1 ≠ s₁.live_entries 1 ∧ ⟨2, pad [97]⟩ ∈ s₁.live_entries 1 ∧
    s₁.ibit 2 = false ∧ s₁.i_nlink 2 = 0 ∧ ¬ s₁.NoDangling ∧
    s₁.call (.create 1 [98] true .done) = some (s₂, none) ∧ s₂.namings 2 = 2 ∧
    s₂.i_nlink 2 = 1 ∧ ¬ s₂.NoDangling := by
  have h : ((mkfs_image.call (.create 1 [97] true (.dirsync_failed DirErr.EIO))).bind fun p =>
      (p.1.call (.create 1 [98] true .done)).map fun q =>
        (decide (p.2 = some DirErr.EIO ∧ (⟨2, pad [97]⟩ : Dirent) ∈ p.1.live_entries 1 ∧
          p.1.ibit 2 = false ∧ p.1.i_nlink 2 = 0),
        decide (q.2 = none ∧ (⟨2, pad [97]⟩ : Dirent) ∈ q.1.live_entries 1 ∧
          q.1.namings 2 = 2 ∧ q.1.i_nlink 2 = 1))) = some (true, true) := by
    decide +kernel
  simp only [Option.bind_eq_some_iff, Option.map_eq_some_iff, Prod.mk.injEq, decide_eq_true_eq] at h
  obtain ⟨⟨s₁, e₁⟩, h₁, ⟨s₂, e₂⟩, h₂, ⟨he₁, hmem₁, hbit, hlink₁⟩, he₂, hmem₂, hnamings, hlink₂⟩ := h
  dsimp only at *
  subst he₁ he₂
  have hnone : (⟨2, pad [97]⟩ : Dirent) ∉ mkfs_image.live_entries 1 := by decide +kernel
  refine ⟨s₁, s₂, mkfs_image_fresh, h₁, fun he => hnone (he ▸ hmem₁), hmem₁, hbit, hlink₁, ?_, h₂,
    hnamings, hlink₂, ?_⟩
  · intro hno
    have := hno.bit 1 _ hmem₁
    rw [hbit] at this
    cases this
  · intro hno
    have := hno.links 1 _ hmem₂
    dsimp only at this
    omega

end NameFs

end CominixFs
