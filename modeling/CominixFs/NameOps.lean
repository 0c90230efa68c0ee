import CominixFs.NameTree

/-!
# What the operations on names do

An operation that returns an error leaves every entry and every link count as it was (`Unchanged`),
as long as `cominix_handle_dirsync` does not fail; one that succeeds is an operation of the tree of
links. `NameOk` is what both keep.
-/

namespace CominixFs

namespace NameFs

/-- The directories are in order, the link counts are those of the tree, and a removed directory has
no links. -/
structure NameOk (s : NameFs) : Prop where
  shape : s.Shape
  tree : s.tree.Inv s.inos MINIX_ROOT_INO
  link_max : ∀ i, s.i_nlink i ≤ s_max_links
  dead : ∀ i, s.S_ISDIR i = true → s.live i = false → s.i_nlink i = 0

/-- What a failed operation may change of an inode besides its link count: what lies past the end of
its directory. -/
structure Agree (s s' : NameFs) (i : Nat) : Prop where
  live : s'.live i = s.live i
  isdir : s'.S_ISDIR i = s.S_ISDIR i
  dir : (s.dir i).Same (s'.dir i)
  isSome : (s'.inodes i).isSome = (s.inodes i).isSome
  ibit : s.ibit i = true → s'.ibit i = true

/-- No entry and no link count differs. -/
structure Unchanged (s s' : NameFs) : Prop where
  sbi : s'.sbi = s.sbi
  agree : ∀ i, Agree s s' i
  i_nlink : s'.i_nlink = s.i_nlink

lemma Agree.refl (s : NameFs) (i : Nat) : Agree s s i := ⟨rfl, rfl, .refl _, rfl, id⟩

lemma Agree.trans {s s' s'' : NameFs} {i : Nat} (h : Agree s s' i) (h' : Agree s' s'' i) :
    Agree s s'' i := by
  refine ⟨h'.live.trans h.live, h'.isdir.trans h.isdir, ⟨?_, fun m hm => ?_⟩,
    h'.isSome.trans h.isSome, fun hi => h'.ibit (h.ibit hi)⟩
  · rw [h'.dir.i_size, h.dir.i_size]
  · rw [h'.dir.slot m (by rw [h.dir.nslots]; exact hm), h.dir.slot m hm]

lemma Unchanged.refl (s : NameFs) : Unchanged s s := ⟨rfl, .refl s, rfl⟩

lemma agree_relink (s : NameFs) (ino : Nat) (f : Nat → Nat) (i : Nat) :
    Agree s (s.relink ino f) i := by
  refine ⟨by rw [relink_live], by rw [relink_isdir], by rw [relink_dir]; exact .refl _,
    modify_isSome s ino i _, id⟩

lemma agree_redir {s : NameFs} {d : Nat} {d' : Directory} (h : (s.dir d).Same d') (i : Nat) :
    Agree s (s.redir d d') i := by
  refine ⟨by rw [redir_live], by rw [redir_isdir], ?_, modify_isSome s d i _, id⟩
  cases hs : (s.inodes d).isSome with
  | true =>
    rw [redir_dir hs]
    by_cases hi : i = d
    · subst hi
      rw [Function.update_self]
      exact h
    · rw [Function.update_of_ne hi]
      exact .refl _
  | false =>
    have hnone : s.inodes d = none := Option.isNone_iff_eq_none.1 (by simpa using hs)
    have hsame : s.redir d d' = s := by
      unfold redir modify
      rw [hnone, Option.map_none, ← hnone, Function.update_eq_self]
    rw [hsame]
    exact .refl _

/-- A changed inode is the same elsewhere. -/
lemma agree_update {s s' : NameFs} {ino i : Nat} {o : Option Node} (hi : i ≠ ino)
    (h : s'.inodes = Function.update s.inodes ino o) (hb : s'.ibit i = s.ibit i) :
    Agree s s' i := by
  refine ⟨?_, ?_, ?_, ?_, fun hbit => hb.trans hbit⟩
  · rw [update_live h, Function.update_of_ne hi]
  · rw [update_isdir h, Function.update_of_ne hi]
  · rw [update_dir h, Function.update_of_ne hi]
    exact .refl _
  · rw [h, Function.update_of_ne hi]

/-- An inode that was not there and is not there. -/
lemma agree_none {s s' : NameFs} {i : Nat} (h : s.inodes i = none) (h' : s'.inodes i = none)
    (hb : s.ibit i = false) : Agree s s' i := by
  refine ⟨?_, ?_, ?_, ?_, fun hbit => absurd (hb.symm.trans hbit) Bool.false_ne_true⟩
  · rw [live_of_none h, live_of_none h']
  · rw [isdir_of_none h, isdir_of_none h']
  · unfold NameFs.dir
    rw [h, h']
    exact .refl _
  · rw [h, h']

lemma Unchanged.tree {s s' : NameFs} (h : s.Shape) (u : Unchanged s s') : s'.tree = s.tree := by
  have hlive : s'.live = s.live := funext fun i => (u.agree i).live
  rw [tree_congr hlive fun i hl =>
    ⟨(u.agree i).dir.slot 1 (h.dir hl).two_le, (u.agree i).dir.children⟩, u.i_nlink]
  rfl

/-- A failed operation keeps the invariant. -/
lemma Unchanged.ok {s s' : NameFs} (h : s.NameOk) (u : Unchanged s s') : s'.NameOk := by
  refine ⟨⟨fun {d} hl => ?_, fun {i n} hi => ?_⟩, ?_, fun i => ?_, fun i hd hl => ?_⟩
  · rw [(u.agree d).live] at hl
    exact (h.shape.dir hl).same (u.agree d).dir
  · have hsome := (u.agree i).isSome
    rw [hi] at hsome
    obtain ⟨n', hn'⟩ := Option.isSome_iff_exists.1 hsome.symm
    obtain ⟨hpos, hle, hbit⟩ := h.shape.ino hn'
    rw [u.sbi]
    exact ⟨hpos, hle, (u.agree i).ibit hbit⟩
  · rw [u.tree h.shape]
    unfold inos
    rw [u.sbi]
    exact h.tree
  · rw [u.i_nlink]
    exact h.link_max i
  · rw [(u.agree i).isdir] at hd
    rw [(u.agree i).live] at hl
    rw [u.i_nlink]
    exact h.dead i hd hl

/-! ## Link counts -/

lemma inc_nlink_eq {n : Nat} (h : n ≤ s_max_links) : inc_nlink n = n + 1 := by
  unfold inc_nlink
  unfold s_max_links at h
  exact Nat.mod_eq_of_lt (by omega)

lemma drop_nlink_eq {n : Nat} (h : 0 < n) (hm : n ≤ s_max_links + 1) : drop_nlink n = n - 1 := by
  unfold drop_nlink
  unfold s_max_links at hm
  omega

lemma drop_inc_nlink {n : Nat} (h : n ≤ s_max_links) : drop_nlink (inc_nlink n) = n := by
  rw [inc_nlink_eq h, drop_nlink_eq (Nat.succ_pos n) (Nat.succ_le_succ h)]
  rfl

lemma inode_inc_eq (s : NameFs) (ino : Nat) :
    inode_inc_link_count s ino = s.relink ino inc_nlink := rfl

lemma inode_dec_eq (s : NameFs) (ino : Nat) :
    inode_dec_link_count s ino = s.relink ino drop_nlink := rfl

/-- An inode that has its bit set or links is there. -/
lemma isSome_of_nlink {s : NameFs} {i : Nat} (h : s.i_nlink i ≠ 0) :
    (s.inodes i).isSome = true := by
  cases hi : s.inodes i with
  | none => exact absurd (i_nlink_of_none hi) h
  | some n => rfl

/-- What an entry names has links. -/
lemma NameOk.nlink_pos {s : NameFs} (h : s.NameOk) {d c : Nat} (hc : c ∈ s.tree.children d) :
    0 < s.i_nlink c := by
  cases hup : s.tree.up c with
  | none =>
    have := h.tree.file hup
    have hpos := LinkTree.named_pos (h.tree.holder hc).1 hc
    change 0 < s.tree.nlink c
    omega
  | some p =>
    have := h.tree.dir (x := c) (by rw [hup]; rfl)
    change 0 < s.tree.nlink c
    omega

/-- A directory that has links is live. -/
lemma NameOk.live_of_nlink {s : NameFs} (h : s.NameOk) {i : Nat} (hd : s.S_ISDIR i = true)
    (hn : s.i_nlink i ≠ 0) : s.live i = true := by
  cases hl : s.live i with
  | true => rfl
  | false => exact absurd (h.dead i hd hl) hn

lemma tree_up_file {s : NameFs} {i : Nat} (h : s.S_ISDIR i = false) : s.tree.up i = none := by
  apply if_neg
  intro hl
  rw [isdir_of_live hl] at h
  cases h

lemma tree_up_isSome {s : NameFs} {i : Nat} : (s.tree.up i).isSome = s.live i := by
  change (if s.live i then some (s.parent i) else none).isSome = s.live i
  cases s.live i <;> rfl

/-! ## What an operation returns -/

/-- A successful operation: the invariant holds, and a directory that is gone had no entries. -/
structure Done (s s' : NameFs) : Prop where
  ok : s'.NameOk
  sbi : s'.sbi = s.sbi
  removed : ∀ x, s.live x = true → s'.live x = false → (s.dir x).children = []

/-- An operation succeeds, or fails and changes nothing. -/
def Outcome (s : NameFs) (r : NameFs × Option DirErr) : Prop :=
  match r.2 with
  | none => Done s r.1
  | some _ => Unchanged s r.1

lemma Outcome.done {s s' : NameFs} (h : Done s s') : Outcome s (s', none) := h

lemma Outcome.failed {s s' : NameFs} {err : DirErr} (h : Unchanged s s') :
    Outcome s (s', some err) := h

lemma on_dir_eq (s : NameFs) (i : Nat) (r : Directory × Option DirErr) :
    s.on_dir i r = (s.redir i r.1, r.2) := rfl

/-- Success without a directory made or removed. -/
lemma NameOk.done {s s' : NameFs} (h : s.NameOk) (hshape : s'.Shape) (hsbi : s'.sbi = s.sbi)
    (hlive : s'.live = s.live) (hisdir : s'.S_ISDIR = s.S_ISDIR) {t : LinkTree Nat}
    (ht : s'.tree = t) (hinv : t.Inv s.inos MINIX_ROOT_INO) (hmax : ∀ i, t.nlink i ≤ s_max_links)
    (hdead : ∀ i, s.S_ISDIR i = true → s.live i = false → t.nlink i = s.i_nlink i) :
    Done s s' := by
  subst ht
  refine ⟨⟨hshape, ?_, hmax, fun i hd hl => ?_⟩, hsbi, fun x hl hl' => ?_⟩
  · unfold inos
    rw [hsbi]
    exact hinv
  · rw [hisdir] at hd
    rw [hlive] at hl
    exact (hdead i hd hl).trans (h.dead i hd hl)
  · rw [hlive, hl] at hl'
    cases hl'

/-- A count that is changed stays below a bound when the new one does. -/
lemma update_le {f : Nat → Nat} {i v m : Nat} (hv : v ≤ m) (hf : ∀ j, f j ≤ m) (j : Nat) :
    Function.update f i v j ≤ m := by
  by_cases hj : j = i
  · rw [hj, Function.update_self]
    exact hv
  · rw [Function.update_of_ne hj]
    exact hf j

lemma ne_of_isdir {s : NameFs} {i j : Nat} (hi : s.S_ISDIR i = true) (hj : s.S_ISDIR j = false) :
    i ≠ j := by
  rintro rfl
  rw [hj] at hi
  cases hi

/-- Success of an operation that entered a file. -/
lemma NameOk.done_enter {s s' : NameFs} {d ino : Nat} (h : s.NameOk) (hshape : s'.Shape)
    (hsbi : s'.sbi = s.sbi) (hlive : s'.live = s.live) (hisdir : s'.S_ISDIR = s.S_ISDIR)
    (ht : s'.tree = s.tree.enter d ino) (hl : s.live d = true) (hfile : s.S_ISDIR ino = false)
    (hmax : s.i_nlink ino < s_max_links) : Done s s' := by
  have hinv := h.tree.enter (by rw [tree_up_isSome]; exact hl) (tree_up_file hfile)
  apply h.done hshape hsbi hlive hisdir ht hinv
  · rw [LinkTree.enter]
    exact update_le hmax h.link_max
  · intro i hd _
    rw [LinkTree.enter]
    exact Function.update_of_ne (ne_of_isdir hd hfile) _ _

/-! ## Files -/

section

variable {s s' : NameFs} {d ino : Nat} {name : List UInt8} {io : Commit}

lemma add_nondir_ok (h : (add_nondir s d name ino io).2 = none) :
    (cominix_add_link (s.dir d) name ino io).2 = none ∧
      (add_nondir s d name ino io).1 = s.redir d (cominix_add_link (s.dir d) name ino io).1 := by
  unfold add_nondir on_dir at h ⊢
  cases hr : (cominix_add_link (s.dir d) name ino io).2 with
  | none => exact ⟨rfl, rfl⟩
  | some err =>
    rw [hr] at h
    cases h

lemma add_nondir_error {err : DirErr} (h : (add_nondir s d name ino io).2 = some err) :
    (cominix_add_link (s.dir d) name ino io).2 = some err ∧
      (add_nondir s d name ino io).1 = cominix_evict_inode
        ((s.redir d (cominix_add_link (s.dir d) name ino io).1).relink ino drop_nlink) ino := by
  unfold add_nondir on_dir at h ⊢
  cases hr : (cominix_add_link (s.dir d) name ino io).2 with
  | none =>
    rw [hr] at h
    cases h
  | some err' =>
    rw [hr] at h
    cases h
    exact ⟨rfl, rfl⟩

/-- What `cominix_new_inode` did for a file: one more inode, with one link and no name. -/
structure NewFile (s s' : NameFs) (ino : Nat) : Prop where
  none : s.inodes ino = none
  bit : s.ibit ino = false
  pos : 0 < ino
  sbi : s'.sbi = s.sbi
  shape : s'.Shape
  live : s'.live = s.live
  isdir : s'.S_ISDIR = s.S_ISDIR
  agree : ∀ i ≠ ino, Agree s s' i
  isSome : (s'.inodes ino).isSome = true
  tree : s'.tree = { s.tree with nlink := Function.update s.tree.nlink ino 1 }

/-- The number of a new inode was free. -/
lemma Shape.none_of_bit (h : s.Shape) (hb : s.ibit ino = false) : s.inodes ino = none := by
  cases hi : s.inodes ino with
  | none => rfl
  | some n =>
    have hbit := (h.ino hi).2.2
    rw [hb] at hbit
    cases hbit

lemma new_file {mode : Ftype} {memory : Bool} (h : s.Shape) (hm : mode ≠ .dir)
    (hn : cominix_new_inode s mode memory = (s', .ok ino)) : NewFile s s' ino := by
  obtain ⟨hbit, hpos, hle, hsbi, -, hinodes, hibit⟩ := new_inode_ok hn
  have hnone := h.none_of_bit hbit
  have hmode : (mode == Ftype.dir) = false := by simpa using hm
  have hlive : s'.live = s.live := by
    rw [update_live hinodes]
    dsimp only [Option.elim_some]
    rw [hmode, Bool.false_and, ← live_of_none hnone, Function.update_eq_self]
  have hisdir : s'.S_ISDIR = s.S_ISDIR := by
    rw [update_isdir hinodes]
    dsimp only [Option.elim_some]
    rw [hmode, ← isdir_of_none hnone, Function.update_eq_self]
  have hdir : ∀ i ≠ ino, s'.dir i = s.dir i := by
    intro i hi
    rw [update_dir hinodes, Function.update_of_ne hi]
  have hne : ∀ i, s.live i = true → i ≠ ino := fun i hl => ne_of_live hl (live_of_none hnone)
  refine ⟨hnone, hbit, hpos, hsbi, ⟨fun {e} hl => ?_, fun {i n} hi => ?_⟩, hlive, hisdir,
    fun i hi => agree_update hi hinodes ?_, ?_, ?_⟩
  · rw [hlive] at hl
    rw [hdir e (hne e hl)]
    exact h.dir hl
  · rw [hsbi, hibit]
    by_cases hii : i = ino
    · rw [hii, if_pos rfl]
      exact ⟨hpos, hle, rfl⟩
    · rw [hinodes, Function.update_of_ne hii] at hi
      rw [if_neg hii]
      exact h.ino hi
  · rw [hibit, if_neg hi]
  · rw [hinodes, Function.update_self]
    rfl
  · rw [tree_congr hlive fun i hl => by rw [hdir i (hne i hl)]; exact ⟨rfl, rfl⟩,
      update_i_nlink hinodes]
    rfl

/-- A new file that gets no name loses its one link and is freed. -/
lemma drop_new_file {t : NameFs} (hnew : NewFile s s' ino) (hagree : ∀ i ≠ ino, Agree s' t i)
    (hsbi : t.sbi = s'.sbi) (hsome : (t.inodes ino).isSome = true)
    (hlinks : t.i_nlink = s'.i_nlink) :
    Unchanged s (cominix_evict_inode (t.relink ino drop_nlink) ino) := by
  have hs'nlink : s'.i_nlink = Function.update s.i_nlink ino 1 :=
    congrArg LinkTree.nlink hnew.tree
  have hgone : drop_nlink 1 = 0 := by decide
  have hnlink : (t.relink ino drop_nlink).i_nlink = Function.update s.i_nlink ino 0 := by
    rw [relink_i_nlink hsome, hlinks, hs'nlink, Function.update_self, Function.update_idem, hgone]
  obtain ⟨hesbi, -, hinodes, hbit⟩ := evict_unlinked (t.relink ino drop_nlink) ino
    (by rw [hnlink, Function.update_self])
  refine ⟨hesbi.trans (hsbi.trans hnew.sbi), fun i => ?_, ?_⟩
  · by_cases hi : i = ino
    · subst hi
      exact agree_none hnew.none (by rw [hinodes, Function.update_self]) hnew.bit
    · exact (hnew.agree i hi).trans ((hagree i hi).trans
        ((agree_relink t ino _ i).trans (agree_update hi hinodes (hbit i hi))))
  · rw [update_i_nlink hinodes, hnlink, Function.update_idem]
    dsimp only [Option.elim_none]
    rw [← i_nlink_of_none hnew.none, Function.update_eq_self]

/-- A new file gets its name, or is freed again. -/
lemma add_new_file (h : s.NameOk) (hnew : NewFile s s' ino) (hl : s.live d = true)
    (hv : ValidName name) (hio : io.Synced) : Outcome s (add_nondir s' d name ino io) := by
  have hl' : s'.live d = true := by rw [hnew.live]; exact hl
  have hzero : s.tree.nlink ino = 0 := i_nlink_of_none hnew.none
  unfold Outcome
  split
  · rename_i hok
    obtain ⟨hadd, heq⟩ := add_nondir_ok hok
    obtain ⟨hshape, htree⟩ := add_link_tree hnew.shape hl' hv (Nat.ne_of_gt hnew.pos) hadd
    rw [heq]
    apply h.done_enter hshape hnew.sbi _ _ _ hl (isdir_of_none hnew.none)
    · change s.tree.nlink ino < s_max_links
      rw [hzero]
      decide
    · rw [redir_live, hnew.live]
    · rw [redir_isdir, hnew.isdir]
    · rw [htree, hnew.tree, LinkTree.enter, hzero]
  · rename_i err herr
    obtain ⟨hadd, heq⟩ := add_nondir_error herr
    rw [heq]
    have hsame := add_link_failed (hnew.shape.dir hl').aligned hio
      (by rw [hadd]; exact Option.some_ne_none err)
    exact drop_new_file hnew (fun i _ => agree_redir hsame i) rfl
      ((modify_isSome _ _ _ _).trans hnew.isSome) (redir_i_nlink _ _ _)

/-- Without a new inode nothing changes but a bit. -/
lemma new_inode_unchanged {mode : Ftype} {memory : Bool} {err : DirErr}
    (hn : cominix_new_inode s mode memory = (s', .error err)) : Unchanged s s' := by
  obtain ⟨hsbi, -, hinodes, hbit⟩ := new_inode_error hn
  refine ⟨hsbi, fun i => ⟨?_, ?_, ?_, ?_, hbit i⟩, ?_⟩
  · unfold live; rw [hinodes]
  · unfold S_ISDIR; rw [hinodes]
  · unfold dir; rw [hinodes]; exact .refl _
  · rw [hinodes]
  · unfold i_nlink; rw [hinodes]

lemma mknod_outcome (h : s.NameOk) {mode : Ftype} {rdev : Nat} {memory : Bool} (hm : mode ≠ .dir)
    (hl : s.live d = true) (hv : ValidName name) (hio : io.Synced) :
    Outcome s (cominix_mknod s d name mode rdev memory io) := by
  unfold cominix_mknod
  split
  · exact .failed (.refl s)
  · split
    · rename_i s' err hn
      exact .failed (new_inode_unchanged hn)
    · rename_i s' ino hn
      exact add_new_file h (new_file h.shape hm hn) hl hv hio

lemma symlink_outcome (h : s.NameOk) {symname : List UInt8} {memory : Bool}
    {page_symlink : Option DirErr} (hl : s.live d = true) (hv : ValidName name)
    (hio : io.Synced) : Outcome s (cominix_symlink s d name symname memory page_symlink io) := by
  unfold cominix_symlink
  split
  · exact .failed (.refl s)
  · split
    · rename_i s' err hn
      exact .failed (new_inode_unchanged hn)
    · rename_i s' ino hn
      have hnew := new_file h.shape (by decide) hn
      split
      · exact .failed (drop_new_file hnew (fun i _ => .refl s' i) rfl hnew.isSome rfl)
      · exact add_new_file h hnew hl hv hio

/-- Another name for a file: its count goes up before the name is there, and down again when it
cannot be added. -/
lemma link_outcome (h : s.NameOk) (hl : s.live d = true) (hv : ValidName name)
    (hfile : s.S_ISDIR ino = false) (hlinks : s.i_nlink ino ≠ 0)
    (hmax : s.i_nlink ino < s_max_links) (hio : io.Synced) :
    Outcome s (cominix_link s ino d name io) := by
  have hsome := isSome_of_nlink hlinks
  have hinc : inc_nlink (s.tree.nlink ino) = s.tree.nlink ino + 1 :=
    inc_nlink_eq (Nat.le_of_lt hmax)
  have hshape := h.shape.relink ino inc_nlink
  have hl' : (s.relink ino inc_nlink).live d = true := by rw [relink_live]; exact hl
  have hino : ino ≠ 0 := by
    obtain ⟨n, hn⟩ := Option.isSome_iff_exists.1 hsome
    exact Nat.ne_of_gt (h.shape.ino hn).1
  unfold cominix_link
  rw [inode_inc_eq]
  unfold Outcome
  split
  · rename_i hok
    obtain ⟨hadd, heq⟩ := add_nondir_ok hok
    obtain ⟨hshape', htree⟩ := add_link_tree hshape hl' hv hino hadd
    rw [heq]
    apply h.done_enter hshape' rfl _ _ _ hl hfile hmax
    · rw [redir_live, relink_live]
    · rw [redir_isdir, relink_isdir]
    · rw [htree, relink_tree hsome, hinc, LinkTree.enter]
  · rename_i err herr
    obtain ⟨hadd, heq⟩ := add_nondir_error herr
    rw [heq]
    have hsame := add_link_failed (hshape.dir hl').aligned hio
      (by rw [hadd]; exact Option.some_ne_none err)
    have hsome' : (((s.relink ino inc_nlink).redir d
        (cominix_add_link ((s.relink ino inc_nlink).dir d) name ino io).1).inodes ino).isSome =
        true := by
      rw [redir, modify_isSome, relink, modify_isSome]
      exact hsome
    have hnlink := relink_i_nlink (f := drop_nlink) hsome'
    rw [redir_i_nlink, relink_i_nlink hsome, Function.update_self, Function.update_idem,
      drop_inc_nlink (Nat.le_of_lt hmax), Function.update_eq_self] at hnlink
    -- the file has the links it had before, so it is not freed
    unfold cominix_evict_inode
    rw [hnlink, if_neg hlinks]
    refine ⟨rfl, fun i => ?_, hnlink⟩
    exact (agree_relink s ino _ i).trans ((agree_redir hsame i).trans (agree_relink _ ino _ i))

/-! ## Removing a name -/

lemma redir_unchanged {d' : Directory} (h : (s.dir d).Same d') : Unchanged s (s.redir d d') :=
  ⟨rfl, agree_redir h, redir_i_nlink s d d'⟩

lemma relink_children_tree {i : Nat} {f : Nat → Nat} {children : Nat → Multiset Nat}
    (ht : s'.tree = { s.tree with children := children }) (hs : (s'.inodes i).isSome = true) :
    (s'.relink i f).tree =
      { s.tree with
        children := children
        nlink := Function.update s.tree.nlink i (f (s.tree.nlink i)) } := by
  rw [relink_tree hs, ht]

/-- What `cominix_unlink` does to the directory and to the count of the inode. -/
structure Unlinked (s s' : NameFs) (d ino : Nat) : Prop where
  mem : ino ∈ s.tree.children d
  sbi : s'.sbi = s.sbi
  shape : s'.Shape
  live : s'.live = s.live
  isdir : s'.S_ISDIR = s.S_ISDIR
  isSome : ∀ i, (s'.inodes i).isSome = (s.inodes i).isSome
  tree : s'.tree =
    { s.tree with
      children := Function.update s.tree.children d ((s.tree.children d).erase ino)
      nlink := Function.update s.tree.nlink ino (drop_nlink (s.tree.nlink ino)) }

lemma unlink_ok (h : s.Shape) (hdel : s.may_delete d name)
    (hok : (cominix_unlink s d name (s.lookup d name) io).2 = none) :
    Unlinked s (cominix_unlink s d name (s.lookup d name) io).1 d (s.lookup d name) := by
  obtain ⟨hl, hv, hne, hsome⟩ := hdel
  obtain ⟨n, k, hf, hk, hh⟩ := find_of_lookup h hl hv hne
  unfold cominix_unlink on_dir at hok ⊢
  rw [hf] at hok ⊢
  dsimp only at hok ⊢
  cases hr : (cominix_delete_entry (s.dir d) n k io).2 with
  | some err =>
    rw [hr] at hok
    cases hok
  | none =>
    obtain ⟨hmem, hshape, htree⟩ := delete_entry_tree h hl hk hh hr
    dsimp only
    rw [inode_dec_eq]
    refine ⟨hmem, rfl, hshape.relink _ _, ?_, ?_, fun i => ?_, ?_⟩
    · exact (relink_live _ _ _).trans (redir_live _ _ _)
    · exact (relink_isdir _ _ _).trans (redir_isdir _ _ _)
    · exact (modify_isSome _ _ i _).trans (modify_isSome _ _ i _)
    · exact relink_children_tree htree ((modify_isSome _ _ _ _).trans hsome)

lemma unlink_error {err : DirErr} (hio : io.Synced)
    (herr : (cominix_unlink s d name ino io).2 = some err) :
    Unchanged s (cominix_unlink s d name ino io).1 := by
  unfold cominix_unlink on_dir at herr ⊢
  cases hf : cominix_find_entry (s.dir d) name with
  | none => exact .refl s
  | some p =>
    obtain ⟨n, k⟩ := p
    rw [hf] at herr
    dsimp only at herr ⊢
    cases hr : (cominix_delete_entry (s.dir d) n k io).2 with
    | none =>
      rw [hr] at herr
      cases herr
    | some err' =>
      dsimp only
      apply redir_unchanged
      rw [cominix_delete_entry, commit_entry_failed hio (by
        rw [cominix_delete_entry] at hr
        rw [hr]
        exact Option.some_ne_none err')]
      exact .refl _

/-- A file loses a name and a link. -/
lemma unlink_outcome (h : s.NameOk) (hdel : s.may_delete d name)
    (hfile : s.S_ISDIR (s.lookup d name) = false) (hio : io.Synced) :
    Outcome s (cominix_unlink s d name (s.lookup d name) io) := by
  unfold Outcome
  split
  · rename_i hok
    have hu := unlink_ok h.shape hdel hok
    have hpos := h.nlink_pos hu.mem
    have hdrop : drop_nlink (s.tree.nlink (s.lookup d name)) = s.tree.nlink (s.lookup d name) - 1 :=
      drop_nlink_eq hpos (Nat.le_succ_of_le (h.link_max _))
    have ht : (cominix_unlink s d name (s.lookup d name) io).1.tree =
        s.tree.leave d (s.lookup d name) := by
      rw [hu.tree, hdrop, LinkTree.leave]
    apply h.done hu.shape hu.sbi hu.live hu.isdir ht (h.tree.leave hu.mem (tree_up_file hfile))
    · rw [LinkTree.leave]
      exact update_le (Nat.le_trans (Nat.sub_le _ _) (h.link_max _)) h.link_max
    · intro i hd _
      rw [LinkTree.leave]
      exact Function.update_of_ne (ne_of_isdir hd hfile) _ _
  · rename_i err herr
    exact unlink_error hio herr

/-! ## Removing a directory -/

/-- A directory marked as removed. -/
def dead (s : NameFs) (i : Nat) : NameFs := s.modify i fun inode => { inode with S_DEAD := true }

lemma dead_dir (s : NameFs) (i : Nat) : (s.dead i).dir = s.dir := s.modify_dir i fun _ => rfl

lemma dead_isdir (s : NameFs) (i : Nat) : (s.dead i).S_ISDIR = s.S_ISDIR :=
  s.modify_isdir i fun _ => rfl

/-- An inode marked as removed is a directory no more. -/
lemma dead_live (s : NameFs) (i : Nat) : (s.dead i).live = Function.update s.live i false := by
  rw [live_eq, live_eq, dead, modify, Function.comp_update]
  congr 1
  cases s.inodes i with
  | none => rfl
  | some n => simp

lemma dead_tree (s : NameFs) (i : Nat) :
    (s.dead i).tree =
      { up := Function.update s.tree.up i none
        children := Function.update s.tree.children i 0
        nlink := s.tree.nlink } := by
  have hdir : (s.dead i).dir = Function.update s.dir i (s.dir i) := by
    rw [dead_dir, Function.update_eq_self]
  have hlink : (s.dead i).i_nlink = s.i_nlink := s.modify_i_nlink i fun _ => rfl
  rw [tree_update (dead_live s i) hdir, hlink]
  rfl

lemma Shape.dead (h : s.Shape) (i : Nat) : (s.dead i).Shape := by
  refine ⟨fun {e} hl => ?_, fun {j n} hj => ?_⟩
  · rw [dead_live] at hl
    rw [dead_dir]
    by_cases he : e = i
    · rw [he, Function.update_self] at hl
      cases hl
    · rw [Function.update_of_ne he] at hl
      exact h.dir hl
  · have hsome : ((s.dead i).inodes j).isSome = (s.inodes j).isSome := modify_isSome s i j _
    rw [hj] at hsome
    obtain ⟨n', hn'⟩ := Option.isSome_iff_exists.1 hsome.symm
    exact h.ino hn'

/-- Success of an operation that removed a directory. -/
lemma NameOk.done_removed {s s' : NameFs} {ino : Nat} (h : s.NameOk) (hshape : s'.Shape)
    (hsbi : s'.sbi = s.sbi) (hlive : s'.live = Function.update s.live ino false)
    (hisdir : s'.S_ISDIR = s.S_ISDIR) (hempty : (s.dir ino).children = []) {t : LinkTree Nat}
    (ht : s'.tree = t) (hinv : t.Inv s.inos MINIX_ROOT_INO) (hmax : ∀ i, t.nlink i ≤ s_max_links)
    (hgone : t.nlink ino = 0)
    (hdead : ∀ i, s.S_ISDIR i = true → s.live i = false → t.nlink i = s.i_nlink i) :
    Done s s' := by
  subst ht
  refine ⟨⟨hshape, ?_, hmax, fun i hd hl => ?_⟩, hsbi, fun x hl hl' => ?_⟩
  · unfold inos
    rw [hsbi]
    exact hinv
  · rw [hlive] at hl
    by_cases hi : i = ino
    · rw [hi]
      exact hgone
    · rw [Function.update_of_ne hi] at hl
      rw [hisdir] at hd
      exact (hdead i hd hl).trans (h.dead i hd hl)
  · by_cases hx : x = ino
    · rw [hx]
      exact hempty
    · rw [hlive, Function.update_of_ne hx, hl] at hl'
      cases hl'

/-- The directory an empty one is in has a link for it. -/
lemma NameOk.empty_dir (h : s.NameOk) (hl : s.live ino = true)
    (he : cominix_empty_dir (s.dir ino) ino = true) :
    (s.dir ino).children = [] ∧ s.tree.children ino = 0 ∧ s.tree.nlink ino = 2 := by
  have hch := (h.shape.dir hl).empty_dir_iff.1 he
  have hz : s.tree.children ino = 0 := by
    rw [tree_children hl, names, hch]
    rfl
  refine ⟨hch, hz, ?_⟩
  rw [h.tree.dir (by rw [tree_up_isSome]; exact hl), LinkTree.subdirs, hz, Multiset.countP_zero]

lemma rmdir_outcome (h : s.NameOk) (hdel : s.may_delete d name)
    (hdir : s.S_ISDIR (s.lookup d name) = true) (hio : io.Synced) :
    Outcome s (set_dead (s.lookup d name) (cominix_rmdir s d name (s.lookup d name) io)) := by
  unfold cominix_rmdir
  split
  · rename_i he
    cases hr : (cominix_unlink s d name (s.lookup d name) io).2 with
    | some err =>
      have hu := unlink_error hio hr
      generalize hx : cominix_unlink s d name (s.lookup d name) io = r at hr hu
      obtain ⟨s1, e⟩ := r
      cases hr
      exact .failed hu
    | none =>
      have hu := unlink_ok h.shape hdel hr
      generalize hx : cominix_unlink s d name (s.lookup d name) io = r at hr hu
      obtain ⟨s1, e⟩ := r
      cases hr
      generalize s.lookup d name = ino at *
      have hpos := h.nlink_pos hu.mem
      have hl := h.live_of_nlink hdir (Nat.ne_of_gt hpos)
      obtain ⟨hch, hz, htwo⟩ := h.empty_dir hl he
      have hd := (h.tree.holder hu.mem).2
      rw [tree_up_isSome] at hd
      have hdn : d ≠ ino := by
        rintro rfl
        have := hu.mem
        rw [hz] at this
        exact Multiset.notMem_zero _ this
      have hdlink := h.tree.dir (x := d) (by rw [tree_up_isSome]; exact hd)
      have hsome : ∀ i, s.live i = true → (s1.inodes i).isSome = true := fun i hi =>
        (hu.isSome i).trans (isSome_of_live hi)
      have hsome2 : ((s1.relink d drop_nlink).inodes ino).isSome = true :=
        (modify_isSome _ _ _ _).trans (hsome ino hl)
      have htree : (((s1.relink d drop_nlink).relink ino drop_nlink).dead ino).tree =
          s.tree.rmdir d ino := by
        rw [dead_tree, relink_tree hsome2, relink_tree (hsome d hd), hu.tree]
        unfold LinkTree.rmdir
        dsimp only
        congr 1
        · rw [← hz, ← Function.update_of_ne hdn.symm ((s.tree.children d).erase ino)
            s.tree.children, Function.update_eq_self]
        · funext x
          by_cases hxi : x = ino
          · subst hxi
            rw [Function.update_self, Function.update_of_ne hdn.symm, Function.update_self,
              Function.update_of_ne hdn.symm, Function.update_self, htwo]
            decide
          · rw [Function.update_of_ne hxi]
            by_cases hxd : x = d
            · subst hxd
              rw [Function.update_self, Function.update_self, Function.update_of_ne hxi]
              exact drop_nlink_eq (by omega) (Nat.le_succ_of_le (h.link_max x))
            · rw [Function.update_of_ne hxd, Function.update_of_ne hxi, Function.update_of_ne hxd,
                Function.update_of_ne hxi]
      apply Outcome.done
      apply h.done_removed (((hu.shape.relink d _).relink ino _).dead ino) hu.sbi _ _ hch htree
        (h.tree.rmdir hu.mem (by rw [tree_up_isSome]; exact hl) hz)
      · rw [LinkTree.rmdir]
        exact update_le (Nat.le_trans (Nat.sub_le _ _) (h.link_max d))
          (update_le (Nat.zero_le _) h.link_max)
      · rw [LinkTree.rmdir]
        dsimp only
        rw [Function.update_of_ne hdn.symm, Function.update_self]
      · intro i hid hil
        rw [LinkTree.rmdir]
        dsimp only
        rw [Function.update_of_ne (ne_of_live hd hil).symm,
          Function.update_of_ne (ne_of_live hl hil).symm]
        rfl
      · rw [dead_live, relink_live, relink_live, hu.live]
      · exact (dead_isdir _ _).trans
          ((relink_isdir _ _ _).trans ((relink_isdir _ _ _).trans hu.isdir))
  · exact .failed (.refl s)

/-! ## Making a directory -/

/-- A new directory in memory, before it has entries and a name: it has two links, and the one above
it has one more. -/
structure NewDir (s s' : NameFs) (d ino : Nat) : Prop where
  none : s.inodes ino = none
  bit : s.ibit ino = false
  pos : 0 < ino
  le : ino ≤ s.sbi.s_ninodes
  ne : d ≠ ino
  sbi : s'.sbi = s.sbi
  ibit : ∀ i, s'.ibit i = if i = ino then true else s.ibit i
  isSome : ∀ i, (s'.inodes i).isSome = if i = ino then true else (s.inodes i).isSome
  live : s'.live = Function.update s.live ino true
  isdir : s'.S_ISDIR = Function.update s.S_ISDIR ino true
  dir : s'.dir = Function.update s.dir ino .new
  i_nlink : s'.i_nlink = Function.update (Function.update s.i_nlink ino 2) d (s.i_nlink d + 1)
  agree : ∀ i ≠ ino, Agree s s' i

lemma new_dir {memory : Bool} (h : s.NameOk) (hl : s.live d = true)
    (hmax : s.i_nlink d < s_max_links) (hn : cominix_new_inode s .dir memory = (s', .ok ino)) :
    NewDir s ((s'.relink d inc_nlink).relink ino inc_nlink) d ino := by
  obtain ⟨hbit, hpos, hle, hsbi, -, hinodes, hibit⟩ := new_inode_ok hn
  have hnone := h.shape.none_of_bit hbit
  have hdn : d ≠ ino := by
    rintro rfl
    rw [live_of_none hnone] at hl
    cases hl
  have hsome : ∀ i, (s'.inodes i).isSome = if i = ino then true else (s.inodes i).isSome := by
    intro i
    rw [hinodes]
    by_cases hi : i = ino
    · rw [hi, Function.update_self, if_pos rfl, Option.isSome_some]
    · rw [Function.update_of_ne hi, if_neg hi]
  have hsomed : (s'.inodes d).isSome = true := by
    rw [hsome, if_neg hdn]
    exact isSome_of_live hl
  have hsomei : ((s'.relink d inc_nlink).inodes ino).isSome = true := by
    rw [relink, modify_isSome, hsome, if_pos rfl]
  refine ⟨hnone, hbit, hpos, hle, hdn, hsbi, hibit, fun i => ?_, ?_, ?_, ?_, ?_, fun i hi => ?_⟩
  · rw [relink, modify_isSome, relink, modify_isSome, hsome]
  · rw [relink_live, relink_live, update_live hinodes]
    rfl
  · rw [relink_isdir, relink_isdir, update_isdir hinodes]
    rfl
  · rw [relink_dir, relink_dir, update_dir hinodes]
    rfl
  · rw [relink_i_nlink hsomei, relink_i_nlink hsomed, update_i_nlink hinodes]
    dsimp only [Option.elim_some]
    have hone : inc_nlink 1 = 2 := by decide
    funext i
    by_cases hi : i = ino
    · subst hi
      rw [Function.update_self, Function.update_of_ne hdn.symm, Function.update_self,
        Function.update_of_ne hdn.symm, Function.update_self, hone]
    · rw [Function.update_of_ne hi]
      by_cases hid : i = d
      · subst hid
        rw [Function.update_self, Function.update_of_ne hi, Function.update_self]
        exact inc_nlink_eq (Nat.le_of_lt hmax)
      · rw [Function.update_of_ne hid, Function.update_of_ne hi, Function.update_of_ne hid,
          Function.update_of_ne hi]
  · exact (agree_update hi hinodes (by rw [hibit, if_neg hi])).trans
      ((agree_relink s' d _ i).trans (agree_relink _ ino _ i))

/-- The error path of `cominix_mkdir` takes the new directory and its links away again. -/
lemma mkdir_fail_unchanged {t : NameFs} (hnew : NewDir s s' d ino)
    (hl : s.live d = true) (hmax : s.i_nlink d < s_max_links)
    (hagree : ∀ i ≠ ino, Agree s' t i) (hsbi : t.sbi = s'.sbi)
    (hsome : (t.inodes ino).isSome = true) (hnlink : t.i_nlink = s'.i_nlink) :
    Unchanged s (mkdir_fail t d ino) := by
  have hsome2 : ((t.relink ino drop_nlink).inodes ino).isSome = true :=
    (modify_isSome _ _ _ _).trans hsome
  have hzero : drop_nlink (drop_nlink 2) = 0 := by decide
  have hnlink2 : ((t.relink ino drop_nlink).relink ino drop_nlink).i_nlink =
      Function.update (Function.update s.i_nlink d (s.i_nlink d + 1)) ino 0 := by
    rw [relink_i_nlink hsome2, relink_i_nlink hsome, hnlink, hnew.i_nlink, Function.update_self,
      Function.update_of_ne hnew.ne.symm, Function.update_self, hzero, Function.update_idem,
      Function.update_comm hnew.ne, Function.update_idem, Function.update_comm hnew.ne]
  obtain ⟨hesbi, -, hinodes, hbit⟩ := evict_unlinked
    ((t.relink ino drop_nlink).relink ino drop_nlink) ino
    (by rw [hnlink2, Function.update_self])
  have hev : (cominix_evict_inode ((t.relink ino drop_nlink).relink ino drop_nlink) ino).i_nlink =
      Function.update s.i_nlink d (s.i_nlink d + 1) := by
    rw [update_i_nlink hinodes, hnlink2, Function.update_idem]
    dsimp only [Option.elim_none]
    rw [Function.update_comm hnew.ne, ← i_nlink_of_none hnew.none, Function.update_eq_self]
  have hdsome : ((cominix_evict_inode ((t.relink ino drop_nlink).relink ino drop_nlink)
      ino).inodes d).isSome = true := by
    rw [hinodes, Function.update_of_ne hnew.ne, relink, modify_isSome, relink, modify_isSome,
      (hagree d hnew.ne).isSome, (hnew.agree d hnew.ne).isSome]
    exact isSome_of_live hl
  have hback : drop_nlink (s.i_nlink d + 1) = s.i_nlink d :=
    drop_nlink_eq (Nat.succ_pos _) (Nat.succ_le_succ (Nat.le_of_lt hmax))
  unfold mkdir_fail
  dsimp only
  rw [inode_dec_eq, inode_dec_eq, inode_dec_eq]
  refine ⟨hesbi.trans (hsbi.trans hnew.sbi), fun i => ?_, ?_⟩
  · by_cases hi : i = ino
    · subst hi
      refine agree_none hnew.none ?_ hnew.bit
      rw [relink, modify_inodes_of_ne _ _ hnew.ne.symm, hinodes, Function.update_self]
    · exact (hnew.agree i hi).trans ((hagree i hi).trans ((agree_relink t ino _ i).trans
        ((agree_relink _ ino _ i).trans ((agree_update hi hinodes (hbit i hi)).trans
          (agree_relink _ d _ i)))))
  · rw [relink_i_nlink hdsome, hev, Function.update_self, Function.update_idem, hback,
      Function.update_eq_self]

/-- The new directory with its two entries is in order, and below `d`. -/
lemma new_dir_made (h : s.NameOk) (hnew : NewDir s s' d ino) {made : Directory}
    (hok : DirOk ino made) (hup : (made.slot 1).inode = d) (hch : made.children = []) :
    (s'.redir ino made).Shape ∧ (s'.redir ino made).tree =
      { up := Function.update s.tree.up ino (some d)
        children := s.tree.children
        nlink := Function.update (Function.update s.tree.nlink ino 2) d (s.tree.nlink d + 1) } := by
  have hsome : (s'.inodes ino).isSome = true := by rw [hnew.isSome, if_pos rfl]
  have hdir : (s'.redir ino made).dir = Function.update s.dir ino made := by
    rw [redir_dir hsome, hnew.dir, Function.update_idem]
  have hlive : (s'.redir ino made).live = Function.update s.live ino true := by
    rw [redir_live, hnew.live]
  have hno : s.live ino = false := live_of_none hnew.none
  refine ⟨⟨fun {e} he => ?_, fun {i n} hi => ?_⟩, ?_⟩
  · rw [hdir]
    by_cases hei : e = ino
    · subst hei
      rw [Function.update_self]
      exact hok
    · rw [hlive, Function.update_of_ne hei] at he
      rw [Function.update_of_ne hei]
      exact h.shape.dir he
  · change 0 < i ∧ i ≤ s'.sbi.s_ninodes ∧ s'.ibit i = true
    rw [hnew.sbi, hnew.ibit]
    by_cases hii : i = ino
    · rw [hii, if_pos rfl]
      exact ⟨hnew.pos, hnew.le, rfl⟩
    · have hsome' : ((s'.redir ino made).inodes i).isSome = (s.inodes i).isSome := by
        rw [redir, modify_isSome, hnew.isSome, if_neg hii]
      rw [hi] at hsome'
      obtain ⟨n', hn'⟩ := Option.isSome_iff_exists.1 hsome'.symm
      rw [if_neg hii]
      exact h.shape.ino hn'
  · rw [tree_update hlive hdir, redir_i_nlink, hnew.i_nlink, hup, names, hch]
    have hz : s.tree.children ino = 0 := if_neg (by rw [hno]; exact Bool.false_ne_true)
    congr 1
    exact (congrArg _ hz.symm).trans (Function.update_eq_self ino s.tree.children)

/-- The new directory gets its name. -/
lemma new_dir_named {made : Directory} (h : s.NameOk) (hnew : NewDir s s' d ino)
    (hl : s.live d = true) (hv : ValidName name) (hmax : s.i_nlink d < s_max_links)
    (hok : DirOk ino made) (hup : (made.slot 1).inode = d) (hch : made.children = [])
    (ha : (cominix_add_link ((s'.redir ino made).dir d) name ino io).2 = none) :
    Done s ((s'.redir ino made).redir d
      (cominix_add_link ((s'.redir ino made).dir d) name ino io).1) := by
  obtain ⟨hshape, htree⟩ := new_dir_made h hnew hok hup hch
  have hl' : (s'.redir ino made).live d = true := by
    rw [redir_live, hnew.live, Function.update_of_ne hnew.ne]
    exact hl
  obtain ⟨hshape', htree'⟩ := add_link_tree hshape hl' hv (Nat.ne_of_gt hnew.pos) ha
  generalize (cominix_add_link ((s'.redir ino made).dir d) name ino io).1 = d' at hshape' htree' ⊢
  have ht : ((s'.redir ino made).redir d d').tree = s.tree.mkdir d ino := by
    rw [htree', htree, LinkTree.mkdir]
  have hlive : ((s'.redir ino made).redir d d').live = Function.update s.live ino true := by
    rw [redir_live, redir_live, hnew.live]
  have hisdir : ((s'.redir ino made).redir d d').S_ISDIR =
      Function.update s.S_ISDIR ino true := by
    rw [redir_isdir, redir_isdir, hnew.isdir]
  have hlinks : ((s'.redir ino made).redir d d').i_nlink =
      Function.update (Function.update s.i_nlink ino 2) d (s.i_nlink d + 1) := by
    rw [redir_i_nlink, redir_i_nlink, hnew.i_nlink]
  have hsbi : ((s'.redir ino made).redir d d').sbi = s.sbi := hnew.sbi
  have hfree : s.tree.up ino = none := tree_up_file (isdir_of_none hnew.none)
  have hnamed : LinkTree.named s.inos s.tree.children ino = 0 := by
    rw [← h.tree.file hfree]
    exact i_nlink_of_none hnew.none
  have hinv := h.tree.mkdir (by rw [tree_up_isSome]; exact hl) hfree
    (Finset.mem_range.2 (Nat.lt_succ_of_le hnew.le)) hnamed
  refine ⟨⟨hshape', ?_, fun i => ?_, fun i hid hil => ?_⟩, hsbi, fun x hx hx' => ?_⟩
  · unfold inos
    rw [hsbi, ht]
    exact hinv
  · rw [hlinks]
    exact update_le hmax (update_le (by decide) h.link_max) i
  · rw [hlive] at hil
    rw [hisdir] at hid
    have hii : i ≠ ino := by
      rintro rfl
      rw [Function.update_self] at hil
      cases hil
    rw [Function.update_of_ne hii] at hil hid
    rw [hlinks, Function.update_of_ne (ne_of_live hl hil).symm, Function.update_of_ne hii]
    exact h.dead i hid hil
  · rw [hlive] at hx'
    by_cases hxi : x = ino
    · rw [hxi, Function.update_self] at hx'
      cases hx'
    · rw [Function.update_of_ne hxi, hx] at hx'
      cases hx'

lemma mkdir_outcome {memory : Bool} {make add : Commit} (h : s.NameOk) (hl : s.live d = true)
    (hv : ValidName name) (hmax : s.i_nlink d < s_max_links) (hadd : add.Synced) :
    Outcome s (cominix_mkdir s d name memory make add) := by
  unfold cominix_mkdir
  split
  · rename_i s1 err hn
    exact .failed (new_inode_unchanged hn)
  · rename_i s1 ino hn
    have hnew := new_dir h hl hmax hn
    dsimp only
    rw [inode_inc_eq, inode_inc_eq]
    generalize (s1.relink d inc_nlink).relink ino inc_nlink = s2 at hnew ⊢
    have hsome : (s2.inodes ino).isSome = true := by rw [hnew.isSome, if_pos rfl]
    have hfresh : s2.dir ino = .new := by rw [hnew.dir, Function.update_self]
    have hmade : ∀ made, ∀ i ≠ ino, Agree s2 (s2.redir ino made) i := fun made i hi =>
      agree_update hi rfl rfl
    rw [hfresh, on_dir_eq]
    cases hm : (cominix_make_empty .new ino d make).2 with
    | some err =>
      exact .failed (mkdir_fail_unchanged hnew hl hmax (hmade _) rfl
        ((modify_isSome _ _ _ _).trans hsome) (redir_i_nlink _ _ _))
    | none =>
      obtain ⟨hok, hup, hch⟩ := make_empty_ok (h.shape.ne_zero hl) hm
      generalize (cominix_make_empty .new ino d make).1 = made at hok hup hch ⊢
      have hl3 : (s2.redir ino made).live d = true := by
        rw [redir_live, hnew.live, Function.update_of_ne hnew.ne]
        exact hl
      dsimp only
      rw [on_dir_eq]
      cases ha : (cominix_add_link ((s2.redir ino made).dir d) name ino add).2 with
      | some err =>
        have hshape := (new_dir_made h hnew hok hup hch).1
        have hsame := add_link_failed (hshape.dir hl3).aligned hadd
          (by rw [ha]; exact Option.some_ne_none err)
        exact .failed (mkdir_fail_unchanged hnew hl hmax
          (fun i hi => (hmade made i hi).trans (agree_redir hsame i)) rfl
          ((modify_isSome _ _ _ _).trans ((modify_isSome _ _ _ _).trans hsome))
          ((redir_i_nlink _ _ _).trans (redir_i_nlink _ _ _)))
      | none => exact .done (new_dir_named h hnew hl hv hmax hok hup hch ha)

end

end NameFs

end CominixFs
