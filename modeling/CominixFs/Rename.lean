import CominixFs.NameOps

/-!
# Renaming (`cominix_rename`)

A rename is two or three changes of pages with changes of link counts between them. On the tree of
links it is a file entering one directory and leaving another, or a directory moving, after what was
at the new name has gone. Once the first change is made the others must not fail.
-/

namespace CominixFs

namespace NameFs

/-- A rename of which no change fails after the first, and no `cominix_handle_dirsync` at all. -/
def RenameFine (target delete above : Commit) : Prop :=
  target.Synced ∧ (target = .done → delete = .done ∧ above = .done)

variable {s s' : NameFs} {old_dir new_dir old_ino new_ino n k : Nat}
  {old_name new_name : List UInt8} {flags : Nat} {target delete above : Commit}

/-- A slot that names an inode is an entry of the tree. -/
lemma Holds.mem {d m ino : Nat} (hl : s.live d = true) (hh : Holds (s.dir d) m ino) :
    ino ∈ s.tree.children d := by
  rw [tree_children hl, names, Multiset.mem_coe]
  exact List.mem_map.2 ⟨_, Directory.mem_children_slot hh.lt hh.child, hh.inode⟩

/-- What both parts of a rename keep besides the tree. -/
structure Kept (s s' : NameFs) : Prop where
  sbi : s'.sbi = s.sbi
  shape : s'.Shape
  live : s'.live = s.live
  isdir : s'.S_ISDIR = s.S_ISDIR
  isSome : ∀ i, (s'.inodes i).isSome = (s.inodes i).isSome

lemma Kept.redir {d : Nat} {d' : Directory} (h : Kept s s') (hs : (s'.redir d d').Shape) :
    Kept s (s'.redir d d') :=
  ⟨h.sbi, hs, (redir_live _ _ _).trans h.live, (redir_isdir _ _ _).trans h.isdir,
    fun i => (modify_isSome _ _ _ _).trans (h.isSome i)⟩

lemma Kept.relink (h : Kept s s') (i : Nat) (f : Nat → Nat) : Kept s (s'.relink i f) :=
  ⟨h.sbi, h.shape.relink i f, (relink_live _ _ _).trans h.live, (relink_isdir _ _ _).trans h.isdir,
    fun j => (modify_isSome _ _ _ _).trans (h.isSome j)⟩

lemma Kept.refl (h : s.Shape) : Kept s s := ⟨rfl, h, rfl, rfl, fun _ => rfl⟩

/-! ## The old name -/

/-- The old entry of a file goes. -/
lemma rename_source_file (hk : Kept s s') (hl : s.live old_dir = true) (hk64 : k < 64)
    (hh : Holds (s'.dir old_dir) (64 * n + k) old_ino) (hd : delete = .done) :
    ∃ t, rename_source s' false old_dir n k old_ino new_dir delete above = (t, none) ∧ Kept s t ∧
      t.tree =
        { s'.tree with
          children := Function.update s'.tree.children old_dir
            ((s'.tree.children old_dir).erase old_ino) } := by
  subst hd
  have hl' : s'.live old_dir = true := by rw [hk.live]; exact hl
  obtain ⟨-, hshape, htree⟩ := delete_entry_tree hk.shape hl' hk64 hh commit_entry_done
  refine ⟨_, rfl, hk.redir hshape, ?_⟩
  exact htree

/-- The old entry of a directory goes, and `..` of the directory names the new one above. -/
lemma rename_source_dir (hk : Kept s s') (hl : s.live old_dir = true)
    (hli : s.live old_ino = true) (hn : new_dir ≠ 0) (hk64 : k < 64)
    (hh : Holds (s'.dir old_dir) (64 * n + k) old_ino) (hd : delete = .done)
    (ha : above = .done) :
    ∃ t, rename_source s' true old_dir n k old_ino new_dir delete above = (t, none) ∧ Kept s t ∧
      t.tree =
        { up := Function.update s'.tree.up old_ino (some new_dir)
          children := Function.update s'.tree.children old_dir
            ((s'.tree.children old_dir).erase old_ino)
          nlink := Function.update s'.tree.nlink old_dir
            (drop_nlink (s'.tree.nlink old_dir)) } := by
  subst hd ha
  have hl' : s'.live old_dir = true := by rw [hk.live]; exact hl
  obtain ⟨-, hshape, htree⟩ := delete_entry_tree hk.shape hl' hk64 hh commit_entry_done
  have hk2 := hk.redir hshape
  have hli' : (s'.redir old_dir (cominix_delete_entry (s'.dir old_dir) n k .done).1).live old_ino =
      true := by rw [hk2.live]; exact hli
  obtain ⟨hshape2, htree2⟩ := set_dotdot_tree hshape hli' hn commit_entry_done
  have hk3 := hk2.redir hshape2
  refine ⟨_, rfl, hk3.relink old_dir drop_nlink, ?_⟩
  have hsome := (hk3.isSome old_dir).trans (isSome_of_live hl)
  refine (relink_tree hsome).trans ?_
  rw [htree2, htree]

/-! ## The new name -/

/-- After the change at the new name: the entry there names the inode, the children `c` and the
counts `f` are those of the tree, and the old entry is where it was. -/
structure Placed (s s' : NameFs) (old_dir m old_ino new_dir : Nat) (c : Multiset Nat)
    (f : Nat → Nat) : Prop where
  kept : Kept s s'
  tree : s'.tree =
    { s.tree with children := Function.update s.tree.children new_dir c, nlink := f }
  holds : Holds (s'.dir old_dir) m old_ino

/-- Counts changed after the change of the page. -/
lemma Placed.relink {m i : Nat} {c : Multiset Nat} {f : Nat → Nat}
    (h : Placed s s' old_dir m old_ino new_dir c f) (hs : (s.inodes i).isSome = true)
    (g : Nat → Nat) :
    Placed s (s'.relink i g) old_dir m old_ino new_dir c (Function.update f i (g (f i))) := by
  refine ⟨h.kept.relink i g, ?_, ?_⟩
  · rw [relink_tree ((h.kept.isSome i).trans hs), h.tree]
  · rw [relink_dir]
    exact h.holds

lemma redir_holds {d' : Directory} {m : Nat} (hl : s.live new_dir = true)
    (hh : Holds (s.dir old_dir) m old_ino)
    (hkeep : ∀ m ino, old_dir = new_dir → Holds (s.dir new_dir) m ino → ino = old_ino →
      Holds d' m ino) :
    Holds ((s.redir new_dir d').dir old_dir) m old_ino := by
  rw [redir_dir (isSome_of_live hl)]
  by_cases hd : old_dir = new_dir
  · rw [hd, Function.update_self]
    rw [hd] at hh
    exact hkeep m old_ino hd hh rfl
  · rw [Function.update_of_ne hd]
    exact hh

/-- A new entry. -/
lemma placed_add {m : Nat} (h : s.Shape) (hl : s.live new_dir = true) (hv : ValidName new_name)
    (hi : old_ino ≠ 0) (hh : Holds (s.dir old_dir) m old_ino)
    (hok : (cominix_add_link (s.dir new_dir) new_name old_ino target).2 = none) :
    Placed s (s.redir new_dir (cominix_add_link (s.dir new_dir) new_name old_ino target).1)
      old_dir m old_ino new_dir (old_ino ::ₘ s.tree.children new_dir) s.tree.nlink := by
  obtain ⟨hshape, htree⟩ := add_link_tree h hl hv hi hok
  refine ⟨(Kept.refl h).redir hshape, htree, redir_holds hl hh fun m ino _ hm _ => ?_⟩
  exact hm.add_link (h.dir hl).aligned hok

/-- An entry that named another inode. -/
lemma placed_set {m : Nat} {n' k' : Nat} (h : s.Shape) (hl : s.live new_dir = true)
    (hv : ValidName new_name) (hi : old_ino ≠ 0) (hk : k' < 64)
    (hf : cominix_find_entry (s.dir new_dir) new_name = some (n', k'))
    (hnew : Holds (s.dir new_dir) (64 * n' + k') new_ino) (hne : new_ino ≠ old_ino)
    (hh : Holds (s.dir old_dir) m old_ino)
    (hok : (cominix_set_link (s.dir new_dir) n' k' old_ino target).2 = none) :
    Placed s (s.redir new_dir (cominix_set_link (s.dir new_dir) n' k' old_ino target).1)
      old_dir m old_ino new_dir (old_ino ::ₘ (s.tree.children new_dir).erase new_ino)
      s.tree.nlink := by
  obtain ⟨-, hshape, htree⟩ := set_link_tree h hl hv hf hnew.inode hi hok
  refine ⟨(Kept.refl h).redir hshape, htree, redir_holds hl hh fun m ino _ hm hino => ?_⟩
  refine hm.set_link hk hnew.lt ?_ hok
  rintro rfl
  exact hne (hnew.inode.symm.trans (hm.inode.trans hino))

/-! ## The whole rename -/

/-- A file under a new name. -/
lemma file_tree {t : NameFs} {c : Multiset Nat} {f : Nat → Nat}
    (hp : Placed s s' old_dir (64 * n + k) old_ino new_dir c f)
    (ht : t.tree =
      { s'.tree with
        children := Function.update s'.tree.children old_dir
          ((s'.tree.children old_dir).erase old_ino) }) (u : LinkTree Nat)
    (hup : u.up = s.tree.up) (hc : Function.update s.tree.children new_dir c =
      Function.update u.children new_dir (old_ino ::ₘ u.children new_dir)) (hf : f = u.nlink) :
    t.tree = (u.enter new_dir old_ino).leave old_dir old_ino := by
  rw [ht, hp.tree]
  unfold LinkTree.leave LinkTree.enter
  dsimp only
  rw [hup, hc, hf]
  congr 1
  rw [Function.update_self, Nat.add_sub_cancel, Function.update_idem, Function.update_eq_self]

lemma rename_file_new (h : s.NameOk) (hl : s.live old_dir = true) (hl' : s.live new_dir = true)
    (hv : ValidName new_name) (hfile : s.S_ISDIR old_ino = false) (hi : old_ino ≠ 0) (hk64 : k < 64)
    (hh : Holds (s.dir old_dir) (64 * n + k) old_ino) (hd : delete = .done)
    (hok : (cominix_add_link (s.dir new_dir) new_name old_ino target).2 = none) :
    ∃ t, rename_source
        (s.redir new_dir (cominix_add_link (s.dir new_dir) new_name old_ino target).1) false
        old_dir n k old_ino new_dir delete above = (t, none) ∧ Done s t := by
  have hp := placed_add h.shape hl' hv hi hh hok
  obtain ⟨t, heq, hkept, ht⟩ :=
    @rename_source_file _ _ _ new_dir _ _ _ _ above hp.kept hl hk64 hp.holds hd
  refine ⟨t, heq, ?_⟩
  have htree := file_tree hp ht s.tree rfl rfl rfl
  have hup : s.tree.up old_ino = none := tree_up_file hfile
  have henter := h.tree.enter (by rw [tree_up_isSome]; exact hl') hup
  have hmem : old_ino ∈ (s.tree.enter new_dir old_ino).children old_dir := by
    unfold LinkTree.enter
    dsimp only
    by_cases hdd : old_dir = new_dir
    · rw [hdd, Function.update_self]
      exact Multiset.mem_cons_self ..
    · rw [Function.update_of_ne hdd]
      exact hh.mem hl
  have hlinks : ∀ i, ((s.tree.enter new_dir old_ino).leave old_dir old_ino).nlink i =
      s.i_nlink i := by
    intro i
    unfold LinkTree.leave LinkTree.enter
    dsimp only
    rw [Function.update_self, Nat.add_sub_cancel, Function.update_idem, Function.update_eq_self]
    rfl
  refine h.done hkept.shape hkept.sbi hkept.live hkept.isdir htree (henter.leave hmem hup)
    (fun i => ?_) (fun i _ _ => hlinks i)
  rw [hlinks]
  exact h.link_max i

lemma rename_dir_new (h : s.NameOk) (hl : s.live old_dir = true) (hl' : s.live new_dir = true)
    (hv : ValidName new_name) (hli : s.live old_ino = true)
    (hmax : new_dir ≠ old_dir → s.i_nlink new_dir < s_max_links) (hk64 : k < 64)
    (hh : Holds (s.dir old_dir) (64 * n + k) old_ino) (hd : delete = .done) (ha : above = .done)
    (hok : (cominix_add_link (s.dir new_dir) new_name old_ino target).2 = none) :
    ∃ t, rename_source
        ((s.redir new_dir (cominix_add_link (s.dir new_dir) new_name old_ino target).1).relink
          new_dir inc_nlink) true old_dir n k old_ino new_dir delete above = (t, none) ∧
      Done s t := by
  have hp := (placed_add h.shape hl' hv (h.shape.ne_zero hli) hh hok).relink (isSome_of_live hl')
    inc_nlink
  obtain ⟨t, heq, hkept, ht⟩ :=
    rename_source_dir hp.kept hl hli (h.shape.ne_zero hl') hk64 hp.holds hd ha
  refine ⟨t, heq, ?_⟩
  have hinc : inc_nlink (s.tree.nlink new_dir) = s.tree.nlink new_dir + 1 :=
    inc_nlink_eq (h.link_max new_dir)
  have hpos := h.tree.dir (x := old_dir) (by rw [tree_up_isSome]; exact hl)
  have hdrop : drop_nlink
      (Function.update s.tree.nlink new_dir (s.tree.nlink new_dir + 1) old_dir) =
      Function.update s.tree.nlink new_dir (s.tree.nlink new_dir + 1) old_dir - 1 := by
    by_cases hdd : old_dir = new_dir
    · rw [hdd, Function.update_self]
      exact drop_nlink_eq (Nat.succ_pos _) (Nat.succ_le_succ (h.link_max _))
    · rw [Function.update_of_ne hdd]
      exact drop_nlink_eq (by omega) (Nat.le_succ_of_le (h.link_max _))
  have htree : t.tree = s.tree.move old_dir new_dir old_ino := by
    rw [ht, hp.tree, LinkTree.move]
    dsimp only
    rw [hinc, hdrop]
  have hup' : (s.tree.up new_dir).isSome := by rw [tree_up_isSome]; exact hl'
  have hinv := h.tree.move (hh.mem hl) (by rw [tree_up_isSome]; exact hli) hup'
  refine h.done hkept.shape hkept.sbi hkept.live hkept.isdir htree hinv (fun i => ?_)
    (fun i _ hil => ?_)
  · unfold LinkTree.move
    dsimp only
    by_cases hdd : old_dir = new_dir
    · rw [hdd, Function.update_idem, Function.update_self]
      exact update_le (h.link_max _) h.link_max i
    · rw [Function.update_of_ne hdd]
      exact update_le (Nat.le_trans (Nat.sub_le _ _) (h.link_max _))
        (update_le (hmax (Ne.symm hdd)) h.link_max) i
  · unfold LinkTree.move
    dsimp only
    rw [Function.update_of_ne (ne_of_live hl hil).symm,
      Function.update_of_ne (ne_of_live hl' hil).symm]
    rfl

lemma rename_file_over {n' k' : Nat} (h : s.NameOk) (hl : s.live old_dir = true)
    (hl' : s.live new_dir = true) (hv : ValidName new_name) (hfile : s.S_ISDIR old_ino = false)
    (hfile' : s.S_ISDIR new_ino = false) (hi : old_ino ≠ 0) (hne : new_ino ≠ old_ino)
    (hk64 : k < 64) (hk64' : k' < 64)
    (hf : cominix_find_entry (s.dir new_dir) new_name = some (n', k'))
    (hnew : Holds (s.dir new_dir) (64 * n' + k') new_ino)
    (hh : Holds (s.dir old_dir) (64 * n + k) old_ino) (hd : delete = .done)
    (hok : (cominix_set_link (s.dir new_dir) n' k' old_ino target).2 = none) :
    ∃ t, rename_source
        ((s.redir new_dir (cominix_set_link (s.dir new_dir) n' k' old_ino target).1).relink
          new_ino drop_nlink) false old_dir n k old_ino new_dir delete above = (t, none) ∧
      Done s t := by
  have hmem := hnew.mem hl'
  have hpos := h.nlink_pos hmem
  have hp := (placed_set h.shape hl' hv hi hk64' hf hnew hne hh hok).relink
    (isSome_of_nlink (Nat.ne_of_gt hpos)) drop_nlink
  obtain ⟨t, heq, hkept, ht⟩ :=
    @rename_source_file _ _ _ new_dir _ _ _ _ above hp.kept hl hk64 hp.holds hd
  refine ⟨t, heq, ?_⟩
  have hdrop : drop_nlink (s.tree.nlink new_ino) = s.tree.nlink new_ino - 1 :=
    drop_nlink_eq hpos (Nat.le_succ_of_le (h.link_max _))
  have hup : s.tree.up old_ino = none := tree_up_file hfile
  have htree : t.tree =
      ((s.tree.leave new_dir new_ino).enter new_dir old_ino).leave old_dir old_ino := by
    apply file_tree hp ht (s.tree.leave new_dir new_ino) rfl
    · unfold LinkTree.leave
      dsimp only
      rw [Function.update_self, Function.update_idem]
    · rw [hdrop]
      rfl
  have hup' : (s.tree.up new_dir).isSome := by rw [tree_up_isSome]; exact hl'
  have hleave := h.tree.leave hmem (tree_up_file hfile')
  have henter : ((s.tree.leave new_dir new_ino).enter new_dir old_ino).Inv s.inos MINIX_ROOT_INO :=
    hleave.enter hup' hup
  have hmem' : old_ino ∈ ((s.tree.leave new_dir new_ino).enter new_dir old_ino).children old_dir := by
    unfold LinkTree.enter LinkTree.leave
    dsimp only
    by_cases hdd : old_dir = new_dir
    · rw [hdd, Function.update_self]
      exact Multiset.mem_cons_self ..
    · rw [Function.update_of_ne hdd, Function.update_of_ne hdd]
      exact hh.mem hl
  have hlinks : ∀ i,
      (((s.tree.leave new_dir new_ino).enter new_dir old_ino).leave old_dir old_ino).nlink i =
        Function.update s.tree.nlink new_ino (s.tree.nlink new_ino - 1) i := by
    intro i
    unfold LinkTree.leave LinkTree.enter
    dsimp only
    rw [Function.update_self, Nat.add_sub_cancel, Function.update_idem, Function.update_eq_self]
  refine h.done hkept.shape hkept.sbi hkept.live hkept.isdir htree (henter.leave hmem' hup)
    (fun i => ?_) (fun i hid _ => ?_)
  · rw [hlinks]
    exact update_le (Nat.le_trans (Nat.sub_le _ _) (h.link_max _)) h.link_max i
  · rw [hlinks]
    exact Function.update_of_ne (ne_of_isdir hid hfile') _ _

lemma rename_dir_over {n' k' : Nat} (h : s.NameOk) (hl : s.live old_dir = true)
    (hl' : s.live new_dir = true) (hv : ValidName new_name) (hli : s.live old_ino = true)
    (hdir' : s.S_ISDIR new_ino = true) (he : cominix_empty_dir (s.dir new_ino) new_ino = true)
    (hne : new_ino ≠ old_ino) (hk64 : k < 64) (hk64' : k' < 64)
    (hf : cominix_find_entry (s.dir new_dir) new_name = some (n', k'))
    (hnew : Holds (s.dir new_dir) (64 * n' + k') new_ino)
    (hh : Holds (s.dir old_dir) (64 * n + k) old_ino) (hd : delete = .done) (ha : above = .done)
    (hok : (cominix_set_link (s.dir new_dir) n' k' old_ino target).2 = none) :
    ∃ t, rename_source
        (((s.redir new_dir (cominix_set_link (s.dir new_dir) n' k' old_ino target).1).relink
          new_ino drop_nlink).relink new_ino drop_nlink) true old_dir n k old_ino new_dir delete
            above = (t, none) ∧
      Done s (t.dead new_ino) := by
  have hmem := hnew.mem hl'
  have hmem' := hh.mem hl
  have hpos := h.nlink_pos hmem
  have hsome := isSome_of_nlink (Nat.ne_of_gt hpos)
  have hln := h.live_of_nlink hdir' (Nat.ne_of_gt hpos)
  obtain ⟨hch, hz, htwo⟩ := h.empty_dir hln he
  have hno : ∀ {d c}, c ∈ s.tree.children d → new_ino ≠ d := by
    rintro d c hc rfl
    rw [hz] at hc
    exact Multiset.notMem_zero _ hc
  have hnn := hno hmem
  have hno' := hno hmem'
  have hp := ((placed_set h.shape hl' hv (h.shape.ne_zero hli) hk64' hf hnew hne hh hok).relink
    hsome drop_nlink).relink hsome drop_nlink
  obtain ⟨t, heq, hkept, ht⟩ :=
    rename_source_dir hp.kept hl hli (h.shape.ne_zero hl') hk64 hp.holds hd ha
  refine ⟨t, heq, ?_⟩
  have hposd := h.tree.dir (x := old_dir) (by rw [tree_up_isSome]; exact hl)
  have hposn := h.tree.dir (x := new_dir) (by rw [tree_up_isSome]; exact hl')
  have hzero : drop_nlink (drop_nlink (s.tree.nlink new_ino)) = 0 := by
    rw [htwo]
    decide
  have hdrop : drop_nlink (s.tree.nlink old_dir) = s.tree.nlink old_dir - 1 :=
    drop_nlink_eq (by omega) (Nat.le_succ_of_le (h.link_max _))
  have htree : (t.dead new_ino).tree =
      (s.tree.rmdir new_dir new_ino).move old_dir new_dir old_ino := by
    rw [dead_tree, ht, hp.tree]
    unfold LinkTree.move LinkTree.rmdir
    dsimp only
    ext1
    · dsimp only
      rw [Function.update_comm hne]
    · dsimp only
      rw [Function.update_self, Function.update_idem, ← hz,
        ← Function.update_of_ne hnn _ s.tree.children, ← Function.update_of_ne hno' _
          (Function.update s.tree.children new_dir _), Function.update_eq_self]
    · dsimp only
      rw [Function.update_self, Function.update_idem, hzero, Function.update_of_ne hno'.symm,
        hdrop, Function.update_self, Function.update_idem]
      have hback : Function.update (Function.update s.tree.nlink new_ino 0) new_dir
          (s.tree.nlink new_dir - 1 + 1) = Function.update s.tree.nlink new_ino 0 := by
        have hval : s.tree.nlink new_dir - 1 + 1 =
            Function.update s.tree.nlink new_ino 0 new_dir := by
          rw [Function.update_of_ne hnn.symm]
          omega
        rw [hval, Function.update_eq_self]
      rw [hback, Function.update_of_ne hno'.symm]
  have hrm := h.tree.rmdir hmem (by rw [tree_up_isSome]; exact hln) hz
  have hmem2 : old_ino ∈ (s.tree.rmdir new_dir new_ino).children old_dir := by
    unfold LinkTree.rmdir
    dsimp only
    by_cases hdd : old_dir = new_dir
    · rw [hdd] at hmem' ⊢
      rw [Function.update_self]
      exact (Multiset.mem_erase_of_ne hne.symm).2 hmem'
    · rw [Function.update_of_ne hdd]
      exact hmem'
  have hup2 : ∀ i, s.live i = true → i ≠ new_ino →
      ((s.tree.rmdir new_dir new_ino).up i).isSome := by
    intro i hi hin
    unfold LinkTree.rmdir
    dsimp only
    rw [Function.update_of_ne hin, tree_up_isSome]
    exact hi
  have hinv := hrm.move hmem2 (hup2 _ hli hne.symm) (hup2 _ hl' hnn.symm)
  have hlinks : ((s.tree.rmdir new_dir new_ino).move old_dir new_dir old_ino).nlink =
      Function.update (Function.update s.tree.nlink new_ino 0) old_dir
        (s.tree.nlink old_dir - 1) := by
    rw [← htree, dead_tree, ht, hp.tree]
    dsimp only
    rw [Function.update_self, Function.update_idem, hzero, Function.update_of_ne hno'.symm, hdrop]
  refine h.done_removed (hkept.shape.dead new_ino) hkept.sbi ?_ ?_ hch htree hinv (fun i => ?_) ?_
    (fun i _ hil => ?_)
  · rw [dead_live, hkept.live]
  · rw [dead_isdir, hkept.isdir]
  · rw [hlinks]
    exact update_le (Nat.le_trans (Nat.sub_le _ _) (h.link_max _))
      (update_le (Nat.zero_le _) h.link_max) i
  · rw [hlinks, Function.update_of_ne hno', Function.update_self]
  · rw [hlinks, Function.update_of_ne (ne_of_live hl hil).symm,
      Function.update_of_ne (ne_of_live hln hil).symm]
    rfl

/-- A rename to a name that is free. -/
lemma rename_new_outcome (h : s.NameOk) (hl : s.live old_dir = true) (hl' : s.live new_dir = true)
    (hv : ValidName new_name) (hi : old_ino ≠ 0)
    (hmax : s.S_ISDIR old_ino = true → new_dir ≠ old_dir → s.i_nlink new_dir < s_max_links)
    (hk64 : k < 64) (hh : Holds (s.dir old_dir) (64 * n + k) old_ino)
    (hfine : RenameFine target delete above) :
    Outcome s (match rename_target s (s.S_ISDIR old_ino) old_ino new_dir new_name none target with
      | (s, some err) => (s, some err)
      | (s', none) =>
        rename_source s' (s.S_ISDIR old_ino) old_dir n k old_ino new_dir delete above) := by
  unfold rename_target
  dsimp only
  rw [on_dir_eq]
  cases hr : (cominix_add_link (s.dir new_dir) new_name old_ino target).2 with
  | some err =>
    have hsame := add_link_failed (h.shape.dir hl').aligned hfine.1
      (by rw [hr]; exact Option.some_ne_none err)
    exact .failed (redir_unchanged hsame)
  | none =>
    have hdone : target = .done := by
      cases target with
      | done => rfl
      | prepare_failed err =>
        obtain ⟨n', k', stop, hs, -, -⟩ := add_link_scan_spec (h.shape.dir hl').aligned new_name
        unfold cominix_add_link at hr
        rw [hs] at hr
        cases stop <;> cases hr
      | dirsync_failed err => exact absurd rfl (hfine.1 err)
    obtain ⟨hd, ha⟩ := hfine.2 hdone
    dsimp only
    cases hdir : s.S_ISDIR old_ino with
    | false =>
      obtain ⟨t, heq, hdone⟩ := @rename_file_new _ _ _ _ _ _ _ _ _ above h hl hl' hv hdir hi hk64 hh hd hr
      rw [if_neg Bool.false_ne_true, heq]
      exact .done hdone
    | true =>
      have hli := h.live_of_nlink hdir (Nat.ne_of_gt (h.nlink_pos (hh.mem hl)))
      obtain ⟨t, heq, hdone⟩ :=
        rename_dir_new h hl hl' hv hli (hmax hdir) hk64 hh hd ha hr
      rw [if_pos rfl, inode_inc_eq, heq]
      exact .done hdone

lemma Outcome.of_dead_error {r : NameFs × Option DirErr} {i : Nat} {err : DirErr} {b : Prop}
    [Decidable b] (hr : r.2 = some err) (h : Outcome s r) :
    Outcome s (if b then set_dead i r else r) := by
  obtain ⟨t, e⟩ := r
  cases hr
  split <;> exact h

/-- A rename to a name that is taken. -/
lemma rename_over_outcome (h : s.NameOk) (hl : s.live old_dir = true) (hl' : s.live new_dir = true)
    (hv : ValidName new_name) (hi : old_ino ≠ 0) (hlook : s.lookup new_dir new_name ≠ 0)
    (hne : s.lookup new_dir new_name ≠ old_ino)
    (hkind : s.S_ISDIR (s.lookup new_dir new_name) = s.S_ISDIR old_ino) (hk64 : k < 64)
    (hh : Holds (s.dir old_dir) (64 * n + k) old_ino) (hfine : RenameFine target delete above) :
    let r := match rename_target s (s.S_ISDIR old_ino) old_ino new_dir new_name
        (some (s.lookup new_dir new_name)) target with
      | (s, some err) => (s, some err)
      | (s', none) => rename_source s' (s.S_ISDIR old_ino) old_dir n k old_ino new_dir delete above
    Outcome s (if s.S_ISDIR old_ino = true then set_dead (s.lookup new_dir new_name) r else r) := by
  obtain ⟨n', k', hf, hk64', hnew⟩ := find_of_lookup h.shape hl' hv hlook
  generalize s.lookup new_dir new_name = new_ino at *
  unfold rename_target
  dsimp only
  cases he : (s.S_ISDIR old_ino && !cominix_empty_dir (s.dir new_ino) new_ino) with
  | true =>
    rw [if_pos rfl]
    exact Outcome.of_dead_error rfl (.failed (.refl s))
  | false =>
    rw [if_neg Bool.false_ne_true, hf]
    dsimp only
    rw [on_dir_eq]
    cases hr : (cominix_set_link (s.dir new_dir) n' k' old_ino target).2 with
    | some err =>
      apply Outcome.of_dead_error rfl
      apply Outcome.failed
      apply redir_unchanged
      rw [cominix_set_link, commit_entry_failed hfine.1 (by
        rw [cominix_set_link] at hr
        rw [hr]
        exact Option.some_ne_none err)]
      exact .refl _
    | none =>
      have hdone : target = .done := by
        cases target with
        | done => rfl
        | prepare_failed err => cases hr
        | dirsync_failed err => exact absurd rfl (hfine.1 err)
      obtain ⟨hd, ha⟩ := hfine.2 hdone
      dsimp only
      cases hdir : s.S_ISDIR old_ino with
      | false =>
        rw [hdir] at hkind
        obtain ⟨t, heq, hdone⟩ := @rename_file_over _ _ _ _ _ _ _ _ _ _ above _ _ h hl hl' hv hdir
          hkind hi hne hk64 hk64' hf hnew hh hd hr
        rw [if_neg Bool.false_ne_true, if_neg Bool.false_ne_true, inode_dec_eq, heq]
        exact .done hdone
      | true =>
        rw [hdir] at hkind he
        have hempty : cominix_empty_dir (s.dir new_ino) new_ino = true := by simpa using he
        have hli := h.live_of_nlink hdir (Nat.ne_of_gt (h.nlink_pos (hh.mem hl)))
        obtain ⟨t, heq, hdone⟩ := rename_dir_over h hl hl' hv hli hkind hempty hne hk64 hk64' hf hnew
          hh hd ha hr
        rw [if_pos rfl, if_pos rfl, inode_dec_eq, inode_dec_eq, heq]
        exact .done hdone

/-- A rename moves a file or a directory, or changes nothing. -/
lemma rename_outcome (h : s.NameOk) (hmay : s.may_rename old_dir old_name new_dir new_name flags)
    (hfine : RenameFine target delete above) :
    Outcome s (
      let old_ino := s.lookup old_dir old_name
      let new_ino := s.lookup new_dir new_name
      let r := cominix_rename s old_dir old_name old_ino new_dir new_name
        (if new_ino = 0 then none else some new_ino) flags target delete above
      if new_ino ≠ 0 ∧ s.S_ISDIR old_ino = true then set_dead new_ino r else r) := by
  obtain ⟨⟨hl, hv, hi, -⟩, hl', hv', htarget, -, hmax⟩ := hmay
  obtain ⟨n, k, hf, hk64, hh⟩ := find_of_lookup h.shape hl hv hi
  dsimp only
  unfold cominix_rename
  by_cases hflags : flags / 2 ≠ 0
  · rw [if_pos hflags]
    exact Outcome.of_dead_error rfl (.failed (.refl s))
  · rw [if_neg hflags, hf]
    dsimp only
    by_cases hnew : s.lookup new_dir new_name = 0
    · rw [if_pos hnew, if_neg fun hc => hc.1 hnew]
      exact rename_new_outcome h hl hl' hv' hi (fun hd => hmax hd hnew) hk64 hh hfine
    · obtain ⟨-, -, hne, hkind⟩ := htarget hnew
      have hover := rename_over_outcome h hl hl' hv' hi hnew hne hkind hk64 hh hfine
      dsimp only at hover
      rw [if_neg hnew]
      simp only [hnew, ne_eq, not_false_eq_true, true_and]
      exact hover

end NameFs

end CominixFs
