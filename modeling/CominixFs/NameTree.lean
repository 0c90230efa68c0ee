import CominixFs.Lib.LinkTree
import CominixFs.Namei

/-!
# The tree of names

`NameFs.tree` reads a mounted volume as a tree of links: `..` of a directory, the inode numbers of
its children and the link counts. Every change the driver makes is a change of this tree, and
`Shape` keeps the directories and the inode bitmap in order.
-/

namespace CominixFs
open Bitmap

namespace NameFs

/-- The inode numbers of the children of a directory. -/
def names (d : Directory) : Multiset Nat := (d.children.map (·.inode) : List Nat)

/-- The tree of links on a volume. -/
def tree (s : NameFs) : LinkTree Nat where
  up i := if s.live i then some (s.parent i) else none
  children i := if s.live i then names (s.dir i) else 0
  nlink := s.i_nlink

/-- The inode numbers. -/
def inos (s : NameFs) : Finset Nat := Finset.range (s.sbi.s_ninodes + 1)

/-- Every directory is in order, and every inode has its bit. -/
structure Shape (s : NameFs) : Prop where
  dir : ∀ {d}, s.live d = true → DirOk d (s.dir d)
  ino : ∀ {i n}, s.inodes i = some n → 0 < i ∧ i ≤ s.sbi.s_ninodes ∧ s.ibit i = true

/-! ## Changes of one inode -/

/-- Another link count. -/
def relink (s : NameFs) (ino : Nat) (f : Nat → Nat) : NameFs :=
  s.modify ino fun inode => { inode with i_nlink := f inode.i_nlink }

/-- Another directory. -/
def redir (s : NameFs) (ino : Nat) (d : Directory) : NameFs :=
  s.modify ino fun inode => { inode with dir := d }

lemma modify_inodes_of_ne (s : NameFs) {i j : Nat} (f : Node → Node) (h : j ≠ i) :
    (s.modify i f).inodes j = s.inodes j := Function.update_of_ne h _ _

lemma modify_inodes_self (s : NameFs) (i : Nat) (f : Node → Node) :
    (s.modify i f).inodes i = (s.inodes i).map f := Function.update_self ..

lemma modify_isSome (s : NameFs) (i j : Nat) (f : Node → Node) :
    ((s.modify i f).inodes j).isSome = (s.inodes j).isSome := by
  by_cases h : j = i
  · subst h
    rw [modify_inodes_self, Option.isSome_map]
  · rw [modify_inodes_of_ne s f h]

/-! What is read of the inodes is a function of the table. -/

lemma live_eq (s : NameFs) :
    s.live = (fun o => o.elim false fun n : Node => n.i_mode == .dir && !n.S_DEAD) ∘ s.inodes := by
  funext i
  unfold live
  rw [Function.comp_apply]
  cases s.inodes i <;> rfl

lemma isdir_eq (s : NameFs) :
    s.S_ISDIR = (fun o => o.elim false fun n : Node => n.i_mode == .dir) ∘ s.inodes := by
  funext i
  unfold S_ISDIR
  rw [Function.comp_apply]
  cases s.inodes i <;> rfl

lemma dir_eq (s : NameFs) : s.dir = (fun o => o.elim .new fun n : Node => n.dir) ∘ s.inodes := by
  funext i
  unfold dir
  rw [Function.comp_apply]
  cases s.inodes i <;> rfl

lemma i_nlink_eq (s : NameFs) :
    s.i_nlink = (fun o => o.elim 0 fun n : Node => n.i_nlink) ∘ s.inodes := by
  funext i
  unfold i_nlink
  rw [Function.comp_apply]
  cases s.inodes i <;> rfl

/-- What is read of every inode stays when the change keeps it. -/
lemma modify_read {β : Type} (s : NameFs) (i : Nat) {f : Node → Node} (g : Option Node → β)
    (hf : ∀ n, g (some (f n)) = g (some n)) : g ∘ (s.modify i f).inodes = g ∘ s.inodes := by
  have hi : g ((s.inodes i).map f) = g (s.inodes i) := by
    cases s.inodes i with
    | none => rfl
    | some n => exact hf n
  have h := Function.comp_update g s.inodes i ((s.inodes i).map f)
  rw [hi] at h
  exact h.trans (Function.update_eq_self i (g ∘ s.inodes))

/-- A change that keeps the type and the mark of every inode. -/
lemma modify_live (s : NameFs) (i : Nat) {f : Node → Node}
    (hf : ∀ n, (f n).i_mode = n.i_mode ∧ (f n).S_DEAD = n.S_DEAD) : (s.modify i f).live = s.live := by
  rw [live_eq, live_eq]
  apply modify_read
  intro n
  simp [hf n]

lemma modify_isdir (s : NameFs) (i : Nat) {f : Node → Node} (hf : ∀ n, (f n).i_mode = n.i_mode) :
    (s.modify i f).S_ISDIR = s.S_ISDIR := by
  rw [isdir_eq, isdir_eq]
  apply modify_read
  intro n
  simp [hf n]

lemma modify_dir (s : NameFs) (i : Nat) {f : Node → Node} (hf : ∀ n, (f n).dir = n.dir) :
    (s.modify i f).dir = s.dir := by
  rw [dir_eq, dir_eq]
  exact s.modify_read i _ hf

lemma modify_i_nlink (s : NameFs) (i : Nat) {f : Node → Node}
    (hf : ∀ n, (f n).i_nlink = n.i_nlink) : (s.modify i f).i_nlink = s.i_nlink := by
  rw [i_nlink_eq, i_nlink_eq]
  exact s.modify_read i _ hf

lemma relink_live (s : NameFs) (i : Nat) (f : Nat → Nat) : (s.relink i f).live = s.live :=
  s.modify_live i fun _ => ⟨rfl, rfl⟩

lemma relink_isdir (s : NameFs) (i : Nat) (f : Nat → Nat) : (s.relink i f).S_ISDIR = s.S_ISDIR :=
  s.modify_isdir i fun _ => rfl

lemma relink_dir (s : NameFs) (i : Nat) (f : Nat → Nat) : (s.relink i f).dir = s.dir :=
  s.modify_dir i fun _ => rfl

lemma relink_i_nlink {s : NameFs} {i : Nat} {f : Nat → Nat} (h : (s.inodes i).isSome = true) :
    (s.relink i f).i_nlink = Function.update s.i_nlink i (f (s.i_nlink i)) := by
  obtain ⟨n, hn⟩ := Option.isSome_iff_exists.1 h
  rw [i_nlink_eq, i_nlink_eq, relink, modify, Function.comp_update, Function.comp_apply, hn]
  rfl

lemma relink_tree {s : NameFs} {i : Nat} {f : Nat → Nat} (h : (s.inodes i).isSome = true) :
    (s.relink i f).tree =
      { s.tree with nlink := Function.update s.tree.nlink i (f (s.tree.nlink i)) } := by
  unfold tree parent
  rw [relink_live, relink_dir, relink_i_nlink h]

lemma Shape.relink {s : NameFs} (h : s.Shape) (i : Nat) (f : Nat → Nat) : (s.relink i f).Shape := by
  refine ⟨fun hl => ?_, fun {j n} hj => ?_⟩
  · rw [relink_live] at hl
    rw [relink_dir]
    exact h.dir hl
  · have hsome := modify_isSome s i j fun inode => { inode with i_nlink := f inode.i_nlink }
    have hj' : ((s.relink i f).inodes j).isSome = true := by rw [hj]; rfl
    obtain ⟨n', hn'⟩ := Option.isSome_iff_exists.1 (hsome.symm.trans hj')
    exact h.ino hn'

lemma redir_live (s : NameFs) (i : Nat) (d : Directory) : (s.redir i d).live = s.live :=
  s.modify_live i fun _ => ⟨rfl, rfl⟩

lemma redir_isdir (s : NameFs) (i : Nat) (d : Directory) : (s.redir i d).S_ISDIR = s.S_ISDIR :=
  s.modify_isdir i fun _ => rfl

lemma redir_i_nlink (s : NameFs) (i : Nat) (d : Directory) :
    (s.redir i d).i_nlink = s.i_nlink :=
  s.modify_i_nlink i fun _ => rfl

lemma redir_dir {s : NameFs} {i : Nat} {d : Directory} (h : (s.inodes i).isSome = true) :
    (s.redir i d).dir = Function.update s.dir i d := by
  obtain ⟨n, hn⟩ := Option.isSome_iff_exists.1 h
  rw [dir_eq, dir_eq, redir, modify, Function.comp_update, hn]
  rfl

lemma isSome_of_live {s : NameFs} {i : Nat} (h : s.live i = true) :
    (s.inodes i).isSome = true := by
  unfold live at h
  cases hi : s.inodes i with
  | none => rw [hi] at h; cases h
  | some n => rfl

/-- The tree changes at an inode that changes. -/
lemma tree_update {s s' : NameFs} {i : Nat} {l : Bool} {d : Directory}
    (hlive : s'.live = Function.update s.live i l) (hdir : s'.dir = Function.update s.dir i d) :
    s'.tree =
      { up := Function.update s.tree.up i (if l then some (d.slot 1).inode else none)
        children := Function.update s.tree.children i (if l then names d else 0)
        nlink := s'.i_nlink } := by
  ext1
  · funext j
    unfold tree parent
    rw [hlive, hdir]
    exact Function.apply_update₂ (fun _ l (d : Directory) =>
      if l = true then some (d.slot 1).inode else none) s.live s.dir i l d j
  · funext j
    unfold tree
    rw [hlive, hdir]
    exact Function.apply_update₂ (fun _ l d => if l = true then names d else 0) s.live s.dir i l d j
  · rfl

/-- Nothing of the tree but the link counts changes while the directories keep their entries. -/
lemma tree_congr {s s' : NameFs} (hlive : s'.live = s.live)
    (hdir : ∀ i, s.live i = true →
      (s'.dir i).slot 1 = (s.dir i).slot 1 ∧ (s'.dir i).children = (s.dir i).children) :
    s'.tree = { s.tree with nlink := s'.i_nlink } := by
  ext1
  · funext i
    unfold tree parent
    dsimp only
    rw [hlive]
    by_cases hl : s.live i = true
    · rw [if_pos hl, if_pos hl, (hdir i hl).1]
    · rw [if_neg hl, if_neg hl]
  · funext i
    unfold tree names
    dsimp only
    rw [hlive]
    by_cases hl : s.live i = true
    · rw [if_pos hl, if_pos hl, (hdir i hl).2]
    · rw [if_neg hl, if_neg hl]
  · rfl

/-- A directory replaced changes what is above it and its children. -/
lemma redir_tree {s : NameFs} {i : Nat} {d : Directory} (hl : s.live i = true) :
    (s.redir i d).tree =
      { up := Function.update s.tree.up i (some (d.slot 1).inode)
        children := Function.update s.tree.children i (names d)
        nlink := s.tree.nlink } := by
  have hlive : (s.redir i d).live = Function.update s.live i true := by
    rw [redir_live, ← hl, Function.update_eq_self]
  rw [tree_update hlive (redir_dir (isSome_of_live hl)), redir_i_nlink]
  rfl

lemma Shape.redir {s : NameFs} (h : s.Shape) {i : Nat} {d : Directory} (hd : DirOk i d) :
    (s.redir i d).Shape := by
  refine ⟨fun {e} hl => ?_, fun {j n} hj => ?_⟩
  · rw [redir_live] at hl
    by_cases he : e = i
    · subst he
      rw [redir_dir (isSome_of_live hl), Function.update_self]
      exact hd
    · have hdir : (s.redir i d).dir e = s.dir e := by
        unfold NameFs.dir
        rw [NameFs.redir, modify_inodes_of_ne s _ he]
      rw [hdir]
      exact h.dir hl
  · have hsome := modify_isSome s i j fun inode => { inode with dir := d }
    have hj' : ((s.redir i d).inodes j).isSome = true := by rw [hj]; rfl
    obtain ⟨n', hn'⟩ := Option.isSome_iff_exists.1 (hsome.symm.trans hj')
    exact h.ino hn'

/-! ## The operations on a directory -/

/-- Slot `m` of a directory is a child that names `ino`. -/
structure Holds (d : Directory) (m ino : Nat) : Prop where
  lt : m < d.nslots
  two_le : 2 ≤ m
  child : (d.slot m).Child
  inode : (d.slot m).inode = ino

lemma names_perm {d : Directory} {l : List Dirent} (h : d.children.Perm l) :
    names d = (l.map (·.inode) : List Nat) := Multiset.coe_eq_coe.2 (h.map _)

lemma Shape.ne_zero {s : NameFs} (h : s.Shape) {d : Nat} (hl : s.live d = true) : d ≠ 0 := by
  obtain ⟨n, hn⟩ := Option.isSome_iff_exists.1 (isSome_of_live hl)
  exact Nat.ne_of_gt (h.ino hn).1

lemma tree_up {s : NameFs} {d : Nat} (hl : s.live d = true) : s.tree.up d = some (s.parent d) :=
  if_pos hl

lemma tree_children {s : NameFs} {d : Nat} (hl : s.live d = true) :
    s.tree.children d = names (s.dir d) := if_pos hl

/-- A directory replaced by one with the same `..` changes only the children. -/
lemma redir_tree_children {s : NameFs} {i : Nat} {d : Directory} (hl : s.live i = true)
    (hup : d.slot 1 = (s.dir i).slot 1) :
    (s.redir i d).tree =
      { s.tree with children := Function.update s.tree.children i (names d) } := by
  rw [redir_tree hl, hup]
  congr 1
  exact (congrArg _ (tree_up hl).symm).trans (Function.update_eq_self ..)

variable {s : NameFs} {d : Nat} {name : List UInt8} {n k ino : Nat} {io : Commit}

lemma add_link_tree (h : s.Shape) (hl : s.live d = true) (hv : ValidName name) (hi : ino ≠ 0)
    (hok : (cominix_add_link (s.dir d) name ino io).2 = none) :
    (s.redir d (cominix_add_link (s.dir d) name ino io).1).Shape ∧
      (s.redir d (cominix_add_link (s.dir d) name ino io).1).tree =
        { s.tree with
          children := Function.update s.tree.children d (ino ::ₘ s.tree.children d) } := by
  obtain ⟨hd, hup, hperm⟩ := (h.dir hl).add_link (h.ne_zero hl) hv hi hok
  refine ⟨h.redir hd, ?_⟩
  rw [redir_tree_children hl hup, names_perm hperm, tree_children hl]
  rfl

lemma delete_entry_tree (h : s.Shape) (hl : s.live d = true) (hk : k < 64)
    (hh : Holds (s.dir d) (64 * n + k) ino)
    (hok : (cominix_delete_entry (s.dir d) n k io).2 = none) :
    ino ∈ s.tree.children d ∧ (s.redir d (cominix_delete_entry (s.dir d) n k io).1).Shape ∧
      (s.redir d (cominix_delete_entry (s.dir d) n k io).1).tree =
        { s.tree with
          children := Function.update s.tree.children d ((s.tree.children d).erase ino) } := by
  obtain ⟨hd, hup, hperm⟩ := (h.dir hl).delete_entry hk hh.lt hh.two_le hh.child hok
  have hnames := names_perm hperm
  rw [List.map_cons, hh.inode] at hnames
  have hcons : s.tree.children d = ino ::ₘ names (cominix_delete_entry (s.dir d) n k io).1 := by
    rw [tree_children hl, hnames]
    rfl
  refine ⟨?_, h.redir hd, ?_⟩
  · rw [hcons]
    exact Multiset.mem_cons_self ..
  · rw [redir_tree_children hl hup, hcons, Multiset.erase_cons_head]

lemma set_link_tree {old : Nat} (h : s.Shape) (hl : s.live d = true) (hv : ValidName name)
    (hf : cominix_find_entry (s.dir d) name = some (n, k))
    (hold : ((s.dir d).slot (64 * n + k)).inode = old) (hi : ino ≠ 0)
    (hok : (cominix_set_link (s.dir d) n k ino io).2 = none) :
    old ∈ s.tree.children d ∧ (s.redir d (cominix_set_link (s.dir d) n k ino io).1).Shape ∧
      (s.redir d (cominix_set_link (s.dir d) n k ino io).1).tree =
        { s.tree with
          children :=
            Function.update s.tree.children d (ino ::ₘ (s.tree.children d).erase old) } := by
  obtain ⟨hd, hup, rest, hperm, hperm'⟩ := (h.dir hl).set_link hv hf hi hok
  have hnames := names_perm hperm
  rw [List.map_cons, hold] at hnames
  have hcons : s.tree.children d = old ::ₘ ((rest.map (·.inode) : List Nat) : Multiset Nat) := by
    rw [tree_children hl, hnames]
    rfl
  refine ⟨?_, h.redir hd, ?_⟩
  · rw [hcons]
    exact Multiset.mem_cons_self ..
  · rw [redir_tree_children hl hup, hcons, Multiset.erase_cons_head, names_perm hperm']
    rfl

lemma set_dotdot_tree {parent : Nat} (h : s.Shape) (hl : s.live d = true) (hp : parent ≠ 0)
    (hok : (cominix_set_link (s.dir d) 0 1 parent io).2 = none) :
    (s.redir d (cominix_set_link (s.dir d) 0 1 parent io).1).Shape ∧
      (s.redir d (cominix_set_link (s.dir d) 0 1 parent io).1).tree =
        { s.tree with up := Function.update s.tree.up d (some parent) } := by
  obtain ⟨hd, hup, hperm⟩ := (h.dir hl).set_dotdot hp hok
  refine ⟨h.redir hd, ?_⟩
  rw [redir_tree hl, hup, names_perm hperm]
  congr 1
  exact (congrArg _ (tree_children hl).symm).trans (Function.update_eq_self ..)

/-- A name that is looked up is found, in a slot that names its inode. -/
lemma find_of_lookup (h : s.Shape) (hl : s.live d = true) (hv : ValidName name)
    (hne : s.lookup d name ≠ 0) :
    ∃ n k, cominix_find_entry (s.dir d) name = some (n, k) ∧ k < 64 ∧
      Holds (s.dir d) (64 * n + k) (s.lookup d name) := by
  obtain ⟨n, k, hf, -, -, -, hino⟩ := inode_by_name_ne_zero hne
  obtain ⟨hk, hlt, h2, hc, -⟩ := (h.dir hl).find_entry hv hf
  exact ⟨n, k, hf, hk, hlt, h2, hc, hino⟩

/-- Adding an entry leaves the children where they are. -/
lemma Holds.add_link {d : Directory} {m : Nat} {i_ino : Nat} (ha : d.i_size % 64 = 0)
    (hh : Holds d m i_ino) (hok : (cominix_add_link d name ino io).2 = none) :
    Holds (cominix_add_link d name ino io).1 m i_ino := by
  obtain ⟨m', hm', heq⟩ := add_link_ok ha hok
  have hlt := hh.lt
  have hne : m ≠ m' := by
    rintro rfl
    cases hm' with
    | inl hend => omega
    | inr hfree => exact hh.child.1 hfree.2
  have hn : d.nslots ≤ (d.put m' ⟨ino, pad name⟩).nslots := by
    cases hm' with
    | inl hend =>
      rw [hend, Directory.put_nslots_end ha]
      exact Nat.le_succ _
    | inr hfree => rw [Directory.put_nslots_of_lt hfree.1]
  rw [heq]
  refine ⟨Nat.lt_of_lt_of_le hlt hn, hh.two_le, ?_, ?_⟩
  · rw [Directory.put_slot_of_ne d _ hne]; exact hh.child
  · rw [Directory.put_slot_of_ne d _ hne]; exact hh.inode

/-- Changing an entry leaves the other children where they are. -/
lemma Holds.set_link {d : Directory} {m i_ino : Nat} (hk : k < 64) (hlt : 64 * n + k < d.nslots)
    (hne : m ≠ 64 * n + k) (hh : Holds d m i_ino)
    (hok : (cominix_set_link d n k ino io).2 = none) :
    Holds (cominix_set_link d n k ino io).1 m i_ino := by
  rw [set_link_ok hk hok]
  refine ⟨?_, hh.two_le, ?_, ?_⟩
  · rw [Directory.put_nslots_of_lt hlt]; exact hh.lt
  · rw [Directory.put_slot_of_ne d _ hne]; exact hh.child
  · rw [Directory.put_slot_of_ne d _ hne]; exact hh.inode

/-! ## Allocating and freeing an inode -/

lemma bits_per_zone_pos (s : NameFs) : 0 < s.bits_per_zone :=
  Nat.mul_pos (by decide) (Nat.two_pow_pos _)

lemma new_inode_loop_some {i j : Nat} (h : new_inode_loop s = some (i, j)) :
    j < s.bits_per_zone ∧ s.s_imap.mem i j = false := by
  obtain ⟨i', -, hf, -⟩ := (List.findSome?_range_eq_some _).1 h
  dsimp only at hf
  split at hf
  · rename_i hlt
    cases hf
    exact ⟨hlt, (find_first_zero_bit_spec _ _).2.2 hlt⟩
  · cases hf

lemma ibit_assign {i j : Nat} {b : Bool} (hj : j < s.bits_per_zone) (ino : Nat) :
    ({ s with s_imap := assign s.s_imap i j b } : NameFs).ibit ino =
      if ino = i * s.bits_per_zone + j then b else s.ibit ino := bitAt_assign hj

/-- The new inode has no bit before and is in the table after. -/
lemma new_inode_ok {s s' : NameFs} {mode : Ftype} {memory : Bool} {ino : Nat}
    (h : cominix_new_inode s mode memory = (s', .ok ino)) :
    s.ibit ino = false ∧ 0 < ino ∧ ino ≤ s.sbi.s_ninodes ∧
      s'.sbi = s.sbi ∧ s'.s_blocksize_bits = s.s_blocksize_bits ∧
      s'.inodes = Function.update s.inodes ino (some ⟨mode, 1, false, .new⟩) ∧
      ∀ i, s'.ibit i = if i = ino then true else s.ibit i := by
  unfold cominix_new_inode at h
  split at h
  · cases h
  · split at h
    · cases h
    · rename_i i j hloop
      obtain ⟨hj, hbit⟩ := new_inode_loop_some hloop
      rw [hbit, if_neg Bool.false_ne_true] at h
      dsimp only at h
      split at h
      · cases h
      · rename_i hvalid
        obtain ⟨hs, hino⟩ := Prod.mk.inj h
        cases hino
        subst hs
        refine ⟨?_, by omega, by omega, rfl, rfl, rfl, fun i' => ?_⟩
        · change s.ibit (j + i * s.bits_per_zone) = false
          have hdiv : (j + i * s.bits_per_zone) / s.bits_per_zone = i := by
            rw [Nat.add_mul_div_right _ _ s.bits_per_zone_pos, Nat.div_eq_of_lt hj, Nat.zero_add]
          have hmod : (j + i * s.bits_per_zone) % s.bits_per_zone = j := by
            rw [Nat.add_mul_mod_self_right, Nat.mod_eq_of_lt hj]
          rw [ibit, bitAt, hdiv, hmod, hbit]
        · have hset := @ibit_assign s i j true hj i'
          rw [Nat.add_comm (i * s.bits_per_zone)] at hset
          exact hset

/-- Without a new inode there is at most one more bit. -/
lemma new_inode_error {s s' : NameFs} {mode : Ftype} {memory : Bool} {err : DirErr}
    (h : cominix_new_inode s mode memory = (s', .error err)) :
    s'.sbi = s.sbi ∧ s'.s_blocksize_bits = s.s_blocksize_bits ∧ s'.inodes = s.inodes ∧
      ∀ i, s.ibit i = true → s'.ibit i = true := by
  unfold cominix_new_inode at h
  split at h
  · cases h
    exact ⟨rfl, rfl, rfl, fun _ hi => hi⟩
  · split at h
    · cases h
      exact ⟨rfl, rfl, rfl, fun _ hi => hi⟩
    · rename_i i j hloop
      split at h
      · cases h
        exact ⟨rfl, rfl, rfl, fun _ hi => hi⟩
      · dsimp only at h
        split at h
        · cases h
          refine ⟨rfl, rfl, rfl, fun i' hi => ?_⟩
          rw [ibit_assign (new_inode_loop_some hloop).1]
          split
          · rfl
          · exact hi
        · cases h

lemma free_inode_frame (s : NameFs) (ino : Nat) :
    (cominix_free_inode s ino).sbi = s.sbi ∧
      (cominix_free_inode s ino).s_blocksize_bits = s.s_blocksize_bits ∧
      (cominix_free_inode s ino).inodes = s.inodes ∧
      ∀ i ≠ ino, (cominix_free_inode s ino).ibit i = s.ibit i := by
  unfold cominix_free_inode
  split
  · exact ⟨rfl, rfl, rfl, fun _ _ => rfl⟩
  · dsimp only
    split
    · exact ⟨rfl, rfl, rfl, fun _ _ => rfl⟩
    · refine ⟨rfl, rfl, rfl, fun i hi => ?_⟩
      have hw : s.bits_per_zone = 2 ^ (s.s_blocksize_bits + 3) := by
        rw [bits_per_zone, Nat.pow_add, Nat.mul_comm]
      rw [← hw, ibit_assign (Nat.mod_lt _ s.bits_per_zone_pos), Nat.div_add_mod', if_neg hi]

/-- An inode without links is freed: it is gone, and only its bit changes. -/
lemma evict_unlinked (s : NameFs) (ino : Nat) (h : s.i_nlink ino = 0) :
    (cominix_evict_inode s ino).sbi = s.sbi ∧
      (cominix_evict_inode s ino).s_blocksize_bits = s.s_blocksize_bits ∧
      (cominix_evict_inode s ino).inodes = Function.update s.inodes ino none ∧
      ∀ i ≠ ino, (cominix_evict_inode s ino).ibit i = s.ibit i := by
  unfold cominix_evict_inode
  rw [if_pos h]
  exact free_inode_frame { s with inodes := Function.update s.inodes ino none } ino

/-! ## Entering and removing an inode -/

section

variable {s s' : NameFs} {ino : Nat} {o : Option Node}

lemma update_live (h : s'.inodes = Function.update s.inodes ino o) :
    s'.live = Function.update s.live ino
      (o.elim false fun n => n.i_mode == .dir && !n.S_DEAD) := by
  rw [live_eq, live_eq, h, Function.comp_update]

lemma update_isdir (h : s'.inodes = Function.update s.inodes ino o) :
    s'.S_ISDIR = Function.update s.S_ISDIR ino
      (o.elim false fun n => n.i_mode == .dir) := by
  rw [isdir_eq, isdir_eq, h, Function.comp_update]

lemma update_dir (h : s'.inodes = Function.update s.inodes ino o) :
    s'.dir = Function.update s.dir ino (o.elim .new fun n => n.dir) := by
  rw [dir_eq, dir_eq, h, Function.comp_update]

lemma update_i_nlink (h : s'.inodes = Function.update s.inodes ino o) :
    s'.i_nlink =
      Function.update s.i_nlink ino (o.elim 0 fun n => n.i_nlink) := by
  rw [i_nlink_eq, i_nlink_eq, h, Function.comp_update]

lemma live_of_none (h : s.inodes ino = none) : s.live ino = false := by
  unfold live
  rw [h]

/-- An inode that is no live directory is none of those that are. -/
lemma ne_of_live {i j : Nat} (hi : s.live i = true) (hj : s.live j = false) : i ≠ j := by
  rintro rfl
  rw [hj] at hi
  cases hi

lemma isdir_of_none (h : s.inodes ino = none) : s.S_ISDIR ino = false := by
  unfold S_ISDIR
  rw [h]

lemma i_nlink_of_none (h : s.inodes ino = none) : s.i_nlink ino = 0 := by
  unfold i_nlink
  rw [h]

lemma isdir_of_live (h : s.live ino = true) : s.S_ISDIR ino = true := by
  unfold live at h
  unfold S_ISDIR
  cases hi : s.inodes ino with
  | none => rw [hi] at h; cases h
  | some n =>
    rw [hi] at h
    exact (Bool.and_eq_true_iff.1 h).1

end

end NameFs

end CominixFs
