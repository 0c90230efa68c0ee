import Mathlib.Algebra.BigOperators.Group.Finset.Basic
import Mathlib.Algebra.Order.BigOperators.Group.Finset
import Mathlib.Data.Finset.Basic
import Mathlib.Data.Multiset.Filter
import Mathlib.Tactic.Common

/-!
# Trees of links

A hierarchy of directories and files with link counts: a directory knows the one above it and the
nodes its entries name, and every node has a count. `Inv` says that the counts are those of the
tree; the operations of a file system keep it, each on one condition or two.
-/

/-- Nodes with link counts. A node is a directory when it has one above it. -/
@[ext] structure LinkTree (ι : Type) where
  up : ι → Option ι
  children : ι → Multiset ι
  nlink : ι → Nat

namespace LinkTree

variable {ι : Type} [DecidableEq ι]

/-- How many entries name a node. -/
def named (I : Finset ι) (children : ι → Multiset ι) (x : ι) : Nat := ∑ d ∈ I, (children d).count x

/-- How many entries of a node name directories. -/
def subdirs (t : LinkTree ι) (x : ι) : Nat := (t.children x).countP fun c => (t.up c).isSome

/-- The link counts are those of the tree. -/
structure Inv (I : Finset ι) (root : ι) (t : LinkTree ι) : Prop where
  root_up : t.up root = some root
  root_named : named I t.children root = 0
  holder : ∀ {d c}, c ∈ t.children d → d ∈ I ∧ (t.up d).isSome
  bound : ∀ {x}, (t.up x).isSome → x ∈ I
  file : ∀ {x}, t.up x = none → t.nlink x = named I t.children x
  dir : ∀ {x}, (t.up x).isSome → t.nlink x = 2 + t.subdirs x
  once : ∀ {x}, (t.up x).isSome → x ≠ root → named I t.children x = 1
  parent : ∀ {d c}, c ∈ t.children d → (t.up c).isSome → t.up c = some d

/-- Another entry of `d` names the file `a`. -/
def enter (t : LinkTree ι) (d a : ι) : LinkTree ι where
  up := t.up
  children := Function.update t.children d (a ::ₘ t.children d)
  nlink := Function.update t.nlink a (t.nlink a + 1)

/-- One entry of `d` that names the file `a` goes. -/
def leave (t : LinkTree ι) (d a : ι) : LinkTree ι where
  up := t.up
  children := Function.update t.children d ((t.children d).erase a)
  nlink := Function.update t.nlink a (t.nlink a - 1)

/-- A new directory `a` under `d`. -/
def mkdir (t : LinkTree ι) (d a : ι) : LinkTree ι where
  up := Function.update t.up a (some d)
  children := Function.update t.children d (a ::ₘ t.children d)
  nlink := Function.update (Function.update t.nlink a 2) d (t.nlink d + 1)

/-- The empty directory `a` under `d` goes. -/
def rmdir (t : LinkTree ι) (d a : ι) : LinkTree ι where
  up := Function.update t.up a none
  children := Function.update t.children d ((t.children d).erase a)
  nlink := Function.update (Function.update t.nlink a 0) d (t.nlink d - 1)

/-- The directory `a` moves from `d` to `d'`. -/
def move (t : LinkTree ι) (d d' a : ι) : LinkTree ι where
  up := Function.update t.up a (some d')
  children :=
    let children := Function.update t.children d' (a ::ₘ t.children d')
    Function.update children d ((children d).erase a)
  nlink :=
    let nlink := Function.update t.nlink d' (t.nlink d' + 1)
    Function.update nlink d (nlink d - 1)

/-! ## Counting entries -/

section

variable {I : Finset ι} {children : ι → Multiset ι} {d a x : ι}

lemma named_update (hd : d ∈ I) (m : Multiset ι) :
    named I (Function.update children d m) x + (children d).count x =
      named I children x + m.count x := by
  have hrest : ∑ i ∈ I.erase d, (Function.update children d m i).count x =
      ∑ i ∈ I.erase d, (children i).count x := by
    apply Finset.sum_congr rfl
    intro i hi
    rw [Function.update_of_ne (Finset.ne_of_mem_erase hi)]
  unfold named
  rw [← Finset.add_sum_erase I _ hd, ← Finset.add_sum_erase I (fun i => (children i).count x) hd,
    hrest, Function.update_self]
  omega

lemma named_cons (hd : d ∈ I) :
    named I (Function.update children d (a ::ₘ children d)) x =
      named I children x + if x = a then 1 else 0 := by
  have h := @named_update _ _ I children d x hd (a ::ₘ children d)
  rw [Multiset.count_cons] at h
  omega

lemma named_erase (hd : d ∈ I) (ha : a ∈ children d) :
    named I (Function.update children d ((children d).erase a)) x + (if x = a then 1 else 0) =
      named I children x := by
  have h := @named_update _ _ I children d x hd ((children d).erase a)
  have hc : (children d).count x = ((children d).erase a).count x + if x = a then 1 else 0 := by
    conv_lhs => rw [← Multiset.cons_erase ha]
    rw [Multiset.count_cons]
  omega

lemma count_le_named (hd : d ∈ I) : (children d).count x ≤ named I children x :=
  Finset.single_le_sum (f := fun i => (children i).count x) (fun _ _ => Nat.zero_le _) hd

/-- What an entry names is named. -/
lemma named_pos (hd : d ∈ I) (h : x ∈ children d) : 0 < named I children x :=
  Nat.lt_of_lt_of_le (Multiset.count_pos.2 h) (count_le_named hd)

/-- What is named is named by an entry. -/
lemma exists_mem_of_named (h : 0 < named I children x) : ∃ d ∈ I, x ∈ children d := by
  obtain ⟨d, hd, hpos⟩ := Finset.exists_ne_zero_of_sum_ne_zero (Nat.ne_of_gt h)
  exact ⟨d, hd, Multiset.count_ne_zero.1 hpos⟩

end

omit [DecidableEq ι] in
/-- Subdirectories depend on the entries and on which of them name directories. -/
lemma subdirs_congr {t t' : LinkTree ι} {x : ι} (hc : t'.children x = t.children x)
    (hu : ∀ c ∈ t.children x, (t'.up c).isSome = (t.up c).isSome) : t'.subdirs x = t.subdirs x := by
  unfold subdirs
  rw [hc]
  exact Multiset.countP_congr rfl fun c hcm => by rw [hu c hcm]

lemma countP_erase {s : Multiset ι} {a : ι} {p : ι → Prop} [DecidablePred p] (ha : a ∈ s)
    (hp : p a) : s.countP p = (s.erase a).countP p + 1 := by
  conv_lhs => rw [← Multiset.cons_erase ha]
  exact Multiset.countP_cons_of_pos _ hp

namespace Inv

variable {I : Finset ι} {root : ι} {t : LinkTree ι} {d d' a x c : ι}

lemma ne_root (h : Inv I root t) (ha : a ∈ t.children d) : a ≠ root := by
  rintro rfl
  have hpos := named_pos (h.holder ha).1 ha
  rw [h.root_named] at hpos
  exact Nat.lt_irrefl 0 hpos

lemma not_mem (h : Inv I root t) (ha : named I t.children a = 0) (d : ι) : a ∉ t.children d := by
  intro hmem
  have hpos := named_pos (h.holder hmem).1 hmem
  rw [ha] at hpos
  exact Nat.lt_irrefl 0 hpos

lemma children_file (h : Inv I root t) (ha : t.up a = none) : t.children a = 0 := by
  apply Multiset.eq_zero_of_forall_notMem
  intro c hc
  have := (h.holder hc).2
  rw [ha] at this
  cases this

/-- A directory has one entry in one directory. -/
lemma dir_once (h : Inv I root t) (ha : a ∈ t.children d) (hdir : (t.up a).isSome) :
    a ∉ (t.children d).erase a := by
  have hle := @count_le_named _ _ I t.children d a (h.holder ha).1
  rw [h.once hdir (h.ne_root ha)] at hle
  intro hmem
  have hpos := Multiset.count_pos.2 hmem
  rw [Multiset.count_erase_self] at hpos
  omega

lemma dir_holder (h : Inv I root t) (ha : a ∈ t.children d) (ha' : a ∈ t.children d')
    (hdir : (t.up a).isSome) : d' = d := by
  have h1 := h.parent ha hdir
  rw [h.parent ha' hdir] at h1
  exact Option.some.inj h1

lemma enter (h : Inv I root t) (hd : (t.up d).isSome) (ha : t.up a = none) :
    Inv I root (t.enter d a) := by
  have hnamed : ∀ x, named I (t.enter d a).children x =
      named I t.children x + if x = a then 1 else 0 := fun x => named_cons (h.bound hd)
  have hne : ∀ x, (t.up x).isSome → x ≠ a := by
    rintro x hx rfl
    rw [ha] at hx
    cases hx
  have hmem : ∀ e c, c ∈ (t.enter d a).children e → e = d ∧ c = a ∨ c ∈ t.children e := by
    intro e c hc
    by_cases he : e = d
    · subst he
      have hc : c ∈ a ::ₘ t.children e := by simpa [LinkTree.enter] using hc
      cases Multiset.mem_cons.1 hc with
      | inl hca => exact .inl ⟨rfl, hca⟩
      | inr hold => exact .inr hold
    · right
      simpa [LinkTree.enter, Function.update_of_ne he] using hc
  refine ⟨h.root_up, ?_, ?_, h.bound, ?_, ?_, ?_, ?_⟩
  · rw [hnamed, if_neg (hne _ (by rw [h.root_up]; rfl)), h.root_named]
  · intro e c hc
    cases hmem e c hc with
    | inl hnew => rw [hnew.1]; exact ⟨h.bound hd, hd⟩
    | inr hold => exact h.holder hold
  · intro x hx
    rw [hnamed, ← h.file hx]
    by_cases hxa : x = a
    · subst hxa
      rw [LinkTree.enter, if_pos rfl]
      exact Function.update_self ..
    · rw [LinkTree.enter, if_neg hxa]
      exact Function.update_of_ne hxa _ _
  · intro x hx
    have hlink : (t.enter d a).nlink x = t.nlink x := Function.update_of_ne (hne x hx) _ _
    rw [hlink, h.dir hx]
    congr 1
    by_cases hxd : x = d
    · subst hxd
      have hch : (t.enter x a).children x = a ::ₘ t.children x := Function.update_self ..
      unfold subdirs
      rw [hch, Multiset.countP_cons_of_neg _ (by simp [LinkTree.enter, ha])]
      rfl
    · have hch : (t.enter d a).children x = t.children x := Function.update_of_ne hxd _ _
      exact (subdirs_congr hch fun c _ => rfl).symm
  · intro x hx hroot
    rw [hnamed, if_neg (hne x hx), h.once hx hroot]
  · intro e c hc hdir
    cases hmem e c hc with
    | inl hnew => exact absurd hnew.2 (hne c hdir)
    | inr hold => exact h.parent hold hdir

/-- What an entry still names after one has gone, it named before. -/
lemma mem_of_erase {e : ι} {children : ι → Multiset ι}
    (hc : c ∈ Function.update children d ((children d).erase a) e) : c ∈ children e := by
  by_cases he : e = d
  · subst he
    rw [Function.update_self] at hc
    exact Multiset.mem_of_mem_erase hc
  · rwa [Function.update_of_ne he] at hc

lemma leave (h : Inv I root t) (ha : a ∈ t.children d) (hfile : t.up a = none) :
    Inv I root (t.leave d a) := by
  have hnamed : ∀ x, named I (t.leave d a).children x + (if x = a then 1 else 0) =
      named I t.children x := fun x => named_erase (h.holder ha).1 ha
  have hne : ∀ x, (t.up x).isSome → x ≠ a := by
    rintro x hx rfl
    rw [hfile] at hx
    cases hx
  refine ⟨h.root_up, ?_, fun hc => h.holder (mem_of_erase hc), h.bound, ?_, ?_, ?_,
    fun hc => h.parent (mem_of_erase hc)⟩
  · have := hnamed root
    rw [h.root_named] at this
    exact (Nat.add_eq_zero_iff.1 this).1
  · intro x hx
    have hx' := hnamed x
    by_cases hxa : x = a
    · subst hxa
      have hlink : (t.leave d x).nlink x = t.nlink x - 1 := Function.update_self ..
      rw [if_pos rfl] at hx'
      rw [hlink, h.file hx]
      omega
    · have hlink : (t.leave d a).nlink x = t.nlink x := Function.update_of_ne hxa _ _
      rw [if_neg hxa] at hx'
      rw [hlink, h.file hx]
      omega
  · intro x hx
    have hlink : (t.leave d a).nlink x = t.nlink x := Function.update_of_ne (hne x hx) _ _
    rw [hlink, h.dir hx]
    congr 1
    by_cases hxd : x = d
    · subst hxd
      have hch : (t.leave x a).children x = (t.children x).erase a := Function.update_self ..
      unfold subdirs
      rw [hch]
      conv_lhs => rw [← Multiset.cons_erase ha]
      exact Multiset.countP_cons_of_neg _ (by simp [hfile])
    · have hch : (t.leave d a).children x = t.children x := Function.update_of_ne hxd _ _
      exact (subdirs_congr hch fun c _ => rfl).symm
  · intro x hx hroot
    have hx' := hnamed x
    rw [if_neg (hne x hx), h.once hx hroot] at hx'
    exact hx'

lemma mkdir (h : Inv I root t) (hd : (t.up d).isSome) (ha : t.up a = none) (hI : a ∈ I)
    (hfresh : named I t.children a = 0) : Inv I root (t.mkdir d a) := by
  have hnamed : ∀ x, named I (t.mkdir d a).children x =
      named I t.children x + if x = a then 1 else 0 := fun x => named_cons (h.bound hd)
  have hup : (t.mkdir d a).up a = some d := Function.update_self ..
  have hup' : ∀ x, x ≠ a → (t.mkdir d a).up x = t.up x := fun x hx => Function.update_of_ne hx _ _
  have had : a ≠ d := by
    rintro rfl
    rw [ha] at hd
    cases hd
  have hroot : root ≠ a := by
    rintro rfl
    rw [h.root_up] at ha
    cases ha
  have hmem : ∀ e c, c ∈ (t.mkdir d a).children e → e = d ∧ c = a ∨ c ∈ t.children e := by
    intro e c hc
    by_cases he : e = d
    · subst he
      have hc : c ∈ a ::ₘ t.children e := by simpa [LinkTree.mkdir] using hc
      cases Multiset.mem_cons.1 hc with
      | inl hca => exact .inl ⟨rfl, hca⟩
      | inr hold => exact .inr hold
    · right
      simpa [LinkTree.mkdir, Function.update_of_ne he] using hc
  have hsome : ∀ x, (t.up x).isSome → ((t.mkdir d a).up x).isSome := by
    intro x hx
    by_cases hxa : x = a
    · rw [hxa, hup]; rfl
    · rw [hup' x hxa]; exact hx
  -- no entry named the new directory, so the old ones count as before
  have hold : ∀ x, ∀ c ∈ t.children x, ((t.mkdir d a).up c).isSome = (t.up c).isSome := by
    intro x c hc
    rw [hup' c]
    rintro rfl
    exact h.not_mem hfresh x hc
  refine ⟨?_, ?_, ?_, ?_, ?_, ?_, ?_, ?_⟩
  · rw [hup' root hroot, h.root_up]
  · rw [hnamed, if_neg hroot, h.root_named]
  · intro e c hc
    cases hmem e c hc with
    | inl hnew => rw [hnew.1]; exact ⟨h.bound hd, hsome d hd⟩
    | inr ho => exact ⟨(h.holder ho).1, hsome e (h.holder ho).2⟩
  · intro x hx
    by_cases hxa : x = a
    · rwa [hxa]
    · rw [hup' x hxa] at hx
      exact h.bound hx
  · intro x hx
    have hxa : x ≠ a := by
      rintro rfl
      rw [hup] at hx
      cases hx
    rw [hup' x hxa] at hx
    have hxd : x ≠ d := by
      rintro rfl
      rw [hx] at hd
      cases hd
    have hlink : (t.mkdir d a).nlink x = t.nlink x := by
      simp [LinkTree.mkdir, Function.update_of_ne hxd, Function.update_of_ne hxa]
    rw [hnamed, if_neg hxa, hlink, h.file hx, Nat.add_zero]
  · intro x hx
    by_cases hxa : x = a
    · subst hxa
      have hlink : (t.mkdir d x).nlink x = 2 := by
        simp [LinkTree.mkdir, Function.update_of_ne had]
      have hch : (t.mkdir d x).children x = 0 := by
        simp [LinkTree.mkdir, Function.update_of_ne had, h.children_file ha]
      rw [hlink, subdirs, hch, Multiset.countP_zero]
    · rw [hup' x hxa] at hx
      by_cases hxd : x = d
      · subst hxd
        have hlink : (t.mkdir x a).nlink x = t.nlink x + 1 := Function.update_self ..
        have hch : (t.mkdir x a).children x = a ::ₘ t.children x := Function.update_self ..
        have hsub : (t.mkdir x a).subdirs x = t.subdirs x + 1 := by
          unfold subdirs
          rw [hch, Multiset.countP_cons_of_pos _ (by rw [hup]; rfl)]
          congr 1
          exact Multiset.countP_congr rfl fun c hc => by rw [hold x c hc]
        rw [hlink, hsub, h.dir hx, Nat.add_assoc]
      · have hlink : (t.mkdir d a).nlink x = t.nlink x := by
          simp [LinkTree.mkdir, Function.update_of_ne hxd, Function.update_of_ne hxa]
        have hch : (t.mkdir d a).children x = t.children x := Function.update_of_ne hxd _ _
        rw [hlink, subdirs_congr hch (hold x), h.dir hx]
  · intro x hx hxr
    rw [hnamed]
    by_cases hxa : x = a
    · rw [hxa, hfresh, if_pos rfl]
    · rw [hup' x hxa] at hx
      rw [if_neg hxa, h.once hx hxr]
  · intro e c hc hdir
    cases hmem e c hc with
    | inl hnew => rw [hnew.1, hnew.2, hup]
    | inr ho =>
      have hca : c ≠ a := by
        rintro rfl
        exact h.not_mem hfresh e ho
      rw [hup' c hca] at hdir ⊢
      exact h.parent ho hdir

lemma rmdir (h : Inv I root t) (ha : a ∈ t.children d) (hdir : (t.up a).isSome)
    (hempty : t.children a = 0) : Inv I root (t.rmdir d a) := by
  have hnamed : ∀ x, named I (t.rmdir d a).children x + (if x = a then 1 else 0) =
      named I t.children x := fun x => named_erase (h.holder ha).1 ha
  have hup : (t.rmdir d a).up a = none := Function.update_self ..
  have hup' : ∀ x, x ≠ a → (t.rmdir d a).up x = t.up x := fun x hx => Function.update_of_ne hx _ _
  have had : a ≠ d := by
    rintro rfl
    rw [hempty] at ha
    exact Multiset.notMem_zero _ ha
  have hroot : root ≠ a := (h.ne_root ha).symm
  have hne : ∀ x, ((t.rmdir d a).up x).isSome → x ≠ a := by
    rintro x hx rfl
    rw [hup] at hx
    cases hx
  refine ⟨?_, ?_, ?_, ?_, ?_, ?_, ?_, ?_⟩
  · rw [hup' root hroot, h.root_up]
  · have := hnamed root
    rw [h.root_named] at this
    exact (Nat.add_eq_zero_iff.1 this).1
  · intro e c hc
    have hold := h.holder (mem_of_erase hc)
    have hea : e ≠ a := by
      rintro rfl
      have := mem_of_erase hc
      rw [hempty] at this
      exact Multiset.notMem_zero _ this
    rw [hup' e hea]
    exact hold
  · intro x hx
    rw [hup' x (hne x hx)] at hx
    exact h.bound hx
  · intro x hx
    have hx' := hnamed x
    by_cases hxa : x = a
    · subst hxa
      have hlink : (t.rmdir d x).nlink x = 0 := by
        simp [LinkTree.rmdir, Function.update_of_ne had]
      rw [if_pos rfl, h.once hdir hroot.symm] at hx'
      rw [hlink]
      omega
    · rw [hup' x hxa] at hx
      have hxd : x ≠ d := by
        rintro rfl
        have := (h.holder ha).2
        rw [hx] at this
        cases this
      have hlink : (t.rmdir d a).nlink x = t.nlink x := by
        simp [LinkTree.rmdir, Function.update_of_ne hxd, Function.update_of_ne hxa]
      rw [if_neg hxa, Nat.add_zero] at hx'
      rw [hlink, h.file hx, hx']
  · intro x hx
    have hxa := hne x hx
    rw [hup' x hxa] at hx
    -- the entry that went was the only one for the directory
    have hold : ∀ c ∈ (t.rmdir d a).children x,
        ((t.rmdir d a).up c).isSome = (t.up c).isSome := by
      intro c hc
      rw [hup' c]
      rintro rfl
      have hxd := h.dir_holder ha (mem_of_erase hc) hdir
      subst hxd
      have hc : c ∈ (t.children x).erase c := by simpa [LinkTree.rmdir] using hc
      exact h.dir_once ha hdir hc
    by_cases hxd : x = d
    · subst hxd
      have hlink : (t.rmdir x a).nlink x = t.nlink x - 1 := Function.update_self ..
      have hch : (t.rmdir x a).children x = (t.children x).erase a := Function.update_self ..
      have hsub : (t.rmdir x a).subdirs x + 1 = t.subdirs x := by
        rw [hch] at hold
        unfold subdirs
        rw [hch]
        rw [@countP_erase _ _ _ _ (fun c => (t.up c).isSome) _ ha hdir]
        congr 1
        exact Multiset.countP_congr rfl fun c hc => by rw [hold c hc]
      rw [hlink, h.dir hx]
      omega
    · have hlink : (t.rmdir d a).nlink x = t.nlink x := by
        simp [LinkTree.rmdir, Function.update_of_ne hxd, Function.update_of_ne hxa]
      have hch : (t.rmdir d a).children x = t.children x := Function.update_of_ne hxd _ _
      rw [hch] at hold
      rw [hlink, subdirs_congr hch hold, h.dir hx]
  · intro x hx hxr
    have hxa := hne x hx
    have hx' := hnamed x
    rw [hup' x hxa] at hx
    rw [if_neg hxa, h.once hx hxr] at hx'
    exact hx'
  · intro e c hc hcd
    have hca := hne c hcd
    rw [hup' c hca] at hcd ⊢
    exact h.parent (mem_of_erase hc) hcd

lemma move (h : Inv I root t) (ha : a ∈ t.children d) (hdir : (t.up a).isSome)
    (hd' : (t.up d').isSome) : Inv I root (t.move d d' a) := by
  have hd := (h.holder ha).1
  have hdd := (h.holder ha).2
  have hroot : root ≠ a := (h.ne_root ha).symm
  -- the entry is made in the new directory before it goes from the old one
  have ha' : a ∈ Function.update t.children d' (a ::ₘ t.children d') d := by
    by_cases hd'd : d = d'
    · subst hd'd
      rw [Function.update_self]
      exact Multiset.mem_cons_self a _
    · rwa [Function.update_of_ne hd'd]
  have hnamed : ∀ x, named I (t.move d d' a).children x = named I t.children x := by
    intro x
    have h1 := @named_cons _ _ I t.children d' a x (h.bound hd')
    have h2 := @named_erase _ _ I _ d a x hd ha'
    exact Nat.add_right_cancel (h2.trans h1)
  have hup : (t.move d d' a).up a = some d' := Function.update_self ..
  have hup' : ∀ x, x ≠ a → (t.move d d' a).up x = t.up x :=
    fun x hx => Function.update_of_ne hx _ _
  have hsome : ∀ x, ((t.move d d' a).up x).isSome = (t.up x).isSome := by
    intro x
    by_cases hxa : x = a
    · rw [hxa, hup, hdir, Option.isSome_some]
    · rw [hup' x hxa]
  have hnone : ∀ {x}, (t.move d d' a).up x = none → t.up x = none := by
    intro x hx
    have := hsome x
    rw [hx] at this
    exact Option.isSome_eq_false_iff.1 this.symm |> Option.isNone_iff_eq_none.1
  have hmem : ∀ e c, c ∈ (t.move d d' a).children e → e = d' ∧ c = a ∨ c ∈ t.children e := by
    intro e c hc
    have hc' := mem_of_erase hc
    by_cases he : e = d'
    · subst he
      rw [Function.update_self] at hc'
      cases Multiset.mem_cons.1 hc' with
      | inl hca => exact .inl ⟨rfl, hca⟩
      | inr hold => exact .inr hold
    · right
      rwa [Function.update_of_ne he] at hc'
  have hsub : ∀ x, (t.move d d' a).nlink x + t.subdirs x =
      t.nlink x + (t.move d d' a).subdirs x := by
    intro x
    have hcongr : (t.move d d' a).subdirs x =
        ((t.move d d' a).children x).countP fun c => (t.up c).isSome :=
      Multiset.countP_congr rfl fun c _ => by rw [hsome c]
    rw [hcongr]
    have herase := @countP_erase _ _ _ a (fun c => (t.up c).isSome) _ ha' hdir
    by_cases hxd : x = d
    · subst hxd
      have hch : (t.move x d' a).children x =
        (Function.update t.children d' (a ::ₘ t.children d') x).erase a := Function.update_self ..
      have hlink : (t.move x d' a).nlink x =
        Function.update t.nlink d' (t.nlink d' + 1) x - 1 := Function.update_self ..
      rw [hch, hlink]
      by_cases hxd' : x = d'
      · subst hxd'
        rw [Function.update_self, Function.update_self, Multiset.erase_cons_head]
        rfl
      · rw [Function.update_of_ne hxd'] at herase ⊢
        rw [Function.update_of_ne hxd', subdirs, herase]
        have := h.dir hdd
        omega
    · have hch : (t.move d d' a).children x =
        Function.update t.children d' (a ::ₘ t.children d') x := Function.update_of_ne hxd _ _
      have hlink : (t.move d d' a).nlink x =
        Function.update t.nlink d' (t.nlink d' + 1) x := Function.update_of_ne hxd _ _
      rw [hch, hlink]
      by_cases hxd' : x = d'
      · subst hxd'
        rw [Function.update_self, Function.update_self,
          Multiset.countP_cons_of_pos _ (by exact hdir), subdirs]
        omega
      · rw [Function.update_of_ne hxd', Function.update_of_ne hxd']
        rfl
  refine ⟨?_, ?_, ?_, ?_, ?_, ?_, ?_, ?_⟩
  · rw [hup' root hroot, h.root_up]
  · rw [hnamed, h.root_named]
  · intro e c hc
    rw [hsome]
    cases hmem e c hc with
    | inl hnew => rw [hnew.1]; exact ⟨h.bound hd', hd'⟩
    | inr hold => exact h.holder hold
  · intro x hx
    rw [hsome] at hx
    exact h.bound hx
  · intro x hx
    have hx' := hnone hx
    have hxd : x ≠ d := by
      rintro rfl
      rw [hx'] at hdd
      cases hdd
    have hxd' : x ≠ d' := by
      rintro rfl
      rw [hx'] at hd'
      cases hd'
    have hlink : (t.move d d' a).nlink x = t.nlink x := by
      simp [LinkTree.move, Function.update_of_ne hxd, Function.update_of_ne hxd']
    rw [hlink, hnamed, h.file hx']
  · intro x hx
    have hx' := hx
    rw [hsome] at hx'
    have := hsub x
    rw [h.dir hx'] at this
    omega
  · intro x hx hxr
    rw [hsome] at hx
    rw [hnamed, h.once hx hxr]
  · intro e c hc hcd
    rw [hsome] at hcd
    by_cases hca : c = a
    · subst hca
      rw [hup]
      congr 1
      by_contra hne
      -- the old entry was the only one, and it has gone
      have hold : c ∈ t.children e := by
        cases hmem e c hc with
        | inl hnew => exact absurd hnew.1.symm hne
        | inr hold => exact hold
      have hed := h.dir_holder ha hold hdir
      subst hed
      have hch : (t.move e d' c).children e = (t.children e).erase c := by
        simp [LinkTree.move, Function.update_of_ne (Ne.symm hne)]
      rw [hch] at hc
      exact h.dir_once ha hdir hc
    · rw [hup' c hca]
      cases hmem e c hc with
      | inl hnew => exact absurd hnew.2 hca
      | inr hold => exact h.parent hold hcd

/-- The directories below one other than the root, as entries and as directories. -/
lemma mem_below (h : Inv I root t) :
    (c ∈ t.children x ∧ (t.up c).isSome) ↔ t.up c = some x ∧ c ≠ root := by
  constructor
  · rintro ⟨hc, hdir⟩
    exact ⟨h.parent hc hdir, h.ne_root hc⟩
  · rintro ⟨hup, hroot⟩
    have hdir : (t.up c).isSome := by rw [hup]; rfl
    obtain ⟨e, -, hce⟩ := @exists_mem_of_named _ _ I t.children c
      (by rw [h.once hdir hroot]; exact Nat.one_pos)
    have hpar := h.parent hce hdir
    rw [hup] at hpar
    cases hpar
    exact ⟨hce, hdir⟩

/-- The directories other than the root that have `x` above them are those its entries name. -/
lemma card_below (h : Inv I root t) (x : ι) :
    ((I.filter fun c => t.up c = some x).erase root).card = t.subdirs x := by
  have hnodup : ((t.children x).filter fun c => (t.up c).isSome).Nodup := by
    rw [Multiset.nodup_iff_count_le_one]
    intro c
    by_cases hc : c ∈ (t.children x).filter fun c => (t.up c).isSome
    · obtain ⟨hcx, hdir⟩ := Multiset.mem_filter.1 hc
      have hle := @count_le_named _ _ I t.children x c (h.holder hcx).1
      rw [h.once hdir (h.ne_root hcx)] at hle
      exact Nat.le_trans (Multiset.count_le_of_le c (Multiset.filter_le _ _)) hle
    · rw [Multiset.count_eq_zero_of_notMem hc]
      exact Nat.zero_le 1
  rw [subdirs, Multiset.countP_eq_card_filter, ← Multiset.toFinset_card_of_nodup hnodup]
  congr 1
  ext c
  rw [Finset.mem_erase, Finset.mem_filter, Multiset.mem_toFinset, Multiset.mem_filter, h.mem_below]
  constructor
  · rintro ⟨hroot, -, hup⟩
    exact ⟨hup, hroot⟩
  · rintro ⟨hup, hroot⟩
    exact ⟨hroot, h.bound (by rw [hup]; rfl), hup⟩

/-- The root has itself above it. -/
lemma card_up (h : Inv I root t) (x : ι) :
    (I.filter fun c => t.up c = some x).card = t.subdirs x + if x = root then 1 else 0 := by
  rw [← h.card_below x]
  by_cases hx : x = root
  · have hroot : root ∈ I.filter fun c => t.up c = some x :=
      Finset.mem_filter.2 ⟨h.bound (by rw [h.root_up]; rfl), by rw [hx, h.root_up]⟩
    rw [if_pos hx]
    exact (Finset.card_erase_add_one hroot).symm
  · have hroot : root ∉ I.filter fun c => t.up c = some x := by
      intro hmem
      have hup := (Finset.mem_filter.1 hmem).2
      rw [h.root_up] at hup
      exact hx (Option.some.inj hup).symm
    rw [if_neg hx, Nat.add_zero, Finset.erase_eq_of_notMem hroot]

/-- Every link is an entry: `.` of a directory, `..` of those below it, and the entries that name
it. -/
lemma nlink_eq (h : Inv I root t) (x : ι) :
    t.nlink x = (if (t.up x).isSome then 1 else 0) + (I.filter fun c => t.up c = some x).card +
      named I t.children x := by
  rw [h.card_up]
  cases hup : t.up x with
  | none =>
    have hroot : x ≠ root := by
      rintro rfl
      rw [h.root_up] at hup
      cases hup
    have hsub : t.subdirs x = 0 := by
      rw [subdirs, h.children_file hup, Multiset.countP_zero]
    rw [h.file hup, hsub, if_neg hroot, Option.isSome_none, if_neg Bool.false_ne_true]
    omega
  | some p =>
    have hdir : (t.up x).isSome := by rw [hup]; rfl
    rw [h.dir hdir, Option.isSome_some, if_pos rfl]
    by_cases hroot : x = root
    · rw [if_pos hroot, hroot, h.root_named]
      omega
    · rw [if_neg hroot, h.once hdir hroot]
      omega

end Inv

end LinkTree
