import Mathlib.Data.Set.Card

/-!
# Trees numbered by levels

The leaves of a tree and the nodes of each level above are numbered from left to right. The first
nodes of a level are slots of the root, `ds` says how many for each level from the leaves up; the
others hang, `n` each, below the nodes of the next level. `path` leads from a leaf up to its slot.
-/

namespace LevelPath

variable {n s b : Nat} {ds : List Nat}

/-- The indices on the way from node `i` up to its slot; the slots of the level start at `s`. -/
def path (n : Nat) : Nat → List Nat → Nat → List Nat
  | _, [], _ => []
  | s, d :: ds, i => if i < d then [s + i] else (i - d) % n :: path n (s + d) ds ((i - d) / n)

/-- The number of leaves. -/
def cap (n : Nat) : List Nat → Nat
  | [] => 0
  | d :: ds => d + n * cap n ds

/-- The level of a slot. -/
def level : Nat → List Nat → Nat → Nat
  | _, [], _ => 0
  | s, d :: ds, k => if k < s + d then 0 else level (s + d) ds k + 1

/-- The number of nodes above the first `b` nodes of a level. -/
def parents (n d b : Nat) : Nat := (b - d + (n - 1)) / n

/-- The number of nodes at and above the first `b` nodes of a level. -/
def total (n : Nat) : List Nat → Nat → Nat
  | [], _ => 0
  | d :: ds, b => b + total n ds (parents n d b)

/-- The paths of these nodes. -/
def Node (n s : Nat) (ds : List Nat) (b : Nat) (p : List Nat) : Prop :=
  p ≠ [] ∧ ∃ i < b, p <:+ path n s ds i

lemma parent_lt {d c i : Nat} (hi : i < d + n * c) (hd : ¬ i < d) : (i - d) / n < c :=
  Nat.div_lt_of_lt_mul (by omega)

/-- A path ends in a slot, at the level the path is long, and has indices below `n` before. -/
lemma path_spec (hn : 0 < n) : ∀ ds s i, i < cap n ds → ∃ l k, path n s ds i = l ++ [k] ∧
    s ≤ k ∧ k < s + ds.sum ∧ l.length = level s ds k ∧ ∀ j ∈ l, j < n := by
  intro ds
  induction ds with
  | nil => exact fun s i hi => absurd hi (Nat.not_lt_zero i)
  | cons d ds ih =>
    intro s i hi
    rw [List.sum_cons]
    by_cases hd : i < d
    · refine ⟨[], s + i, if_pos hd, by omega, by omega, ?_, by simp⟩
      rw [level, if_pos (by omega)]
      rfl
    · obtain ⟨l, k, hp, h1, h2, hlen, hl⟩ := ih (s + d) ((i - d) / n) (parent_lt hi hd)
      refine ⟨(i - d) % n :: l, k, ?_, by omega, by omega, ?_, ?_⟩
      · rw [path, if_neg hd, hp]
        rfl
      · rw [level, if_neg (by omega), List.length_cons, hlen]
      · intro j hj
        rcases List.mem_cons.1 hj with rfl | hj
        · exact Nat.mod_lt _ hn
        · exact hl j hj

lemma path_ne_nil (hn : 0 < n) {i : Nat} (hi : i < cap n ds) : path n s ds i ≠ [] := by
  obtain ⟨l, k, hp, -⟩ := path_spec hn ds s i hi
  rw [hp]
  exact List.append_ne_nil_of_right_ne_nil l (by simp)

/-- Different nodes have different paths. -/
lemma path_inj (hn : 0 < n) : ∀ ds s i j, i < cap n ds → j < cap n ds →
    path n s ds i = path n s ds j → i = j := by
  intro ds
  induction ds with
  | nil => exact fun s i j hi => absurd hi (Nat.not_lt_zero i)
  | cons d ds ih =>
    -- a slot is not below another one
    have hne : ∀ s i j, i < d → ¬ j < d → j < cap n (d :: ds) →
        path n s (d :: ds) i ≠ path n s (d :: ds) j := by
      intro s i j hi hj hj' h
      rw [path, path, if_pos hi, if_neg hj] at h
      exact path_ne_nil hn (parent_lt hj' hj) (List.cons.inj h).2.symm
    intro s i j hi hj h
    by_cases hdi : i < d
    · by_cases hdj : j < d
      · rw [path, path, if_pos hdi, if_pos hdj] at h
        have := (List.cons.inj h).1
        omega
      · exact absurd h (hne s i j hdi hdj hj)
    · by_cases hdj : j < d
      · exact absurd h.symm (hne s j i hdj hdi hi)
      · rw [path, path, if_neg hdi, if_neg hdj] at h
        obtain ⟨hmod, htail⟩ := List.cons.inj h
        have hdiv := ih _ _ _ (parent_lt hi hdi) (parent_lt hj hdj) htail
        have h1 := Nat.div_add_mod (i - d) n
        have h2 := Nat.div_add_mod (j - d) n
        rw [hmod, hdiv] at h1
        omega

lemma lt_parents (hn : 0 < n) {d j : Nat} : j < parents n d b ↔ d + j * n < b := by
  unfold parents
  rw [Nat.lt_iff_add_one_le, Nat.le_div_iff_mul_le hn, Nat.add_mul, Nat.one_mul]
  omega

lemma parents_le_cap (hn : 0 < n) {d c : Nat} (hb : b ≤ d + n * c) : parents n d b ≤ c := by
  by_contra h
  have hlt := (lt_parents hn).1 (Nat.lt_of_not_le h)
  rw [Nat.mul_comm] at hlt
  omega

/-- The nodes at and above the first `b` nodes are these and those at and above their parents. -/
lemma node_cons (hn : 0 < n) {d : Nat} {p : List Nat} : Node n s (d :: ds) b p ↔
    (p ≠ [] ∧ ∃ i < b, p = path n s (d :: ds) i) ∨ Node n (s + d) ds (parents n d b) p := by
  constructor
  · rintro ⟨hp, i, hi, hsuf⟩
    by_cases hd : i < d
    · rw [path, if_pos hd] at hsuf
      rcases List.suffix_cons_iff.1 hsuf with he | hnil
      · exact .inl ⟨hp, i, hi, by rw [path, if_pos hd, he]⟩
      · exact absurd (List.suffix_nil.1 hnil) hp
    · rw [path, if_neg hd] at hsuf
      rcases List.suffix_cons_iff.1 hsuf with he | hsuf
      · exact .inl ⟨hp, i, hi, by rw [path, if_neg hd, he]⟩
      · refine .inr ⟨hp, (i - d) / n, (lt_parents hn).2 ?_, hsuf⟩
        have := Nat.div_mul_le_self (i - d) n
        omega
  · rintro (⟨hp, i, hi, rfl⟩ | ⟨hp, j, hj, hsuf⟩)
    · exact ⟨hp, i, hi, List.suffix_refl _⟩
    · refine ⟨hp, d + j * n, (lt_parents hn).1 hj, ?_⟩
      rw [path, if_neg (by omega), Nat.add_sub_cancel_left, Nat.mul_div_cancel _ hn]
      exact hsuf.trans (List.suffix_cons _ _)

/-- A path of a level is none of those above it. -/
lemma path_not_node (hn : 0 < n) {d i : Nat} (hi : i < cap n (d :: ds)) (hb : b ≤ cap n ds) :
    ¬ Node n (s + d) ds b (path n s (d :: ds) i) := by
  rintro ⟨-, j, hj, t, ht⟩
  obtain ⟨l, k, hp, -, -, hlen, -⟩ := path_spec hn (d :: ds) s i hi
  obtain ⟨l', k', hp', hk', -, hlen', -⟩ := path_spec hn ds (s + d) j (hj.trans_le hb)
  rw [hp, hp', ← List.append_assoc] at ht
  obtain ⟨rfl, hk⟩ := List.append_inj' ht rfl
  obtain rfl := (List.cons.inj hk).1
  rw [level, if_neg (by omega)] at hlen
  rw [List.length_append] at hlen'
  omega

/-- There are as many nodes at and above the first `b` as `total` says. -/
theorem ncard_node (hn : 0 < n) : ∀ ds s b, b ≤ cap n ds →
    {p | Node n s ds b p}.Finite ∧ {p | Node n s ds b p}.ncard = total n ds b := by
  intro ds
  induction ds with
  | nil =>
    intro s b hb
    have hnone : {p | Node n s [] b p} = ∅ := by
      apply Set.eq_empty_of_forall_notMem
      rintro p ⟨-, i, hi, -⟩
      exact absurd (hi.trans_le hb) (Nat.not_lt_zero i)
    rw [hnone]
    exact ⟨Set.finite_empty, Set.ncard_empty _⟩
  | cons d ds ih =>
    intro s b hb
    obtain ⟨hfin, hcard⟩ := ih (s + d) (parents n d b) (parents_le_cap hn hb)
    have hsplit : {p | Node n s (d :: ds) b p}
        = path n s (d :: ds) '' (Finset.range b) ∪ {p | Node n (s + d) ds (parents n d b) p} := by
      ext p
      rw [Set.mem_ofPred_eq, node_cons hn, Set.mem_union, Set.mem_image]
      refine or_congr_left ⟨?_, ?_⟩
      · rintro ⟨-, i, hi, rfl⟩
        exact ⟨i, Finset.mem_coe.2 (Finset.mem_range.2 hi), rfl⟩
      · rintro ⟨i, hi, rfl⟩
        have hi := Finset.mem_range.1 (Finset.mem_coe.1 hi)
        exact ⟨path_ne_nil hn (hi.trans_le hb), i, hi, rfl⟩
    have hdisj : Disjoint (path n s (d :: ds) '' (Finset.range b))
        {p | Node n (s + d) ds (parents n d b) p} := by
      rw [Set.disjoint_left]
      rintro p ⟨i, hi, rfl⟩ hnode
      have hi := Finset.mem_range.1 (Finset.mem_coe.1 hi)
      exact path_not_node hn (hi.trans_le hb) (parents_le_cap hn hb) hnode
    have hinj : Set.InjOn (path n s (d :: ds)) (Finset.range b : Set Nat) := by
      intro i hi j hj h
      have hi := Finset.mem_range.1 (Finset.mem_coe.1 hi)
      have hj := Finset.mem_range.1 (Finset.mem_coe.1 hj)
      exact path_inj hn _ _ _ _ (hi.trans_le hb) (hj.trans_le hb) h
    have hfirst : (path n s (d :: ds) '' (Finset.range b)).Finite :=
      (Finset.range b).finite_toSet.image _
    rw [hsplit]
    refine ⟨hfirst.union hfin, ?_⟩
    rw [Set.ncard_union_eq hdisj hfirst hfin, hinj.ncard_image, Set.ncard_coe_finset,
      Finset.card_range, hcard]
    rfl

end LevelPath
