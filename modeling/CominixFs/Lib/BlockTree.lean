import Mathlib.Tactic.Common

/-!
# Trees of blocks

Blocks are numbered and hold `w` words; a word is the number of a block or 0 for none. A path from a
block is the list of the indices followed (`node`). `Sub` is the set of blocks of a subtree of a
given height, and `Inj` says that no block of it is reached twice.
-/

namespace BlockTree

variable {word word' : Nat → Nat → Nat} {w n : Nat}

/-- The block at the end of a path, 0 when the path leaves the tree. -/
def node (word : Nat → Nat → Nat) (z : Nat) : List Nat → Nat
  | [] => z
  | k :: ks => if z = 0 then 0 else node word (word z k) ks

/-- A path of at most `n` indices below `w`. -/
def Path (w n : Nat) (p : List Nat) : Prop := p.length ≤ n ∧ ∀ k ∈ p, k < w

/-- The blocks of the subtree of height `n` from `z`. -/
def Sub (word : Nat → Nat → Nat) (w n z x : Nat) : Prop :=
  x ≠ 0 ∧ ∃ p, Path w n p ∧ node word z p = x

/-- No block of the subtree is reached along two paths. -/
def Inj (word : Nat → Nat → Nat) (w n z : Nat) : Prop :=
  ∀ p q, Path w n p → Path w n q → node word z p ≠ 0 → node word z p = node word z q → p = q

@[simp] lemma node_zero (p : List Nat) : node word 0 p = 0 := by
  cases p <;> rfl

lemma node_cons {z : Nat} (hz : z ≠ 0) (k : Nat) (p : List Nat) :
    node word z (k :: p) = node word (word z k) p := by
  rw [node, if_neg hz]

lemma Path.nil : Path w n [] := ⟨Nat.zero_le _, by simp⟩

lemma Path.cons {k : Nat} {p : List Nat} (hk : k < w) (h : Path w n p) : Path w (n + 1) (k :: p) :=
  ⟨Nat.succ_le_succ h.1, by
    intro x hx
    rcases List.mem_cons.1 hx with rfl | hx
    · exact hk
    · exact h.2 x hx⟩

lemma Path.tail {k : Nat} {p : List Nat} (h : Path w (n + 1) (k :: p)) : k < w ∧ Path w n p :=
  ⟨h.2 k List.mem_cons_self, Nat.le_of_succ_le_succ h.1, fun x hx => h.2 x (List.mem_cons_of_mem _ hx)⟩

lemma Sub.root {z : Nat} (hz : z ≠ 0) : Sub word w n z z := ⟨hz, [], .nil, rfl⟩

lemma sub_zero_iff {z x : Nat} : Sub word w 0 z x ↔ x ≠ 0 ∧ x = z := by
  constructor
  · rintro ⟨hx, p, hp, rfl⟩
    obtain rfl : p = [] := List.length_eq_zero_iff.1 (Nat.le_zero.1 hp.1)
    exact ⟨hx, rfl⟩
  · rintro ⟨hx, rfl⟩
    exact .root hx

/-- A subtree is its root and the subtrees of its words. -/
lemma sub_succ_iff {z x : Nat} (hz : z ≠ 0) :
    Sub word w (n + 1) z x ↔ x = z ∨ ∃ k, k < w ∧ Sub word w n (word z k) x := by
  constructor
  · rintro ⟨hx, p, hp, rfl⟩
    cases p with
    | nil => exact .inl rfl
    | cons k p =>
      rw [node_cons hz] at hx ⊢
      exact .inr ⟨k, hp.tail.1, hx, p, hp.tail.2, rfl⟩
  · rintro (rfl | ⟨k, hk, hx, p, hp, rfl⟩)
    · exact .root hz
    · exact ⟨hx, k :: p, hp.cons hk, node_cons hz k p⟩

/-- Paths and subtrees depend only on the words of the blocks on them. -/
lemma node_congr {z : Nat} {p : List Nat} (hp : Path w n p)
    (h : ∀ x, Sub word w n z x → ∀ k < w, word' x k = word x k) :
    node word' z p = node word z p := by
  induction p generalizing z n with
  | nil => rfl
  | cons k p ih =>
    by_cases hz : z = 0
    · simp [hz]
    · cases n with
      | zero => exact absurd hp.1 (by simp)
      | succ n =>
        obtain ⟨hk, hp'⟩ := hp.tail
        rw [node_cons hz, node_cons hz, h z (.root hz) k hk]
        exact ih hp' fun x hx => h x ((sub_succ_iff hz).2 (.inr ⟨k, hk, hx⟩))

lemma sub_congr {z x : Nat} (h : ∀ x, Sub word w n z x → ∀ k < w, word' x k = word x k) :
    Sub word' w n z x ↔ Sub word w n z x := by
  constructor
  · rintro ⟨hx, p, hp, he⟩
    exact ⟨hx, p, hp, by rw [← he, node_congr hp h]⟩
  · rintro ⟨hx, p, hp, he⟩
    exact ⟨hx, p, hp, by rw [← he, node_congr hp h]⟩

lemma Inj.congr {z : Nat} (inj : Inj word w n z)
    (h : ∀ x, Sub word w n z x → ∀ k < w, word' x k = word x k) : Inj word' w n z := by
  intro p q hp hq
  rw [node_congr hp h, node_congr hq h]
  exact inj p q hp hq

lemma Inj.child {z k : Nat} (inj : Inj word w (n + 1) z) (hz : z ≠ 0) (hk : k < w) :
    Inj word w n (word z k) := by
  intro p q hp hq h0 he
  have := inj (k :: p) (k :: q) (hp.cons hk) (hq.cons hk) (by rwa [node_cons hz])
    (by rwa [node_cons hz, node_cons hz])
  exact (List.cons.inj this).2

/-- The subtrees of two words are disjoint. -/
lemma Inj.disjoint {z k k' x : Nat} (inj : Inj word w (n + 1) z) (hz : z ≠ 0) (hk : k < w)
    (hk' : k' < w) (hne : k ≠ k') (hx : Sub word w n (word z k) x) :
    ¬ Sub word w n (word z k') x := by
  rintro ⟨-, q, hq, he'⟩
  obtain ⟨hx0, p, hp, he⟩ := hx
  have := inj (k :: p) (k' :: q) (hp.cons hk) (hq.cons hk') (by rw [node_cons hz, he]; exact hx0)
    (by rw [node_cons hz, node_cons hz, he, he'])
  exact hne (List.cons.inj this).1

/-- The root is in no subtree of its words. -/
lemma Inj.root_not_mem {z k : Nat} (inj : Inj word w (n + 1) z) (hz : z ≠ 0) (hk : k < w) :
    ¬ Sub word w n (word z k) z := by
  rintro ⟨-, p, hp, he⟩
  have := inj (k :: p) [] (hp.cons hk) .nil (by rw [node_cons hz, he]; exact hz)
    (by rw [node_cons hz, he]; rfl)
  cases this

end BlockTree
