import Mathlib.Data.List.Basic
import CominixFs.Lib.BlockTree

/-!
# Forests of blocks

A forest has numbered slots, each holding the root of a tree of blocks or 0. A path is written last
index first, so that the path of a child is the index in front of the path of its parent. `Cut` says
that the blocks at some paths and all below them were cut off, `Grown` that a branch of new blocks
was hung on a vacant place.
-/

/-- The slots and the words of the blocks. -/
structure Forest where
  slot : Nat → Nat
  word : Nat → Nat → Nat

/-- A forest has `r` slots and blocks of `w` words; the tree below a slot has the height given. -/
structure Shape where
  r : Nat
  w : Nat
  height : Nat → Nat

/-- A path, with the height of the tree below its end. -/
inductive Shape.Path (s : Shape) : List Nat → Nat → Prop where
  | slot {k} :
    k < s.r →
    Path s [k] (s.height k)
  | word {j p n} :
    Path s p (n + 1) →
    j < s.w →
    Path s (j :: p) n

namespace Shape.Path

variable {s : Shape} {p ks : List Nat} {n m : Nat}

lemma ne_nil (h : s.Path p n) : p ≠ [] := by
  cases h <;> simp

lemma unique (h : s.Path p n) (h' : s.Path p m) : n = m := by
  induction h generalizing m with
  | slot _ =>
    cases h' with
    | slot _ => rfl
    | word h _ => exact absurd rfl h.ne_nil
  | word h _ ih =>
    cases h' with
    | slot _ => exact absurd rfl h.ne_nil
    | word h' _ => exact Nat.succ.inj (ih h')

/-- The path of a slot. -/
lemma single {k : Nat} (h : s.Path [k] n) : k < s.r ∧ n = s.height k := by
  generalize hp : [k] = p at h
  cases h with
  | slot hk =>
    cases hp
    exact ⟨hk, rfl⟩
  | word h _ =>
    cases hp
    exact absurd rfl h.ne_nil

/-- The path of the parent. -/
lemma tail {j : Nat} (h : s.Path (j :: p) n) (hp : p ≠ []) : s.Path p (n + 1) ∧ j < s.w := by
  cases h with
  | slot _ => exact absurd rfl hp
  | word h hj => exact ⟨h, hj⟩

/-- The path of a block further up. -/
lemma of_append {l : List Nat} (h : s.Path (l ++ p) n) (hp : p ≠ []) : ∃ m, s.Path p m := by
  induction l generalizing n with
  | nil => exact ⟨n, h⟩
  | cons j l ih => exact ih (h.tail (by simp [hp])).1

/-- The paths below a path are those of the blocks of its tree. -/
lemma append_iff (h : s.Path p n) :
    (∃ m, s.Path (ks.reverse ++ p) m) ↔ BlockTree.Path s.w n ks := by
  induction ks generalizing p n with
  | nil => exact ⟨fun _ => .nil, fun _ => ⟨n, h⟩⟩
  | cons k ks ih =>
    rw [List.reverse_cons, List.append_assoc, List.singleton_append]
    constructor
    · rintro ⟨m, hm⟩
      obtain ⟨i, hi⟩ := hm.of_append (by simp)
      obtain ⟨hi', hlt⟩ := hi.tail h.ne_nil
      obtain rfl := h.unique hi'
      exact .cons hlt ((ih hi).1 ⟨m, hm⟩)
    · intro hpath
      cases n with
      | zero => exact absurd hpath.1 (by simp)
      | succ n => exact (ih (.word h hpath.tail.1)).2 hpath.tail.2

end Shape.Path

namespace Forest

/-- The block at the end of a path, 0 when the path leaves the forest. -/
def node (t : Forest) : List Nat → Nat
  | [] => 0
  | [k] => t.slot k
  | j :: k :: p => if t.node (k :: p) = 0 then 0 else t.word (t.node (k :: p)) j

/-- The blocks of a forest. -/
def Zone (s : Shape) (t : Forest) (x : Nat) : Prop := x ≠ 0 ∧ ∃ p n, s.Path p n ∧ t.node p = x

/-- No block is reached along two paths. -/
def Inj (s : Shape) (t : Forest) : Prop :=
  ∀ p q m n, s.Path p m → s.Path q n → t.node p ≠ 0 → t.node p = t.node q → p = q

/-- The paths in `K`, closed under going down, were cut off. -/
structure Cut (s : Shape) (t t' : Forest) (K : List Nat → Prop) : Prop where
  down : ∀ p j, K p → K (j :: p)
  slot : ∀ k < s.r, (K [k] → t'.slot k = 0) ∧ (¬ K [k] → t'.slot k = t.slot k)
  word : ∀ p n j, s.Path p (n + 1) → j < s.w → t.node p ≠ 0 → ¬ K p →
    (K (j :: p) → t'.word (t.node p) j = 0) ∧
      (¬ K (j :: p) → t'.word (t.node p) j = t.word (t.node p) j)

/-- A branch of new blocks was hung on the vacant place `q`, down to the path `p`. -/
structure Grown (s : Shape) (t t' : Forest) (p q news : List Nat) : Prop where
  vacant : t.node q = 0
  below : q <:+ p
  length : news.length + q.length = p.length + 1
  others : ∀ r n, s.Path r n → ¬ q <:+ r → t'.node r = t.node r
  branch : ∀ r n, s.Path r n → q <:+ r → r <:+ p → news[r.length - q.length]? = some (t'.node r)
  empty : ∀ r n, s.Path r n → q <:+ r → ¬ r <:+ p → t'.node r = 0

variable {s : Shape} {t t' t'' : Forest} {K K' : List Nat → Prop} {p q ks news : List Nat} {n m : Nat}

lemma node_cons (hp : p ≠ []) (j : Nat) :
    t.node (j :: p) = if t.node p = 0 then 0 else t.word (t.node p) j := by
  cases p with
  | nil => exact absurd rfl hp
  | cons k p => rfl

lemma node_cons_of_ne (hp : p ≠ []) (h0 : t.node p ≠ 0) (j : Nat) :
    t.node (j :: p) = t.word (t.node p) j := by
  rw [node_cons hp, if_neg h0]

lemma node_cons_of_eq (hp : p ≠ []) (h0 : t.node p = 0) (j : Nat) : t.node (j :: p) = 0 := by
  rw [node_cons hp, if_pos h0]

/-- The nodes below a path are those of its tree. -/
lemma node_append (hp : p ≠ []) :
    t.node (ks.reverse ++ p) = BlockTree.node t.word (t.node p) ks := by
  induction ks generalizing p with
  | nil => rfl
  | cons k ks ih =>
    rw [List.reverse_cons, List.append_assoc, List.singleton_append, ih (by simp), node_cons hp]
    by_cases h0 : t.node p = 0
    · rw [if_pos h0, h0, BlockTree.node_zero, BlockTree.node_zero]
    · rw [if_neg h0, BlockTree.node_cons h0]

/-- Above a block there are blocks. -/
lemma node_ne_of_append (hp : p ≠ []) (h : t.node (ks.reverse ++ p) ≠ 0) : t.node p ≠ 0 := by
  intro h0
  rw [node_append hp, h0, BlockTree.node_zero] at h
  exact h rfl

/-- The blocks of the tree below a path. -/
lemma sub_iff {x : Nat} (hp : s.Path p n) : BlockTree.Sub t.word s.w n (t.node p) x ↔
    x ≠ 0 ∧ ∃ q m, s.Path q m ∧ p <:+ q ∧ t.node q = x := by
  constructor
  · rintro ⟨hx, ks, hks, he⟩
    obtain ⟨m, hm⟩ := hp.append_iff.2 hks
    exact ⟨hx, _, m, hm, List.suffix_append _ _, by rw [node_append hp.ne_nil, he]⟩
  · rintro ⟨hx, q, m, hq, ⟨l, rfl⟩, he⟩
    rw [← List.reverse_reverse l] at hq he
    rw [node_append hp.ne_nil] at he
    exact ⟨hx, _, hp.append_iff.1 ⟨m, hq⟩, he⟩

lemma Inj.tree (inj : Inj s t) (hp : s.Path p n) : BlockTree.Inj t.word s.w n (t.node p) := by
  intro ks ks' hks hks' h0 he
  obtain ⟨m, hm⟩ := hp.append_iff.2 hks
  obtain ⟨m', hm'⟩ := hp.append_iff.2 hks'
  rw [← node_append hp.ne_nil] at h0 he
  rw [← node_append hp.ne_nil] at he
  have := inj _ _ _ _ hm hm' h0 he
  exact List.reverse_inj.1 (List.append_cancel_right this)

namespace Cut

lemma node (c : Cut s t t' K) : ∀ {p n}, s.Path p n →
    (K p → t'.node p = 0) ∧ (¬ K p → t'.node p = t.node p) := by
  intro p n h
  induction h with
  | slot hk => exact c.slot _ hk
  | @word j p n hp hj ih =>
    have hne := hp.ne_nil
    by_cases hK : K p
    · have h0 : t'.node (j :: p) = 0 := node_cons_of_eq hne (ih.1 hK) j
      exact ⟨fun _ => h0, fun hn => absurd (c.down p j hK) hn⟩
    · have heq := ih.2 hK
      by_cases h0 : t.node p = 0
      · rw [node_cons_of_eq hne (heq.trans h0), node_cons_of_eq hne h0]
        exact ⟨fun _ => rfl, fun _ => rfl⟩
      · obtain ⟨h1, h2⟩ := c.word p n j hp hj h0 hK
        rw [node_cons_of_ne hne (heq ▸ h0), node_cons_of_ne hne h0, heq]
        exact ⟨h1, h2⟩

lemma down_append (c : Cut s t t' K) (h : K p) (l : List Nat) : K (l ++ p) := by
  induction l with
  | nil => exact h
  | cons j l ih => exact c.down _ j ih

/-- Nothing was cut. -/
lemma refl (s : Shape) (t : Forest) : Cut s t t fun _ => False :=
  ⟨fun _ _ h => h, fun _ _ => ⟨fun h => h.elim, fun _ => rfl⟩,
    fun _ _ _ _ _ _ _ => ⟨fun h => h.elim, fun _ => rfl⟩⟩

lemma trans (c : Cut s t t' K) (c' : Cut s t' t'' K') : Cut s t t'' fun p => K p ∨ K' p := by
  refine ⟨fun p j h => h.imp (c.down p j) (c'.down p j), fun k hk => ?_, fun p n j hp hj h0 hK => ?_⟩
  · obtain ⟨h1, h2⟩ := c.slot k hk
    obtain ⟨h3, h4⟩ := c'.slot k hk
    by_cases hk' : K' [k]
    · exact ⟨fun _ => h3 hk', fun hn => absurd (.inr hk') hn⟩
    · rw [h4 hk']
      exact ⟨fun h => h1 (h.resolve_right hk'), fun hn => h2 fun h => hn (.inl h)⟩
  · push Not at hK
    have heq := (c.node hp).2 hK.1
    obtain ⟨h1, h2⟩ := c.word p n j hp hj h0 hK.1
    obtain ⟨h3, h4⟩ := c'.word p n j hp hj (heq ▸ h0) hK.2
    rw [heq] at h3 h4
    by_cases hk' : K' (j :: p)
    · exact ⟨fun _ => h3 hk', fun hn => absurd (.inr hk') hn⟩
    · rw [h4 hk']
      exact ⟨fun h => h1 (h.resolve_right hk'), fun hn => h2 fun h => hn (.inl h)⟩

/-- The blocks left are those on the paths not cut. -/
lemma zone_iff (c : Cut s t t' K) {x : Nat} : Zone s t' x ↔
    x ≠ 0 ∧ ∃ p n, s.Path p n ∧ ¬ K p ∧ t.node p = x := by
  constructor
  · rintro ⟨hx, p, n, hp, he⟩
    by_cases hK : K p
    · exact absurd (he.symm.trans ((c.node hp).1 hK)) hx
    · exact ⟨hx, p, n, hp, hK, by rw [← he, (c.node hp).2 hK]⟩
  · rintro ⟨hx, p, n, hp, hK, he⟩
    exact ⟨hx, p, n, hp, by rw [(c.node hp).2 hK, he]⟩

lemma inj (c : Cut s t t' K) (inj : Inj s t) : Inj s t' := by
  intro p q m n hp hq h0 he
  have hp' : ¬ K p := fun h => h0 ((c.node hp).1 h)
  have hq' : ¬ K q := fun h => h0 (he.trans ((c.node hq).1 h))
  rw [(c.node hp).2 hp'] at h0 he
  rw [(c.node hq).2 hq'] at he
  exact inj p q m n hp hq h0 he

end Cut

/-- A path branches off to the left of another. -/
def Before (p q : List Nat) : Prop := ∃ i j c, i < j ∧ (i :: c) <:+ p ∧ (j :: c) <:+ q

/-- The paths at or below a path, and those to the right of it. -/
def From (p q : List Nat) : Prop := p <:+ q ∨ Before p q

lemma suffix_cons_inj {i j : Nat} {c d : List Nat} (h : (i :: c) <:+ p) (h' : (j :: d) <:+ p)
    (he : c.length = d.length) : i = j ∧ c = d := by
  have := (List.suffix_of_suffix_length_le h h' (by simp [he])).eq_of_length (by simp [he])
  exact ⟨(List.cons.inj this).1, (List.cons.inj this).2⟩

lemma Before.mono {p' q' : List Nat} (h : Before p q) (hp : p <:+ p') (hq : q <:+ q') :
    Before p' q' := by
  obtain ⟨i, j, c, hij, h1, h2⟩ := h
  exact ⟨i, j, c, hij, h1.trans hp, h2.trans hq⟩

/-- Two paths branch off once. -/
lemma Before.asymm (h : Before p q) : ¬ Before q p := by
  rintro ⟨i', j', c', hij', h1', h2'⟩
  obtain ⟨i, j, c, hij, h1, h2⟩ := h
  rcases Nat.lt_trichotomy c.length c'.length with hlt | heq | hlt
  · have hi := List.suffix_of_suffix_length_le h1 ((List.suffix_cons j' c').trans h2') (by simp; omega)
    have hj := List.suffix_of_suffix_length_le h2 ((List.suffix_cons i' c').trans h1') (by simp; omega)
    have := (suffix_cons_inj hi hj rfl).1
    omega
  · have h3 := suffix_cons_inj h1 h2' heq
    have h4 := suffix_cons_inj h2 h1' heq
    omega
  · have hi := List.suffix_of_suffix_length_le h2' ((List.suffix_cons i c).trans h1) (by simp; omega)
    have hj := List.suffix_of_suffix_length_le h1' ((List.suffix_cons j c).trans h2) (by simp; omega)
    have := (suffix_cons_inj hi hj rfl).1
    omega

lemma From.down (h : From p q) (j : Nat) : From p (j :: q) := by
  rcases h with h | h
  · exact .inl (h.trans (List.suffix_cons j q))
  · exact .inr (h.mono (List.suffix_refl _) (List.suffix_cons j q))

/-- What is to the right of a path is at or to the right of every path above it. -/
lemma Before.from_above {r : List Nat} (h : Before p q) (hr : r <:+ p) : From r q := by
  obtain ⟨i, j, c, hij, h1, h2⟩ := h
  by_cases hlen : r.length ≤ c.length
  · have hrc := List.suffix_of_suffix_length_le hr ((List.suffix_cons i c).trans h1) hlen
    exact .inl (hrc.trans ((List.suffix_cons j c).trans h2))
  · exact .inr ⟨i, j, c, hij, List.suffix_of_suffix_length_le h1 hr (by simp; omega), h2⟩

namespace Grown

/-- The new blocks are those at the paths from the vacant place down. -/
lemma path_of_mem (g : Grown s t t' p q news) (hp : s.Path p n) (hq : q ≠ []) {x : Nat}
    (hx : x ∈ news) : ∃ r m, s.Path r m ∧ q <:+ r ∧ r <:+ p ∧ t'.node r = x := by
  obtain ⟨i, hi⟩ := List.getElem?_of_mem hx
  obtain ⟨hlt, -⟩ := List.getElem?_eq_some_iff.1 hi
  have hlen := g.length
  have hrp : p.drop (p.length - (q.length + i)) <:+ p := List.drop_suffix _ _
  have hrl : (p.drop (p.length - (q.length + i))).length = q.length + i := by
    rw [List.length_drop]
    omega
  have hqr : q <:+ p.drop (p.length - (q.length + i)) :=
    List.suffix_of_suffix_length_le g.below hrp (by omega)
  have hne : p.drop (p.length - (q.length + i)) ≠ [] := by
    have := List.length_pos_iff.2 hq
    rw [← List.length_pos_iff, hrl]
    omega
  obtain ⟨m, hm⟩ : ∃ m, s.Path (p.drop (p.length - (q.length + i))) m :=
    Shape.Path.of_append (l := p.take _) (by rwa [List.take_append_drop]) hne
  have hb := g.branch _ m hm hqr hrp
  rw [hrl, Nat.add_sub_cancel_left, hi, Option.some.injEq] at hb
  exact ⟨_, m, hm, hqr, hrp, hb.symm⟩

/-- On the way to the new branch nothing is vacant before its place. -/
lemma vacant_iff (g : Grown s t t' p q news) (hp : s.Path p n) (hq : q ≠ []) (h0 : 0 ∉ news)
    {r : List Nat} (hr : r ≠ []) (hrp : r <:+ p) : t.node r = 0 ↔ q <:+ r := by
  constructor
  · intro hvac
    by_contra hqr
    have hrq : r <:+ q := by
      refine List.suffix_of_suffix_length_le hrp g.below ?_
      by_contra hlt
      exact hqr (List.suffix_of_suffix_length_le g.below hrp (by omega))
    obtain ⟨l, hl⟩ := hrp
    obtain ⟨m, hm⟩ := Shape.Path.of_append (hl ▸ hp : s.Path (l ++ r) n) hr
    obtain ⟨l', hl'⟩ := g.below
    obtain ⟨m', hm'⟩ := Shape.Path.of_append (hl' ▸ hp : s.Path (l' ++ q) n) hq
    have hnew := List.mem_of_getElem? (g.branch q m' hm' (List.suffix_refl _) g.below)
    have hne : t'.node q ≠ 0 := fun e => h0 (e ▸ hnew)
    obtain ⟨l'', rfl⟩ := hrq
    rw [← List.reverse_reverse l''] at hne
    exact node_ne_of_append hr hne ((g.others r m hm hqr).trans hvac)
  · rintro ⟨l, rfl⟩
    by_contra hne
    rw [← List.reverse_reverse l] at hne
    exact node_ne_of_append hq hne g.vacant

/-- The new blocks are those that were missing on the path. -/
lemma mem_iff (g : Grown s t t' p q news) (hp : s.Path p n) (hq : q ≠ []) (h0 : 0 ∉ news) {x : Nat} :
    x ∈ news ↔ ∃ r, r ≠ [] ∧ r <:+ p ∧ t.node r = 0 ∧ t'.node r = x := by
  constructor
  · intro hx
    obtain ⟨r, m, hm, hqr, hrp, he⟩ := g.path_of_mem hp hq hx
    exact ⟨r, hm.ne_nil, hrp, (g.vacant_iff hp hq h0 hm.ne_nil hrp).2 hqr, he⟩
  · rintro ⟨r, hr, hrp, hvac, rfl⟩
    have hqr := (g.vacant_iff hp hq h0 hr hrp).1 hvac
    obtain ⟨l, hl⟩ := hrp
    obtain ⟨m, hm⟩ := Shape.Path.of_append (hl ▸ hp : s.Path (l ++ r) n) hr
    exact List.mem_of_getElem? (g.branch r m hm hqr ⟨l, hl⟩)

/-- The blocks of the forest are the old ones and the new ones. -/
lemma zone_iff (g : Grown s t t' p q news) (hp : s.Path p n) (hq : q ≠ []) (h0 : 0 ∉ news) {x : Nat} :
    Zone s t' x ↔ Zone s t x ∨ x ∈ news := by
  constructor
  · rintro ⟨hx, r, m, hr, he⟩
    by_cases hqr : q <:+ r
    · by_cases hrp : r <:+ p
      · exact .inr (List.mem_of_getElem? (he ▸ g.branch r m hr hqr hrp))
      · exact absurd (he.symm.trans (g.empty r m hr hqr hrp)) hx
    · exact .inl ⟨hx, r, m, hr, by rw [← he, g.others r m hr hqr]⟩
  · rintro (⟨hx, r, m, hr, he⟩ | hx)
    · by_cases hqr : q <:+ r
      · obtain ⟨l, rfl⟩ := hqr
        rw [← List.reverse_reverse l] at he
        exact absurd g.vacant (node_ne_of_append hq (he.symm ▸ hx))
      · exact ⟨hx, r, m, hr, by rw [g.others r m hr hqr, he]⟩
    · obtain ⟨r, m, hm, -, -, he⟩ := g.path_of_mem hp hq hx
      exact ⟨fun e => h0 (e ▸ hx), r, m, hm, he⟩

lemma inj (g : Grown s t t' p q news) (inj : Inj s t) (nd : news.Nodup)
    (hnew : ∀ x ∈ news, ¬ Zone s t x) : Inj s t' := by
  have hmem : ∀ r n, s.Path r n → t'.node r ≠ 0 →
      ¬ q <:+ r ∧ Zone s t (t'.node r) ∨ q <:+ r ∧ r <:+ p := by
    intro r n hr h0
    by_cases hqr : q <:+ r
    · by_cases hrp : r <:+ p
      · exact .inr ⟨hqr, hrp⟩
      · exact absurd (g.empty r n hr hqr hrp) h0
    · exact .inl ⟨hqr, h0, r, n, hr, (g.others r n hr hqr).symm⟩
  intro r r' m n hr hr' h0 he
  rcases hmem r m hr h0 with ⟨hq1, hz⟩ | ⟨hq1, hp1⟩
  · rcases hmem r' n hr' (he ▸ h0) with ⟨hq2, -⟩ | ⟨hq2, hp2⟩
    · rw [g.others r m hr hq1] at h0 he
      rw [g.others r' n hr' hq2] at he
      exact inj r r' m n hr hr' h0 he
    · exact absurd (he ▸ hz) (hnew _ (List.mem_of_getElem? (g.branch r' n hr' hq2 hp2)))
  · rcases hmem r' n hr' (he ▸ h0) with ⟨hq2, hz⟩ | ⟨hq2, hp2⟩
    · exact absurd (he ▸ hz) (hnew _ (List.mem_of_getElem? (g.branch r m hr hq1 hp1)))
    · have h1 := g.branch r m hr hq1 hp1
      have h2 := g.branch r' n hr' hq2 hp2
      rw [he] at h1
      obtain ⟨hlt, -⟩ := List.getElem?_eq_some_iff.1 h1
      have hidx := (List.getElem?_inj hlt nd).1 (h1.trans h2.symm)
      have hl1 := hq1.length_le
      have hl2 := hq2.length_le
      exact (List.suffix_of_suffix_length_le hp1 hp2 (by omega)).eq_of_length (by omega)

end Grown

end Forest
