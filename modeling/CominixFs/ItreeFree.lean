import CominixFs.Lib.Forest
import CominixFs.Area
import CominixFs.Itree

/-!
# Freeing trees of blocks (`free_branches`)

The zones of an inode are a forest of which the slots are its zone words (`forest`, `TreeOk`).
`free_branches` frees the blocks of a tree, each once, and writes to no other
(`free_branches_spec`); the loops over a part of a block free the trees below its words and clear
them (`free_words_spec`).
-/

namespace CominixFs
open Bytes BlockTree

/-- Slots 7, 8 and 9 hold trees of height 1, 2 and 3. -/
def shape (v : Vol) : Shape := ⟨10, v.dev.bs / 4, fun k => k - 6⟩

/-- The zones of an inode with these zone words. -/
def forest (v : Vol) (z : Nat → Nat) : Forest := ⟨z, v.dev.word⟩

/-- The data and indirect blocks of an inode. -/
def TreeZone (v : Vol) (z : Nat → Nat) (x : Nat) : Prop := (forest v z).Zone (shape v) x

/-- The blocks of an inode are distinct zones in use, and its indirect blocks outlive the buffers. -/
structure TreeOk (v : Vol) (z : Nat → Nat) : Prop where
  inj : (forest v z).Inj (shape v)
  zone : ∀ x, TreeZone v z x → InArea v x ∧ zbit v x = true
  covered : ∀ p n, (shape v).Path p (n + 1) → (forest v z).node p ≠ 0 →
    v.dev.bh.Covered ((forest v z).node p)

@[simp] lemma forest_word (v : Vol) (z : Nat → Nat) : (forest v z).word = v.dev.word := rfl

lemma SameMount.shape {v v' : Vol} (h : SameMount v v') : shape v' = shape v := by
  unfold CominixFs.shape
  rw [h.bs]

lemma Dev.word_set_word (d : Dev) {x : Nat} (hx : x < 2 ^ 32) (bh k b j : Nat) :
    (d.set_word bh k x).word b j = if b = bh ∧ j = k then x else d.word b j := by
  unfold word set_word
  by_cases hb : b = bh
  · subst hb
    rw [store_bh, Buffers.set_mem_self]
    by_cases hj : j = k
    · rw [if_pos ⟨rfl, hj⟩, hj, le_put hx]
    · rw [if_neg fun h => hj h.2, le_put_disjoint (by omega)]
  · rw [if_neg fun h => hb h.1, store_bh, Buffers.set_mem_of_ne _ _ hb]

lemma Dev.word_congr {d d' : Dev} {b : Nat} (h : d'.bh.mem b = d.bh.mem b) (k : Nat) :
    d'.word b k = d.word b k := by
  rw [word, word, h]

/-- A step that gives up zones and writes to no other block. -/
structure Freed (v v' : Vol) (S : Nat → Prop) : Prop extends Drops v v' S where
  sbi_eq : v'.sbi = v.sbi
  out : ∀ b, ¬ S b → v'.dev.bh.mem b = v.dev.bh.mem b ∧ v'.dev.bh.dirty b = v.dev.bh.dirty b

/-- The tree of height `n` below a zone can be freed. -/
structure Freeable (v : Vol) (n z : Nat) : Prop where
  ok : ZmapOk v
  nzones_le : v.sbi.s_nzones ≤ v.dev.nblocks
  inj : Inj v.dev.word (v.dev.bs / 4) n z
  zone : ∀ x, Sub v.dev.word (v.dev.bs / 4) n z x → InArea v x ∧ zbit v x = true

/-- What a step that gives up other zones and leaves the blocks of a tree alone does to it. -/
lemma Freeable.drops {v v' : Vol} {n z : Nat} {S : Nat → Prop} (h : Freeable v n z)
    (d : Drops v v' S) (hS : ∀ x, Sub v.dev.word (v.dev.bs / 4) n z x → ¬ S x)
    (hw : ∀ x, Sub v.dev.word (v.dev.bs / 4) n z x → ∀ k < v.dev.bs / 4,
      v'.dev.word x k = v.dev.word x k) :
    Freeable v' n z ∧ ∀ x, Sub v'.dev.word (v'.dev.bs / 4) n z x ↔
      Sub v.dev.word (v.dev.bs / 4) n z x := by
  have hsub : ∀ x, Sub v'.dev.word (v'.dev.bs / 4) n z x ↔ Sub v.dev.word (v.dev.bs / 4) n z x := by
    intro x
    rw [d.bs]
    exact sub_congr hw
  refine ⟨⟨h.ok.step d.toZmapStep, ?_, ?_, ?_⟩, hsub⟩
  · rw [d.nzones, d.nblocks]
    exact h.nzones_le
  · rw [d.bs]
    exact h.inj.congr hw
  · intro x hx
    obtain ⟨harea, hset⟩ := h.zone x ((hsub x).1 hx)
    exact ⟨d.inArea.2 harea, (d.zbit x harea).2 ⟨hset, hS x ((hsub x).1 hx)⟩⟩

/-- The zones of the trees below `m` words of a block from word `k` on. -/
def Below (v : Vol) (n bh k m x : Nat) : Prop :=
  ∃ j, k ≤ j ∧ j < k + m ∧ Sub v.dev.word (v.dev.bs / 4) n (v.dev.word bh j) x

/-- The trees below `m` words of a block from word `k` on can be freed one after the other. -/
structure Branches (v : Vol) (n bh k m : Nat) : Prop where
  le : k + m ≤ v.dev.bs / 4
  tree : ∀ j, k ≤ j → j < k + m → v.dev.word bh j ≠ 0 → Freeable v n (v.dev.word bh j)
  apart : ∀ i j, k ≤ i → i < k + m → k ≤ j → j < k + m → i ≠ j →
    ∀ x, Sub v.dev.word (v.dev.bs / 4) n (v.dev.word bh i) x →
      ¬ Sub v.dev.word (v.dev.bs / 4) n (v.dev.word bh j) x
  root : ∀ j, k ≤ j → j < k + m → ¬ Sub v.dev.word (v.dev.bs / 4) n (v.dev.word bh j) bh

/-- What the loop over `m` words of a block from word `k` on does. -/
structure Cleared (v v' : Vol) (n bh k m : Nat) : Prop extends Drops v v' (Below v n bh k m) where
  sbi_eq : v'.sbi = v.sbi
  out : ∀ b, ¬ Below v n bh k m b → b ≠ bh →
    v'.dev.bh.mem b = v.dev.bh.mem b ∧ v'.dev.bh.dirty b = v.dev.bh.dirty b
  dirty : v'.dev.bh.dirty bh = v.dev.bh.dirty bh
  word : ∀ j, v'.dev.word bh j = if k ≤ j ∧ j < k + m then 0 else v.dev.word bh j

lemma sub_zero {word : Nat → Nat → Nat} {w n x : Nat} : ¬ Sub word w n 0 x := by
  rintro ⟨hx, p, -, he⟩
  rw [node_zero] at he
  exact hx he.symm

/-- The trees below the words of a tree's root. -/
lemma Freeable.branches {v : Vol} {n z k m : Nat} (h : Freeable v (n + 1) z) (hz : z ≠ 0)
    (hle : k + m ≤ v.dev.bs / 4) : Branches v n z k m := by
  refine ⟨hle, fun j _ hj h0 => ?_, fun i j _ hi _ hj hne x hx => ?_, fun j _ hj => ?_⟩
  · exact ⟨h.ok, h.nzones_le, h.inj.child hz (by omega), fun x hx =>
      h.zone x ((sub_succ_iff hz).2 (.inr ⟨j, by omega, hx⟩))⟩
  · exact h.inj.disjoint hz (by omega) (by omega) hne hx
  · exact h.inj.root_not_mem hz (by omega)

lemma below_one {v : Vol} {n bh k x : Nat} :
    Below v n bh k 1 x ↔ Sub v.dev.word (v.dev.bs / 4) n (v.dev.word bh k) x := by
  constructor
  · rintro ⟨j, h1, h2, hx⟩
    obtain rfl : j = k := by omega
    exact hx
  · exact fun hx => ⟨k, by omega, by omega, hx⟩

lemma below_succ {v : Vol} {n bh k m x : Nat} :
    Below v n bh k (m + 1) x ↔ Below v n bh k 1 x ∨ Below v n bh (k + 1) m x := by
  constructor
  · rintro ⟨j, h1, h2, hx⟩
    by_cases hj : j = k
    · exact .inl ⟨j, h1, by omega, hx⟩
    · exact .inr ⟨j, by omega, by omega, hx⟩
  · rintro (⟨j, h1, h2, hx⟩ | ⟨j, h1, h2, hx⟩)
    · exact ⟨j, by omega, by omega, hx⟩
    · exact ⟨j, by omega, by omega, hx⟩

/-- One word is cleared, and the tree below it freed. -/
lemma free_word_spec {f : Vol → Nat → Vol} {n bh k m : Nat} {v : Vol}
    (hf : ∀ v z, z ≠ 0 → Freeable v n z → Freed v (f v z) (Sub v.dev.word (v.dev.bs / 4) n z))
    (h : Branches v n bh k (m + 1)) (h0 : v.dev.word bh k ≠ 0) :
    Cleared v (f { v with dev := v.dev.set_word bh k 0 } (v.dev.word bh k)) n bh k 1 := by
  have htree := h.tree k (by omega) (by omega) h0
  have hroot := h.root k (by omega) (by omega)
  have hbelow : Below v n bh k 1 = Sub v.dev.word (v.dev.bs / 4) n (v.dev.word bh k) :=
    funext fun x => propext below_one
  have hd : Drops v { v with dev := v.dev.set_word bh k 0 } fun _ => False :=
    .of_eq ⟨rfl, rfl, rfl, rfl, rfl⟩ rfl rfl
  have hword : ∀ x, x ≠ bh → ∀ j, (v.dev.set_word bh k 0).word x j = v.dev.word x j := by
    intro x hx j
    rw [Dev.word_set_word _ (by decide), if_neg fun h => hx h.1]
  obtain ⟨htree', hsub⟩ := htree.drops hd (fun _ _ => id)
    fun x hx j _ => hword x (fun e => hroot (e ▸ hx)) j
  have hfreed := hf _ _ h0 htree'
  have hmem : ∀ b, ¬ Sub v.dev.word (v.dev.bs / 4) n (v.dev.word bh k) b → _ :=
    fun b hb => hfreed.out b fun hx => hb ((hsub b).1 hx)
  refine ⟨?_, hfreed.sbi_eq, fun b hb hne => ?_, (hmem bh hroot).2, fun j => ?_⟩
  · have hall := hd.trans hfreed.toDrops
    refine ⟨hall.toZmapStep, hall.printk, fun z hz => ?_⟩
    rw [hall.zbit z hz, hsub, hbelow]
    tauto
  · obtain ⟨h1, h2⟩ := hmem b (hbelow ▸ hb)
    exact ⟨h1.trans (v.dev.bh.set_mem_of_ne _ hne), h2⟩
  · rw [Dev.word_congr (hmem bh hroot).1, Dev.word_set_word _ (by decide)]
    exact if_congr (by omega) rfl rfl

/-- Freeing the tree below the first word leaves those below the others as they are. -/
lemma Branches.rest {v v' : Vol} {n bh k m : Nat} (h : Branches v n bh k (m + 1))
    (c : Cleared v v' n bh k 1) : Branches v' n bh (k + 1) m ∧
      ∀ x, Below v' n bh (k + 1) m x ↔ Below v n bh (k + 1) m x := by
  have hrest : ∀ j, k + 1 ≤ j → j < k + 1 + m → v'.dev.word bh j = v.dev.word bh j ∧
      (v.dev.word bh j ≠ 0 → Freeable v' n (v.dev.word bh j)) ∧
      ∀ x, Sub v'.dev.word (v'.dev.bs / 4) n (v.dev.word bh j) x ↔
        Sub v.dev.word (v.dev.bs / 4) n (v.dev.word bh j) x := by
    intro j h1 h2
    have hdis : ∀ x, Sub v.dev.word (v.dev.bs / 4) n (v.dev.word bh j) x →
        ¬ Below v n bh k 1 x := by
      intro x hx hb
      exact h.apart j k (by omega) (by omega) (by omega) (by omega) (by omega) x hx (below_one.1 hb)
    have hkeep : ∀ x, Sub v.dev.word (v.dev.bs / 4) n (v.dev.word bh j) x →
        ∀ i < v.dev.bs / 4, v'.dev.word x i = v.dev.word x i := by
      intro x hx i _
      refine Dev.word_congr (c.out x (hdis x hx) ?_).1 i
      exact fun e => h.root j (by omega) (by omega) (e ▸ hx)
    refine ⟨by rw [c.word, if_neg (by omega)], fun hne => ?_, fun x => ?_⟩
    · exact ((h.tree j (by omega) (by omega) hne).drops c.toDrops hdis hkeep).1
    · rw [c.bs]
      exact sub_congr hkeep
  have hle := h.le
  refine ⟨⟨by rw [c.bs]; omega, fun j h1 h2 hne => ?_, fun i j h1 h2 h3 h4 hne x hx => ?_,
    fun j h1 h2 => ?_⟩, fun x => ⟨?_, ?_⟩⟩
  · obtain ⟨he, ht, -⟩ := hrest j h1 h2
    rw [he] at hne ⊢
    exact ht hne
  · obtain ⟨he, -, hs⟩ := hrest i h1 h2
    obtain ⟨he', -, hs'⟩ := hrest j h3 h4
    rw [he, hs] at hx
    rw [he', hs']
    exact h.apart i j (by omega) (by omega) (by omega) (by omega) hne x hx
  · obtain ⟨he, -, hs⟩ := hrest j h1 h2
    rw [he, hs]
    exact h.root j (by omega) (by omega)
  · rintro ⟨j, h1, h2, hx⟩
    obtain ⟨he, -, hs⟩ := hrest j h1 h2
    exact ⟨j, h1, h2, (hs x).1 (he ▸ hx)⟩
  · rintro ⟨j, h1, h2, hx⟩
    obtain ⟨he, -, hs⟩ := hrest j h1 h2
    exact ⟨j, h1, h2, he ▸ (hs x).2 hx⟩

/-- The loop frees the trees below the words and clears the words. -/
lemma free_words_spec {f : Vol → Nat → Vol} {n bh : Nat}
    (hf : ∀ v z, z ≠ 0 → Freeable v n z →
      Freed v (f v z) (Sub v.dev.word (v.dev.bs / 4) n z)) :
    ∀ {m k v}, Branches v n bh k m → Cleared v (free_words f bh m k v) n bh k m := by
  intro m
  induction m with
  | zero =>
    intro k v _
    have hnone : Below v n bh k 0 = fun _ => False := by
      funext x
      exact propext ⟨fun ⟨j, h1, h2, _⟩ => by omega, fun h => h.elim⟩
    refine ⟨?_, rfl, fun _ _ _ => ⟨rfl, rfl⟩, rfl, fun j => ?_⟩
    · rw [hnone]
      exact .of_eq (.refl v) rfl rfl
    · rw [if_neg (by omega)]
      rfl
  | succ m ih =>
    intro k v h
    obtain ⟨v₁, hv₁, c₁⟩ : ∃ v₁, free_words f bh (m + 1) k v = free_words f bh m (k + 1) v₁ ∧
        Cleared v v₁ n bh k 1 := by
      simp only [free_words]
      by_cases h0 : v.dev.word bh k = 0
      · rw [if_pos h0]
        have hnone : Below v n bh k 1 = fun _ => False := by
          funext x
          exact propext ⟨fun hx => sub_zero (h0 ▸ below_one.1 hx), fun h => h.elim⟩
        refine ⟨v, rfl, ?_, rfl, fun _ _ _ => ⟨rfl, rfl⟩, rfl, fun j => ?_⟩
        · rw [hnone]
          exact .of_eq (.refl v) rfl rfl
        · split
          · next hj => rw [show j = k by omega, h0]
          · rfl
      · rw [if_neg h0]
        exact ⟨_, rfl, free_word_spec hf h h0⟩
    obtain ⟨hbr, hbelow⟩ := h.rest c₁
    have c₂ := ih hbr
    rw [hv₁]
    refine ⟨?_, c₂.sbi_eq.trans c₁.sbi_eq, fun b hb hne => ?_, c₂.dirty.trans c₁.dirty, fun j => ?_⟩
    · have hd := c₁.toDrops.trans c₂.toDrops
      refine ⟨hd.toZmapStep, hd.printk, fun z hz => ?_⟩
      rw [hd.zbit z hz, below_succ (m := m), hbelow]
    · rw [below_succ, not_or] at hb
      obtain ⟨h1, h2⟩ := c₂.out b (fun hx => hb.2 ((hbelow b).1 hx)) hne
      obtain ⟨h3, h4⟩ := c₁.out b hb.1 hne
      exact ⟨h1.trans h3, h2.trans h4⟩
    · rw [c₂.word, c₁.word]
      by_cases hj : j = k
      · rw [if_neg (by omega), if_pos (by omega), if_pos (by omega)]
      · rw [if_neg (c := k ≤ j ∧ j < k + 1) (by omega)]
        exact if_congr (by omega) rfl rfl

/-- `free_branches` frees the blocks of a tree and writes to no other. -/
lemma free_branches_spec : ∀ n v z, z ≠ 0 → Freeable v n z →
    Freed v (free_branches n v z) (Sub v.dev.word (v.dev.bs / 4) n z) := by
  intro n
  induction n with
  | zero =>
    intro v z hz h
    obtain ⟨harea, hset⟩ := h.zone z (.root hz)
    obtain ⟨hdev, hsbi, hd⟩ := cominix_free_block_spec h.ok harea hset
    refine ⟨⟨hd.toZmapStep, hd.printk, fun x hx => ?_⟩, hsbi, fun b _ => ?_⟩
    · rw [free_branches, hd.zbit x hx, sub_zero_iff]
      have := h.ok.first_pos
      have hx0 : x ≠ 0 := by have := hx.1; omega
      tauto
    · rw [free_branches, hdev]
      exact ⟨rfl, rfl⟩
  | succ n ih =>
    intro v z hz h
    obtain ⟨harea, hset⟩ := h.zone z (.root hz)
    have hlt : z < v.dev.nblocks := lt_of_lt_of_le harea.2 h.nzones_le
    simp only [free_branches]
    rw [if_neg (by omega)]
    have hbr := h.branches hz (k := 0) (m := v.dev.bs / 4) (by omega)
    have c := free_words_spec ih hbr
    generalize free_words (free_branches n) z (v.dev.bs / 4) 0 v = v1 at *
    have hroot : ¬ Below v n z 0 (v.dev.bs / 4) z := by
      rintro ⟨j, h1, h2, hx⟩
      exact hbr.root j h1 h2 hx
    have hset1 : zbit v1 z = true := (c.zbit z harea).2 ⟨hset, hroot⟩
    -- the block itself is forgotten and freed
    have hforget : Drops v1 { v1 with dev := v1.dev.bforget z } fun _ => False :=
      .of_eq ⟨rfl, rfl, rfl, rfl, rfl⟩ rfl rfl
    obtain ⟨hdev, hsbi, hd⟩ := cominix_free_block_spec (v := { v1 with dev := v1.dev.bforget z })
      ((h.ok.step c.toZmapStep).step hforget.toZmapStep) (c.inArea.2 harea) hset1
    have hall := (c.toDrops.trans hforget).trans hd
    refine ⟨⟨hall.toZmapStep, hall.printk, fun x hx => ?_⟩, hsbi.trans c.sbi_eq, fun b hb => ?_⟩
    · rw [hall.zbit x hx, sub_succ_iff hz]
      have : Below v n z 0 (v.dev.bs / 4) x ↔
          ∃ k < v.dev.bs / 4, Sub v.dev.word (v.dev.bs / 4) n (v.dev.word z k) x := by
        constructor
        · rintro ⟨j, -, h2, hx⟩
          exact ⟨j, by omega, hx⟩
        · rintro ⟨j, h2, hx⟩
          exact ⟨j, by omega, by omega, hx⟩
      rw [this, or_false, or_comm]
    · rw [sub_succ_iff hz, not_or] at hb
      obtain ⟨h1, h2⟩ := c.out b (fun ⟨j, _, hj, hx⟩ => hb.2 ⟨j, by omega, hx⟩) hb.1
      rw [hdev]
      exact ⟨h1, (Buffers.forget_dirty_of_ne _ hb.1).trans h2⟩

end CominixFs
