import CominixFs.ItreeAlloc

/-!
# The blocks of a file

The logical blocks of a file in order are the leaves of its forest from left to right
(`block_path_before`). In terms of blocks: `get_block` maps a block and no other (`get_block_spec`),
`truncate` unmaps the blocks past the end and no other (`truncate_spec`). Both are steps of the one
inode that owns the zones (`TreeStep`).
-/

namespace CominixFs
open Bytes Forest

variable {v v' : Vol} {inode : Inode} {z z' : Nat → Nat} {getblk : Nat → Bool}

/-- The path of a block, last offset first. -/
def block_path (v : Vol) (block : Nat) : List Nat := (block_to_path v block).reverse

/-- The zone of a block, 0 when it is not mapped. -/
def zone_of (v : Vol) (z : Nat → Nat) (block : Nat) : Nat := (forest v z).node (block_path v block)

/-- A block below the largest size. -/
def Within (v : Vol) (block : Nat) : Prop := block * v.dev.bs < v.sbi.s_maxbytes

/-- The geometry block paths depend on. -/
structure SizeOk (v : Vol) : Prop where
  bits : 10 ≤ v.dev.s_blocksize_bits ∧ v.dev.s_blocksize_bits ≤ 12
  pos : 0 < v.sbi.s_maxbytes
  maxbytes : v.sbi.s_maxbytes < 2 ^ 32

lemma INDIRCOUNT_eq (h : 10 ≤ v.dev.s_blocksize_bits) : INDIRCOUNT v = v.dev.bs / 4 := by
  have : v.dev.bs = INDIRCOUNT v * 4 := by
    rw [Dev.bs, INDIRCOUNT, show (4 : Nat) = 2 ^ 2 by rfl, ← Nat.pow_add,
      Nat.sub_add_cancel (by omega)]
  omega

/-- The path of a block below the largest size. -/
lemma block_path_spec (size : SizeOk v) {block : Nat} (h : Within v block) :
    (shape v).Path (block_path v block) 0 := by
  have hN := INDIRCOUNT_eq size.bits.1
  obtain ⟨h1024, h4096, -⟩ := Dev.bs_bounds size.bits
  have hmax := size.maxbytes
  unfold Within at h
  have hlt : ¬ v.sbi.s_maxbytes ≤ block * v.dev.bs % 2 ^ 64 := by
    rw [Nat.mod_eq_of_lt (by omega)]
    omega
  unfold block_path block_to_path
  rw [if_neg hlt]
  have hw : (shape v).w = INDIRCOUNT v := hN.symm
  have hn256 : 256 ≤ INDIRCOUNT v := by omega
  generalize INDIRCOUNT v = n at *
  have hdigit : ∀ x, x % n < (shape v).w := fun x => hw ▸ Nat.mod_lt _ (by omega)
  by_cases h1 : block < 7
  · rw [if_pos h1]
    have := Shape.Path.slot (s := shape v) (k := block) (show block < 10 by omega)
    rwa [show (shape v).height block = 0 by show block - 6 = 0; omega] at this
  rw [if_neg h1]
  by_cases h2 : block - 7 < n
  · rw [if_pos h2]
    exact .word (.slot (s := shape v) (k := 7) (show 7 < 10 by decide)) (h2.trans_eq hw.symm)
  rw [if_neg h2]
  by_cases h3 : block - 7 - n < n * n
  · rw [if_pos h3]
    exact .word (.word (.slot (s := shape v) (k := 8) (show 8 < 10 by decide))
      ((Nat.div_lt_of_lt_mul h3).trans_eq hw.symm)) (hdigit _)
  rw [if_neg h3]
  generalize hx : block - 7 - n - n * n = x
  have hxb : x * 1024 < 2 ^ 32 := by
    have : x * 1024 ≤ block * v.dev.bs := Nat.mul_le_mul (by omega) h1024
    omega
  have hdiv : x / n / n < n := by
    rw [Nat.div_div_eq_div_mul, Nat.div_lt_iff_lt_mul (by positivity)]
    have : 256 * (256 * 256) ≤ n * (n * n) :=
      Nat.mul_le_mul hn256 (Nat.mul_le_mul hn256 hn256)
    omega
  refine .word (.word (.word (.slot (s := shape v) (k := 9) (show 9 < 10 by decide)) ?_)
    (hdigit _)) (hdigit _)
  exact (lt_of_le_of_lt (Nat.mod_le _ _) hdiv).trans_eq hw.symm

/-- Past the largest size there is no path. -/
lemma block_to_path_nil {block : Nat} (hblock : block * v.dev.bs < 2 ^ 64) (h : ¬ Within v block) :
    block_to_path v block = [] := by
  unfold Within at h
  unfold block_to_path
  rw [Nat.mod_eq_of_lt hblock, if_pos (by omega)]

/-- Without a path `get_block` fails. -/
lemma get_block_nil {create : Bool} {block : Nat} (h : block_to_path v block = []) :
    get_block getblk v inode block create = some (v, inode, .failed Errno.EIO) := by
  unfold get_block
  rw [h]

lemma digits_lt {n x y : Nat} (h : x < y) : x / n < y / n ∨ x / n = y / n ∧ x % n < y % n := by
  rcases Nat.lt_or_eq_of_le (Nat.div_le_div_right (c := n) (Nat.le_of_lt h)) with hlt | heq
  · exact .inl hlt
  · refine .inr ⟨heq, ?_⟩
    have h1 := Nat.div_add_mod x n
    have h2 := Nat.div_add_mod y n
    rw [heq] at h1
    omega

/-- Two paths that differ first at these indices. -/
lemma before_of {i j : Nat} {c l m : List Nat} (h : i < j) :
    Before (l ++ i :: c) (m ++ j :: c) :=
  ⟨i, j, c, h, List.suffix_append _ _, List.suffix_append _ _⟩

/-- Blocks in order have paths in order. -/
lemma block_path_before (size : SizeOk v) {block block' : Nat} (h : block < block')
    (hin : Within v block') : Before (block_path v block) (block_path v block') := by
  obtain ⟨h1024, h4096, -⟩ := Dev.bs_bounds size.bits
  have hmax := size.maxbytes
  have hN := INDIRCOUNT_eq size.bits.1
  unfold Within at hin
  have hle : block * v.dev.bs ≤ block' * v.dev.bs := Nat.mul_le_mul_right _ (Nat.le_of_lt h)
  have hlt : ∀ b, b * v.dev.bs ≤ block' * v.dev.bs →
      ¬ v.sbi.s_maxbytes ≤ b * v.dev.bs % 2 ^ 64 := by
    intro b hb
    rw [Nat.mod_eq_of_lt (by omega)]
    omega
  unfold block_path block_to_path
  rw [if_neg (hlt _ hle), if_neg (hlt _ (Nat.le_refl _))]
  have hn256 : 256 ≤ INDIRCOUNT v := by omega
  generalize INDIRCOUNT v = n at *
  have hmod : ∀ b, b * v.dev.bs ≤ block' * v.dev.bs →
      (b - 7 - n - n * n) / n / n % 2 ^ 32 = (b - 7 - n - n * n) / n / n := by
    intro b hb
    apply Nat.mod_eq_of_lt
    have h1 : b * 1024 ≤ b * v.dev.bs := Nat.mul_le_mul_left _ h1024
    have h2 := Nat.div_le_self ((b - 7 - n - n * n) / n) n
    have h3 := Nat.div_le_self (b - 7 - n - n * n) n
    omega
  dsimp only
  rw [hmod block hle, hmod block' (Nat.le_refl _)]
  by_cases h1 : block' < 7
  · rw [if_pos (by omega), if_pos h1]
    exact before_of (c := []) (l := []) (m := []) h
  rw [if_neg h1]
  by_cases h2 : block' - 7 < n
  · rw [if_pos h2]
    by_cases h1' : block < 7
    · rw [if_pos h1']
      exact before_of (c := []) (l := []) (m := [block' - 7]) h1'
    · rw [if_neg h1', if_pos (by omega)]
      exact before_of (c := [7]) (l := []) (m := []) (by omega)
  rw [if_neg h2]
  by_cases h3 : block' - 7 - n < n * n
  · rw [if_pos h3]
    by_cases h1' : block < 7
    · rw [if_pos h1']
      exact before_of (c := []) (l := []) (m := [_, _]) (show block < 8 by omega)
    rw [if_neg h1']
    by_cases h2' : block - 7 < n
    · rw [if_pos h2']
      exact before_of (c := []) (l := [_]) (m := [_, _]) (show 7 < 8 by omega)
    rw [if_neg h2', if_pos (by omega)]
    rcases digits_lt (n := n) (show block - 7 - n < block' - 7 - n by omega) with hd | ⟨hd, hm⟩
    · exact before_of (c := [8]) (l := [_]) (m := [_]) hd
    · rw [hd]
      exact before_of (c := [_, 8]) (l := []) (m := []) hm
  rw [if_neg h3]
  by_cases h1' : block < 7
  · rw [if_pos h1']
    exact before_of (c := []) (l := []) (m := [_, _, _]) (show block < 9 by omega)
  rw [if_neg h1']
  by_cases h2' : block - 7 < n
  · rw [if_pos h2']
    exact before_of (c := []) (l := [_]) (m := [_, _, _]) (show 7 < 9 by omega)
  rw [if_neg h2']
  by_cases h3' : block - 7 - n < n * n
  · rw [if_pos h3']
    exact before_of (c := []) (l := [_, _]) (m := [_, _, _]) (show 8 < 9 by omega)
  rw [if_neg h3']
  rcases digits_lt (n := n) (show block - 7 - n - n * n < block' - 7 - n - n * n by omega) with
    hd | ⟨hd, hm⟩
  · rcases digits_lt (n := n) hd with hd' | ⟨hd', hm'⟩
    · exact before_of (c := [9]) (l := [_, _]) (m := [_, _]) hd'
    · rw [hd']
      exact before_of (c := [_, 9]) (l := [_]) (m := [_]) hm'
  · rw [hd]
    exact before_of (c := [_, _, 9]) (l := []) (m := []) hm

/-- A step of an owner of zones that had the zones `old` and has the zones `new`. -/
structure TreeStep (v v' : Vol) (old new : Nat → Prop) : Prop extends ZmapStep v v' where
  printk : v'.printk = v.printk
  sbi_eq : v'.sbi = v.sbi
  zbit : ∀ x, InArea v x →
    (CominixFs.zbit v' x = true ↔ CominixFs.zbit v x = true ∧ ¬ old x ∨ new x)
  fresh : ∀ x, new x → InArea v x ∧ (old x ∨ CominixFs.zbit v x = false)
  out : ∀ b, ¬ old b → (InArea v b → CominixFs.zbit v b = true) →
    v'.dev.bh.mem b = v.dev.bh.mem b ∧ v'.dev.bh.dirty b = v.dev.bh.dirty b

/-- What keeps the indirect blocks keeps the forest. -/
lemma TreeOk.frame (ok : TreeOk v z) (h : ZmapStep v v')
    (hbit : ∀ x, TreeZone v z x → zbit v' x = true)
    (hmem : ∀ p n, (shape v).Path p (n + 1) → (forest v z).node p ≠ 0 →
      v'.dev.bh.mem ((forest v z).node p) = v.dev.bh.mem ((forest v z).node p))
    (hcov : ∀ p n, (shape v).Path p (n + 1) → (forest v z).node p ≠ 0 →
      v.dev.bh.Covered ((forest v z).node p) → v'.dev.bh.Covered ((forest v z).node p)) :
    TreeOk v' z ∧ ∀ p n, (shape v).Path p n → (forest v' z).node p = (forest v z).node p := by
  have hnode : ∀ p n, (shape v).Path p n → (forest v' z).node p = (forest v z).node p := by
    intro p n hp
    induction hp with
    | slot _ => rfl
    | @word j p n hp hj ih =>
      rw [node_cons hp.ne_nil, node_cons hp.ne_nil, ih]
      by_cases h0 : (forest v z).node p = 0
      · rw [if_pos h0, if_pos h0]
      · rw [if_neg h0, if_neg h0]
        exact Dev.word_congr (hmem p _ hp h0) j
  refine ⟨⟨?_, ?_, ?_⟩, hnode⟩
  · rw [h.shape]
    intro p q m n hp hq
    rw [hnode p m hp, hnode q n hq]
    exact ok.inj p q m n hp hq
  · rintro x ⟨hx, p, n, hp, he⟩
    rw [h.shape] at hp
    rw [hnode p n hp] at he
    have hzone : TreeZone v z x := ⟨hx, p, n, hp, he⟩
    exact ⟨h.inArea.2 (ok.zone x hzone).1, hbit x hzone⟩
  · intro p n hp h0
    rw [h.shape] at hp
    rw [hnode p _ hp] at h0 ⊢
    exact hcov p n hp h0 (ok.covered p n hp h0)

/-- The same zones as before. -/
lemma treeZone_congr (h : SameMount v v')
    (hnode : ∀ p n, (shape v).Path p n → (forest v' z').node p = (forest v z).node p) {x : Nat} :
    TreeZone v' z' x ↔ TreeZone v z x := by
  unfold TreeZone Zone
  rw [h.shape]
  refine and_congr_right fun _ => exists_congr fun p => exists_congr fun n => and_congr_right
    fun hp => ?_
  rw [hnode p n hp]

lemma TreeStep.trans {v'' : Vol} {a b c : Nat → Prop} (h : TreeStep v v' a b)
    (h' : TreeStep v' v'' b c) : TreeStep v v'' a c := by
  refine ⟨h.toZmapStep.trans h'.toZmapStep, h'.printk.trans h.printk, h'.sbi_eq.trans h.sbi_eq,
    fun x hx => ?_, fun x hx => ?_, fun x ha hx => ?_⟩
  · rw [h'.zbit x (h.inArea.2 hx), h.zbit x hx]
    refine or_congr_left ⟨fun ⟨h1, h2⟩ => h1.resolve_right h2, fun h1 => ⟨.inl h1, fun hb => ?_⟩⟩
    rcases (h.fresh x hb).2 with ha | hfree
    · exact h1.2 ha
    · rw [h1.1] at hfree
      cases hfree
  · obtain ⟨h1, h2⟩ := h'.fresh x hx
    have harea := h.inArea.1 h1
    refine ⟨harea, ?_⟩
    rcases h2 with hb | hfree
    · exact (h.fresh x hb).2
    · by_cases ha : a x
      · exact .inl ha
      · right
        by_contra hn
        rw [(h.zbit x harea).2 (.inl ⟨by simpa using hn, ha⟩)] at hfree
        cases hfree
  · obtain ⟨h1, h2⟩ := h.out x ha hx
    have hb : ¬ b x := by
      intro hb
      obtain ⟨harea, hold⟩ := h.fresh x hb
      rcases hold with hold | hfree
      · exact ha hold
      · rw [hx harea] at hfree
        cases hfree
    obtain ⟨h3, h4⟩ := h'.out x hb fun harea =>
      (h.zbit x (h.inArea.1 harea)).2 (.inl ⟨hx (h.inArea.1 harea), ha⟩)
    exact ⟨h3.trans h1, h4.trans h2⟩

lemma Quiet.treeStep (q : Quiet v v' []) (ok : TreeOk v z) :
    TreeStep v v' (TreeZone v z) (TreeZone v z) := by
  refine ⟨q.toZmapStep, q.printk, q.sbi_eq, fun x hx => ?_, fun x hx => ⟨(ok.zone x hx).1, .inl hx⟩,
    fun b _ hb => q.out b hb⟩
  rw [q.zbit x hx]
  have := fun h => (ok.zone x h).2
  simp only [List.not_mem_nil, false_or]
  tauto

/-- Nothing an inode owns changes when blocks in use are left alone. -/
lemma Quiet.tree {news : List Nat} (q : Quiet v v' news) (ok : TreeOk v z) :
    TreeOk v' z ∧ ∀ p n, (shape v).Path p n → (forest v' z).node p = (forest v z).node p := by
  have hzone : ∀ p n, (shape v).Path p n → (forest v z).node p ≠ 0 → TreeZone v z _ :=
    fun p n hp h0 => ⟨h0, p, n, hp, rfl⟩
  refine ok.frame q.toZmapStep (fun x hx => ?_) (fun p n hp h0 => ?_) fun p n hp h0 hc => ?_
  · exact (q.zbit x (ok.zone x hx).1).2 (.inr (ok.zone x hx).2)
  · exact (q.out _ fun _ => (ok.zone _ (hzone p _ hp h0)).2).1
  · obtain ⟨h1, h2⟩ := q.out _ fun _ => (ok.zone _ (hzone p _ hp h0)).2
    exact hc.congr h1 (by rw [q.disk]) fun hd => h2 ▸ hd

lemma Grew.treeStep {p news : List Nat} (g : Grew v v' z z' p news) (ok : TreeOk v z) {n : Nat}
    (hp : (shape v).Path p n) : TreeStep v v' (TreeZone v z) (TreeZone v' z') := by
  obtain ⟨q, hq, hg⟩ := g.grown
  have hiff : ∀ x, TreeZone v' z' x ↔ TreeZone v z x ∨ x ∈ news := by
    intro x
    unfold TreeZone
    rw [g.shape]
    exact hg.zone_iff hp hq g.zero
  refine ⟨g.toZmapStep, g.printk, g.sbi_eq, fun x hx => ?_, fun x hx => ?_,
    fun b hb hx => g.out b hx hb⟩
  · rw [g.zbit x hx, hiff]
    have := fun h => (ok.zone x h).2
    tauto
  · rcases (hiff x).1 hx with h | h
    · exact ⟨(ok.zone x h).1, .inl h⟩
    · exact ⟨(g.free x h).1, .inr (g.free x h).2⟩

lemma Pruned.treeStep {K : List Nat → Prop} (h : Pruned v v' z z' K) (ok : TreeOk v z) :
    TreeStep v v' (TreeZone v z) (TreeZone v' z') := by
  have hiff : ∀ x, TreeZone v' z' x ↔
      x ≠ 0 ∧ ∃ p n, (shape v).Path p n ∧ ¬ K p ∧ (forest v z).node p = x := by
    intro x
    unfold TreeZone
    rw [h.shape]
    exact h.cut.zone_iff
  have hold : ∀ x, TreeZone v' z' x → TreeZone v z x := by
    intro x hx
    obtain ⟨h0, p, n, hp, -, he⟩ := (hiff x).1 hx
    exact ⟨h0, p, n, hp, he⟩
  refine ⟨h.toZmapStep, h.printk, h.sbi_eq, fun x hx => ?_, fun x hx => ?_, fun b hb _ => h.out b hb⟩
  · rw [h.zbit x hx]
    constructor
    · rintro ⟨hset, hcut⟩
      by_cases hzone : TreeZone v z x
      · obtain ⟨h0, p, n, hp, he⟩ := hzone
        exact .inr ((hiff x).2 ⟨h0, p, n, hp, fun hK => hcut ⟨h0, p, n, hp, hK, he⟩, he⟩)
      · exact .inl ⟨hset, hzone⟩
    · rintro (⟨hset, hzone⟩ | hx')
      · exact ⟨hset, fun ⟨h0, p, n, hp, _, he⟩ => hzone ⟨h0, p, n, hp, he⟩⟩
      · refine ⟨(ok.zone x (hold x hx')).2, ?_⟩
        rintro ⟨h0, p, n, hp, hK, he⟩
        obtain ⟨-, q, m, hq, hKq, he'⟩ := (hiff x).1 hx'
        exact hKq (ok.path_eq hp hq (he ▸ h0) (he.trans he'.symm) ▸ hK)
  · exact ⟨(ok.zone x (hold x hx)).1, .inl (hold x hx)⟩

/-- `get_block`, in terms of the path of the block. -/
theorem get_block_spec {create : Bool} {block : Nat} (ok : TreeOk v inode.i_data) (area : AreaOk v)
    (size : SizeOk v) (hin : Within v block) :
    ∃ g, get_block getblk v inode block create = some g ∧
      Got getblk v inode create (block_path v block) g := by
  have hp := block_path_spec size hin
  have hrev : block_to_path v block = (block_path v block).reverse := by
    rw [block_path, List.reverse_reverse]
  obtain ⟨g, hg, hgot⟩ := @get_block_loop_spec v inode getblk create
    4294967295 ok area _ hp
  refine ⟨g, ?_, hgot⟩
  unfold get_block
  rw [← hrev] at hg
  cases hb : block_to_path v block with
  | nil => exact absurd (by rw [block_path, hb]; rfl) hp.ne_nil
  | cons k ks =>
    rw [hb] at hg
    exact hg

/-- Only the contents and the mark of one block changed. -/
structure Wrote (v v' : Vol) (b : Nat) : Prop extends SameMount v v' where
  sbi_eq : v'.sbi = v.sbi
  s_zmap : v'.s_zmap = v.s_zmap
  printk : v'.printk = v.printk
  out : ∀ x, x ≠ b → v'.dev.bh.mem x = v.dev.bh.mem x ∧ v'.dev.bh.dirty x = v.dev.bh.dirty x

/-- Writing to a data block of an inode changes nothing else. -/
lemma TreeOk.wrote (ok : TreeOk v z) {p : List Nat} (hp : (shape v).Path p 0)
    (h0 : (forest v z).node p ≠ 0) (h : Wrote v v' ((forest v z).node p)) :
    TreeStep v v' (TreeZone v z) (TreeZone v' z) ∧ TreeOk v' z ∧
      ∀ q n, (shape v).Path q n → (forest v' z).node q = (forest v z).node q := by
  have hz : ZmapStep v v' := .of_eq h.toSameMount h.s_zmap
  have hbit : ∀ x, zbit v' x = zbit v x := by
    intro x
    unfold zbit
    rw [h.bits_per_zone, h.first, h.s_zmap]
  -- a data block is not an indirect block
  have hne : ∀ q n, (shape v).Path q (n + 1) → (forest v z).node q ≠ 0 →
      (forest v z).node q ≠ (forest v z).node p := by
    intro q n hq hq0 he
    have := ok.path_eq hq hp hq0 he
    subst this
    exact absurd (hq.unique hp) (by simp)
  obtain ⟨htree, hnode⟩ := ok.frame hz (fun x hx => (hbit x).trans (ok.zone x hx).2)
    (fun q n hq hq0 => (h.out _ (hne q n hq hq0)).1) fun q n hq hq0 hc =>
      hc.congr (h.out _ (hne q n hq hq0)).1 (by rw [h.disk]) fun hd =>
        (h.out _ (hne q n hq hq0)).2 ▸ hd
  have hzone : ∀ x, TreeZone v' z x ↔ TreeZone v z x := fun x =>
    treeZone_congr h.toSameMount hnode
  refine ⟨⟨hz, h.printk, h.sbi_eq, fun x _ => ?_, fun x hx => ?_, fun b hb _ => ?_⟩, htree, hnode⟩
  · rw [hbit, hzone]
    have := fun hx => (ok.zone x hx).2
    tauto
  · rw [hzone] at hx
    exact ⟨(ok.zone x hx).1, .inl hx⟩
  · refine h.out b ?_
    rintro rfl
    exact hb ⟨h0, p, 0, hp, rfl⟩

/-- A zone is mapped at one block only. -/
lemma TreeOk.zone_inj (ok : TreeOk v z) (size : SizeOk v) {b b' : Nat} (hb : Within v b)
    (hb' : Within v b') (h0 : zone_of v z b ≠ 0) (he : zone_of v z b = zone_of v z b') : b = b' := by
  have hpath := ok.path_eq (block_path_spec size hb) (block_path_spec size hb') h0 he
  rcases Nat.lt_trichotomy b b' with h | h | h
  · have := block_path_before size h hb'
    rw [hpath] at this
    exact absurd this this.asymm
  · exact h
  · have := block_path_before size h hb
    rw [hpath] at this
    exact absurd this this.asymm

/-- `block_truncate_page` zeroes the bytes past the end of the file in its last block. -/
lemma block_truncate_page_spec (ok : TreeOk v inode.i_data) (area : AreaOk v) (size : SizeOk v)
    (hsize : inode.i_size < 2 ^ 63) :
    ∃ v', block_truncate_page v inode = some v' ∧
      TreeStep v v' (TreeZone v inode.i_data) (TreeZone v' inode.i_data) ∧
      TreeOk v' inode.i_data ∧
      (∀ q n, (shape v).Path q n →
        (forest v' inode.i_data).node q = (forest v inode.i_data).node q) ∧
      (∀ b o, Within v b → b * v.dev.bs + o < inode.i_size → zone_of v inode.i_data b ≠ 0 →
        v'.dev.bh.mem (zone_of v inode.i_data b) o = v.dev.bh.mem (zone_of v inode.i_data b) o) ∧
      ∀ b o, Within v b → b * v.dev.bs < inode.i_size → inode.i_size ≤ b * v.dev.bs + o →
        o < v.dev.bs → zone_of v inode.i_data b ≠ 0 →
        v'.dev.bh.mem (zone_of v inode.i_data b) o = 0 := by
  have hdm := Nat.div_add_mod' inode.i_size v.dev.bs
  have hmod := Nat.mod_lt inode.i_size v.dev.bs_pos
  -- the block the end of the file lies in
  have hlast : ∀ b o, b * v.dev.bs < inode.i_size → inode.i_size ≤ b * v.dev.bs + o →
      o < v.dev.bs → b = inode.i_size / v.dev.bs ∧ inode.i_size % v.dev.bs ≤ o ∧
        0 < inode.i_size % v.dev.bs := by
    intro b o h1 h2 h3
    have hb : b = inode.i_size / v.dev.bs :=
      (Nat.div_eq_of_lt_le h1.le (by rw [Nat.succ_mul]; omega)).symm
    rw [← hb] at hdm
    omega
  have hsame : ∃ v', some v = some v' ∧
      TreeStep v v' (TreeZone v inode.i_data) (TreeZone v' inode.i_data) ∧
      TreeOk v' inode.i_data ∧
      (∀ q n, (shape v).Path q n →
        (forest v' inode.i_data).node q = (forest v inode.i_data).node q) ∧
      (∀ b o, Within v b → b * v.dev.bs + o < inode.i_size → zone_of v inode.i_data b ≠ 0 →
        v'.dev.bh.mem (zone_of v inode.i_data b) o = v.dev.bh.mem (zone_of v inode.i_data b) o) := by
    have hq : Quiet v v [] := .refl v
    exact ⟨v, rfl, hq.treeStep ok, ok, fun _ _ _ => rfl, fun _ _ _ _ _ => rfl⟩
  unfold block_truncate_page
  by_cases h0 : inode.i_size % v.dev.bs = 0
  · rw [if_pos h0]
    obtain ⟨v', h1, h2, h3, h4, h5⟩ := hsame
    refine ⟨v', h1, h2, h3, h4, h5, fun b o _ h6 h7 h8 _ => ?_⟩
    have := (hlast b o h6 h7 h8).2.2
    omega
  rw [if_neg h0]
  by_cases hin : Within v (inode.i_size / v.dev.bs)
  swap
  · -- past the largest size there is no block
    obtain ⟨v', h1, h2, h3, h4, h5⟩ := hsame
    have hnil := block_to_path_nil (show inode.i_size / v.dev.bs * v.dev.bs < 2 ^ 64 by omega) hin
    rw [get_block_nil hnil]
    refine ⟨v', h1, h2, h3, h4, h5, fun b o hb h6 h7 h8 _ => ?_⟩
    exact absurd ((hlast b o h6 h7 h8).1 ▸ hb) hin
  obtain ⟨g, hg, hgot⟩ := @get_block_spec v inode (fun _ => true) false _ ok area size hin
  rw [hg]
  cases hgot with
  | hole hz _ =>
    obtain ⟨v', h1, h2, h3, h4, h5⟩ := hsame
    refine ⟨v', h1, h2, h3, h4, h5, fun b o _ h6 h7 h8 h9 => ?_⟩
    rw [(hlast b o h6 h7 h8).1] at h9
    exact absurd hz h9
  | failed _ hc _ _ => cases hc
  | new _ hc _ => cases hc
  | found hz =>
    have hp := block_path_spec size hin
    have hnr := ok.lt_nblocks area.nzones_le area.nblocks_pos hp
    dsimp only
    rw [if_neg (by omega)]
    set nr := (forest v inode.i_data).node (block_path v (inode.i_size / v.dev.bs)) with hnrdef
    generalize hnew : memcpy _ _ _ _ _ = m
    have hw : Wrote v { v with dev := (v.dev.store nr m).mark_buffer_dirty nr } nr := by
      refine ⟨⟨rfl, rfl, rfl, rfl, rfl⟩, rfl, rfl, rfl, fun x hx => ⟨?_, ?_⟩⟩
      · exact Buffers.set_mem_of_ne _ _ hx
      · exact Buffers.mark_dirty_of_ne _ hx
    obtain ⟨h1, h2, h3⟩ := ok.wrote hp hz hw
    refine ⟨_, rfl, h1, h2, h3, fun b o hb hlt hb0 => ?_, fun b o hb h6 h7 h8 hb0 => ?_⟩
    · by_cases hbe : b = inode.i_size / v.dev.bs
      · subst hbe
        show (v.dev.bh.set _ m).mem _ o = _
        rw [zone_of, Buffers.set_mem_self, ← hnew, memcpy_of_not_mem (.inl (by omega))]
      · rw [(hw.out _ fun he => hbe (ok.zone_inj size hb hin hb0 he)).1]
    · obtain ⟨rfl, hle, -⟩ := hlast b o h6 h7 h8
      show (v.dev.bh.set _ m).mem _ o = _
      rw [zone_of, Buffers.set_mem_self, ← hnew, memcpy_of_mem hle (by omega)]

/-- What `truncate` does to the inode it is called for. -/
structure Truncated (v : Vol) (inode : Inode) (v' : Vol) (inode' : Inode) : Prop where
  step : TreeStep v v' (TreeZone v inode.i_data) (TreeZone v' inode'.i_data)
  tree : TreeOk v' inode'.i_data
  inode_eq : inode' = { inode with i_data := inode'.i_data, dirty := inode'.dirty }
  keep : ∀ b, Within v b → b * v.dev.bs < inode.i_size →
    zone_of v' inode'.i_data b = zone_of v inode.i_data b
  gone : ∀ b, Within v b → inode.i_size ≤ b * v.dev.bs → zone_of v' inode'.i_data b = 0
  data : ∀ b o, Within v b → b * v.dev.bs + o < inode.i_size → zone_of v inode.i_data b ≠ 0 →
    v'.dev.bh.mem (zone_of v inode.i_data b) o = v.dev.bh.mem (zone_of v inode.i_data b) o
  tail : ∀ b o, Within v b → b * v.dev.bs < inode.i_size → inode.i_size ≤ b * v.dev.bs + o →
    o < v.dev.bs → zone_of v inode.i_data b ≠ 0 →
    v'.dev.bh.mem (zone_of v inode.i_data b) o = 0
  empty : inode.i_size = 0 → ∀ x, ¬ TreeZone v' inode'.i_data x

lemma block_to_path_congr (h : v'.sbi = v.sbi)
    (hb : v'.dev.s_blocksize_bits = v.dev.s_blocksize_bits) (block : Nat) :
    block_to_path v' block = block_to_path v block := by
  unfold block_to_path INDIRCOUNT Dev.bs
  rw [h, hb]

lemma zone_of_congr (h : v'.sbi = v.sbi) (hb : v'.dev.s_blocksize_bits = v.dev.s_blocksize_bits)
    (b : Nat) : zone_of v' z' b = (forest v' z').node (block_path v b) := by
  rw [zone_of, block_path, block_path, block_to_path_congr h hb]

lemma SizeOk.congr (size : SizeOk v) (h : v'.sbi = v.sbi)
    (hb : v'.dev.s_blocksize_bits = v.dev.s_blocksize_bits) : SizeOk v' :=
  ⟨hb ▸ size.bits, h ▸ size.pos, h ▸ size.maxbytes⟩

/-- Every path is the first one, below it or after it. -/
lemma from_zero {q : List Nat} {n : Nat} (hq : (shape v).Path q n) : From [0] q := by
  obtain ⟨k, hk⟩ : ∃ k, [k] <:+ q := by
    obtain ⟨l, k, rfl⟩ := List.eq_nil_or_concat' q |>.resolve_left hq.ne_nil
    exact ⟨k, List.suffix_append _ _⟩
  cases k with
  | zero => exact .inl hk
  | succ k => exact .inr ⟨0, k + 1, [], Nat.succ_pos k, List.suffix_refl _, hk⟩

/-- The first block has the first path of all. -/
lemma block_path_zero (h : Within v 0) : block_path v 0 = [0] := by
  unfold Within at h
  rw [Nat.zero_mul] at h
  unfold block_path block_to_path
  rw [Nat.zero_mul, Nat.zero_mod, if_neg (Nat.not_le.2 h)]
  rfl

/-- The first block past the end of a file. -/
def end_block (v : Vol) (i_size : Nat) : Nat := (i_size + v.dev.bs - 1) / v.dev.bs

lemma lt_end_block {i_size b : Nat} : b < end_block v i_size ↔ b * v.dev.bs < i_size := by
  have hbs := v.dev.bs_pos
  rw [end_block, Nat.lt_div_iff_mul_lt hbs]
  omega

/-- `truncate` once the last block is zeroed. -/
lemma truncate_eq {v₁ : Vol} (hpage : block_truncate_page v inode = some v₁) : truncate v inode
    = some (truncate_tree v₁ inode (block_to_path v₁ (end_block v inode.i_size))) := by
  unfold truncate
  rw [hpage]
  rfl

/-- What `truncate` cuts off the tree once the last block is zeroed: everything at and to the right
of the path of the first block past the end, or of a block above it with nothing else below. -/
lemma truncate_cut {v₁ : Vol} (size : SizeOk v) (hsize : inode.i_size < 2 ^ 63)
    (hpage : block_truncate_page v inode = some v₁) (ok₁ : TreeOk v₁ inode.i_data)
    (area₁ : AreaOk v₁) (h₁ : SameMount v v₁) (hsbi₁ : v₁.sbi = v.sbi) :
    ∃ v' inode', truncate v inode = some (v', inode') ∧
      (Within v (end_block v inode.i_size) ∧
        inode' = { inode with i_data := inode'.i_data, dirty := true } ∧
        (∃ r, r ≠ [] ∧ r <:+ block_path v (end_block v inode.i_size) ∧
          (∀ q m, (shape v₁).Path q m → r <:+ q → Before q (block_path v (end_block v inode.i_size)) →
            (forest v₁ inode.i_data).node q = 0) ∧
          (∀ i c, r = i :: c → c ≠ [] → ∃ j < i, (forest v₁ inode.i_data).node (j :: c) ≠ 0) ∧
          Pruned v₁ v' inode.i_data inode'.i_data (From r)) ∨
      ¬ Within v (end_block v inode.i_size) ∧ v' = v₁ ∧ inode' = inode) := by
  have hfit : end_block v inode.i_size * v.dev.bs < 2 ^ 64 := by
    have h1 : end_block v inode.i_size * v.dev.bs ≤ inode.i_size + v.dev.bs - 1 :=
      Nat.div_mul_le_self _ _
    have h2 := (Dev.bs_bounds size.bits).2.1
    omega
  have hrun : truncate v inode
      = some (truncate_tree v₁ inode (block_to_path v (end_block v inode.i_size))) := by
    rw [truncate_eq hpage, block_to_path_congr hsbi₁ h₁.bits]
  refine ⟨_, _, hrun, ?_⟩
  by_cases hin : Within v (end_block v inode.i_size)
  · have hp₁ : (shape v₁).Path (block_path v (end_block v inode.i_size)) 0 := by
      rw [h₁.shape]
      exact block_path_spec size hin
    obtain ⟨r, hr, hrp, hleft, hstop, hcut, hinode⟩ := truncate_tree_spec ok₁ area₁ hp₁
    rw [show (block_path v (end_block v inode.i_size)).reverse
      = block_to_path v (end_block v inode.i_size) by simp [block_path]] at hcut hinode
    exact .inl ⟨hin, hinode, r, hr, hrp, hleft, hstop, hcut⟩
  · rw [block_to_path_nil hfit hin]
    exact .inr ⟨hin, rfl, rfl⟩

/-- `truncate` unmaps the blocks past the end of the file and no other. -/
theorem truncate_spec (ok : TreeOk v inode.i_data) (area : AreaOk v) (size : SizeOk v)
    (hsize : inode.i_size < 2 ^ 63) :
    ∃ v' inode', truncate v inode = some (v', inode') ∧ Truncated v inode v' inode' := by
  obtain ⟨v₁, hpage, hstep₁, ok₁, hnode, hdata, htail⟩ :=
    block_truncate_page_spec ok area size hsize
  have hsbi₁ := hstep₁.sbi_eq
  have hbits₁ := hstep₁.bits
  have area₁ := area.step hstep₁.toZmapStep
  have hzone₁ : ∀ b, Within v b → zone_of v₁ inode.i_data b = zone_of v inode.i_data b :=
    fun b hb => (zone_of_congr hsbi₁ hbits₁ b).trans (hnode _ _ (block_path_spec size hb))
  have hlt : ∀ b, b * v.dev.bs < inode.i_size ↔ b < end_block v inode.i_size :=
    fun b => lt_end_block.symm
  obtain ⟨v', inode', hrun, ⟨hin, hinode, r, hr, hrp, hleft, -, hcut⟩ | ⟨hin, rfl, rfl⟩⟩ :=
    truncate_cut size hsize hpage ok₁ area₁ hstep₁.toSameMount hsbi₁
  · have hp := block_path_spec size hin
    refine ⟨v', inode', hrun, ?_⟩
    generalize end_block v inode.i_size = iblock at *
    have hsbi := hcut.sbi_eq.trans hsbi₁
    have hbits := hcut.bits.trans hbits₁
    have hpath₁ : ∀ b, Within v b → (shape v₁).Path (block_path v b) 0 := fun b hb => by
      rw [hstep₁.shape]
      exact block_path_spec size hb
    have hzone' : ∀ b, Within v b → (From r (block_path v b) → zone_of v' inode'.i_data b = 0) ∧
        (¬ From r (block_path v b) →
          zone_of v' inode'.i_data b = zone_of v inode.i_data b) := by
      intro b hb
      rw [zone_of_congr hsbi hbits, ← hzone₁ b hb, zone_of_congr hsbi₁ hbits₁]
      exact hcut.cut.node (hpath₁ b hb)
    -- a block before the end has no block, or is kept
    have hbefore : ∀ b, Within v b → b < iblock → From r (block_path v b) →
        zone_of v inode.i_data b = 0 := by
      intro b hb hlt hfrom
      have hbef := block_path_before size hlt hin
      rcases hfrom with hsuf | hr'
      · rw [← hzone₁ b hb, zone_of_congr hsbi₁ hbits₁]
        exact hleft _ 0 (hpath₁ b hb) hsuf hbef
      · exact absurd hbef (hr'.mono hrp (List.suffix_refl _)).asymm
    have hmem : ∀ b, Within v b → b * v.dev.bs < inode.i_size → zone_of v inode.i_data b ≠ 0 →
        v'.dev.bh.mem (zone_of v inode.i_data b) = v₁.dev.bh.mem (zone_of v inode.i_data b) := by
      intro b hb hlt' h0
      rw [← hzone₁ b hb, zone_of_congr hsbi₁ hbits₁]
      exact hcut.leaf _ (hpath₁ b hb) fun hf => h0 (hbefore b hb ((hlt b).1 hlt') hf)
    refine ⟨hstep₁.trans (hcut.treeStep ok₁), ok₁.pruned hcut, ?_, ?_, ?_, ?_, ?_, ?_⟩
    · rw [hinode]
    · intro b hb hlt'
      by_cases hf : From r (block_path v b)
      · rw [(hzone' b hb).1 hf, hbefore b hb ((hlt b).1 hlt') hf]
      · exact (hzone' b hb).2 hf
    · intro b hb hge
      refine (hzone' b hb).1 ?_
      rcases Nat.lt_or_eq_of_le (show iblock ≤ b by have := hlt b; omega) with h | h
      · exact (block_path_before size h hb).from_above hrp
      · rw [← h]
        exact .inl hrp
    · intro b o hb hlt' h0
      rw [hmem b hb (by omega) h0]
      exact hdata b o hb hlt' h0
    · intro b o hb h1 h2 h3 h0
      rw [hmem b hb h1 h0]
      exact htail b o hb h1 h2 h3 h0
    · intro h0 x hx
      have hi0 : iblock = 0 := by
        have := hlt 0
        omega
      have hr0 : r = [0] := by
        subst hi0
        rw [block_path_zero hin] at hrp
        rcases List.suffix_cons_iff.1 hrp with h | h
        · exact h
        · exact absurd (List.suffix_nil.1 h) hr
      unfold TreeZone at hx
      rw [hcut.shape, hcut.cut.zone_iff] at hx
      obtain ⟨-, q, n, hq, hf, -⟩ := hx
      exact hf (hr0 ▸ from_zero hq)
  · have hge : ∀ b, Within v b → b < end_block v inode'.i_size := by
      intro b hb
      by_contra hge
      exact hin (lt_of_le_of_lt (Nat.mul_le_mul_right _ (not_lt.1 hge)) hb)
    refine ⟨v', inode', hrun, hstep₁, ok₁, rfl, fun b hb _ => hzone₁ b hb, fun b hb hle => ?_,
      hdata, htail, fun h0 => ?_⟩
    · have := (hlt b).2 (hge b hb)
      omega
    · have h1 := hge 0 (by unfold Within; have := size.pos; omega)
      have := (hlt 0).2 h1
      omega

/-! ## Inodes without zones -/

/-- Without zone words there is no tree. -/
lemma forest_empty (hempty : ∀ k < 10, z k = 0) : ∀ p n, (shape v).Path p n →
    (forest v z).node p = 0 := by
  intro p n hp
  induction hp with
  | slot hk => exact hempty _ hk
  | word hp _ ih => exact node_cons_of_eq hp.ne_nil ih _

lemma TreeOk.empty (v : Vol) (hz : ∀ k < 10, z k = 0) : TreeOk v z := by
  have hnode := forest_empty (v := v) hz
  refine ⟨fun p q m n hp _ h0 => absurd (hnode p m hp) h0, ?_,
    fun p n hp h0 => absurd (hnode p _ hp) h0⟩
  rintro x ⟨hx, p, n, hp, rfl⟩
  exact absurd (hnode p n hp) hx

/-- With one zone word there is one block. -/
lemma forest_one (hz : ∀ k < 10, k ≠ 0 → z k = 0) : ∀ p n, (shape v).Path p n →
    (forest v z).node p ≠ 0 → p = [0] ∧ n = 0 := by
  intro p n hp
  induction hp with
  | @slot k hk =>
    intro hne
    by_cases hk0 : k = 0
    · subst hk0
      exact ⟨rfl, rfl⟩
    · exact absurd (hz k hk hk0) hne
  | @word j p n hp _ ih =>
    intro hne
    have hup : (forest v z).node p = 0 := by
      by_contra hup
      cases (ih hup).2
    exact absurd (node_cons_of_eq hp.ne_nil hup _) hne

lemma TreeOk.one (hz : ∀ k < 10, k ≠ 0 → z k = 0) (h0 : InArea v (z 0) ∧ zbit v (z 0) = true) :
    TreeOk v z := by
  refine ⟨fun p q m n hp hq hne he => ?_, ?_, fun p n hp hne => ?_⟩
  · rw [(forest_one hz p m hp hne).1, (forest_one hz q n hq (he ▸ hne)).1]
  · rintro x ⟨hx, p, n, hp, rfl⟩
    rw [(forest_one hz p n hp hx).1]
    exact h0
  · exact absurd (forest_one hz p _ hp hne).2 (Nat.succ_ne_zero n)

/-- The zone words of a forest are no markers. -/
lemma TreeOk.not_chunked (ok : TreeOk v z) (area : ZmapOk v)
    (hz : inode.i_data = z) : inode_is_chunked inode = false := by
  have hmark : z 0 ≠ chunk_mark := by
    intro h
    have hzone : TreeZone v z (z 0) := by
      refine ⟨?_, [0], 0, Shape.Path.slot (show 0 < 10 by decide), rfl⟩
      rw [h]
      decide
    have hlt := (ok.zone _ hzone).1.2
    have hmax := area.nzones_lt
    rw [h] at hlt
    unfold chunk_mark at hlt
    omega
  unfold inode_is_chunked
  rw [hz, beq_false_of_ne hmark, Bool.false_and]

end CominixFs
