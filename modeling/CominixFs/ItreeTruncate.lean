import Mathlib.Data.List.TakeWhile
import CominixFs.ItreeBranch

/-!
# Truncating an inode (`truncate`)

Every step of `truncate` cuts off the blocks at some places of the inode's forest, with the trees
below them (`Pruned`). Together they cut off everything at and to the right of the path of the first
block past the end, or of a block above it under which nothing is left (`truncate_tree_spec`).
-/

namespace CominixFs
open Bytes Forest

/-- The blocks at the paths in `K` were cut off an inode's forest and given up. -/
structure Pruned (v v' : Vol) (z z' : Nat → Nat) (K : List Nat → Prop) : Prop
    extends Drops v v' fun x => x ≠ 0 ∧ ∃ p n, (shape v).Path p n ∧ K p ∧ (forest v z).node p = x where
  sbi_eq : v'.sbi = v.sbi
  cut : Cut (shape v) (forest v z) (forest v' z') K
  out : ∀ b, ¬ TreeZone v z b →
    v'.dev.bh.mem b = v.dev.bh.mem b ∧ v'.dev.bh.dirty b = v.dev.bh.dirty b
  leaf : ∀ p, (shape v).Path p 0 → ¬ K p → v'.dev.bh.mem ((forest v z).node p)
    = v.dev.bh.mem ((forest v z).node p)
  kept : ∀ p n, (shape v).Path p n → ¬ K p → v.dev.bh.Covered ((forest v z).node p) →
    v'.dev.bh.Covered ((forest v z).node p)

variable {v v' v'' : Vol} {z z' z'' : Nat → Nat} {K K' : List Nat → Prop}

/-- Only the paths of the forest matter. -/
lemma Pruned.congr (h : Pruned v v' z z' K) (hdown : ∀ p j, K' p → K' (j :: p))
    (hK : ∀ p n, (shape v).Path p n → (K' p ↔ K p)) : Pruned v v' z z' K' := by
  refine ⟨⟨h.toZmapStep, h.printk, fun x hx => ?_⟩, h.sbi_eq, ⟨hdown, fun k hk => ?_,
    fun p n j hp hj h0 => ?_⟩, h.out, fun p hp => ?_, fun p n hp => ?_⟩
  · rw [h.zbit x hx]
    have : (∃ p n, (shape v).Path p n ∧ K' p ∧ (forest v z).node p = x) ↔
        ∃ p n, (shape v).Path p n ∧ K p ∧ (forest v z).node p = x :=
      exists_congr fun p => exists_congr fun n => and_congr_right fun hp =>
        and_congr_left fun _ => hK p n hp
    rw [this]
  · rw [hK _ _ (.slot hk)]
    exact h.cut.slot k hk
  · rw [hK _ _ hp, hK _ _ (.word hp hj)]
    exact h.cut.word p n j hp hj h0
  · rw [hK _ _ hp]
    exact h.leaf p hp
  · rw [hK _ _ hp]
    exact h.kept p n hp

/-- A step that changes nothing in the forest cuts off nothing. -/
lemma Pruned.refl (v : Vol) (z : Nat → Nat) : Pruned v v z z fun _ => False := by
  refine ⟨⟨.refl v, rfl, fun x _ => ?_⟩, rfl, .refl _ _, fun _ _ => ⟨rfl, rfl⟩, fun _ _ _ => rfl,
    fun _ _ _ _ h => h⟩
  simp

lemma Pruned.trans (h : Pruned v v' z z' K) (h' : Pruned v' v'' z' z'' K') :
    Pruned v v'' z z'' fun p => K p ∨ K' p := by
  have hnode : ∀ p n, (shape v).Path p n → ¬ K p → (forest v' z').node p = (forest v z).node p :=
    fun p n hp => (h.cut.node hp).2
  have hpath : ∀ p n, (shape v).Path p n → (shape v').Path p n := fun p n hp => by rwa [h.shape]
  have hzone : ∀ b, ¬ TreeZone v z b → ¬ TreeZone v' z' b := by
    intro b hb hz
    unfold TreeZone at hz
    rw [h.shape, h.cut.zone_iff] at hz
    obtain ⟨h0, p, n, hp, -, he⟩ := hz
    exact hb ⟨h0, p, n, hp, he⟩
  have hcut : Cut (shape v) (forest v' z') (forest v'' z'') K' := h.shape ▸ h'.cut
  refine ⟨⟨h.toZmapStep.trans h'.toZmapStep, h'.printk.trans h.printk, fun x hx => ?_⟩,
    h'.sbi_eq.trans h.sbi_eq, h.cut.trans hcut, fun b hb => ?_, fun p hp hK => ?_,
    fun p n hp hK hc => ?_⟩
  · rw [h'.zbit x (h.inArea.2 hx), h.zbit x hx, and_assoc, ← not_or]
    apply and_congr_right'
    apply not_congr
    rw [← and_or_left]
    refine and_congr_right fun h0 => ⟨?_, ?_⟩
    · rintro (⟨p, n, hp, hK, he⟩ | ⟨p, n, hp, hK, he⟩)
      · exact ⟨p, n, hp, .inl hK, he⟩
      · rw [h.shape] at hp
        by_cases hKp : K p
        · exact absurd (he.symm.trans ((h.cut.node hp).1 hKp)) h0
        · exact ⟨p, n, hp, .inr hK, by rw [← he, hnode p n hp hKp]⟩
    · rintro ⟨p, n, hp, hK, he⟩
      by_cases hKp : K p
      · exact .inl ⟨p, n, hp, hKp, he⟩
      · exact .inr ⟨p, n, hpath p n hp, hK.resolve_left hKp, by rw [hnode p n hp hKp, he]⟩
  · obtain ⟨h1, h2⟩ := h'.out b (hzone b hb)
    obtain ⟨h3, h4⟩ := h.out b hb
    exact ⟨h1.trans h3, h2.trans h4⟩
  · rw [not_or] at hK
    rw [← h.leaf p hp hK.1, ← hnode p 0 hp hK.1]
    exact h'.leaf p (hpath p 0 hp) hK.2
  · rw [not_or] at hK
    have := h'.kept p n (hpath p n hp) hK.2
    rw [hnode p n hp hK.1] at this
    exact this (h.kept p n hp hK.1 hc)

/-- Cutting off blocks keeps the forest of an inode well formed. -/
lemma TreeOk.pruned (ok : TreeOk v z) (h : Pruned v v' z z' K) : TreeOk v' z' := by
  refine ⟨?_, fun x hx => ?_, fun p n hp h0 => ?_⟩
  · rw [h.shape]
    exact h.cut.inj ok.inj
  · unfold TreeZone at hx
    rw [h.shape, h.cut.zone_iff] at hx
    obtain ⟨h0, p, n, hp, hK, he⟩ := hx
    obtain ⟨harea, hset⟩ := ok.zone x ⟨h0, p, n, hp, he⟩
    refine ⟨h.inArea.2 harea, (h.zbit x harea).2 ⟨hset, ?_⟩⟩
    rintro ⟨-, q, m, hq, hKq, he'⟩
    exact hK (ok.inj p q n m hp hq (he ▸ h0) (he.trans he'.symm) ▸ hKq)
  · rw [h.shape] at hp
    by_cases hK : K p
    · exact absurd ((h.cut.node hp).1 hK) h0
    · rw [(h.cut.node hp).2 hK] at h0 ⊢
      exact h.kept p _ hp hK (ok.covered p n hp h0)

/-- The blocks of the tree below a path of an inode. -/
lemma sub_path_iff {p : List Nat} {n x : Nat} (hp : (shape v).Path p n) :
    BlockTree.Sub v.dev.word (v.dev.bs / 4) n ((forest v z).node p) x ↔
      x ≠ 0 ∧ ∃ q m, (shape v).Path q m ∧ p <:+ q ∧ (forest v z).node q = x :=
  sub_iff (t := forest v z) hp

/-- The tree below a path of an inode can be freed. -/
lemma TreeOk.freeable (ok : TreeOk v z) (hz : ZmapOk v) (hn : v.sbi.s_nzones ≤ v.dev.nblocks)
    {p : List Nat} {n : Nat} (hp : (shape v).Path p n) : Freeable v n ((forest v z).node p) := by
  refine ⟨hz, hn, ok.inj.tree hp, fun x hx => ?_⟩
  obtain ⟨h0, q, m, hq, -, he⟩ := (sub_path_iff hp).1 hx
  exact ok.zone x ⟨h0, q, m, hq, he⟩

/-- The blocks of two places are the same only when the places are. -/
lemma TreeOk.path_eq (ok : TreeOk v z) {p q : List Nat} {m n : Nat} (hp : (shape v).Path p m)
    (hq : (shape v).Path q n) (h0 : (forest v z).node p ≠ 0)
    (he : (forest v z).node p = (forest v z).node q) : p = q :=
  ok.inj p q m n hp hq h0 he

/-- Clearing words of an indirect block and freeing what is below them. -/
lemma Pruned.of_words (ok : TreeOk v z) {p : List Nat} {n k m : Nat}
    (hp : (shape v).Path p (n + 1)) (h0 : (forest v z).node p ≠ 0) (hle : k + m ≤ v.dev.bs / 4)
    (hd : Drops v v' (Below v n ((forest v z).node p) k m)) (hsbi : v'.sbi = v.sbi)
    (hout : ∀ b, ¬ Below v n ((forest v z).node p) k m b → b ≠ (forest v z).node p →
      v'.dev.bh.mem b = v.dev.bh.mem b ∧ v'.dev.bh.dirty b = v.dev.bh.dirty b)
    (hword : ∀ j, v'.dev.word ((forest v z).node p) j
      = if k ≤ j ∧ j < k + m then 0 else v.dev.word ((forest v z).node p) j)
    (hcov : v.dev.bh.Covered ((forest v z).node p) → v'.dev.bh.Covered ((forest v z).node p)) :
    Pruned v v' z z fun q => ∃ j, k ≤ j ∧ j < k + m ∧ (j :: p) <:+ q := by
  have hne := hp.ne_nil
  have hchild : ∀ j, k ≤ j → j < k + m → (shape v).Path (j :: p) n ∧
      (forest v z).node (j :: p) = v.dev.word ((forest v z).node p) j := by
    intro j h1 h2
    refine ⟨.word hp ?_, node_cons_of_ne hne h0 j⟩
    show j < v.dev.bs / 4
    omega
  -- the zones freed are those of the paths cut off
  have hbelow : ∀ x, Below v n ((forest v z).node p) k m x ↔ x ≠ 0 ∧ ∃ q i, (shape v).Path q i ∧
      (∃ j, k ≤ j ∧ j < k + m ∧ (j :: p) <:+ q) ∧ (forest v z).node q = x := by
    intro x
    constructor
    · rintro ⟨j, h1, h2, hx⟩
      obtain ⟨hpj, hnj⟩ := hchild j h1 h2
      rw [← hnj] at hx
      obtain ⟨hx0, q, i, hq, hjq, he⟩ := (sub_path_iff hpj).1 hx
      exact ⟨hx0, q, i, hq, ⟨j, h1, h2, hjq⟩, he⟩
    · rintro ⟨hx0, q, i, hq, ⟨j, h1, h2, hjq⟩, he⟩
      obtain ⟨hpj, hnj⟩ := hchild j h1 h2
      refine ⟨j, h1, h2, ?_⟩
      rw [← hnj]
      exact (sub_path_iff hpj).2 ⟨hx0, q, i, hq, hjq, he⟩
  have hkeep : ∀ q i, (shape v).Path q i → (forest v z).node q ≠ 0 →
      ¬ (∃ j, k ≤ j ∧ j < k + m ∧ (j :: p) <:+ q) →
      ¬ Below v n ((forest v z).node p) k m ((forest v z).node q) := by
    intro q i hq hq0 hK hb
    obtain ⟨-, r, i', hr, hKr, he⟩ := (hbelow _).1 hb
    exact hK (ok.path_eq hr hq (he ▸ hq0) he ▸ hKr)
  refine ⟨⟨hd.toZmapStep, hd.printk, fun x hx => ?_⟩, hsbi, ⟨?_, ?_, ?_⟩, ?_, ?_, ?_⟩
  · rw [hd.zbit x hx, hbelow]
  · rintro q i ⟨j, h1, h2, hq⟩
    exact ⟨j, h1, h2, hq.trans (List.suffix_cons i q)⟩
  · intro i _
    refine ⟨?_, fun _ => rfl⟩
    rintro ⟨j, -, -, hj⟩
    have hlen := hj.length_le
    rw [List.length_cons, List.length_cons, List.length_nil] at hlen
    exact absurd (List.length_eq_zero_iff.1 (by omega)) hne
  · intro q i j hq hj hq0 hK
    show (_ → v'.dev.word _ j = 0) ∧ (_ → v'.dev.word _ j = v.dev.word _ j)
    by_cases hqp : q = p
    · subst hqp
      rw [hword]
      constructor
      · rintro ⟨j', h1, h2, hs⟩
        obtain ⟨rfl, -⟩ := suffix_cons_inj hs (List.suffix_refl _) rfl
        rw [if_pos ⟨h1, h2⟩]
      · intro hnK
        rw [if_neg fun h => hnK ⟨j, h.1, h.2, List.suffix_refl _⟩]
    · have hnode : (forest v z).node q ≠ (forest v z).node p :=
        fun e => hqp (ok.path_eq hq hp hq0 e)
      rw [Dev.word_congr (hout _ (hkeep q _ hq hq0 hK) hnode).1]
      refine ⟨?_, fun _ => rfl⟩
      rintro ⟨j', h1, h2, hs⟩
      rcases List.suffix_cons_iff.1 hs with he | hs
      · exact absurd (List.cons.inj he).2.symm hqp
      · exact absurd ⟨j', h1, h2, hs⟩ hK
  · intro b hb
    refine hout b (fun hB => ?_) fun e => hb (e ▸ ⟨h0, p, _, hp, rfl⟩)
    obtain ⟨hb0, q, i, hq, -, he⟩ := (hbelow b).1 hB
    exact hb ⟨hb0, q, i, hq, he⟩
  · intro q hq hK
    by_cases hq0 : (forest v z).node q = 0
    · refine (hout _ (fun hB => ?_) fun e => h0 (e ▸ hq0)).1
      exact ((hbelow _).1 hB).1 hq0
    · refine (hout _ (hkeep q 0 hq hq0 hK) fun e => ?_).1
      obtain rfl := ok.path_eq hq hp hq0 e
      cases hq.unique hp
  · intro q i hq hK hc
    by_cases hq0 : (forest v z).node q = 0
    · obtain ⟨h1, h2⟩ := hout _ (fun hB => ((hbelow _).1 hB).1 hq0) fun e => h0 (e ▸ hq0)
      exact hc.congr h1 (by rw [hd.disk]) fun hd => h2 ▸ hd
    · by_cases hqp : (forest v z).node q = (forest v z).node p
      · rw [hqp] at hc ⊢
        exact hcov hc
      · obtain ⟨h1, h2⟩ := hout _ (hkeep q i hq hq0 hK) hqp
        exact hc.congr h1 (by rw [hd.disk]) fun hd => h2 ▸ hd

/-- Clearing a zone word of the inode and freeing what is below it. -/
lemma Pruned.of_slot (ok : TreeOk v z) {k : Nat} (hk : k < 10)
    (hf : Freed v v' (BlockTree.Sub v.dev.word (v.dev.bs / 4) (k - 6) (z k))) :
    Pruned v v' z (Function.update z k 0) fun q => [k] <:+ q := by
  have hp : (shape v).Path [k] (k - 6) := .slot (s := shape v) hk
  have hsub : ∀ x, BlockTree.Sub v.dev.word (v.dev.bs / 4) (k - 6) (z k) x ↔
      x ≠ 0 ∧ ∃ q m, (shape v).Path q m ∧ [k] <:+ q ∧ (forest v z).node q = x :=
    fun x => sub_path_iff hp
  have hkeep : ∀ q i, (shape v).Path q i → ¬ [k] <:+ q →
      ¬ BlockTree.Sub v.dev.word (v.dev.bs / 4) (k - 6) (z k) ((forest v z).node q) := by
    intro q i hq hK hb
    obtain ⟨hq0, r, i', hr, hKr, he⟩ := (hsub _).1 hb
    exact hK (ok.path_eq hr hq (he ▸ hq0) he ▸ hKr)
  refine ⟨⟨hf.toZmapStep, hf.printk, fun x hx => ?_⟩, hf.sbi_eq, ⟨?_, ?_, ?_⟩, ?_, ?_, ?_⟩
  · rw [hf.zbit x hx, hsub]
  · exact fun q i hq => hq.trans (List.suffix_cons i q)
  · intro i _
    show (_ → Function.update z k 0 i = 0) ∧ (_ → Function.update z k 0 i = z i)
    by_cases hi : i = k
    · subst hi
      exact ⟨fun _ => Function.update_self .., fun h => absurd (List.suffix_refl _) h⟩
    · refine ⟨fun h => ?_, fun _ => Function.update_of_ne hi ..⟩
      exact absurd (suffix_cons_inj h (List.suffix_refl [i]) rfl).1.symm hi
  · intro q i j hq hj hq0 hK
    show (_ → v'.dev.word _ j = 0) ∧ (_ → v'.dev.word _ j = v.dev.word _ j)
    rw [Dev.word_congr (hf.out _ (hkeep q _ hq hK)).1]
    refine ⟨fun hs => ?_, fun _ => rfl⟩
    rcases List.suffix_cons_iff.1 hs with he | hs
    · exact absurd (List.cons.inj he).2.symm hq.ne_nil
    · exact absurd hs hK
  · intro b hb
    refine hf.out b fun hB => ?_
    obtain ⟨hb0, q, i, hq, -, he⟩ := (hsub b).1 hB
    exact hb ⟨hb0, q, i, hq, he⟩
  · exact fun q hq hK => (hf.out _ (hkeep q 0 hq hK)).1
  · intro q i hq hK hc
    obtain ⟨h1, h2⟩ := hf.out _ (hkeep q i hq hK)
    exact hc.congr h1 (by rw [hf.disk]) fun hd => h2 ▸ hd

/-- A bitmap that covers a normal area inside the device. -/
structure AreaOk (v : Vol) : Prop where
  zmap : ZmapOk v
  first : 1 < v.sbi.s_firstdatazone
  nzones_le : v.sbi.s_nzones ≤ v.dev.nblocks
  nblocks_pos : 0 < v.dev.nblocks

lemma AreaOk.step (area : AreaOk v) (h : ZmapStep v v') : AreaOk v' :=
  ⟨area.zmap.step h, by rw [h.first]; exact area.first, by rw [h.nzones, h.nblocks]; exact area.nzones_le,
    by rw [h.nblocks]; exact area.nblocks_pos⟩

lemma AreaOk.ne_zero (area : AreaOk v) {x : Nat} (hx : InArea v x) : x ≠ 0 := by
  have h1 := area.first
  have h2 := hx.1
  omega

lemma VolOk.area (ok : VolOk v) : AreaOk v := by
  refine ⟨ok.zmap, ok.first, ok.nzones_le, ?_⟩
  have h1 := ok.lay.table_in
  have h2 := ok.lay.table_pos
  exact Nat.pos_of_ne_zero fun h => by rw [h] at h1; omega

/-- A zone word of the inode and the tree below it. -/
lemma Pruned.slot (ok : TreeOk v z) (area : AreaOk v) {k : Nat} (hk : k < 10) :
    Pruned v (if z k = 0 then v else free_branches (k - 6) v (z k)) z (Function.update z k 0)
      fun q => [k] <:+ q := by
  refine .of_slot ok hk ?_
  by_cases h0 : z k = 0
  · rw [if_pos h0, h0]
    have hnone : BlockTree.Sub v.dev.word (v.dev.bs / 4) (k - 6) 0 = fun _ => False :=
      funext fun x => propext ⟨sub_zero, fun h => h.elim⟩
    rw [hnone]
    exact ⟨.of_eq (.refl v) rfl rfl, rfl, fun _ _ => ⟨rfl, rfl⟩⟩
  · rw [if_neg h0]
    exact free_branches_spec _ v (z k) h0
      (ok.freeable area.zmap area.nzones_le (.slot (s := shape v) hk))

/-- `free_idata` cuts off the direct blocks of a range. -/
lemma free_idata_spec : ∀ {n k v} {inode : Inode}, k + n ≤ 7 → TreeOk v inode.i_data → AreaOk v →
    Pruned v (free_idata n k v inode).1 inode.i_data (free_idata n k v inode).2.i_data
      (fun q => ∃ j, k ≤ j ∧ j < k + n ∧ [j] <:+ q) ∧
    (free_idata n k v inode).2 = { inode with i_data := (free_idata n k v inode).2.i_data } := by
  intro n
  induction n with
  | zero =>
    intro k v inode _ _ _
    refine ⟨(Pruned.refl v _).congr ?_ fun p n _ => ?_, rfl⟩
    · rintro p j ⟨i, h1, h2, -⟩
      omega
    · exact ⟨fun ⟨i, h1, h2, _⟩ => by omega, fun h => h.elim⟩
  | succ n ih =>
    intro k v inode hk ok area
    have hcut := Pruned.slot ok area (k := k) (by omega)
    have hstep : free_idata (n + 1) k v inode = free_idata n (k + 1)
        (if inode.i_data k = 0 then v else free_branches (k - 6) v (inode.i_data k))
        { inode with i_data := Function.update inode.i_data k 0 } := by
      rw [show k - 6 = 0 by omega]
      simp only [free_idata, free_branches]
      by_cases h0 : inode.i_data k = 0
      · rw [if_pos h0, if_pos h0]
        conv_rhs => rw [← h0, Function.update_eq_self]
      · rw [if_neg h0, if_neg h0]
        rfl
    obtain ⟨hrest, hinode⟩ := @ih (k + 1) _ { inode with
      i_data := Function.update inode.i_data k 0 } (by omega) (ok.pruned hcut)
      (area.step hcut.toZmapStep)
    rw [hstep]
    refine ⟨(hcut.trans hrest).congr ?_ fun p n _ => ?_, hinode⟩
    · rintro p j ⟨i, h1, h2, hi⟩
      exact ⟨i, h1, h2, hi.trans (List.suffix_cons j p)⟩
    · constructor
      · rintro ⟨j, h1, h2, hj⟩
        by_cases he : j = k
        · exact .inl (he ▸ hj)
        · exact .inr ⟨j, by omega, by omega, hj⟩
      · rintro (hj | ⟨j, h1, h2, hj⟩)
        · exact ⟨k, by omega, by omega, hj⟩
        · exact ⟨j, by omega, by omega, hj⟩

/-- `do_indirects` cuts off the last slots. -/
lemma do_indirects_spec : ∀ {n v} {inode : Inode}, n ≤ 3 → TreeOk v inode.i_data → AreaOk v →
    Pruned v (do_indirects n v inode).1 inode.i_data (do_indirects n v inode).2.i_data
      (fun q => ∃ j, 10 - n ≤ j ∧ j < 10 ∧ [j] <:+ q) ∧
    (do_indirects n v inode).2 = { inode with i_data := (do_indirects n v inode).2.i_data } := by
  intro n
  induction n with
  | zero =>
    intro v inode _ _ _
    refine ⟨(Pruned.refl v _).congr ?_ fun p n _ => ?_, rfl⟩
    · rintro p j ⟨i, h1, h2, -⟩
      omega
    · exact ⟨fun ⟨i, h1, h2, _⟩ => by omega, fun h => h.elim⟩
  | succ n ih =>
    intro v inode hn ok area
    have hcut := Pruned.slot ok area (k := 10 - (n + 1)) (by omega)
    have hstep : do_indirects (n + 1) v inode = do_indirects n
        (if inode.i_data (10 - (n + 1)) = 0 then v
          else free_branches (10 - (n + 1) - 6) v (inode.i_data (10 - (n + 1))))
        { inode with i_data := Function.update inode.i_data (10 - (n + 1)) 0 } := by
      simp only [do_indirects]
      by_cases h0 : inode.i_data (10 - (n + 1)) = 0
      · rw [if_pos h0, if_pos h0]
        conv_rhs => rw [← h0, Function.update_eq_self]
      · rw [if_neg h0, if_neg h0]
        rfl
    obtain ⟨hrest, hinode⟩ := @ih _ { inode with
      i_data := Function.update inode.i_data (10 - (n + 1)) 0 } (by omega) (ok.pruned hcut)
      (area.step hcut.toZmapStep)
    rw [hstep]
    refine ⟨(hcut.trans hrest).congr ?_ fun p i _ => ?_, hinode⟩
    · rintro p j ⟨i, h1, h2, hi⟩
      exact ⟨i, h1, h2, hi.trans (List.suffix_cons j p)⟩
    · constructor
      · rintro ⟨j, h1, h2, hj⟩
        by_cases he : j = 10 - (n + 1)
        · exact .inl (he ▸ hj)
        · exact .inr ⟨j, by omega, by omega, hj⟩
      · rintro (hj | ⟨j, h1, h2, hj⟩)
        · exact ⟨_, Nat.le_refl _, by omega, hj⟩
        · exact ⟨j, by omega, by omega, hj⟩

/-- The paths that branch off to the right of a path in one of its indirect blocks. -/
def RightIn (w : Nat) (p q : List Nat) : Prop :=
  ∃ i j d, d ≠ [] ∧ (i :: d) <:+ p ∧ i < j ∧ j < w ∧ (j :: d) <:+ q

lemma RightIn.down {w : Nat} {p q : List Nat} (h : RightIn w p q) (j : Nat) :
    RightIn w p (j :: q) := by
  obtain ⟨i, j', d, h1, h2, h3, h4, h5⟩ := h
  exact ⟨i, j', d, h1, h2, h3, h4, h5.trans (List.suffix_cons j q)⟩

lemma entries_congr {t t' : Forest} {p : List Nat}
    (h : ∀ q, q ≠ [] → q <:+ p → t'.node q = t.node q) : entries t' p = entries t p := by
  induction p with
  | nil => rfl
  | cons j p ih =>
    have hrest := ih fun q hq hs => h q hq (hs.trans (List.suffix_cons j p))
    rw [entries, entries, hrest]
    congr 1
    rw [entry, entry, h (j :: p) (by simp) (List.suffix_refl _)]
    cases p with
    | nil => rfl
    | cons k p => rw [ptr, ptr, h (k :: p) (by simp) (List.suffix_cons j _)]

/-- `clear_ends` cuts off what is to the right in the indirect blocks of a branch. -/
lemma clear_ends_spec : ∀ {c n k key v}, TreeOk v z → AreaOk v → (shape v).Path c (n + 1) →
    k < v.dev.bs / 4 → Live (forest v z) (k :: c) →
    Pruned v (clear_ends (⟨.word ((forest v z).node c) k, key⟩ :: entries (forest v z) c) n v) z z
      (RightIn (v.dev.bs / 4) (k :: c)) := by
  intro c
  induction c with
  | nil => exact fun _ _ hp => absurd rfl hp.ne_nil
  | cons i c ih =>
    intro n k key v ok area hp hk hlive
    have h0 : (forest v z).node (i :: c) ≠ 0 := hlive.tail.2 (by simp)
    have hbr := (ok.freeable area.zmap area.nzones_le hp).branches h0 (k := k + 1)
      (m := v.dev.bs / 4 - (k + 1)) (by omega)
    have hcl := free_words_spec (free_branches_spec n) hbr
    have hdef : clear_ends (⟨.word ((forest v z).node (i :: c)) k, key⟩ ::
        entries (forest v z) (i :: c)) n v = clear_ends (entries (forest v z) (i :: c)) (n + 1)
          { free_words (free_branches n) ((forest v z).node (i :: c)) (v.dev.bs / 4 - (k + 1))
              (k + 1) v with
            dev := (free_words (free_branches n) ((forest v z).node (i :: c))
              (v.dev.bs / 4 - (k + 1)) (k + 1) v).dev.mark_buffer_dirty
                ((forest v z).node (i :: c)) } := rfl
    rw [hdef]
    generalize free_words (free_branches n) ((forest v z).node (i :: c))
      (v.dev.bs / 4 - (k + 1)) (k + 1) v = v₁ at hcl
    -- the words of the first block are cleared and the block is marked
    have hmark : Drops v₁ { v₁ with dev := v₁.dev.mark_buffer_dirty ((forest v z).node (i :: c)) }
        fun _ => False := .of_eq ⟨rfl, rfl, rfl, rfl, rfl⟩ rfl rfl
    have hcut : Pruned v { v₁ with
        dev := v₁.dev.mark_buffer_dirty ((forest v z).node (i :: c)) } z z _ :=
      Pruned.of_words ok hp h0 hbr.le (by simpa using hcl.toDrops.trans hmark) hcl.sbi_eq
        (fun b hb hne => ⟨(hcl.out b hb hne).1,
          (Buffers.mark_dirty_of_ne _ hne).trans (hcl.out b hb hne).2⟩)
        hcl.word (fun _ => .inl (Buffers.mark_dirty_self _ _))
    generalize ({ v₁ with dev := v₁.dev.mark_buffer_dirty ((forest v z).node (i :: c)) } : Vol) = v₂
      at hcut
    cases c with
    | nil =>
      refine hcut.congr (fun p j h => h.down j) fun q m hq => ?_
      constructor
      · rintro ⟨i', j, d, hd, h1, h2, h3, h4⟩
        rcases List.suffix_cons_iff.1 h1 with he | h1
        · obtain ⟨rfl, rfl⟩ := List.cons.inj he
          exact ⟨j, by omega, by omega, h4⟩
        · rcases List.suffix_cons_iff.1 h1 with he | h1
          · exact absurd (List.cons.inj he).2 hd
          · cases List.suffix_nil.1 h1
      · rintro ⟨j, h1, h2, h3⟩
        exact ⟨k, j, _, by simp, List.suffix_refl _, by omega, by omega, h3⟩
    | cons i' c =>
      -- the blocks further up are those of the old forest
      have hsame : ∀ q, q ≠ [] → q <:+ i :: i' :: c →
          (forest v₂ z).node q = (forest v z).node q := by
        rintro q hq ⟨l, hl⟩
        have hl' : (shape v).Path (l ++ q) (n + 1) := by rw [hl]; exact hp
        obtain ⟨m, hm⟩ := hl'.of_append hq
        refine (hcut.cut.node hm).2 ?_
        rintro ⟨j, -, -, hj⟩
        have h1 := hj.length_le
        have h2 := congrArg List.length hl
        rw [List.length_append] at h2
        simp only [List.length_cons] at h1 h2
        omega
      have hshape := hcut.shape
      have hw : v₂.dev.bs / 4 = v.dev.bs / 4 := by rw [hcut.bs]
      obtain ⟨hp', hi⟩ := hp.tail (by simp)
      have hlive' : Live (forest v₂ z) (i :: i' :: c) := by
        intro q hq hs hne
        rw [hsame q hq hs]
        exact hlive.tail.1 q hq hs hne
      have hrest := @ih (n + 1) i ((forest v z).node (i :: i' :: c)) v₂ (ok.pruned hcut)
        (area.step hcut.toZmapStep) (hshape ▸ hp') (by rw [hw]; exact hi) hlive'
      rw [hsame (i' :: c) (by simp) (List.suffix_cons _ _),
        entries_congr fun q hq hs => hsame q hq (hs.trans (List.suffix_cons _ _)), hw] at hrest
      refine (hcut.trans hrest).congr (fun p j h => h.down j) fun q m hq => ?_
      constructor
      · rintro ⟨i₁, j, d, hd, h1, h2, h3, h4⟩
        rcases List.suffix_cons_iff.1 h1 with he | h1
        · obtain ⟨rfl, rfl⟩ := List.cons.inj he
          exact .inl ⟨j, by omega, by omega, h4⟩
        · exact .inr ⟨i₁, j, d, hd, h1, h2, h3, h4⟩
      · rintro (⟨j, h1, h2, h3⟩ | ⟨i₁, j, d, hd, h1, h2, h3, h4⟩)
        · exact ⟨k, j, _, by simp, List.suffix_refl _, by omega, by omega, h3⟩
        · exact ⟨i₁, j, d, hd, h1.trans (List.suffix_cons _ _), h2, h3, h4⟩

/-- The word at a place is cleared, its block marked, and the tree below it freed. -/
lemma Pruned.top (ok : TreeOk v z) (area : AreaOk v) {i n : Nat} {c : List Nat}
    (hp : (shape v).Path (i :: c) n) (hc : c ≠ []) (hlive : Live (forest v z) (i :: c)) :
    Pruned v (if (forest v z).node (i :: c) = 0 then
        { v with dev := v.dev.set_word ((forest v z).node c) i 0 }
      else free_branches n (mark_entry { v with dev := v.dev.set_word ((forest v z).node c) i 0 }
        (.word ((forest v z).node c) i)) ((forest v z).node (i :: c))) z z
      fun q => (i :: c) <:+ q := by
  have h0 : (forest v z).node c ≠ 0 := hlive.tail.2 hc
  have hnode : (forest v z).node (i :: c) = v.dev.word ((forest v z).node c) i :=
    node_cons_of_ne hc h0 i
  obtain ⟨hpc, hi⟩ := hp.tail hc
  have hi' : i < v.dev.bs / 4 := hi
  generalize hbh : (forest v z).node c = bh at *
  have hone : ∀ q, (∃ j, i ≤ j ∧ j < i + 1 ∧ (j :: c) <:+ q) ↔ (i :: c) <:+ q := by
    intro q
    constructor
    · rintro ⟨j, h1, h2, h3⟩
      obtain rfl : j = i := by omega
      exact h3
    · exact fun h => ⟨i, by omega, by omega, h⟩
  have hdown : ∀ (q : List Nat) j, (i :: c) <:+ q → (i :: c) <:+ j :: q :=
    fun q j h => h.trans (List.suffix_cons j q)
  have hword : ∀ x j, (v.dev.set_word bh i 0).word x j
      = if x = bh ∧ j = i then 0 else v.dev.word x j := fun x j => Dev.word_set_word _ (by decide) ..
  by_cases hz : (forest v z).node (i :: c) = 0
  · -- the word is zero already, and so are its bytes
    rw [if_pos hz]
    rw [hnode] at hz
    have hmem : (v.dev.set_word bh i 0).bh.mem = v.dev.bh.mem := by
      funext x
      by_cases hx : x = bh
      · subst hx
        show (v.dev.bh.set _ _).mem _ = _
        rw [Buffers.set_mem_self]
        exact put_le hz.symm
      · exact v.dev.bh.set_mem_of_ne _ hx
    have hcut : Pruned v { v with dev := v.dev.set_word bh i 0 } z z _ :=
      Pruned.of_words ok hpc (by rw [hbh]; exact h0) (k := i) (m := 1) (by omega) ?_ rfl
        (fun b _ _ => ⟨congrFun hmem b, rfl⟩) ?_ (fun hcv => hcv.congr (congrFun hmem _) rfl id)
    · exact hcut.congr hdown fun q _ _ => (hone q).symm
    · have hnone : Below v n bh i 1 = fun _ => False := by
        funext x
        exact propext ⟨fun hx => sub_zero (hz ▸ below_one.1 hx), fun h => h.elim⟩
      rw [hbh, hnone]
      exact .of_eq ⟨rfl, rfl, rfl, rfl, rfl⟩ rfl rfl
    · intro j
      rw [hbh, hword]
      exact if_congr (by simp; omega) rfl rfl
  · rw [if_neg hz]
    have htree := ok.freeable area.zmap area.nzones_le hp
    have hroot : ¬ BlockTree.Sub v.dev.word (v.dev.bs / 4) n ((forest v z).node (i :: c)) bh := by
      intro hx
      obtain ⟨-, q, m, hq, hs, he⟩ := (sub_path_iff hp).1 hx
      have := ok.path_eq hpc hq (by rw [hbh]; exact h0) (hbh.trans he.symm)
      rw [← this] at hs
      have := hs.length_le
      rw [List.length_cons] at this
      omega
    have hd : Drops v { v with dev := (v.dev.set_word bh i 0).mark_buffer_dirty bh } fun _ => False :=
      .of_eq ⟨rfl, rfl, rfl, rfl, rfl⟩ rfl rfl
    obtain ⟨htree', hsub⟩ := htree.drops hd (fun _ _ => id) fun x hx j _ => by
      show (v.dev.set_word bh i 0).word x j = _
      rw [hword]
      exact if_neg (c := x = bh ∧ j = i) fun h => hroot (h.1 ▸ hx)
    have hf := free_branches_spec n _ _ hz htree'
    have hbelow : ∀ x, Below v n bh i 1 x ↔
        BlockTree.Sub v.dev.word (v.dev.bs / 4) n ((forest v z).node (i :: c)) x := by
      intro x
      rw [below_one, hnode]
    have hcut := Pruned.of_words ok hpc (by rw [hbh]; exact h0) (k := i) (m := 1) (by omega)
      ?_ (hf.sbi_eq.trans rfl) (fun b hb hne => ?_) ?_ ?_
    · exact hcut.congr hdown fun q _ _ => (hone q).symm
    · have hall := hd.trans hf.toDrops
      refine ⟨hall.toZmapStep, hall.printk, fun x hx => ?_⟩
      rw [hall.zbit x hx, hsub, hbh, hbelow]
      tauto
    · rw [hbh] at hb hne
      obtain ⟨h1, h2⟩ := hf.out b fun hx => hb ((hbelow b).2 ((hsub b).1 hx))
      exact ⟨h1.trans (v.dev.bh.set_mem_of_ne _ hne), h2.trans (Buffers.mark_dirty_of_ne _ hne)⟩
    · intro j
      rw [hbh, Dev.word_congr (hf.out bh fun hx => hroot ((hsub bh).1 hx)).1]
      show (v.dev.set_word bh i 0).word bh j = _
      rw [hword]
      exact if_congr (by simp; omega) rfl rfl
    · intro _
      rw [hbh]
      refine .inl ?_
      rw [(hf.out bh fun hx => hroot ((hsub bh).1 hx)).2]
      exact Buffers.mark_dirty_self _ _

/-- The path of the block `find_shared` looks at, without the trailing zeroes. -/
lemma strip_zeroes_spec {k : Nat} {ks : List Nat} : ∃ c, (strip_zeroes (k :: ks)).reverse = c ++ [k] ∧
    c ++ [k] <:+ (k :: ks).reverse ∧ (∀ i d, c = i :: d → i ≠ 0) ∧
    ∀ i d, (i :: d) <:+ (k :: ks).reverse → c ++ [k] <:+ d → i = 0 := by
  refine ⟨ks.reverse.dropWhile (· == 0), by simp [strip_zeroes], ?_, ?_, ?_⟩
  · rw [List.reverse_cons]
    exact (List.suffix_append_inj_of_length_eq rfl).2 ⟨List.dropWhile_suffix _, rfl⟩
  · intro i d he h0
    have := List.head?_dropWhile_not (· == 0) ks.reverse
    rw [he] at this
    simp [h0] at this
  · intro i d h1 h2
    rw [List.reverse_cons] at h1
    obtain ⟨l, hl⟩ := h1
    have hsplit := List.takeWhile_append_dropWhile (p := (· == 0)) (l := ks.reverse)
    obtain ⟨l', rfl⟩ := h2
    have hmem : i ∈ ks.reverse.takeWhile (· == 0) := by
      have heq : l ++ i :: l' ++ (ks.reverse.dropWhile (· == 0) ++ [k])
          = ks.reverse.takeWhile (· == 0) ++ (ks.reverse.dropWhile (· == 0) ++ [k]) := by
        rw [← List.append_assoc (List.takeWhile _ _), hsplit, ← hl]
        simp
      rw [← List.append_cancel_right heq]
      simp
    simpa using List.mem_takeWhile_imp hmem

/-- `find_shared` ends at a path above the one it is given, below which nothing lies to the left, but
to the left of which something does: it is the stripped path itself and its last entry is moved back
by one, or the word at its end was cleared. -/
lemma find_shared_spec {inode : Inode} (ok : TreeOk v inode.i_data) (area : AreaOk v) {k : Nat}
    {ks : List Nat} {n : Nat} (hp : (shape v).Path (k :: ks).reverse n) :
    ∃ r, r ≠ [] ∧ r <:+ (k :: ks).reverse ∧ Live (forest v inode.i_data) r ∧
      (∀ q m, (shape v).Path q m → r <:+ q → Before q (k :: ks).reverse →
        (forest v inode.i_data).node q = 0) ∧
      (∀ i c, r = i :: c → c ≠ [] → ∃ j < i, (forest v inode.i_data).node (j :: c) ≠ 0) ∧
      ((∃ i c key, r = i :: c ∧ c ≠ [] ∧ i ≠ 0 ∧ find_shared v inode (k :: ks)
          = (v, inode, ⟨.word ((forest v inode.i_data).node c) (i - 1), key⟩ ::
              entries (forest v inode.i_data) c, 0)) ∨
        find_shared v inode (k :: ks)
          = (((ptr (forest v inode.i_data) r).set v inode 0).1,
              ((ptr (forest v inode.i_data) r).set v inode 0).2,
              entries (forest v inode.i_data) r, (forest v inode.i_data).node r)) := by
  obtain ⟨c, hstrip, hsuf, hlast, hzeroes⟩ := @strip_zeroes_spec k ks
  obtain ⟨l, hl⟩ := hsuf
  obtain ⟨m, hm⟩ := Shape.Path.of_append (hl ▸ hp : (shape v).Path (l ++ (c ++ [k])) n) (by simp)
  obtain ⟨b, hb, hbs, hlive, hend, hbranch⟩ := get_branch_spec ok area.nzones_le area.nblocks_pos hm
  obtain ⟨r, hr, hrs, hclimb, hpassed, hstop⟩ := climb_entries (v := v) (z := inode.i_data) hb
  have hsuf : c ++ [k] <:+ (k :: ks).reverse := ⟨l, hl⟩
  have hrp : r <:+ (k :: ks).reverse := hrs.trans (hbs.trans hsuf)
  have hliver : Live (forest v inode.i_data) r := by
    intro q hq hs hne
    refine hlive q hq (hs.trans hrs) fun e => hne ?_
    exact hs.eq_of_length (Nat.le_antisymm hs.length_le (e ▸ hrs.length_le))
  refine ⟨r, hr, hrp, hliver, fun q i hq hrq hbefore => ?_, fun i d he hd => ?_, ?_⟩
  · -- the place where `q` branches off lies below `r`
    obtain ⟨i₁, j₁, d, hij, h1, h2⟩ := hbefore
    have hrd : r <:+ d := by
      by_contra hn
      have hlen : d.length + 1 ≤ r.length := by
        by_contra hlt
        exact hn (List.suffix_of_suffix_length_le hrq ((List.suffix_cons _ _).trans h1) (by omega))
      have h3 := List.suffix_of_suffix_length_le h1 hrq (by simpa using hlen)
      have h4 := List.suffix_of_suffix_length_le h2 hrp (by simpa using hlen)
      have := (suffix_cons_inj h3 h4 rfl).1
      omega
    have hd : d ≠ [] := fun e => hr (List.suffix_nil.1 (e ▸ hrd))
    obtain ⟨l₁, rfl⟩ := h1
    rw [← List.reverse_reverse l₁]
    by_contra hne
    have hi₁ := node_ne_of_append (by simp) hne
    by_cases hbd : (j₁ :: d) <:+ b
    · refine hi₁ ?_
      rw [node_cons hd]
      split
      · rfl
      · exact hpassed j₁ d hbd hrd i₁ hij
    · have hbd' : b <:+ d := by
        refine List.suffix_of_suffix_length_le (hbs.trans hsuf)
          ((List.suffix_cons _ _).trans h2) ?_
        by_contra hlt
        exact hbd (List.suffix_of_suffix_length_le h2 (hbs.trans hsuf) (by simp; omega))
      rcases hend with he | h0
      · have := hzeroes j₁ d h2 (he ▸ hbd')
        omega
      · obtain ⟨l₂, rfl⟩ := hbd'
        rw [node_cons hd] at hi₁
        split at hi₁
        · exact hi₁ rfl
        · next hd0 =>
          rw [← List.reverse_reverse l₂] at hd0
          exact node_ne_of_append hb hd0 h0
  · obtain ⟨j, hj, hne⟩ := hstop i d he hd
    refine ⟨j, hj, ?_⟩
    rw [node_cons_of_ne hd ((he ▸ hliver).tail.2 hd)]
    exact hne
  · have hrev : strip_zeroes (k :: ks) = (c ++ [k]).reverse := by
      rw [← hstrip, List.reverse_reverse]
    obtain ⟨j, b', rfl⟩ := List.exists_cons_of_ne_nil hb
    obtain ⟨i, r', rfl⟩ := List.exists_cons_of_ne_nil hr
    have hlastD : ((entries (forest v inode.i_data) (j :: b')).reverse.getLastD ⟨.i_data 0, 0⟩)
        = entry (forest v inode.i_data) (j :: b') := by
      simp [entries]
    unfold find_shared
    dsimp only
    rw [hrev, hbranch]
    dsimp only
    rw [hlastD, if_neg, List.reverse_reverse, hclimb]
    · simp only [entries]
      by_cases hA : r' ≠ [] ∧ (i :: r').length = (c ++ [k]).length
      · obtain ⟨hr', hlen⟩ := hA
        have heq : i :: r' = c ++ [k] := (hrs.trans hbs).eq_of_length hlen
        refine .inl ⟨i, r', (forest v inode.i_data).node (i :: r'), rfl, hr', ?_, ?_⟩
        · obtain ⟨i', c', rfl⟩ : ∃ i' c', c = i' :: c' := by
            cases c with
            | nil => exact absurd (List.cons.inj heq).2 hr'
            | cons i' c' => exact ⟨i', c', rfl⟩
          rw [(List.cons.inj heq).1]
          exact hlast i' c' rfl
        · rw [if_pos]
          · simp only [entry, ptr_cons hr']
          · simpa [entry, ptr_cons hr'] using hlen
      · right
        have hget := ptr_get hliver (by simp)
        rw [if_neg]
        · simp only [entry, hget]
        · rintro ⟨hw, hlen⟩
          refine hA ⟨?_, by simpa using hlen⟩
          rintro rfl
          simp [entry, ptr] at hw
    · rintro ⟨h0, h1⟩
      rw [entry, ptr_get hlive (by simp)] at h1
      exact h1 h0

/-- What lies at or to the right of a path lies below it, to its right in an indirect block of its
branch, or in a later slot. -/
lemma from_iff {i : Nat} {c q : List Nat} {n : Nat} {s : Shape} (hq : s.Path q n) : From (i :: c) q ↔ (i :: c) <:+ q ∨ RightIn s.w (i :: c) q ∨
      ∃ j, (i :: c).getLast (by simp) < j ∧ j < s.r ∧ [j] <:+ q := by
  have hlt : ∀ j (d : List Nat), d ≠ [] → (j :: d) <:+ q → j < s.w := by
    rintro j d hd ⟨l, rfl⟩
    obtain ⟨m, hm⟩ := hq.of_append (by simp)
    exact (hm.tail hd).2
  have hslot : ∀ j, [j] <:+ q → j < s.r := by
    rintro j ⟨l, rfl⟩
    obtain ⟨m, hm⟩ := hq.of_append (by simp)
    cases hm with
    | slot hj => exact hj
    | word hj _ => exact absurd rfl hj.ne_nil
  have hlast : [(i :: c).getLast (by simp)] <:+ i :: c :=
    ⟨_, List.dropLast_append_getLast (by simp)⟩
  refine or_congr_right ⟨?_, ?_⟩
  · rintro ⟨i', j, d, hij, h1, h2⟩
    by_cases hd : d = []
    · subst hd
      rw [← (suffix_cons_inj hlast h1 rfl).1] at hij
      exact .inr ⟨j, hij, hslot j h2, h2⟩
    · exact .inl ⟨i', j, d, hd, h1, hij, hlt j d hd h2, h2⟩
  · rintro (⟨i', j, d, -, h1, hij, -, h2⟩ | ⟨j, hij, -, h2⟩)
    · exact ⟨i', j, d, hij, h1, h2⟩
    · exact ⟨_, j, [], hij, hlast, h2⟩

/-- After the last index, `RightIn` is what is below the path and to its right. -/
lemma rightIn_pred {w i : Nat} {c q : List Nat} (hi : i ≠ 0) (hc : c ≠ []) (hw : i < w) :
    RightIn w ((i - 1) :: c) q ↔ (i :: c) <:+ q ∨ RightIn w (i :: c) q := by
  constructor
  · rintro ⟨i', j, d, hd, h1, h2, h3, h4⟩
    rcases List.suffix_cons_iff.1 h1 with he | h1
    · obtain ⟨rfl, rfl⟩ := List.cons.inj he
      by_cases hj : j = i
      · exact .inl (hj ▸ h4)
      · exact .inr ⟨i, j, d, hd, List.suffix_refl _, by omega, h3, h4⟩
    · exact .inr ⟨i', j, d, hd, h1.trans (List.suffix_cons _ _), h2, h3, h4⟩
  · rintro (h | ⟨i', j, d, hd, h1, h2, h3, h4⟩)
    · exact ⟨i - 1, i, c, hc, List.suffix_refl _, by omega, hw, h⟩
    · rcases List.suffix_cons_iff.1 h1 with he | h1
      · obtain ⟨rfl, rfl⟩ := List.cons.inj he
        exact ⟨i' - 1, j, d, hd, List.suffix_refl _, by omega, h3, h4⟩
      · exact ⟨i', j, d, hd, h1.trans (List.suffix_cons _ _), h2, h3, h4⟩

lemma path_height {s : Shape} {l p : List Nat} {m n : Nat} (h : s.Path (l ++ p) n) (hp : s.Path p m) :
    m = n + l.length := by
  induction l generalizing n with
  | nil => exact hp.unique h
  | cons j l ih =>
    have := ih (h.tail (by simp [hp.ne_nil])).1
    rw [List.length_cons]
    omega

/-- `truncate` cuts off everything at and to the right of the path of a block, or of a block above
it with nothing else below; of the block this one hangs in something is left. -/
theorem truncate_tree_spec {inode : Inode} (ok : TreeOk v inode.i_data) (area : AreaOk v)
    {p : List Nat} (hp : (shape v).Path p 0) :
    ∃ r, r ≠ [] ∧ r <:+ p ∧ (∀ q m, (shape v).Path q m → r <:+ q → Before q p →
        (forest v inode.i_data).node q = 0) ∧
      (∀ i c, r = i :: c → c ≠ [] → ∃ j < i, (forest v inode.i_data).node (j :: c) ≠ 0) ∧
      Pruned v (truncate_tree v inode p.reverse).1 inode.i_data
        (truncate_tree v inode p.reverse).2.i_data (From r) ∧
      (truncate_tree v inode p.reverse).2 = { inode with
        i_data := (truncate_tree v inode p.reverse).2.i_data, dirty := true } := by
  obtain ⟨k, ks, hks⟩ : ∃ k ks, p.reverse = k :: ks :=
    List.exists_cons_of_ne_nil (by simpa using hp.ne_nil)
  have hrev : p = (k :: ks).reverse := by rw [← hks, List.reverse_reverse]
  rw [hks]
  subst hrev
  have hk : (shape v).Path [k] ks.length := by
    rw [List.reverse_cons] at hp
    obtain ⟨m, hm⟩ := hp.of_append (by simp)
    have := path_height hp hm
    rw [List.length_reverse, Nat.zero_add] at this
    exact this ▸ hm
  obtain ⟨hk10, hlen⟩ : k < 10 ∧ ks.length = k - 6 := hk.single
  cases ks with
  | nil =>
    -- a direct block: the rest of the direct blocks, then all indirect ones
    rw [List.length_nil] at hlen
    obtain ⟨h1, hi1⟩ := free_idata_spec (n := 7 - k) (k := k) (by omega) ok area
    have hdef : truncate_tree v inode [k] = ((do_indirects 3 (free_idata (7 - k) k v inode).1
        (free_idata (7 - k) k v inode).2).1, mark_inode_dirty (do_indirects 3
          (free_idata (7 - k) k v inode).1 (free_idata (7 - k) k v inode).2).2) := rfl
    obtain ⟨h2, hi2⟩ := do_indirects_spec (n := 3) (by omega) (ok.pruned h1)
      (area.step h1.toZmapStep)
    rw [hdef]
    refine ⟨[k], by simp, List.suffix_refl _, fun q m _ hkq hb => ?_,
      fun i c he hc => absurd (List.cons.inj he).2.symm hc, ?_, ?_⟩
    · obtain ⟨i, j, d, hij, h3, h4⟩ := hb
      have hlen := h4.length_le
      simp only [List.length_cons, List.reverse_cons, List.reverse_nil, List.nil_append,
        List.length_nil] at hlen
      have := (suffix_cons_inj h3 (h4.trans hkq) rfl).1
      omega
    · refine (h1.trans h2).congr (fun q j h => h.down j) fun q m hq => ?_
      rw [from_iff hq]
      constructor
      · rintro (h | ⟨i, j, d, hd, h3, -⟩ | ⟨j, h3, h4, h5⟩)
        · exact .inl ⟨k, Nat.le_refl _, by omega, h⟩
        · rcases List.suffix_cons_iff.1 h3 with he | h3
          · exact absurd (List.cons.inj he).2 hd
          · cases List.suffix_nil.1 h3
        · have h3 : k < j := h3
          have h4 : j < 10 := h4
          by_cases hj : j < 7
          · exact .inl ⟨j, by omega, by omega, h5⟩
          · exact .inr ⟨j, by omega, h4, h5⟩
      · rintro (⟨j, h3, h4, h5⟩ | ⟨j, h3, h4, h5⟩)
        · by_cases hj : j = k
          · exact .inl (hj ▸ h5)
          · exact .inr (.inr ⟨j, by show k < j; omega, by show j < 10; omega, h5⟩)
        · exact .inr (.inr ⟨j, by show k < j; omega, h4, h5⟩)
    · rw [mark_inode_dirty, hi2, hi1]
  | cons k' ks =>
    obtain ⟨r, hr, hrp, hlive, hleft, hstop, hcase⟩ := find_shared_spec ok area hp
    refine ⟨r, hr, hrp, hleft, hstop, ?_⟩
    obtain ⟨i, c, rfl⟩ := List.exists_cons_of_ne_nil hr
    obtain ⟨l, hl⟩ := hrp
    obtain ⟨n, hn⟩ := Shape.Path.of_append (hl ▸ hp : (shape v).Path (l ++ i :: c) 0) (by simp)
    have hheight : n = (k' :: ks).length - c.length := by
      have h1 := path_height (hl ▸ hp : (shape v).Path (l ++ i :: c) 0) hn
      have h2 := congrArg List.length hl
      simp only [List.length_append, List.length_cons, List.length_reverse] at h2 ⊢
      omega
    have hlast : (i :: c).getLast (by simp) = k := by
      have hs : [(i :: c).getLast (by simp)] <:+ (k :: k' :: ks).reverse :=
        List.IsSuffix.trans ⟨_, List.dropLast_append_getLast (by simp)⟩ ⟨l, hl⟩
      rw [List.reverse_cons] at hs
      exact (suffix_cons_inj hs (List.suffix_append _ [k]) rfl).1
    have hk7 : 7 ≤ k := by
      rw [List.length_cons] at hlen
      clear * - hlen
      omega
    -- what is done once the top is cut off
    suffices hrest : ∃ v₂ z₂, Pruned v v₂ inode.i_data z₂ (fun q => (i :: c) <:+ q ∨
        RightIn (v.dev.bs / 4) (i :: c) q) ∧ truncate_tree v inode (k :: k' :: ks)
          = ((do_indirects (9 - k) v₂ { inode with i_data := z₂ }).1,
            mark_inode_dirty (do_indirects (9 - k) v₂ { inode with i_data := z₂ }).2) by
      obtain ⟨v₂, z₂, h1, hdef⟩ := hrest
      have hk3 : 9 - k ≤ 3 := by clear * - hk7; omega
      obtain ⟨h2, hi2⟩ := @do_indirects_spec (9 - k) v₂ { inode with i_data := z₂ } hk3
        (ok.pruned h1) (area.step h1.toZmapStep)
      rw [hdef]
      refine ⟨(h1.trans h2).congr (fun q j h => h.down j) fun q m hq => ?_, ?_⟩
      · rw [from_iff hq, hlast, or_assoc]
        refine or_congr_right (or_congr_right (exists_congr fun j => ?_))
        refine and_congr_left fun _ => ?_
        clear * - hk7 hk10
        omega
      · rw [mark_inode_dirty, hi2]
    rcases hcase with ⟨i', c', key, he, hc, hi, hfind⟩ | hfind
    · -- the last index is moved back: the words from it on are cleared
      obtain ⟨rfl, rfl⟩ := List.cons.inj he
      obtain ⟨hpc, hiw⟩ := hn.tail hc
      have hlive' : Live (forest v inode.i_data) ((i - 1) :: c) :=
        hlive.tail.1.cons hlive.tail.2 _
      have hcut := @clear_ends_spec inode.i_data c n (i - 1) key v ok area hpc
        (by have : i < v.dev.bs / 4 := hiw; omega) hlive'
      refine ⟨_, inode.i_data, hcut.congr ?_ fun q m _ => (rightIn_pred hi hc hiw).symm, ?_⟩
      · exact fun q j h => h.imp (fun h => h.trans (List.suffix_cons j q)) fun h => h.down j
      · unfold truncate_tree
        simp only [hfind, List.headD_cons, List.length_cons, entries_length, if_pos]
        rw [hheight]
        rfl
    · cases c with
      | nil =>
        -- the whole tree of a slot
        have hcut := Pruned.slot ok area (k := i) hn.single.1
        obtain rfl : i = k := hlast
        refine ⟨_, _, hcut.congr ?_ fun q m _ => ?_, ?_⟩
        · exact fun q j h => h.imp (fun h => h.trans (List.suffix_cons j q)) fun h => h.down j
        · refine or_iff_left ?_
          rintro ⟨i', j, d, hd, h3, -⟩
          rcases List.suffix_cons_iff.1 h3 with he | h3
          · exact absurd (List.cons.inj he).2 hd
          · cases List.suffix_nil.1 h3
        · unfold truncate_tree
          simp only [hfind]
          rw [show (k' :: ks).length - ((entries (forest v inode.i_data) [i]).length - 1) = i - 6 by
            rw [entries_length]; exact hlen]
          rfl
      | cons i' c =>
        -- the tree below a word of an indirect block, then the ends of the blocks above
        have hcut := Pruned.top ok area hn (by simp) hlive
        obtain ⟨hpc, hiw⟩ := hn.tail (by simp)
        generalize hv₁ : (if (forest v inode.i_data).node (i :: i' :: c) = 0 then _ else _ : Vol) = v₁
          at hcut
        have hsame : ∀ q, q ≠ [] → q <:+ i' :: c →
            (forest v₁ inode.i_data).node q = (forest v inode.i_data).node q := by
          rintro q hq ⟨l', hl'⟩
          obtain ⟨m, hm⟩ := Shape.Path.of_append (hl' ▸ hpc : (shape v).Path (l' ++ q) _) hq
          refine (hcut.cut.node hm).2 fun hs => ?_
          have h1 := hs.length_le
          have h2 := congrArg List.length hl'
          simp only [List.length_append, List.length_cons] at h1 h2
          omega
        have hlive₁ : Live (forest v₁ inode.i_data) (i :: i' :: c) := by
          refine Live.cons (fun q hq hs hne => ?_) (fun h => ?_) i
          · rw [hsame q hq hs]
            exact hlive.tail.1 q hq hs hne
          · rw [hsame _ h (List.suffix_refl _)]
            exact hlive.tail.2 h
        have hends := @clear_ends_spec inode.i_data (i' :: c) n i
          ((forest v inode.i_data).node (i :: i' :: c)) v₁ (ok.pruned hcut)
          (area.step hcut.toZmapStep) (hcut.shape ▸ hpc) (by rw [hcut.bs]; exact hiw) hlive₁
        rw [hsame _ (by simp) (List.suffix_refl _), entries_congr hsame, hcut.bs] at hends
        refine ⟨_, inode.i_data, (hcut.trans hends).congr ?_ fun q m _ => Iff.rfl, ?_⟩
        · exact fun q j h => h.imp (fun h => h.trans (List.suffix_cons j q)) fun h => h.down j
        · unfold truncate_tree
          simp only [hfind]
          rw [← hv₁, hheight, entries_length]
          rfl

end CominixFs
