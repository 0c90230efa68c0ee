import CominixFs.InodeBlocks
import CominixFs.MountLayout

/-!
# Marked buffers

Mapping a block and zeroing the rest of the last one change no buffer without marking it (`Marks`), so
the data blocks of an inode stay on the device or marked (`Got.covered`, `truncate_covered`).
-/

namespace CominixFs
open Bytes Forest

/-- The buffers that are not marked are those of before. -/
def Marks (d d' : Dev) : Prop := ∀ b,
  d'.bh.mem b = d.bh.mem b ∧ d'.bh.dirty b = d.bh.dirty b ∨ d'.bh.dirty b = true

variable {d d' d'' : Dev} {v v' : Vol} {inode inode' : Inode} {z : Nat → Nat}

namespace Marks

lemma refl (d : Dev) : Marks d d := fun _ => .inl ⟨rfl, rfl⟩

lemma trans (h : Marks d d') (h' : Marks d' d'') : Marks d d'' := by
  intro b
  cases h' b with
  | inr hd => exact .inr hd
  | inl hs =>
    cases h b with
    | inr hd => exact .inr (hs.2.trans hd)
    | inl hs₀ => exact .inl ⟨hs.1.trans hs₀.1, hs.2.trans hs₀.2⟩

lemma store_mark (d : Dev) (nr : Nat) (m : Mem) : Marks d ((d.store nr m).mark_buffer_dirty nr) := by
  intro b
  by_cases hb : b = nr
  · subst hb
    exact .inr (Buffers.mark_dirty_self _ _)
  · exact .inl ⟨Buffers.set_mem_of_ne _ _ hb, Buffers.mark_dirty_of_ne _ hb⟩

lemma covered (h : Marks d d') (hdisk : d'.bh.disk = d.bh.disk) {b : Nat} (hb : d.bh.Covered b) :
    d'.bh.Covered b := by
  cases h b with
  | inl hs => exact hb.congr hs.1 (by rw [hdisk]) fun hd => hs.2.trans hd
  | inr hd => exact .inl hd

end Marks

/-! ## Mapping a block -/

variable {getblk : Nat → Bool}

lemma new_block_dev {nr : Nat} (h : cominix_new_block v = (v', nr)) : v'.dev = v.dev :=
  (new_block_loop_area _ _ h).2.1

/-- The new indirect blocks are marked. -/
lemma alloc_loop_marks : ∀ {offsets v parent branch branch'},
    alloc_loop getblk offsets v parent branch = (v', branch', none) → Marks v.dev v'.dev := by
  intro offsets
  induction offsets with
  | nil =>
    intro v parent branch branch' h
    cases h
    exact .refl _
  | cons off offsets ih =>
    intro v parent branch branch' h
    unfold alloc_loop at h
    cases hnew : cominix_new_block v with
    | mk v₁ nr =>
      simp only [hnew] at h
      split at h
      · cases h
      · split at h
        · have hrest := ih h
          have hdev := new_block_dev hnew
          dsimp only at hrest
          rw [hdev] at hrest
          exact (Marks.store_mark _ _ _).trans hrest
        · cases h

lemma alloc_branch_marks {where_ : Indirect} {offsets : List Nat} {branch : List Indirect}
    (h : alloc_branch getblk v where_ offsets = (v', branch, none)) : Marks v.dev v'.dev := by
  unfold alloc_branch at h
  cases hnew : cominix_new_block v with
  | mk v₁ parent =>
    simp only [hnew] at h
    split at h
    · cases h
    · split at h
      · rename_i v₂ branch₂ hloop
        cases h
        have := alloc_loop_marks hloop
        rwa [new_block_dev hnew] at this
      · cases h

lemma splice_branch_marks {chain branch : List Indirect} {where_ : Indirect}
    (h : splice_branch v inode chain branch where_ = (v', inode', true)) : Marks v.dev v'.dev := by
  unfold splice_branch at h
  split at h
  · cases hp : where_.p with
    | i_data k =>
      simp only [hp, Ptr.set, mark_entry] at h
      cases h
      exact .refl _
    | word bh k =>
      simp only [hp, Ptr.set, mark_entry] at h
      cases h
      exact .store_mark _ _ _
  · cases h

/-- More fuel does not change what `get_block` returns. -/
lemma get_block_loop_mono {create : Bool} {offsets : List Nat} {r : Vol × Inode × GetBlock} :
    ∀ {fuel v inode}, get_block_loop getblk create offsets fuel v inode = some r →
      get_block_loop getblk create offsets (fuel + 1) v inode = some r := by
  intro fuel
  induction fuel with
  | zero =>
    intro v inode h
    cases h
  | succ fuel ih =>
    intro v inode h
    rw [get_block_loop] at h ⊢
    dsimp only at h ⊢
    split at h
    · cases h
    · rename_i h1
      rw [if_neg h1]
      split at h
      · rename_i h2
        rw [if_pos h2]
        exact h
      · rename_i h2
        rw [if_neg h2]
        split at h
        · rename_i h3
          rw [if_pos h3]
          exact h
        · rename_i h3
          rw [if_neg h3]
          split at h
          · rename_i h4
            rw [if_pos h4]
            exact ih h
          · rename_i h4
            rw [if_neg h4]
            split at h
            · exact h
            · split at h
              · exact ih h
              · exact h

lemma get_block_loop_le {create : Bool} {offsets : List Nat} {r : Vol × Inode × GetBlock} {fuel : Nat}
    (h : get_block_loop getblk create offsets 1 v inode = some r) :
    get_block_loop getblk create offsets (fuel + 1) v inode = some r := by
  induction fuel with
  | zero => exact h
  | succ fuel ih => exact get_block_loop_mono ih

/-- A `get_block` that maps a new block marks what it writes. -/
lemma get_block_once_marks {create : Bool} {offsets : List Nat} {nr : Nat}
    (h : get_block_loop getblk create offsets 1 v inode = some (v', inode', .mapped nr true)) :
    Marks v.dev v'.dev := by
  rw [get_block_loop] at h
  dsimp only at h
  split at h
  · cases h
  split at h
  · cases h
  split at h
  · split at h <;> cases h
  split at h
  · cases h
  split at h
  · cases h
  · rename_i v₁ branch halloc
    split at h
    · cases h
    · rename_i v₂ inode₂ hsplice
      cases h
      exact (alloc_branch_marks halloc).trans (splice_branch_marks hsplice)

lemma get_block_marks {create : Bool} {block nr : Nat} (ok : TreeOk v inode.i_data) (area : AreaOk v)
    (size : SizeOk v) (hin : Within v block)
    (h : get_block getblk v inode block create = some (v', inode', .mapped nr true)) :
    Marks v.dev v'.dev := by
  have hp := block_path_spec size hin
  have hrev : block_to_path v block = (block_path v block).reverse := by
    rw [block_path, List.reverse_reverse]
  obtain ⟨g, hg, -⟩ := @get_block_loop_spec v inode getblk create 0 ok area _ hp
  unfold get_block at h
  cases hpath : block_to_path v block with
  | nil =>
    rw [hpath] at h
    cases h
  | cons k ks =>
    rw [hpath] at h hrev
    dsimp only at h
    rw [← hrev] at hg
    have hmany := @get_block_loop_le v inode getblk create (k :: ks) g (2 ^ 32 - 1) hg
    rw [show 2 ^ 32 - 1 + 1 = 2 ^ 32 by norm_num, h] at hmany
    cases hmany
    exact get_block_once_marks hg

/-- Without `create`, `get_block` changes nothing. -/
lemma get_block_find {block : Nat} {g : GetBlock}
    (h : get_block getblk v inode block false = some (v', inode', g)) : v' = v := by
  have hloop : ∀ {offsets fuel v}, get_block_loop getblk false offsets fuel v inode
      = some (v', inode', g) → v' = v := by
    intro offsets fuel v h
    cases fuel with
    | zero => cases h
    | succ fuel =>
      rw [get_block_loop] at h
      dsimp only at h
      split at h
      · cases h
      split at h
      · cases h
        rfl
      · rw [if_pos (by rfl)] at h
        split at h <;> · cases h; rfl
  unfold get_block at h
  cases hpath : block_to_path v block with
  | nil =>
    rw [hpath] at h
    cases h
    rfl
  | cons k ks =>
    rw [hpath] at h
    exact hloop h

/-! ## Truncating -/

/-- The blocks of a tree are marked when its data blocks are. -/
lemma TreeOk.all_covered (ok : TreeOk v z) (hleaf : ∀ p, (shape v).Path p 0 →
    (forest v z).node p ≠ 0 → v.dev.bh.Covered ((forest v z).node p)) {x : Nat}
    (hx : TreeZone v z x) : v.dev.bh.Covered x := by
  obtain ⟨h0, p, n, hp, rfl⟩ := hx
  cases n with
  | zero => exact hleaf p hp h0
  | succ n => exact ok.covered p n hp h0

lemma block_truncate_page_marks (h : block_truncate_page v inode = some v') :
    Marks v.dev v'.dev := by
  unfold block_truncate_page at h
  dsimp only at h
  split at h
  · cases h
    exact .refl _
  · split at h
    · cases h
    · rename_i hg
      obtain rfl := get_block_find hg
      split at h
      · cases h
        exact .refl _
      · cases h
        exact .store_mark _ _ _
    · rename_i hg
      obtain rfl := get_block_find hg
      cases h
      exact .refl _

/-- A truncation leaves the blocks of an inode on the device or marked. -/
lemma truncate_covered (ok : TreeOk v inode.i_data) (area : AreaOk v) (size : SizeOk v)
    (hsize : inode.i_size < 2 ^ 63) (h : truncate v inode = some (v', inode'))
    (hcov : ∀ x, TreeZone v inode.i_data x → v.dev.bh.Covered x) :
    ∀ x, TreeZone v' inode'.i_data x → v'.dev.bh.Covered x := by
  obtain ⟨v₁, hpage, hstep₁, ok₁, hnode, -⟩ := block_truncate_page_spec ok area size hsize
  have hmarks := block_truncate_page_marks hpage
  have hleaf₁ : ∀ p, (shape v₁).Path p 0 → (forest v₁ inode.i_data).node p ≠ 0 →
      v₁.dev.bh.Covered ((forest v₁ inode.i_data).node p) := by
    intro p hp h0
    rw [hstep₁.shape] at hp
    rw [hnode p 0 hp] at h0 ⊢
    exact hmarks.covered hstep₁.disk (hcov _ ⟨h0, p, 0, hp, rfl⟩)
  obtain ⟨v₂, inode₂, hrun, ⟨-, -, r, -, -, -, -, hcut⟩ | ⟨-, rfl, rfl⟩⟩ :=
    truncate_cut size hsize hpage ok₁ (area.step hstep₁.toZmapStep) hstep₁.toSameMount hstep₁.sbi_eq
  · rw [h] at hrun
    cases hrun
    refine fun x => (ok₁.pruned hcut).all_covered fun p hp h0 => ?_
    rw [hcut.shape] at hp
    obtain ⟨hgone, hkeep⟩ := hcut.cut.node hp
    by_cases hK : From r p
    · exact absurd (hgone hK) h0
    · rw [hkeep hK] at h0 ⊢
      exact hcut.kept p 0 hp hK (hleaf₁ p hp h0)
  · rw [h] at hrun
    cases hrun
    exact fun x => ok₁.all_covered hleaf₁

end CominixFs
