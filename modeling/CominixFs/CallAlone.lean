import CominixFs.ConcurrentBlocks

/-!
# A call of `get_block` alone

A call whose steps are not interleaved with others does what `get_block` does
(`get_block_alone`): the walk down the tree is `get_branch`, the allocations are `alloc_branch`, and
what a branch that is given up leaves behind is `free_branch`.
-/

namespace CominixFs
open Bitmap

/-- Steps of one call alone. -/
def GetSteps (r : GetRun) : Vol × Inode × GetPc → Vol × Inode × GetPc → Prop :=
  Relation.ReflTransGen fun t t' => get_step t.1 t.2.1 { r with pc := t.2.2 } = some t'

/-- Where a call is after `get_branch` has returned. -/
def after_branch (create : Bool) (offsets : List Nat) (b : Branch) : GetPc :=
  let partial_ := b.chain.getLastD ⟨.i_data 0, 0⟩
  if b.found then .done (.mapped partial_.key false)
  else if !create || b.err == some Errno.EIO then
    .done (match b.err with | none => .hole | some err => .failed err)
  else if b.err == some .EAGAIN then .reread
  else .alloc 0 b.chain.dropLast partial_.p (offsets.drop b.chain.length)

variable {v v' : Vol} {inode inode' : Inode} {r : GetRun} {chain branch branch' : List Indirect}
  {offsets path : List Nat} {e : Indirect} {parent : Nat}

/-! ## The walk down the tree -/

/-- A hole was found. -/
lemma after_hole (create : Bool) : after_branch create path ⟨chain ++ [e], false, none⟩
    = if create then .alloc 0 chain e.p (path.drop (chain.length + 1)) else .done .hole := by
  cases create with
  | false => rfl
  | true =>
    unfold after_branch
    dsimp only
    rw [List.getLastD_concat, List.dropLast_concat, List.length_append]
    rfl

lemma after_found (create : Bool) : after_branch create path ⟨chain ++ [e], true, none⟩
    = .done (.mapped e.key false) := by
  unfold after_branch
  dsimp only
  rw [List.getLastD_concat]
  rfl

lemma after_changed (create : Bool) : after_branch create path ⟨chain ++ [e], false, some .EAGAIN⟩
    = if create then .reread else .done (.failed .EAGAIN) := by
  cases create with
  | false => rfl
  | true => rfl

lemma after_read_error (create : Bool) : after_branch create path ⟨chain ++ [e], false, some Errno.EIO⟩
    = .done (.failed Errno.EIO) := by
  cases create with
  | false => rfl
  | true => rfl

/-- The steps down from an entry are the loop of `get_branch`. -/
lemma branch_steps (hpath : path.drop (chain.length + 1) = offsets) :
    GetSteps r (v, inode, seen_entry r.create chain e offsets)
      (v, inode, after_branch r.create path (get_branch_loop v inode chain e offsets)) := by
  induction offsets generalizing chain e with
  | nil =>
    rw [get_branch_loop, seen_entry]
    by_cases h0 : e.key = 0
    · rw [if_pos h0, h0, show ((0 : Nat) != 0) = false from rfl, after_hole, hpath]
      exact .refl
    · rw [if_neg h0, show (e.key != 0) = true by simpa using h0, after_found]
      exact .refl
  | cons off offsets ih =>
    rw [get_branch_loop, seen_entry]
    by_cases h0 : e.key = 0
    · rw [if_pos h0, if_pos h0, after_hole, hpath]
      exact .refl
    · rw [if_neg h0, if_neg h0]
      by_cases hblk : v.dev.nblocks ≤ e.key
      · rw [if_pos hblk, after_read_error]
        refine .single ?_
        unfold get_step
        dsimp only
        rw [if_pos hblk]
      · rw [if_neg hblk]
        by_cases hverify : verify_chain v inode (chain ++ [e]) = true
        · rw [if_pos hverify]
          refine .head ?_ (ih ?_)
          · unfold get_step
            dsimp only
            rw [if_neg hblk, if_pos hverify]
            rfl
          · rw [List.length_append, List.length_singleton, ← List.tail_drop, hpath]
            rfl
        · rw [if_neg hverify, after_changed]
          refine .single ?_
          unfold get_step
          dsimp only
          rw [if_neg hblk, if_neg hverify]

/-! ## The allocations -/

/-- The passes over the bitmap blocks are the loop of `cominix_new_block`. -/
lemma new_block_scan (v : Vol) : ∃ i, (∀ k < i, scan_block v k = none) ∧
    scan_block v i = some (cominix_new_block v) := by
  have key : ∀ n i, i + n = v.sbi.s_zmap_blocks → (∀ k < i, scan_block v k = none) →
      ∃ j, (∀ k < j, scan_block v k = none) ∧ scan_block v j = some (new_block_loop v n i) := by
    intro n
    induction n with
    | zero =>
      intro i hi hnone
      refine ⟨i, hnone, ?_⟩
      unfold scan_block
      rw [if_pos (show v.sbi.s_zmap_blocks ≤ i from Nat.le_of_eq hi.symm)]
      rfl
    | succ n ih =>
      intro i hi hnone
      unfold new_block_loop
      dsimp only
      by_cases hj : find_first_zero_bit (v.s_zmap.mem i) (bits_per_zone v.dev) < bits_per_zone v.dev
      · refine ⟨i, hnone, ?_⟩
        unfold scan_block
        rw [if_neg (by omega)]
        dsimp only
        rw [if_pos hj, if_pos hj]
        split <;> rfl
      · rw [if_neg hj]
        refine ih (i + 1) (by omega) fun k hk => ?_
        rcases Nat.lt_succ_iff_lt_or_eq.1 hk with hlt | rfl
        · exact hnone k hlt
        · unfold scan_block
          rw [if_neg (by omega)]
          exact if_neg hj
  exact key _ 0 (Nat.zero_add _) fun k hk => absurd hk (Nat.not_lt_zero k)

/-- A search goes over the bitmap blocks that are full. -/
lemma search_steps {pc : Nat → GetPc} {i : Nat}
    (hstep : ∀ k, scan_block v k = none →
      get_step v inode { r with pc := pc k } = some (v, inode, pc (k + 1)))
    (hnone : ∀ k < i, scan_block v k = none) : GetSteps r (v, inode, pc 0) (v, inode, pc i) := by
  induction i with
  | zero => exact .refl
  | succ i ih =>
    refine .tail (ih fun k hk => hnone k (Nat.lt_succ_of_lt hk)) (hstep i (hnone i (Nat.lt_succ_self i)))

/-- The zones of a branch that is given up are freed one by one. -/
lemma undo_steps {err : Option Errno} (zones : List Nat) : GetSteps r (v, inode, .undo zones err)
    (zones.foldl cominix_free_block v, inode,
      match err with | none => .reread | some err => .done (.failed err)) := by
  induction zones generalizing v with
  | nil =>
    cases err with
    | none => exact .single rfl
    | some err => exact .single rfl
  | cons nr zones ih => exact .head rfl ih

/-- A branch that is given up is what `free_branch` leaves. -/
lemma free_branch_steps {err : Option Errno} : GetSteps r
    ((give_up v branch err).1, inode, (give_up v branch err).2)
    (free_branch v branch, inode, match err with | none => .reread | some err => .done (.failed err)) := by
  have h := @undo_steps (branch.tail.foldl bforget_entry v) inode r err (branch.map Indirect.key)
  rw [List.foldl_map] at h
  exact h

/-- The steps of the allocations are the loop of `alloc_branch`. -/
lemma alloc_steps (hlast : (branch.getLastD ⟨.i_data 0, 0⟩).key = parent) :
    GetSteps r (v, inode, .grow 0 chain branch parent offsets)
      (match alloc_loop r.getblk offsets v parent branch with
        | (v, branch, none) =>
          (v, inode, .grow 0 chain branch (branch.getLastD ⟨.i_data 0, 0⟩).key [])
        | (v, branch, some err) => (free_branch v branch, inode, .done (.failed err))) := by
  induction offsets generalizing v parent branch with
  | nil =>
    rw [alloc_loop]
    dsimp only
    rw [hlast]
    exact .refl
  | cons off offsets ih =>
    rw [alloc_loop]
    obtain ⟨i, hnone, hn⟩ := new_block_scan v
    have hsearch : GetSteps r (v, inode, .grow 0 chain branch parent (off :: offsets))
        (v, inode, .grow i chain branch parent (off :: offsets)) := by
      refine @search_steps v inode r (.grow · chain branch parent (off :: offsets)) i (fun k hk => ?_) hnone
      unfold get_step
      dsimp only
      rw [hk]
    refine hsearch.trans ?_
    generalize cominix_new_block v = n at hn
    obtain ⟨v₁, nr⟩ := n
    dsimp only
    by_cases h0 : nr = 0
    · rw [if_pos h0]
      refine .head ?_ (@free_branch_steps _ _ _ _ (some .ENOSPC))
      unfold get_step
      dsimp only
      rw [hn]
      dsimp only
      rw [if_pos h0]
    · rw [if_neg h0]
      by_cases hget : r.getblk parent = true
      · rw [if_pos hget]
        refine .head ?_ (ih ?_)
        · unfold get_step
          dsimp only
          rw [hn]
          dsimp only
          rw [if_neg h0, if_pos hget]
        · rw [List.getLastD_concat]
      · rw [if_neg hget]
        refine .head (b := (v₁, inode, .no_buffer nr branch)) ?_ (.head rfl ?_)
        · unfold get_step
          dsimp only
          rw [hn]
          dsimp only
          rw [if_neg h0, if_neg hget]
        · exact @free_branch_steps _ _ _ _ (some .ENOMEM)

/-- The steps of the allocations are `alloc_branch`. -/
lemma alloc_branch_steps {where_ : Indirect} : GetSteps r (v, inode, .alloc 0 chain where_.p offsets)
    (match alloc_branch r.getblk v where_ offsets with
      | (v, _, some err) => (v, inode, .done (.failed err))
      | (v, branch, none) =>
        (v, inode, .grow 0 chain branch (branch.getLastD ⟨.i_data 0, 0⟩).key [])) := by
  unfold alloc_branch
  obtain ⟨i, hnone, hn⟩ := new_block_scan v
  have hsearch : GetSteps r (v, inode, .alloc 0 chain where_.p offsets)
      (v, inode, .alloc i chain where_.p offsets) := by
    refine @search_steps v inode r (.alloc · chain where_.p offsets) i (fun k hk => ?_) hnone
    unfold get_step
    dsimp only
    rw [hk]
  refine hsearch.trans ?_
  generalize cominix_new_block v = n at hn
  obtain ⟨v₁, parent⟩ := n
  dsimp only
  by_cases h0 : parent = 0
  · rw [if_pos h0]
    refine .single ?_
    unfold get_step
    dsimp only
    rw [hn]
    dsimp only
    rw [if_pos h0]
  · rw [if_neg h0]
    refine .head (b := (v₁, inode, .grow 0 chain [⟨where_.p, parent⟩] parent offsets)) ?_ ?_
    · unfold get_step
      dsimp only
      rw [hn]
      dsimp only
      rw [if_neg h0]
    · have h := @alloc_steps v₁ inode r chain [⟨where_.p, parent⟩] offsets parent rfl
      generalize alloc_loop r.getblk offsets v₁ parent [⟨where_.p, parent⟩] = l at h ⊢
      obtain ⟨v₂, branch, err⟩ := l
      cases err with
      | none => exact h
      | some err => exact h

/-- The last step is `splice_branch`. -/
lemma splice_steps : GetSteps r (v, inode, .grow 0 chain branch parent [])
    (match splice_branch v inode chain branch (branch.headD ⟨.i_data 0, 0⟩) with
      | (v, inode, false) => (v, inode, .reread)
      | (v, inode, true) => (v, inode, .done (.mapped parent true))) := by
  unfold splice_branch
  by_cases h : (verify_chain v inode chain &&
      (branch.headD ⟨.i_data 0, 0⟩).p.get v inode == 0) = true
  · rw [if_pos h]
    refine .single ?_
    unfold get_step
    dsimp only
    rw [if_pos h]
  · rw [if_neg h]
    refine .head ?_ (@free_branch_steps _ _ _ _ none)
    unfold get_step
    dsimp only
    rw [if_neg h]

/-! ## The whole call -/

/-- The superblock and the block size are the same. -/
def SameSuper (v v' : Vol) : Prop :=
  v'.sbi = v.sbi ∧ v'.dev.s_blocksize_bits = v.dev.s_blocksize_bits

lemma SameSuper.trans {v'' : Vol} (h : SameSuper v v') (h' : SameSuper v' v'') : SameSuper v v'' :=
  ⟨h'.1.trans h.1, h'.2.trans h.2⟩

lemma scan_block_super {i nr : Nat} (h : scan_block v i = some (v', nr)) : SameSuper v v' := by
  unfold scan_block at h
  dsimp only at h
  split at h
  · cases h
    exact ⟨rfl, rfl⟩
  · split at h
    · cases h
      exact ⟨rfl, rfl⟩
    · cases h

lemma free_block_super (v : Vol) (nr : Nat) : SameSuper v (cominix_free_block v nr) := by
  unfold cominix_free_block
  dsimp only
  split
  · exact ⟨rfl, rfl⟩
  · split <;> exact ⟨rfl, rfl⟩

lemma give_up_super (v : Vol) (branch : List Indirect) (err : Option Errno) :
    SameSuper v (give_up v branch err).1 := by
  obtain ⟨h, -, -, hsbi, -⟩ := @forget_spec branch.tail v
  exact ⟨hsbi, h.bits⟩

/-- A step leaves the superblock as it is. -/
lemma get_step_super {pc' : GetPc} (h : get_step v inode r = some (v', inode', pc')) :
    SameSuper v v' := by
  obtain ⟨ino, block, create, getblk, pc⟩ := r
  cases pc with
  | reread =>
    unfold get_step at h
    dsimp only at h
    split at h
    · cases h
      exact ⟨rfl, rfl⟩
    · split at h
      · cases h
      · cases h
        exact ⟨rfl, rfl⟩
  | read chain e offsets =>
    unfold get_step at h
    dsimp only at h
    split at h
    · cases h
      exact ⟨rfl, rfl⟩
    · split at h
      · cases h
        exact ⟨rfl, rfl⟩
      · cases h
        exact ⟨rfl, rfl⟩
  | alloc i chain where_ offsets =>
    unfold get_step at h
    dsimp only at h
    split at h
    · cases h
      exact ⟨rfl, rfl⟩
    · next hscan =>
      have hnew := scan_block_super hscan
      split at h
      · cases h
        exact hnew
      · cases h
        exact hnew
  | grow i chain branch parent offsets =>
    cases offsets with
    | nil =>
      unfold get_step at h
      dsimp only at h
      split at h
      · cases h
        cases (branch.headD ⟨.i_data 0, 0⟩).p with
        | i_data k => exact ⟨rfl, rfl⟩
        | word b k => exact ⟨rfl, rfl⟩
      · cases h
        exact give_up_super v branch none
    | cons off offsets =>
      unfold get_step at h
      dsimp only at h
      split at h
      · cases h
        exact ⟨rfl, rfl⟩
      · next hscan =>
        have hnew := scan_block_super hscan
        split at h
        · cases h
          exact hnew.trans (give_up_super _ branch _)
        · split at h
          · cases h
            exact hnew
          · cases h
            exact hnew
  | no_buffer nr branch =>
    cases h
    exact (free_block_super v nr).trans (give_up_super _ branch (some .ENOMEM))
  | undo zones err =>
    cases zones with
    | nil =>
      cases err with
      | none =>
        cases h
        exact ⟨rfl, rfl⟩
      | some err =>
        cases h
        exact ⟨rfl, rfl⟩
    | cons nr zones =>
      cases h
      exact free_block_super v nr
  | done g => cases h

lemma GetSteps.super {t t' : Vol × Inode × GetPc} (h : GetSteps r t t') : SameSuper t.1 t'.1 := by
  induction h with
  | refl => exact ⟨rfl, rfl⟩
  | tail _ hstep ih => exact ih.trans (get_step_super hstep)

/-- What `get_block` does, the steps of a call alone do. -/
lemma loop_steps {k : Nat} {g : GetBlock} (fuel : Nat) (hpath : block_to_path v r.block = k :: offsets)
    (h : get_block_loop r.getblk r.create (k :: offsets) fuel v inode = some (v', inode', g)) :
    GetSteps r (v, inode, .reread) (v', inode', .done g) := by
  induction fuel generalizing v inode with
  | zero => cases h
  | succ fuel ih =>
    rw [get_block_loop] at h
    by_cases hone : inode.i_data 0 = 1 ∨ inode.i_data 1 = 1
    · rw [if_pos hone] at h
      cases h
    · rw [if_neg hone] at h
      have hdown : GetSteps r (v, inode, .reread) (v, inode, after_branch r.create (k :: offsets)
          (get_branch v inode (k :: offsets))) := by
        refine .head ?_ (@branch_steps v inode r [] _ (k :: offsets) _ rfl)
        unfold get_step
        dsimp only
        rw [hpath]
        dsimp only
        rw [if_neg hone]
        rfl
      generalize get_branch v inode (k :: offsets) = b at h hdown
      -- a call that starts again is one that has just begun
      have hagain : ∀ {v₁ inode₁}, GetSteps r (v, inode, .reread) (v₁, inode₁, .reread) →
          get_block_loop r.getblk r.create (k :: offsets) fuel v₁ inode₁ = some (v', inode', g) →
          GetSteps r (v, inode, .reread) (v', inode', .done g) := by
        intro v₁ inode₁ hsteps h
        refine hsteps.trans (ih ?_ h)
        rw [block_to_path_congr hsteps.super.1 hsteps.super.2, hpath]
      unfold after_branch at hdown
      dsimp only at h hdown
      by_cases hfound : b.found = true
      · rw [if_pos hfound] at h hdown
        cases h
        exact hdown
      · rw [if_neg hfound] at h hdown
        by_cases hend : (!r.create || b.err == some Errno.EIO) = true
        · rw [if_pos hend] at h hdown
          cases h
          exact hdown
        · rw [if_neg hend] at h hdown
          by_cases hEAGAIN : (b.err == some .EAGAIN) = true
          · rw [if_pos hEAGAIN] at h hdown
            exact hagain hdown h
          · rw [if_neg hEAGAIN] at h hdown
            have halloc := hdown.trans (@alloc_branch_steps v inode r b.chain.dropLast
              ((k :: offsets).drop b.chain.length) (b.chain.getLastD ⟨.i_data 0, 0⟩))
            generalize alloc_branch r.getblk v (b.chain.getLastD ⟨.i_data 0, 0⟩)
              ((k :: offsets).drop b.chain.length) = l at h halloc
            obtain ⟨v₁, branch, err⟩ := l
            cases err with
            | some err =>
              cases h
              exact halloc
            | none =>
              dsimp only at h
              have hsplice := halloc.trans (@splice_steps v₁ inode r b.chain.dropLast branch _)
              generalize splice_branch v₁ inode b.chain.dropLast branch (branch.headD ⟨.i_data 0, 0⟩)
                = m at h hsplice
              obtain ⟨v₂, inode₂, spliced⟩ := m
              cases spliced with
              | true =>
                cases h
                exact hsplice
              | false => exact hagain hsplice h

variable {ι : Type} [DecidableEq ι]

/-- The steps of a call alone are steps of the mount. -/
lemma GetSteps.run {s : GetMount ι} {i : ι} {t : Vol × Inode × GetPc}
    (h : GetSteps (s.runs i) (s.vol, s.inodes (s.runs i).ino, (s.runs i).pc) t) :
    ∃ n, Run GetMount.step (fun _ _ => True) s (List.replicate n i) (s.stepped i t.1 t.2.1 t.2.2) := by
  induction h with
  | refl =>
    refine ⟨0, ?_⟩
    have hs : s.stepped i s.vol (s.inodes (s.runs i).ino) (s.runs i).pc = s := by
      unfold GetMount.stepped
      rw [Function.update_eq_self, Function.update_eq_self]
    rw [hs]
    exact .nil s
  | @tail t t' _ hstep ih =>
    obtain ⟨n, run⟩ := ih
    refine ⟨n + 1, ?_⟩
    rw [List.replicate_succ']
    refine run.append (.cons trivial ?_ (.nil _))
    have htwice : (s.stepped i t.1 t.2.1 t.2.2).stepped i t'.1 t'.2.1 t'.2.2
        = s.stepped i t'.1 t'.2.1 t'.2.2 := by
      unfold GetMount.stepped
      simp only [Function.update_self, Function.update_idem]
    rw [GetMount.step_eq, stepped_self]
    dsimp only
    rw [stepped_inode, stepped_vol, hstep, Option.map_some, htwice]

/-- A call that is not interleaved with others ends as `get_block` does, in the same volume and with the
same inode. -/
theorem get_block_alone {s : GetMount ι} {i : ι} {g : GetBlock} (hpc : (s.runs i).pc = .reread)
    (h : get_block (s.runs i).getblk s.vol (s.inodes (s.runs i).ino) (s.runs i).block (s.runs i).create
      = some (v', inode', g)) :
    ∃ n, Run GetMount.step (fun _ _ => True) s (List.replicate n i)
      (s.stepped i v' inode' (.done g)) := by
  refine @GetSteps.run _ _ s i (v', inode', .done g) ?_
  rw [hpc]
  unfold get_block at h
  cases hpath : block_to_path s.vol (s.runs i).block with
  | nil =>
    rw [hpath] at h
    cases h
    refine .single ?_
    unfold get_step
    dsimp only
    rw [hpath]
  | cons k offsets =>
    rw [hpath] at h
    exact loop_steps _ hpath h

/-- One of the two calls with the other one waiting. -/
theorem get_block_alone_seven : ∃ g n,
    get_block (fun _ => true) file_vol empty_inode 7 true = some g ∧
    Run GetMount.step (fun _ _ => True) two_calls (List.replicate n true)
      (two_calls.stepped true g.1 g.2.1 (.done g.2.2)) := by
  obtain ⟨g, hg, -⟩ := @BlocksOk.get_block _ _ file_vol_built.ok (fun _ => true) true _
    (show Within file_vol 7 from show 7 * 1024 < 2 ^ 31 by decide)
  obtain ⟨n, run⟩ := @get_block_alone g.1 g.2.1 Bool _ two_calls true g.2.2 rfl hg
  exact ⟨g, n, hg, run⟩

end CominixFs
