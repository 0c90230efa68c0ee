import CominixFs.ItreeTruncate

/-!
# Growing the tree of an inode (`get_block`)

`alloc_branch` makes a branch of new blocks, or frees again what it allocated; `splice_branch` hangs
it on the first hole of a path (`get_block_spec`).
-/

namespace CominixFs
open Bytes Forest

variable {v v' : Vol} {inode : Inode} {getblk : Nat → Bool}

/-- A step that leaves the blocks in use alone. -/
structure Quiet (v v' : Vol) (news : List Nat) : Prop extends Takes v v' news where
  sbi_eq : v'.sbi = v.sbi
  out : ∀ b, (InArea v b → CominixFs.zbit v b = true) →
    v'.dev.bh.mem b = v.dev.bh.mem b ∧ v'.dev.bh.dirty b = v.dev.bh.dirty b

/-- A branch of blocks from a block down, every other word of which is 0. -/
inductive Fresh (d : Dev) : Nat → List Nat → List Nat → Prop where
  | nil {z} :
    Fresh d z [] []
  | cons {z off nr offsets news} :
    (∀ j, d.word z j = if j = off then nr else 0) →
    d.bh.dirty z = true →
    Fresh d nr offsets news →
    Fresh d z (off :: offsets) (nr :: news)

/-- Why no branch of `n` new blocks can be made with these zones free: they are too few, or
`sb_getblk` gets no buffer for one that is to hold the number of the next. -/
inductive Lacks (getblk : Nat → Bool) (zones : List Nat) (n : Nat) : Errno → Prop where
  | space :
    zones.length < n →
    Lacks getblk zones n .ENOSPC
  | buffer {x} :
    x ∈ zones.take (n - 1) →
    getblk x = false →
    Lacks getblk zones n .ENOMEM

/-- The blocks that are missing on the way to a leaf, by their paths. -/
def missing (t : Forest) (p : List Nat) : List (List Nat) :=
  p.tails.filter fun q => q ≠ [] ∧ t.node q = 0

/-- The entries of a branch. -/
def branchEntries : Nat → List Nat → List Nat → List Indirect
  | z, off :: offsets, nr :: news => ⟨.word z off, nr⟩ :: branchEntries nr offsets news
  | _, _, _ => []

lemma Quiet.refl (v : Vol) : Quiet v v [] :=
  ⟨.of_eq (.refl v) rfl rfl, rfl, fun _ _ => ⟨rfl, rfl⟩⟩

/-- A branch that is one block longer cannot be made either, with the first zone for it. -/
lemma Lacks.cons {zones : List Nat} {n nr : Nat} {err : Errno} (h : Lacks getblk zones (n + 1) err) :
    Lacks getblk (nr :: zones) (n + 1 + 1) err := by
  cases h with
  | space h => exact .space (Nat.succ_lt_succ h)
  | buffer hx hget => exact .buffer (List.mem_cons_of_mem _ hx) hget

/-- From the first hole of a path on every block is missing. -/
lemma missing_length {t : Forest} {i : Nat} {c : List Nat} (hlive : Live t (i :: c))
    (h0 : t.node (i :: c) = 0) : ∀ l, (missing t (l ++ i :: c)).length = l.length + 1 := by
  intro l
  unfold missing
  induction l with
  | nil =>
    have hrest : c.tails.filter (fun q => q ≠ [] ∧ t.node q = 0) = [] := by
      refine List.filter_eq_nil_iff.2 fun q hq => ?_
      rw [List.mem_tails] at hq
      have hne : q ≠ i :: c := by
        rintro rfl
        have := hq.length_le
        simp at this
      have := fun h => hlive q h (hq.trans (List.suffix_cons i c)) hne
      simpa using this
    rw [List.nil_append, List.tails_cons, List.filter_cons_of_pos (by simpa using h0), hrest]
    rfl
  | cons j l ih =>
    have hj : t.node (j :: l ++ i :: c) = 0 := by
      by_contra hn
      rw [← List.reverse_reverse (j :: l)] at hn
      exact node_ne_of_append (by simp) hn h0
    rw [List.cons_append, List.tails_cons, List.filter_cons_of_pos (by simpa using hj),
      List.length_cons, ih]
    rfl

/-- An allocation, as a step that leaves the blocks in use alone. -/
lemma new_block_quiet (area : AreaOk v) :
    ∃ v' nr, cominix_new_block v = (v', nr) ∧ v'.dev = v.dev ∧
      (nr ≠ 0 ∧ Quiet v v' [nr] ∧ free_list v = nr :: free_list v' ∨
        nr = 0 ∧ Quiet v v' [] ∧ free_list v = []) := by
  obtain ⟨v', nr, heq, hdev, hsbi, h⟩ := cominix_new_block_spec area.zmap
  have hout : ∀ b, v'.dev.bh.mem b = v.dev.bh.mem b ∧ v'.dev.bh.dirty b = v.dev.bh.dirty b := by
    rw [hdev]
    exact fun b => ⟨rfl, rfl⟩
  refine ⟨v', nr, heq, hdev, ?_⟩
  rcases h with ⟨h0, ht, hlow⟩ | ⟨h0, ht, hfull⟩
  · exact .inl ⟨h0, ⟨ht, hsbi, fun b _ => hout b⟩, new_block_free_list ht hlow⟩
  · refine .inr ⟨h0, ⟨ht, hsbi, fun b _ => hout b⟩, List.eq_nil_iff_forall_not_mem.2 fun x hx => ?_⟩
    obtain ⟨harea, hfree⟩ := mem_free_list.1 hx
    rw [hfull x harea] at hfree
    cases hfree

/-- Freeing zones one after the other. -/
lemma free_keys_spec : ∀ {branch : List Indirect} {v}, ZmapOk v →
    (branch.map Indirect.key).Nodup →
    (∀ c ∈ branch, InArea v c.key ∧ zbit v c.key = true) →
    let v' := branch.foldl (fun v c => cominix_free_block v c.key) v
    v'.dev = v.dev ∧ v'.sbi = v.sbi ∧ Drops v v' (· ∈ branch.map Indirect.key) := by
  intro branch
  induction branch with
  | nil =>
    intro v _ _ _
    refine ⟨rfl, rfl, ?_⟩
    simpa using Drops.of_eq (.refl v) rfl rfl
  | cons c cs ih =>
    intro v ok nd hset
    rw [List.map_cons, List.nodup_cons] at nd
    obtain ⟨hc, hcs⟩ := List.forall_mem_cons.1 hset
    obtain ⟨hdev, hsbi, hd⟩ := cominix_free_block_spec ok hc.1 hc.2
    obtain ⟨hdev', hsbi', hd'⟩ := ih (ok.step hd.toZmapStep) nd.2 fun x hx => by
      obtain ⟨harea, hbit⟩ := hcs x hx
      refine ⟨hd.inArea.2 harea, (hd.zbit _ harea).2 ⟨hbit, fun e => nd.1 ?_⟩⟩
      exact e ▸ List.mem_map_of_mem hx
    rw [List.foldl_cons]
    refine ⟨hdev'.trans hdev, hsbi'.trans hsbi, ?_⟩
    have h := hd.trans hd'
    refine ⟨h.toZmapStep, h.printk, fun x hx => ?_⟩
    rw [h.zbit x hx, List.map_cons, List.mem_cons]

/-- Forgetting buffers changes nothing but their marks. -/
lemma forget_spec : ∀ {branch : List Indirect} {v : Vol}, SameMount v (branch.foldl bforget_entry v) ∧
    (branch.foldl bforget_entry v).s_zmap = v.s_zmap ∧
    (branch.foldl bforget_entry v).printk = v.printk ∧
    (branch.foldl bforget_entry v).sbi = v.sbi ∧
    (branch.foldl bforget_entry v).dev.bh.mem = v.dev.bh.mem ∧
    ∀ b, (∀ c ∈ branch, ∀ k, c.p ≠ .word b k) →
      (branch.foldl bforget_entry v).dev.bh.dirty b = v.dev.bh.dirty b := by
  intro branch
  induction branch with
  | nil => exact fun {v} => ⟨.refl v, rfl, rfl, rfl, rfl, fun _ _ => rfl⟩
  | cons c cs ih =>
    intro v
    rw [List.foldl_cons]
    have hstep : SameMount v (bforget_entry v c) ∧ (bforget_entry v c).s_zmap = v.s_zmap ∧
        (bforget_entry v c).printk = v.printk ∧ (bforget_entry v c).sbi = v.sbi ∧
        (bforget_entry v c).dev.bh.mem = v.dev.bh.mem ∧
        ∀ b, (∀ k, c.p ≠ .word b k) → (bforget_entry v c).dev.bh.dirty b = v.dev.bh.dirty b := by
      obtain ⟨p, key⟩ := c
      cases p with
      | i_data k => exact ⟨.refl v, rfl, rfl, rfl, rfl, fun _ _ => rfl⟩
      | word bh k =>
        refine ⟨⟨rfl, rfl, rfl, rfl, rfl⟩, rfl, rfl, rfl, rfl, fun b hb => ?_⟩
        exact Buffers.forget_dirty_of_ne _ fun e => hb k (by rw [e])
    obtain ⟨h1, h2, h3, h4, h5, h6⟩ := hstep
    obtain ⟨h1', h2', h3', h4', h5', h6'⟩ := @ih (bforget_entry v c)
    refine ⟨h1.trans h1', h2'.trans h2, h3'.trans h3, h4'.trans h4, h5'.trans h5, fun b hb => ?_⟩
    obtain ⟨hc, hcs⟩ := List.forall_mem_cons.1 hb
    exact (h6' b hcs).trans (h6 b hc)

/-- What `alloc_branch` allocated is given up again, and nothing else is touched. -/
lemma free_branch_spec {branch : List Indirect} {news : List Nat} (area : AreaOk v)
    (q : Quiet v v' news) (hkeys : branch.map Indirect.key = news)
    (hbh : ∀ c ∈ branch.tail, ∀ b k, c.p = .word b k → b ∈ news) :
    Quiet v (free_branch v' branch) [] := by
  obtain ⟨h1, h2, h3, h4, h5, h6⟩ := @forget_spec branch.tail v'
  unfold free_branch
  generalize branch.tail.foldl bforget_entry v' = v₁ at *
  have hstep : ZmapStep v' v₁ := .of_eq h1 h2
  have hbit : ∀ x, zbit v₁ x = zbit v' x := by
    intro x
    unfold zbit
    rw [h1.bits_per_zone, h1.first, h2]
  have hset : ∀ c ∈ branch, InArea v₁ c.key ∧ zbit v₁ c.key = true := by
    intro c hc
    have hmem : c.key ∈ news := hkeys ▸ List.mem_map_of_mem hc
    have harea := (q.free c.key hmem).1
    rw [hbit]
    exact ⟨h1.inArea.2 (q.inArea.2 harea), (q.zbit _ harea).2 (.inl hmem)⟩
  obtain ⟨hdev, hsbi, hd⟩ := free_keys_spec ((area.zmap.step q.toZmapStep).step hstep)
    (hkeys ▸ q.nodup) hset
  rw [hkeys] at hd
  have hd' : Drops v' (branch.foldl (fun v c => cominix_free_block v c.key) v₁) (· ∈ news) := by
    have h := (Drops.of_eq h1 h2 h3).trans hd
    refine ⟨h.toZmapStep, h.printk, fun x hx => ?_⟩
    rw [h.zbit x hx, false_or]
  refine ⟨q.toTakes.drop hd', by rw [hsbi, h4, q.sbi_eq], fun b hb => ?_⟩
  obtain ⟨h7, h8⟩ := q.out b hb
  have hnot : b ∉ news := by
    intro hm
    obtain ⟨harea, hfree⟩ := q.free b hm
    rw [hb harea] at hfree
    cases hfree
  rw [hdev, h5, h6 b fun c hc k e => hnot (hbh c hc b k e)]
  exact ⟨h7, h8⟩

lemma branchEntries_keys : ∀ {z offsets news}, news.length ≤ offsets.length →
    (branchEntries z offsets news).map Indirect.key = news := by
  intro z offsets
  induction offsets generalizing z with
  | nil =>
    intro news h
    rw [List.length_eq_zero_iff.1 (Nat.le_zero.1 h)]
    rfl
  | cons off offsets ih =>
    intro news h
    cases news with
    | nil => rfl
    | cons nr news =>
      rw [branchEntries, List.map_cons, ih (by simpa using h)]

lemma branchEntries_word : ∀ {z offsets news c b k}, c ∈ branchEntries z offsets news →
    c.p = .word b k → b ∈ z :: news := by
  intro z offsets
  induction offsets generalizing z with
  | nil => intro news c b k hc _; simp [branchEntries] at hc
  | cons off offsets ih =>
    intro news c b k hc hp
    cases news with
    | nil => simp [branchEntries] at hc
    | cons nr news =>
      rw [branchEntries] at hc
      rcases List.mem_cons.1 hc with rfl | hc
      · cases hp
        exact List.mem_cons_self
      · exact List.mem_cons_of_mem _ (ih hc hp)

/-- The loop of `alloc_branch` makes a branch below a zone in use, or stops on the way. -/
lemma alloc_loop_spec : ∀ {offsets v parent acc}, AreaOk v → InArea v parent →
    zbit v parent = true →
    ∃ v' news err, alloc_loop getblk offsets v parent acc
        = (v', acc ++ branchEntries parent offsets news, err) ∧
      Takes v v' news ∧ v'.sbi = v.sbi ∧ news.length ≤ offsets.length ∧ (0 ∉ news) ∧
      (∀ b, b ∉ parent :: news → v'.dev.bh.mem b = v.dev.bh.mem b ∧
        v'.dev.bh.dirty b = v.dev.bh.dirty b) ∧
      (err = none → news.length = offsets.length ∧ Fresh v'.dev parent offsets news) ∧
      (∀ e, err = some e → Lacks getblk (parent :: free_list v) (offsets.length + 1) e) := by
  intro offsets
  induction offsets with
  | nil =>
    intro v parent acc _ _ _
    exact ⟨v, [], none, by simp [alloc_loop, branchEntries], .of_eq (.refl v) rfl rfl, rfl,
      Nat.le_refl _, by simp, fun _ _ => ⟨rfl, rfl⟩, fun _ => ⟨rfl, .nil⟩, fun _ h => by cases h⟩
  | cons off offsets ih =>
    intro v parent acc area hparent hset
    obtain ⟨v₁, nr, hnew, hdev, h⟩ := new_block_quiet area
    rcases h with ⟨h0, hq, hzones⟩ | ⟨h0, hq, hzones⟩
    · obtain ⟨harea, hfree⟩ := hq.free nr (by simp)
      have hlt : nr < 2 ^ 32 := by
        have := area.zmap.nzones_lt
        have := harea.2
        omega
      have hne : nr ≠ parent := by
        rintro rfl
        rw [hset] at hfree
        cases hfree
      by_cases hget : getblk parent = true
      · -- the parent is written and the loop goes on below the new zone
        generalize hd₂ : (v₁.dev.store parent (put (fun _ => 0) (4 * off) 4 nr)).mark_buffer_dirty
          parent = d₂
        have hsame : SameMount v₁ { v₁ with dev := d₂ } := by
          subst hd₂
          exact ⟨rfl, rfl, rfl, rfl, rfl⟩
        have ht := hq.toTakes.trans (.of_eq hsame rfl rfl)
        rw [List.append_nil] at ht
        have hzones₂ : free_list { v₁ with dev := d₂ } = free_list v₁ := by
          rw [(Takes.of_eq hsame rfl rfl).free_list]
          simp
        obtain ⟨v', news, err, heq, ht', hsbi', hlen, hz, hout, hok, hlacks⟩ :=
          @ih { v₁ with dev := d₂ } nr (acc ++ [⟨.word parent off, nr⟩]) (area.step ht.toZmapStep)
            (ht.inArea.2 harea) ((ht.zbit nr harea).2 (.inl (by simp)))
        have hmem₂ : ∀ b, b ≠ parent → d₂.bh.mem b = v.dev.bh.mem b ∧
            d₂.bh.dirty b = v.dev.bh.dirty b := by
          intro b hb
          rw [← hd₂, hdev]
          exact ⟨v.dev.bh.set_mem_of_ne _ hb, Buffers.mark_dirty_of_ne _ hb⟩
        have hparent' : parent ∉ nr :: news := by
          intro hm
          rcases List.mem_cons.1 hm with he | hm
          · exact hne he.symm
          · have := (ht'.free parent hm).2
            rw [(ht.zbit parent hparent).2 (.inr hset)] at this
            cases this
        rw [hzones₂, ← hzones] at hlacks
        refine ⟨v', nr :: news, err, ?_, ht.trans ht', hsbi'.trans hq.sbi_eq, by simpa using hlen,
          ?_, fun b hb => ?_, fun he => ?_, fun e he => (hlacks e he).cons⟩
        · unfold alloc_loop
          rw [hnew]
          dsimp only
          rw [if_neg h0, if_pos hget, hd₂, heq, branchEntries, List.append_assoc]
          rfl
        · exact fun hm => (List.mem_cons.1 hm).elim (fun e => h0 e.symm) hz
        · rw [List.mem_cons, not_or] at hb
          obtain ⟨h1, h2⟩ := hout b hb.2
          obtain ⟨h3, h4⟩ := hmem₂ b hb.1
          exact ⟨h1.trans h3, h2.trans h4⟩
        · obtain ⟨hlen', hfresh⟩ := hok he
          obtain ⟨h1, h2⟩ := hout parent hparent'
          refine ⟨by simp [hlen'], .cons (fun j => ?_) ?_ hfresh⟩
          · rw [Dev.word_congr h1]
            show le (d₂.bh.mem parent) (4 * j) 4 = _
            rw [← hd₂]
            simp only [Dev.mark_bh, Dev.store_bh, Buffers.mark_mem, Buffers.set_mem_self]
            by_cases hj : j = off
            · rw [if_pos hj, hj, le_put hlt]
            · rw [if_neg hj, le_put_disjoint (by omega), le_zero]
          · rw [h2]
            show d₂.bh.dirty parent = true
            rw [← hd₂]
            exact Buffers.mark_dirty_self _ _
      · -- no buffer: the zone is given up at once
        have hset₁ := (hq.zbit nr harea).2 (.inl (by simp))
        obtain ⟨hdev', hsbi', hd⟩ := cominix_free_block_spec (area.zmap.step hq.toZmapStep)
          (hq.inArea.2 harea) hset₁
        have hd' : Drops v₁ (cominix_free_block v₁ nr) (· ∈ [nr]) := by
          refine ⟨hd.toZmapStep, hd.printk, fun x hx => ?_⟩
          rw [hd.zbit x hx, List.mem_singleton]
        refine ⟨_, [], some .ENOMEM, ?_, hq.toTakes.drop hd', hsbi'.trans hq.sbi_eq, by simp,
          by simp, fun b _ => ?_, (nomatch ·), fun e he => ?_⟩
        · unfold alloc_loop
          rw [hnew]
          dsimp only
          rw [if_neg h0, if_neg hget]
          simp [branchEntries]
        · rw [hdev', hdev]
          exact ⟨rfl, rfl⟩
        · obtain rfl := Option.some.inj he
          exact .buffer (List.mem_cons_self) (Bool.eq_false_iff.2 hget)
    · refine ⟨v₁, [], some .ENOSPC, ?_, hq.toTakes, hq.sbi_eq, by simp, by simp, fun b _ => ?_,
        (nomatch ·), fun e he => ?_⟩
      · unfold alloc_loop
        rw [hnew]
        dsimp only
        rw [if_pos h0]
        simp [branchEntries]
      · rw [hdev]
        exact ⟨rfl, rfl⟩
      · obtain rfl := Option.some.inj he
        refine .space ?_
        rw [hzones]
        simp

/-- `alloc_branch` makes a branch of new zones, or fails without a trace. -/
lemma alloc_branch_spec {where_ : Indirect} {offsets : List Nat} (area : AreaOk v) :
    (∃ v' branch err, alloc_branch getblk v where_ offsets = (v', branch, some err) ∧
      Quiet v v' [] ∧ Lacks getblk (free_list v) (offsets.length + 1) err) ∨
    ∃ v' nr news, alloc_branch getblk v where_ offsets
        = (v', ⟨where_.p, nr⟩ :: branchEntries nr offsets news, none) ∧
      Quiet v v' (nr :: news) ∧ news.length = offsets.length ∧ (0 ∉ nr :: news) ∧
      Fresh v'.dev nr offsets news := by
  obtain ⟨v₁, nr, hnew, hdev, h⟩ := new_block_quiet area
  unfold alloc_branch
  rw [hnew]
  dsimp only
  rcases h with ⟨h0, hq, hzones⟩ | ⟨h0, hq, hzones⟩
  · rw [if_neg h0]
    obtain ⟨harea, hfree⟩ := hq.free nr (by simp)
    have hset := (hq.zbit nr harea).2 (.inl (by simp))
    obtain ⟨v', news, err, heq, ht, hsbi, hlen, hz, hout, hok, hlacks⟩ := @alloc_loop_spec getblk offsets v₁
      nr [⟨where_.p, nr⟩] (area.step hq.toZmapStep) (hq.inArea.2 harea) hset
    have hall := hq.toTakes.trans ht
    rw [List.singleton_append] at hall
    have hq' : Quiet v v' (nr :: news) := by
      refine ⟨hall, hsbi.trans hq.sbi_eq, fun b hb => ?_⟩
      obtain ⟨h1, h2⟩ := hout b fun hm => by
        obtain ⟨hin, hf⟩ := hall.free b hm
        rw [hb hin] at hf
        cases hf
      rw [h1, h2, hdev]
      exact ⟨rfl, rfl⟩
    rw [heq]
    cases err with
    | none =>
      obtain ⟨hlen', hfresh⟩ := hok rfl
      refine .inr ⟨v', nr, news, rfl, hq', hlen', fun hm => ?_, hfresh⟩
      exact (List.mem_cons.1 hm).elim (fun e => h0 e.symm) hz
    | some err =>
      refine .inl ⟨_, _, err, rfl, free_branch_spec area hq' ?_ fun c hc b k hp => ?_,
        hzones ▸ hlacks err rfl⟩
      · rw [List.singleton_append, List.map_cons, branchEntries_keys hlen]
      · exact branchEntries_word hc hp
  · rw [if_pos h0]
    refine .inl ⟨v₁, [], .ENOSPC, rfl, hq, .space ?_⟩
    rw [hzones]
    exact Nat.succ_pos _

/-- A branch of new blocks was hung on the first hole of a path. -/
structure Grew (v v' : Vol) (z z' : Nat → Nat) (p news : List Nat) : Prop extends Takes v v' news where
  sbi_eq : v'.sbi = v.sbi
  zero : 0 ∉ news
  grown : ∃ q, q ≠ [] ∧ Grown (shape v) (forest v z) (forest v' z') p q news
  out : ∀ b, (InArea v b → CominixFs.zbit v b = true) → ¬ TreeZone v z b →
    v'.dev.bh.mem b = v.dev.bh.mem b ∧ v'.dev.bh.dirty b = v.dev.bh.dirty b
  leaf : ∀ q, (shape v).Path q 0 → v'.dev.bh.mem ((forest v z).node q)
    = v.dev.bh.mem ((forest v z).node q)
  tree : TreeOk v' z'

/-- The blocks of a new branch. -/
lemma Fresh.node {d : Dev} {w n : Nat} : ∀ {offsets news parent ks}, Fresh d parent offsets news →
    parent ≠ 0 → (0 ∉ news) → BlockTree.Path w n ks → n = offsets.length →
    (ks <+: offsets → (parent :: news)[ks.length]? = some (BlockTree.node d.word parent ks)) ∧
      (¬ ks <+: offsets → BlockTree.node d.word parent ks = 0) := by
  intro offsets news parent ks h
  induction h generalizing ks n with
  | nil =>
    intro _ _ hks hn
    obtain rfl : ks = [] := List.length_eq_zero_iff.1 (by have := hks.1; simp at hn; omega)
    exact ⟨fun _ => rfl, fun hnot => absurd (List.nil_prefix) hnot⟩
  | @cons parent off nr offsets news hword hdirty hrest ih =>
    intro h0 hz hks hn
    cases ks with
    | nil => exact ⟨fun _ => rfl, fun hnot => absurd (List.nil_prefix) hnot⟩
    | cons k ks =>
      rw [List.mem_cons, not_or] at hz
      subst hn
      rw [BlockTree.node_cons h0, hword]
      by_cases hk : k = off
      · subst hk
        rw [if_pos rfl]
        obtain ⟨h1, h2⟩ := ih (fun e => hz.1 e.symm) hz.2 hks.tail.2 rfl
        refine ⟨fun hp => ?_, fun hp => ?_⟩
        · exact h1 ((List.prefix_cons_inj k).1 hp)
        · exact h2 fun hp' => hp ((List.prefix_cons_inj k).2 hp')
      · rw [if_neg hk, BlockTree.node_zero]
        refine ⟨fun hp => ?_, fun _ => rfl⟩
        obtain ⟨l, hl⟩ := hp
        exact absurd (List.cons.inj hl).1 hk

/-- The blocks of a new branch but the last are marked. -/
lemma Fresh.dirty {d : Dev} : ∀ {offsets news parent ks}, Fresh d parent offsets news →
    ks <+: offsets → ks ≠ offsets → ∀ b, (parent :: news)[ks.length]? = some b →
      d.bh.dirty b = true := by
  intro offsets news parent ks h
  induction h generalizing ks with
  | nil =>
    intro hp hne
    exact absurd (List.prefix_nil.1 hp) hne
  | @cons parent off nr offsets news hword hdirty hrest ih =>
    intro hp hne b hb
    cases ks with
    | nil =>
      cases hb
      exact hdirty
    | cons k ks =>
      obtain rfl : k = off := by
        obtain ⟨l, hl⟩ := hp
        exact (List.cons.inj hl).1
      exact ih ((List.prefix_cons_inj k).1 hp) (fun e => hne (by rw [e])) b hb

/-- Hanging a new branch on a hole. -/
lemma splice_grew {v₁ v₂ : Vol} {z z' : Nat → Nat} {p r l : List Nat} {nr : Nat} {news : List Nat}
    (ok : TreeOk v z) (area : AreaOk v) (hp : (shape v).Path p 0) (hl : l ++ r = p) (hr : r ≠ [])
    (h0 : (forest v z).node r = 0) (hq : Quiet v v₁ (nr :: news))
    (hlen : news.length = l.length) (hz : 0 ∉ nr :: news) (hfresh : Fresh v₁.dev nr l.reverse news)
    (hs : SameMount v₁ v₂) (hzmap : v₂.s_zmap = v₁.s_zmap) (hprintk : v₂.printk = v₁.printk)
    (hsbi : v₂.sbi = v₁.sbi) (hkeep : ∀ b, ¬ TreeZone v z b → v₂.dev.bh.mem b = v₁.dev.bh.mem b ∧
      v₂.dev.bh.dirty b = v₁.dev.bh.dirty b)
    (hleaf : ∀ q, (shape v).Path q 0 → v₂.dev.bh.mem ((forest v z).node q)
      = v₁.dev.bh.mem ((forest v z).node q))
    (hdirty : ∀ b, v₁.dev.bh.Covered b → v₂.dev.bh.Covered b)
    (hroot : (forest v₂ z').node r = nr)
    (hothers : ∀ q n, (shape v).Path q n → ¬ r <:+ q → (forest v₂ z').node q = (forest v z).node q) :
    Grew v v₂ z z' p (nr :: news) := by
  have hnew : ∀ b, b ∈ nr :: news → ¬ TreeZone v z b := by
    intro b hb hzone
    have := (ok.zone b hzone).2
    rw [(hq.free b hb).2] at this
    cases this
  have ht := hq.toTakes.trans (.of_eq hs hzmap hprintk)
  rw [List.append_nil] at ht
  obtain ⟨m, hm⟩ := Shape.Path.of_append (hl ▸ hp : (shape v).Path (l ++ r) 0) hr
  have hm' : m = l.reverse.length := by
    rw [List.length_reverse, path_height (hl ▸ hp : (shape v).Path (l ++ r) 0) hm, Nat.zero_add]
  have hfresh₂ : Fresh v₂.dev nr l.reverse news := by
    have key : ∀ {parent offsets new}, Fresh v₁.dev parent offsets new →
        (∀ b ∈ parent :: new, ¬ TreeZone v z b) → Fresh v₂.dev parent offsets new := by
      intro parent offsets new h
      induction h with
      | nil => exact fun _ => .nil
      | cons hword hd _ ih =>
        intro hb
        obtain ⟨h1, h2⟩ := List.forall_mem_cons.1 hb
        obtain ⟨h3, h4⟩ := hkeep _ h1
        exact .cons (fun j => by rw [Dev.word_congr h3]; exact hword j) (h4.trans hd) (ih h2)
    exact key hfresh hnew
  rw [List.mem_cons, not_or] at hz
  -- below the hole there is the new branch and nothing else
  have hbelow : ∀ ks, BlockTree.Path (shape v).w m ks →
      (ks <+: l.reverse → (nr :: news)[ks.length]? = some ((forest v₂ z').node (ks.reverse ++ r))) ∧
        (¬ ks <+: l.reverse → (forest v₂ z').node (ks.reverse ++ r) = 0) := by
    intro ks hks
    rw [node_append hr, hroot]
    exact hfresh₂.node (fun e => hz.1 e.symm) hz.2 hks hm'
  have hsplit : ∀ q n, (shape v).Path q n → r <:+ q → ∃ ks, q = ks.reverse ++ r ∧
      BlockTree.Path (shape v).w m ks ∧ (q <:+ p ↔ ks <+: l.reverse) := by
    rintro q n hqp ⟨l', rfl⟩
    refine ⟨l'.reverse, by rw [List.reverse_reverse], hm.append_iff.1 ⟨n, ?_⟩, ?_⟩
    · rw [List.reverse_reverse]
      exact hqp
    · rw [List.reverse_prefix, ← hl]
      exact List.suffix_append_self_iff
  have hgrown : Grown (shape v) (forest v z) (forest v₂ z') p r (nr :: news) := by
    refine ⟨h0, ⟨l, hl⟩, ?_, hothers, fun q n hqp hrq hpq => ?_, fun q n hqp hrq hpq => ?_⟩
    · rw [← hl, List.length_append, List.length_cons, hlen]
      omega
    · obtain ⟨ks, rfl, hks, hiff⟩ := hsplit q n hqp hrq
      rw [List.length_append, List.length_reverse, Nat.add_sub_cancel]
      exact (hbelow ks hks).1 (hiff.1 hpq)
    · obtain ⟨ks, rfl, hks, hiff⟩ := hsplit q n hqp hrq
      exact (hbelow ks hks).2 fun h => hpq (hiff.2 h)
  have hz' : 0 ∉ nr :: news := by
    rw [List.mem_cons, not_or]
    exact hz
  have hshape := hs.shape.trans hq.shape
  refine ⟨ht, hsbi.trans hq.sbi_eq, hz', ⟨r, hr, hgrown⟩, fun b hb hzone => ?_, fun q hqp => ?_,
    ?_, ?_, ?_⟩
  · obtain ⟨h1, h2⟩ := hkeep b hzone
    obtain ⟨h3, h4⟩ := hq.out b hb
    exact ⟨h1.trans h3, h2.trans h4⟩
  · rw [hleaf q hqp]
    by_cases hq0 : (forest v z).node q = 0
    · exact (hq.out _ fun harea => absurd hq0 (area.ne_zero harea)).1
    · exact (hq.out _ fun _ => (ok.zone _ ⟨hq0, q, 0, hqp, rfl⟩).2).1
  · rw [hshape]
    exact hgrown.inj ok.inj hq.nodup hnew
  · intro x hx
    unfold TreeZone at hx
    rw [hshape, hgrown.zone_iff hp hr hz'] at hx
    have harea : InArea v x := hx.elim (fun h => (ok.zone x h).1) fun h => (hq.free x h).1
    refine ⟨ht.inArea.2 harea, (ht.zbit x harea).2 ?_⟩
    exact hx.symm.imp id fun h => (ok.zone x h).2
  · intro q n hqp hq0
    rw [hshape] at hqp
    by_cases hrq : r <:+ q
    · obtain ⟨ks, rfl, hks, hiff⟩ := hsplit q _ hqp hrq
      obtain ⟨h1, h2⟩ := hbelow ks hks
      have hpre : ks <+: l.reverse := by
        by_contra hn
        exact hq0 (h2 hn)
      refine .inl (hfresh₂.dirty hpre (fun e => ?_) _ (h1 hpre))
      rw [e, List.reverse_reverse, hl] at hqp
      cases hqp.unique hp
    · rw [hothers q _ hqp hrq] at hq0 ⊢
      have hzone : TreeZone v z ((forest v z).node q) := ⟨hq0, q, _, hqp, rfl⟩
      obtain ⟨h3, h4⟩ := hq.out _ fun _ => (ok.zone _ hzone).2
      exact hdirty _ ((ok.covered q n hqp hq0).congr h3 (by rw [hq.disk]) fun hd => h4 ▸ hd)

lemma branchEntries_last : ∀ {offsets news parent c}, news.length = offsets.length →
    ((c :: branchEntries parent offsets news).getLastD ⟨.i_data 0, 0⟩).key
      = (c.key :: news).getLast (by simp) := by
  intro offsets
  induction offsets with
  | nil =>
    intro news parent c h
    rw [List.length_eq_zero_iff.1 h]
    rfl
  | cons off offsets ih =>
    intro news parent c h
    cases news with
    | nil => simp at h
    | cons nr news =>
      rw [branchEntries, List.getLast_cons (by simp)]
      exact @ih news nr ⟨.word parent off, nr⟩ (by simpa using h)

/-- Every way `get_block` can end. -/
inductive Got (getblk : Nat → Bool) (v : Vol) (inode : Inode) (create : Bool) (p : List Nat) :
    Vol × Inode × GetBlock → Prop where
  | found :
    (forest v inode.i_data).node p ≠ 0 →
    Got getblk v inode create p (v, inode, .mapped ((forest v inode.i_data).node p) false)
  | hole :
    (forest v inode.i_data).node p = 0 →
    create = false →
    Got getblk v inode create p (v, inode, .hole)
  | failed {v' err} :
    (forest v inode.i_data).node p = 0 →
    create = true →
    Quiet v v' [] →
    Lacks getblk (free_list v) (missing (forest v inode.i_data) p).length err →
    Got getblk v inode create p (v', inode, .failed err)
  | new {v' z' news} :
    (forest v inode.i_data).node p = 0 →
    create = true →
    Grew v v' inode.i_data z' p news →
    Got getblk v inode create p (v', { inode with i_data := z', dirty := true },
      .mapped ((forest v' z').node p) true)

/-- The last of the new blocks is the one at the end of the path. -/
lemma Grew.last {z z' : Nat → Nat} {p news : List Nat} (g : Grew v v' z z' p news)
    (hp : (shape v).Path p 0) (hne : news ≠ []) : (forest v' z').node p = news.getLast hne := by
  obtain ⟨q, hq, hg⟩ := g.grown
  have h := hg.branch p 0 hp hg.below (List.suffix_refl _)
  have hlen := hg.length
  have hlt := List.length_pos_iff.2 hne
  rw [List.getLast_eq_getElem, ← Option.some.injEq, ← h, List.getElem?_eq_getElem (by omega)]
  congr 2
  omega

lemma splice_branch_eq {chain branch : List Indirect} {where_ : Indirect}
    (hverify : verify_chain v inode chain = true) (hvacant : where_.p.get v inode = 0) :
    splice_branch v inode chain branch where_ = (mark_entry (where_.p.set v inode where_.key).1 where_.p,
      mark_inode_dirty (where_.p.set v inode where_.key).2, true) := by
  unfold splice_branch
  rw [if_pos (by rw [hverify, hvacant]; rfl)]

/-- Storing the first block of a new branch in the hole hangs the branch there. -/
lemma splice_spec {p l c : List Nat} {i nr : Nat} {news : List Nat} (ok : TreeOk v inode.i_data)
    (area : AreaOk v) (hp : (shape v).Path p 0) (hl : l ++ i :: c = p)
    (hlive : Live (forest v inode.i_data) (i :: c)) (h0 : (forest v inode.i_data).node (i :: c) = 0)
    (hq : Quiet v v' (nr :: news)) (hlen : news.length = l.length) (hz : 0 ∉ nr :: news)
    (hfresh : Fresh v'.dev nr l.reverse news) :
    Grew v (mark_entry ((ptr (forest v inode.i_data) (i :: c)).set v' inode nr).1
        (ptr (forest v inode.i_data) (i :: c))) inode.i_data
      ((ptr (forest v inode.i_data) (i :: c)).set v' inode nr).2.i_data p (nr :: news) ∧
    mark_inode_dirty ((ptr (forest v inode.i_data) (i :: c)).set v' inode nr).2
      = { inode with
          i_data := ((ptr (forest v inode.i_data) (i :: c)).set v' inode nr).2.i_data
          dirty := true } := by
  have hnr : nr < 2 ^ 32 := by
    have := area.zmap.nzones_lt
    have := (hq.free nr (by simp)).1.2
    omega
  have hmem : ∀ q m, (shape v).Path q m → (forest v inode.i_data).node q ≠ 0 →
      v'.dev.bh.mem ((forest v inode.i_data).node q)
        = v.dev.bh.mem ((forest v inode.i_data).node q) := fun q m hqp hq0 =>
    (hq.out _ fun _ => (ok.zone _ ⟨hq0, q, m, hqp, rfl⟩).2).1
  cases c with
  | nil =>
    -- in a zone word of the inode
    refine ⟨?_, rfl⟩
    show Grew v v' inode.i_data (Function.update inode.i_data i nr) p (nr :: news)
    refine splice_grew ok area hp hl (by simp) h0 hq hlen hz hfresh (.refl _) rfl rfl rfl
      (fun _ _ => ⟨rfl, rfl⟩) (fun _ _ => rfl) (fun _ h => h) (Function.update_self ..) ?_
    intro q m hqp
    induction hqp with
    | @slot k hk =>
      intro hnot
      refine Function.update_of_ne (fun e => hnot ?_) ..
      subst e
      exact List.suffix_refl _
    | @word j q n hqp hj ih =>
      intro hnot
      have ih := ih fun h => hnot (h.trans (List.suffix_cons j q))
      rw [node_cons hqp.ne_nil, node_cons hqp.ne_nil, ih]
      by_cases hq0 : (forest v inode.i_data).node q = 0
      · rw [if_pos hq0, if_pos hq0]
      · rw [if_neg hq0, if_neg hq0]
        exact Dev.word_congr (hmem q _ hqp hq0) j
  | cons k c =>
    -- in a word of an indirect block
    refine ⟨?_, rfl⟩
    have hc0 : (forest v inode.i_data).node (k :: c) ≠ 0 := hlive.tail.2 (by simp)
    obtain ⟨m, hm⟩ := Shape.Path.of_append (hl ▸ hp : (shape v).Path (l ++ i :: k :: c) 0) (by simp)
    obtain ⟨hcp, hi⟩ := hm.tail (by simp)
    show Grew v { v' with dev := (v'.dev.set_word ((forest v inode.i_data).node (k :: c)) i
      nr).mark_buffer_dirty ((forest v inode.i_data).node (k :: c)) } inode.i_data inode.i_data p _
    generalize hbh : (forest v inode.i_data).node (k :: c) = bh at *
    have hout : ∀ b, b ≠ bh → (v'.dev.set_word bh i nr).bh.mem b = v'.dev.bh.mem b :=
      fun b hb => v'.dev.bh.set_mem_of_ne _ hb
    have hword : ∀ q n j, (shape v).Path q (n + 1) → (forest v inode.i_data).node q ≠ 0 →
        (v'.dev.set_word bh i nr).word ((forest v inode.i_data).node q) j
          = if q = k :: c ∧ j = i then nr else v.dev.word ((forest v inode.i_data).node q) j := by
      intro q n j hqp hq0
      rw [Dev.word_set_word _ hnr, Dev.word_congr (hmem q _ hqp hq0)]
      refine if_congr (and_congr_left fun _ => ⟨fun e => ?_, fun e => ?_⟩) rfl rfl
      · exact ok.path_eq hqp hcp hq0 (e.trans hbh.symm)
      · rw [e, hbh]
    have hothers : ∀ q n, (shape v).Path q n → ¬ (i :: k :: c) <:+ q →
        (forest { v' with dev := (v'.dev.set_word bh i nr).mark_buffer_dirty bh }
          inode.i_data).node q = (forest v inode.i_data).node q := by
      intro q n hqp
      induction hqp with
      | slot _ => exact fun _ => rfl
      | @word j q n hqp hj ih =>
        intro hnot
        have ih := ih fun h => hnot (h.trans (List.suffix_cons j q))
        rw [node_cons hqp.ne_nil, node_cons hqp.ne_nil, ih]
        by_cases hq0 : (forest v inode.i_data).node q = 0
        · rw [if_pos hq0, if_pos hq0]
        · rw [if_neg hq0, if_neg hq0]
          refine (hword q _ j hqp hq0).trans (if_neg fun h => hnot ?_)
          obtain ⟨rfl, rfl⟩ := h
          exact List.suffix_refl _
    refine splice_grew ok area hp hl (by simp) h0 hq hlen hz hfresh ⟨rfl, rfl, rfl, rfl, rfl⟩ rfl
      rfl rfl (fun b hb => ?_) (fun q hqp => hout _ fun e => ?_) (fun b hb => ?_) ?_ hothers
    · have hne : b ≠ bh := by
        rintro rfl
        exact hb ⟨hc0, k :: c, _, hcp, hbh⟩
      exact ⟨hout b hne, Buffers.mark_dirty_of_ne _ hne⟩
    · have := ok.path_eq hqp hcp (e.symm ▸ hc0) (e.trans hbh.symm)
      subst this
      cases hqp.unique hcp
    · exact Dev.store_mark_covered hb
    · have hk := hothers (k :: c) _ hcp fun h => by
        have := h.length_le
        rw [List.length_cons] at this
        omega
      rw [node_cons (by simp), hk, hbh, if_neg hc0]
      exact (Dev.word_set_word _ hnr ..).trans (if_pos ⟨rfl, rfl⟩)

/-- `get_block` finds the zone of a block, or hangs a new branch on the first hole of its path, or
fails without a trace. -/
theorem get_block_loop_spec {create : Bool} {fuel : Nat} (ok : TreeOk v inode.i_data)
    (area : AreaOk v) {p : List Nat} (hp : (shape v).Path p 0) :
    ∃ g, get_block_loop getblk create p.reverse (fuel + 1) v inode = some g ∧
      Got getblk v inode create p g := by
  obtain ⟨r, hr, ⟨l, hl⟩, hlive, hend, hbranch⟩ :=
    get_branch_spec ok area.nzones_le area.nblocks_pos hp
  have hne : ∀ k, k < 10 → inode.i_data k ≠ 1 := by
    intro k hk h1
    have := (ok.zone 1 ⟨by decide, [k], k - 6, .slot (s := shape v) hk, h1⟩).1.1
    have := area.first
    omega
  obtain ⟨i, c, rfl⟩ := List.exists_cons_of_ne_nil hr
  have hlast : (entries (forest v inode.i_data) (i :: c)).reverse.getLastD ⟨.i_data 0, 0⟩
      = entry (forest v inode.i_data) (i :: c) := by
    simp [entries]
  have hdropLast : (entries (forest v inode.i_data) (i :: c)).reverse.dropLast
      = (entries (forest v inode.i_data) c).reverse := by
    simp [entries]
  have hdrop : p.reverse.drop (entries (forest v inode.i_data) (i :: c)).reverse.length
      = l.reverse := by
    rw [← hl, List.reverse_append, List.length_reverse, entries_length, List.drop_left']
    simp
  unfold get_block_loop
  dsimp only
  rw [if_neg (fun h => h.elim (hne 0 (by decide)) (hne 1 (by decide))), hbranch]
  dsimp only
  rw [hlast]
  by_cases h0 : (forest v inode.i_data).node (i :: c) = 0
  · -- a hole on the path
    have hp0 : (forest v inode.i_data).node p = 0 := by
      by_contra hn
      rw [← hl, ← List.reverse_reverse l] at hn
      exact node_ne_of_append (by simp) hn h0
    rw [h0]
    simp only [bne_self_eq_false, Bool.false_eq_true, if_false]
    cases create with
    | false => exact ⟨_, rfl, .hole hp0 rfl⟩
    | true =>
      simp only [Bool.not_true, Bool.false_or]
      rw [if_neg (by decide), if_neg (by decide), hdrop]
      rcases @alloc_branch_spec v getblk (entry (forest v inode.i_data) (i :: c))
        l.reverse area with
        ⟨v₁, branch, err, heq, hq, hlacks⟩ | ⟨v₁, nr, news, heq, hq, hlen, hz, hfresh⟩
      · rw [heq]
        refine ⟨_, rfl, .failed hp0 rfl hq ?_⟩
        rw [← hl, missing_length hlive h0, ← List.length_reverse]
        exact hlacks
      · rw [heq]
        dsimp only
        rw [List.headD_cons, hdropLast]
        rw [List.length_reverse] at hlen
        have hnode : ∀ q m, (shape v).Path q m → (forest v inode.i_data).node q ≠ 0 →
            v₁.dev.bh.mem ((forest v inode.i_data).node q)
              = v.dev.bh.mem ((forest v inode.i_data).node q) := fun q m hqp hq0 =>
          (hq.out _ fun _ => (ok.zone _ ⟨hq0, q, m, hqp, rfl⟩).2).1
        -- nothing on the branch has changed
        have hsame : ∀ q m, (shape v).Path q m →
            (forest v₁ inode.i_data).node q = (forest v inode.i_data).node q := by
          intro q m hqp
          induction hqp with
          | slot _ => rfl
          | @word j q n hqp hj ih =>
            rw [node_cons hqp.ne_nil, node_cons hqp.ne_nil, ih]
            by_cases hq0 : (forest v inode.i_data).node q = 0
            · rw [if_pos hq0, if_pos hq0]
            · rw [if_neg hq0, if_neg hq0]
              exact Dev.word_congr (hnode q _ hqp hq0) j
        obtain ⟨m, hm⟩ := Shape.Path.of_append (hl ▸ hp : (shape v).Path (l ++ i :: c) 0) hr
        have hsuf : ∀ q, q ≠ [] → q <:+ i :: c →
            (forest v₁ inode.i_data).node q = (forest v inode.i_data).node q := by
          rintro q hq' ⟨l', hl'⟩
          obtain ⟨m', hm'⟩ := Shape.Path.of_append (hl' ▸ hm : (shape v).Path (l' ++ q) m) hq'
          exact hsame q m' hm'
        have hlive₁ : Live (forest v₁ inode.i_data) (i :: c) := by
          intro q hq' hs hne'
          rw [hsuf q hq' hs]
          exact hlive q hq' hs hne'
        have hentry := entries_congr hsuf
        have hptr : ptr (forest v inode.i_data) (i :: c) = ptr (forest v₁ inode.i_data) (i :: c) :=
          congrArg Indirect.p (List.cons.inj hentry).1.symm
        have hverify : verify_chain v₁ inode (entries (forest v inode.i_data) c).reverse = true := by
          rw [verify_reverse, ← (List.cons.inj hentry).2]
          exact verify_entries hlive₁.tail.1
        have hvacant : (ptr (forest v inode.i_data) (i :: c)).get v₁ inode = 0 := by
          rw [hptr, ptr_get hlive₁ (by simp), hsuf _ (by simp) (List.suffix_refl _), h0]
        rw [splice_branch_eq hverify hvacant]
        dsimp only
        obtain ⟨hgrew, hinode⟩ := splice_spec ok area hp hl hlive h0 hq hlen hz hfresh
        refine ⟨_, rfl, ?_⟩
        have hkey : ((⟨(entry (forest v inode.i_data) (i :: c)).p, nr⟩ ::
            branchEntries nr l.reverse news).getLastD ⟨.i_data 0, 0⟩).key
            = (forest _ _).node p := (branchEntries_last (by simpa using hlen)).trans
              (hgrew.last hp (by simp)).symm
        rw [hkey]
        dsimp only [entry]
        rw [hinode]
        exact .new hp0 rfl hgrew
  · -- the whole path is there
    rcases hend with he | hzero
    · obtain rfl := he
      have hbne : ((forest v inode.i_data).node (i :: c) != 0) = true := by simpa using h0
      rw [hbne, if_pos rfl]
      exact ⟨_, rfl, .found h0⟩
    · exact absurd hzero h0

end CominixFs
