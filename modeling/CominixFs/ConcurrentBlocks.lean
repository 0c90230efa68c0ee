import CominixFs.GetSteps

/-!
# Calls of `get_block` side by side

In every interleaving of the steps (`get_blocks_side_by_side`) no step is stuck, what is mapped stays
mapped, every call returns the zone its block is mapped to, one call at most is told that a block is
new, and at the end no zone is lost.
-/

namespace CominixFs
open Bytes Forest

variable {ι : Type}

/-- A mount, the inodes whose pages are mapped, and the calls. -/
structure GetMount (ι : Type) where
  vol : Vol
  inodes : Nat → Inode
  runs : ι → GetRun

/-- One step of call `i`. -/
def GetMount.step [DecidableEq ι] (s : GetMount ι) (i : ι) : Option (GetMount ι) :=
  let r := s.runs i
  match get_step s.vol (s.inodes r.ino) r with
  | none => none
  | some (v, inode, pc) => some {
      vol := v
      inodes := Function.update s.inodes r.ino inode
      runs := Function.update s.runs i { r with pc := pc } }

/-- Who has zones: the inodes, the calls, and whatever else there is. -/
inductive GetOwner (ι : Type) where
  | inode (ino : Nat)
  | run (i : ι)
  | rest

/-- The zones of an owner. -/
def GetMount.owner (s : GetMount ι) (rest : Nat → Prop) : GetOwner ι → Nat → Prop
  | .inode ino => TreeZone s.vol (s.inodes ino).i_data
  | .run i => (· ∈ (s.runs i).pc.zones)
  | .rest => rest

/-- The path of the block of a call. -/
def GetMount.path (s : GetMount ι) (i : ι) : List Nat := block_path s.vol (s.runs i).block

/-- Calls side by side in order. -/
structure GetOk (s : GetMount ι) (rest : Nat → Prop) : Prop where
  area : AreaOk s.vol
  size : SizeOk s.vol
  s_zmap : ∀ i, s.vol.s_zmap.Covered i
  printk : s.vol.printk = []
  tree : ∀ ino, TreeOk s.vol (s.inodes ino).i_data
  owned : Owned (InUse s.vol) (s.owner rest)
  leak : NoLeak (InUse s.vol) (s.owner rest)
  nodup : ∀ i, (s.runs i).pc.zones.Nodup
  range : ∀ i, (s.runs i).block * s.vol.dev.bs < 2 ^ 64
  way : ∀ i, OnWay s.vol (s.inodes (s.runs i).ino).i_data (s.path i) (s.runs i).pc

variable {v v' v'' : Vol} {z z' : Nat → Nat} {p own : List Nat} {pc' : GetPc}

/-! ## Steps of all calls -/

/-- A step of a call leaves the tree of another inode alone. -/
lemma GetStep.others {z₂ : Nat → Nat} (st : GetStep v v' z z' p own pc') (ok : TreeOk v z₂)
    (hown : ∀ x, TreeZone v z₂ x → x ∉ own ∧ ¬ TreeZone v z x) :
    TreeOk v' z₂ ∧ (∀ q n, (shape v).Path q n → (forest v' z₂).node q = (forest v z₂).node q) ∧
      ∀ x, TreeZone v z₂ x → v'.dev.bh.mem x = v.dev.bh.mem x := by
  have hout : ∀ x, TreeZone v z₂ x → InUse v' x ∧ v'.dev.bh.mem x = v.dev.bh.mem x ∧
      v'.dev.bh.dirty x = v.dev.bh.dirty x := fun x hx =>
    ⟨st.keep x (ok.zone x hx) (hown x hx).1, st.out x (ok.zone x hx) (hown x hx).1 (hown x hx).2⟩
  obtain ⟨h1, h2⟩ := ok.frame st.toZmapStep (fun x hx => (hout x hx).1.2)
    (fun q n hq h0 => (hout _ ⟨h0, q, _, hq, rfl⟩).2.1) fun q n hq h0 hc => by
      obtain ⟨-, h1, h2⟩ := hout _ ⟨h0, q, _, hq, rfl⟩
      exact hc.congr h1 (by rw [st.disk]) fun hd => h2.trans hd
  exact ⟨h1, h2, fun x hx => (hout x hx).2.1⟩

/-- A tree that has grown: its blocks are where they were, with the bytes of the file as they were, and
the new blocks of the file are those in `C`. -/
structure TreeGrows (v v' : Vol) (z z' : Nat → Nat) (C : List Nat → Prop) : Prop where
  grows : ∀ q n, (shape v).Path q n → (forest v z).node q ≠ 0 →
    (forest v' z').node q = (forest v z).node q
  data : ∀ q, (shape v).Path q 0 → (forest v z).node q ≠ 0 →
    v'.dev.bh.mem ((forest v z).node q) = v.dev.bh.mem ((forest v z).node q)
  leaf : ∀ q, (shape v).Path q 0 → (forest v z).node q = 0 → (forest v' z').node q ≠ 0 → C q

lemma TreeGrows.trans {z'' : Nat → Nat} {C C' : List Nat → Prop} (h : TreeGrows v v' z z' C)
    (h' : TreeGrows v' v'' z' z'' C') (hs : SameMount v v') :
    TreeGrows v v'' z z'' fun q => C q ∨ C' q := by
  refine ⟨fun q n hq h0 => ?_, fun q hq h0 => ?_, fun q hq h0 h0'' => ?_⟩
  · have h1 := h.grows q n hq h0
    rw [h'.grows q n (hs.shape ▸ hq) (h1 ▸ h0), h1]
  · have h1 := h.grows q 0 hq h0
    have h2 := h'.data q (hs.shape ▸ hq) (h1 ▸ h0)
    rw [h1] at h2
    exact h2.trans (h.data q hq h0)
  · by_cases h0' : (forest v' z').node q = 0
    · exact .inr (h'.leaf q (hs.shape ▸ hq) h0' h0'')
    · exact .inl (h.leaf q hq h0 h0')

section

variable {s s' s'' : GetMount ι} {rest : Nat → Prop} {i : ι}

lemma GetOk.within (ok : GetOk s rest) (h : s.path i ≠ []) : Within s.vol (s.runs i).block := by
  by_contra hb
  refine h ?_
  rw [GetMount.path, block_path, block_to_path_nil (ok.range i) hb]
  rfl

lemma GetOk.call (ok : GetOk s rest) (i : ι) :
    CallOk s.vol (s.inodes (s.runs i).ino).i_data (s.path i) (s.runs i).pc where
  area := ok.area
  s_zmap := ok.s_zmap
  tree := ok.tree _
  path := fun hne => block_path_spec ok.size (ok.within hne)
  nodup := ok.nodup i
  used := ok.owned.used (.run i)
  apart := fun x hx ht => by cases ok.owned.unique (.run i) (.inode _) x hx ht

/-- What the calls have done since `s`. -/
structure GetSince (s : GetMount ι) (rest : Nat → Prop) (s' : GetMount ι) : Prop where
  ok : GetOk s' rest
  same : SameMount s.vol s'.vol
  sbi_eq : s'.vol.sbi = s.vol.sbi
  asked : ∀ i, (s'.runs i).ino = (s.runs i).ino ∧ (s'.runs i).block = (s.runs i).block
  trees : ∀ ino, TreeGrows s.vol s'.vol (s.inodes ino).i_data (s'.inodes ino).i_data fun q =>
    ∃ i nr, (s.runs i).ino = ino ∧ s.path i = q ∧ (s'.runs i).pc = .done (.mapped nr true)
  new : ∀ i nr, (s'.runs i).pc = .done (.mapped nr true) →
    (forest s.vol (s.inodes (s.runs i).ino).i_data).node (s.path i) = 0
  one : ∀ i j nr nr', (s'.runs i).pc = .done (.mapped nr true) →
    (s'.runs j).pc = .done (.mapped nr' true) → (s.runs i).ino = (s.runs j).ino →
    s.path i = s.path j → i = j
  left : ∀ x, rest x → s'.vol.dev.bh.mem x = s.vol.dev.bh.mem x ∧
    s'.vol.dev.bh.dirty x = s.vol.dev.bh.dirty x

namespace GetSince

lemma path (h : GetSince s rest s') (k : ι) : s'.path k = s.path k := by
  unfold GetMount.path
  rw [(h.asked k).2]
  exact block_path_congr (congrArg _ h.sbi_eq) h.same.bits _

/-- What a call returned, its block is mapped to. -/
lemma mapped (h : GetSince s rest s') {nr : Nat} {new : Bool}
    (hpc : (s'.runs i).pc = .done (.mapped nr new)) :
    nr ≠ 0 ∧ (forest s'.vol (s'.inodes (s.runs i).ino).i_data).node (s.path i) = nr := by
  have hway := h.ok.way i
  rw [hpc, h.path, (h.asked i).1] at hway
  cases hway with
  | mapped h0 hnode => exact ⟨h0, hnode⟩

end GetSince

/-- Calls that have not begun. -/
structure GetStart (s : GetMount ι) : Prop where
  area : AreaOk s.vol
  size : SizeOk s.vol
  s_zmap : ∀ i, s.vol.s_zmap.Covered i
  printk : s.vol.printk = []
  tree : ∀ ino, TreeOk s.vol (s.inodes ino).i_data
  apart : ∀ ino ino' x, TreeZone s.vol (s.inodes ino).i_data x →
    TreeZone s.vol (s.inodes ino').i_data x → ino = ino'
  range : ∀ i, (s.runs i).block * s.vol.dev.bs < 2 ^ 64
  reread : ∀ i, (s.runs i).pc = .reread

/-- The zones in use that are of no inode. -/
def GetMount.others (s : GetMount ι) (x : Nat) : Prop :=
  InUse s.vol x ∧ ∀ ino, ¬ TreeZone s.vol (s.inodes ino).i_data x

/-- The zone a block of an inode is mapped to, or 0. -/
def GetMount.mapped (s : GetMount ι) (ino b : Nat) : Nat := blocks s.vol (s.inodes ino).i_data b

lemma GetStart.since (start : GetStart s) : GetSince s s.others s := by
  have hpc : ∀ i, (s.runs i).pc.zones = [] := fun i => by
    rw [start.reread i]
    rfl
  have hrun : ∀ i x, ¬ s.owner s.others (.run i) x := by
    intro i x hx
    have hx : x ∈ (s.runs i).pc.zones := hx
    rw [hpc] at hx
    cases hx
  have hnew : ∀ i r, (s.runs i).pc ≠ .done r := by
    intro i r h
    rw [start.reread] at h
    cases h
  refine ⟨⟨start.area, start.size, start.s_zmap, start.printk, start.tree, ⟨fun k x hx => ?_,
    fun k l x hk hl => ?_⟩, fun x hx => ?_, fun i => ?_, start.range, fun i => ?_⟩, .refl _, rfl,
    fun _ => ⟨rfl, rfl⟩, fun _ => ⟨fun _ _ _ _ => rfl, fun _ _ _ => rfl, fun _ _ h0 h0' => absurd h0 h0'⟩,
    fun i _ h => absurd h (hnew i _), fun i _ _ _ h => absurd h (hnew i _), fun _ _ => ⟨rfl, rfl⟩⟩
  · cases k with
    | inode ino => exact (start.tree ino).zone x hx
    | run i => exact absurd hx (hrun i x)
    | rest => exact hx.1
  · cases k with
    | inode ino =>
      cases l with
      | inode ino' => rw [start.apart ino ino' x hk hl]
      | run i => exact absurd hl (hrun i x)
      | rest => exact absurd hk (hl.2 ino)
    | run i => exact absurd hk (hrun i x)
    | rest =>
      cases l with
      | inode ino => exact absurd hl (hk.2 ino)
      | run i => exact absurd hl (hrun i x)
      | rest => rfl
  · by_cases ht : ∃ ino, TreeZone s.vol (s.inodes ino).i_data x
    · obtain ⟨ino, ht⟩ := ht
      exact ⟨.inode ino, ht⟩
    · exact ⟨.rest, hx, fun ino h => ht ⟨ino, h⟩⟩
  · rw [hpc]
    exact .nil
  · rw [start.reread]
    exact .reread

variable [DecidableEq ι]

/-- The state after a step of call `i`. -/
def GetMount.stepped (s : GetMount ι) (i : ι) (v : Vol) (inode : Inode) (pc : GetPc) : GetMount ι where
  vol := v
  inodes := Function.update s.inodes (s.runs i).ino inode
  runs := Function.update s.runs i { s.runs i with pc := pc }

lemma GetMount.step_eq : s.step i = (get_step s.vol (s.inodes (s.runs i).ino) (s.runs i)).map
    fun g => s.stepped i g.1 g.2.1 g.2.2 := by
  unfold GetMount.step
  dsimp only
  cases get_step s.vol (s.inodes (s.runs i).ino) (s.runs i) <;> rfl

/-- A call that has returned takes no step. -/
lemma GetMount.not_done (h : s.step i = some s') (r : GetBlock) : (s.runs i).pc ≠ .done r := by
  intro hr
  rw [GetMount.step_eq] at h
  unfold get_step at h
  rw [hr] at h
  cases h

section

variable {v' : Vol} {inode' : Inode} {pc' : GetPc} {k : ι} {ino : Nat}

@[simp] lemma stepped_vol : (s.stepped i v' inode' pc').vol = v' := rfl

@[simp] lemma stepped_self : (s.stepped i v' inode' pc').runs i = { s.runs i with pc := pc' } :=
  Function.update_self ..

lemma stepped_of_ne (h : k ≠ i) : (s.stepped i v' inode' pc').runs k = s.runs k :=
  Function.update_of_ne h ..

@[simp] lemma stepped_inode : (s.stepped i v' inode' pc').inodes (s.runs i).ino = inode' :=
  Function.update_self ..

lemma stepped_inode_of_ne (h : ino ≠ (s.runs i).ino) :
    (s.stepped i v' inode' pc').inodes ino = s.inodes ino := Function.update_of_ne h ..

@[simp] lemma stepped_ino (k : ι) : ((s.stepped i v' inode' pc').runs k).ino = (s.runs k).ino := by
  by_cases h : k = i
  · rw [h, stepped_self]
  · rw [stepped_of_ne h]

@[simp] lemma stepped_block (k : ι) :
    ((s.stepped i v' inode' pc').runs k).block = (s.runs k).block := by
  by_cases h : k = i
  · rw [h, stepped_self]
  · rw [stepped_of_ne h]

end

namespace GetOk

/-- A call that has not returned takes its step. -/
lemma progress (ok : GetOk s rest) (h : ∀ r, (s.runs i).pc ≠ .done r) :
    ∃ v inode pc, get_step s.vol (s.inodes (s.runs i).ino) (s.runs i) = some (v, inode, pc) ∧
      s.step i = some (s.stepped i v inode pc) ∧
      GetStep s.vol v (s.inodes (s.runs i).ino).i_data inode.i_data (s.path i) (s.runs i).pc.zones pc := by
  obtain ⟨v, inode, pc, hrun, st⟩ := get_step_spec (ok.call i) (ok.way i) h
  refine ⟨v, inode, pc, hrun, ?_, st⟩
  rw [GetMount.step_eq, hrun]
  rfl

lemma step_cases (ok : GetOk s rest) (h : s.step i = some s') :
    ∃ v inode pc, get_step s.vol (s.inodes (s.runs i).ino) (s.runs i) = some (v, inode, pc) ∧
      s' = s.stepped i v inode pc ∧
      GetStep s.vol v (s.inodes (s.runs i).ino).i_data inode.i_data (s.path i) (s.runs i).pc.zones pc := by
  obtain ⟨v, inode, pc, hrun, hstep, st⟩ := ok.progress (GetMount.not_done h)
  rw [hstep] at h
  cases h
  exact ⟨v, inode, pc, hrun, rfl, st⟩

variable {v' : Vol} {inode' : Inode} {pc' : GetPc}

/-- What a step of a call does to the trees. -/
lemma trees (ok : GetOk s rest) (st : GetStep s.vol v' (s.inodes (s.runs i).ino).i_data inode'.i_data
    (s.path i) (s.runs i).pc.zones pc') (ino : Nat) :
    TreeOk v' ((s.stepped i v' inode' pc').inodes ino).i_data ∧
      TreeGrows s.vol v' (s.inodes ino).i_data ((s.stepped i v' inode' pc').inodes ino).i_data
        (fun q => (s.runs i).ino = ino ∧ s.path i = q ∧ ∃ nr, pc' = .done (.mapped nr true)) ∧
      (ino ≠ (s.runs i).ino → ∀ x, TreeZone v' ((s.stepped i v' inode' pc').inodes ino).i_data x ↔
        TreeZone s.vol (s.inodes ino).i_data x) := by
  by_cases hi : ino = (s.runs i).ino
  · subst hi
    rw [stepped_inode]
    refine ⟨st.tree, ⟨st.grows, st.data, fun q hq h0 h0' => ?_⟩, fun hne => absurd rfl hne⟩
    obtain ⟨rfl, hpc⟩ := st.leaf q hq h0 h0'
    exact ⟨rfl, rfl, hpc⟩
  · rw [stepped_inode_of_ne hi]
    have hapart : ∀ x, TreeZone s.vol (s.inodes ino).i_data x → x ∉ (s.runs i).pc.zones ∧
        ¬ TreeZone s.vol (s.inodes (s.runs i).ino).i_data x := by
      intro x hx
      refine ⟨fun hin => ?_, fun ht => ?_⟩
      · cases ok.owned.unique (.run i) (.inode ino) x hin hx
      · exact hi (GetOwner.inode.inj (ok.owned.unique (.inode ino) (.inode _) x hx ht))
    obtain ⟨htree, hnode, hmem⟩ := st.others (ok.tree ino) hapart
    refine ⟨htree, ⟨fun q n hq _ => hnode q n hq, fun q hq h0 => hmem _ ⟨h0, q, 0, hq, rfl⟩,
      fun q hq h0 h0' => ?_⟩, fun _ x => ?_⟩
    · rw [hnode q 0 hq] at h0'
      exact absurd h0 h0'
    · unfold TreeZone Zone
      rw [st.shape]
      exact and_congr_right fun _ => exists_congr fun q => exists_congr fun n =>
        and_congr_right fun hq => by rw [hnode q n hq]

/-- The path of a block is the same in a mount whose superblock is. -/
lemma path_stepped (hsbi : v'.sbi = s.vol.sbi)
    (hbits : v'.dev.s_blocksize_bits = s.vol.dev.s_blocksize_bits) (k : ι) :
    (s.stepped i v' inode' pc').path k = s.path k := by
  unfold GetMount.path
  rw [stepped_block]
  exact block_path_congr (congrArg _ hsbi) hbits _

/-- The owners that a step of a call does not touch. -/
lemma owner_stepped (ok : GetOk s rest) (st : GetStep s.vol v' (s.inodes (s.runs i).ino).i_data
    inode'.i_data (s.path i) (s.runs i).pc.zones pc') (k : GetOwner ι) (hrun : k ≠ .run i)
    (hinode : k ≠ .inode (s.runs i).ino) (x : Nat) :
    (s.stepped i v' inode' pc').owner rest k x ↔ s.owner rest k x := by
  cases k with
  | inode ino => exact (ok.trees st ino).2.2 (fun e => hinode (e ▸ rfl)) x
  | run k =>
    have hk : k ≠ i := fun e => hrun (e ▸ rfl)
    unfold GetMount.owner
    dsimp only
    rw [stepped_of_ne hk]
  | rest => exact Iff.rfl

lemma keeps (ok : GetOk s rest) (st : GetStep s.vol v' (s.inodes (s.runs i).ino).i_data inode'.i_data
    (s.path i) (s.runs i).pc.zones pc') : GetOk (s.stepped i v' inode' pc') rest := by
  have hrun : ∀ x, (s.stepped i v' inode' pc').owner rest (.run i) x ↔ x ∈ pc'.zones := by
    intro x
    unfold GetMount.owner
    dsimp only
    rw [stepped_self]
  have hinode : ∀ x, (s.stepped i v' inode' pc').owner rest (.inode (s.runs i).ino) x ↔
      TreeZone v' inode'.i_data x := by
    intro x
    unfold GetMount.owner
    dsimp only
    rw [stepped_inode]
    exact Iff.rfl
  refine ⟨ok.area.step st.toZmapStep, ok.size.congr st.sbi_eq st.bits,
    fun k => st.covered k (ok.s_zmap k), st.printk.trans ok.printk, fun ino => (ok.trees st ino).1,
    ?_, ?_, fun k => ?_, fun k => ?_, fun k => ?_⟩
  · refine ok.owned.two (i := .run i) (j := .inode (s.runs i).ino) (fun x hx h _ => st.keep x hx h)
      (fun x hx => ?_) (fun x hx => ?_) (ok.owner_stepped st)
    · rw [hrun, hinode] at hx
      rcases hx with hx | hx
      · obtain ⟨h1, h2⟩ := st.fresh x hx
        exact ⟨h1, h2.imp_right .inr⟩
      · exact ⟨st.tree.zone x hx, (st.taken x hx).elim (fun h => .inr (.inl h)) .inl⟩
    · rw [hinode]
      exact st.apart x ((hrun x).1 hx)
  · refine ok.leak.two (i := .run i) (j := .inode (s.runs i).ino) (fun x hx => ?_) (ok.owner_stepped st)
    rw [hrun, hinode]
    rcases st.exact x hx with ⟨h1, h2⟩ | h
    · by_cases ht : TreeZone s.vol (s.inodes (s.runs i).ino).i_data x
      · obtain ⟨h0, q, n, hq, rfl⟩ := ht
        exact .inr (.inr ⟨h0, q, n, st.shape ▸ hq, st.grows q n hq h0⟩)
      · exact .inl ⟨h1, h2, ht⟩
    · exact .inr h
  · by_cases hk : k = i
    · subst hk
      rw [stepped_self]
      exact st.nodup
    · rw [stepped_of_ne hk]
      exact ok.nodup k
  · rw [stepped_block, show (s.stepped i v' inode' pc').vol.dev.bs = s.vol.dev.bs from st.bs]
    exact ok.range k
  · rw [path_stepped st.sbi_eq st.bits, stepped_ino]
    by_cases hk : k = i
    · subst hk
      rw [stepped_self, stepped_inode]
      exact st.way
    · rw [stepped_of_ne hk]
      refine (ok.way k).frame (ok.call k).path (ok.trees st _).2.1.grows fun b hb => ?_
      -- the zones of the call are not those of the one that moves
      refine st.out b (ok.owned.used (.run k) b hb) (fun hin => ?_) fun ht => ?_
      · exact hk (GetOwner.run.inj (ok.owned.unique (.run k) (.run i) b hb hin))
      · cases ok.owned.unique (.run k) (.inode _) b hb ht

end GetOk

/-- One more step. -/
lemma GetSince.step (h : GetSince s rest s') (hstep : s'.step i = some s'') : GetSince s rest s'' := by
  have hnot := GetMount.not_done hstep
  obtain ⟨v, inode, pc, -, rfl, st⟩ := h.ok.step_cases hstep
  have hkeep : ∀ k r, (s'.runs k).pc = .done r → ((s'.stepped i v inode pc).runs k).pc = .done r := by
    intro k r hk
    rw [stepped_of_ne]
    · exact hk
    · rintro rfl
      exact hnot r hk
  have hend : ∀ k r, ((s'.stepped i v inode pc).runs k).pc = .done r →
      k = i ∧ pc = .done r ∨ k ≠ i ∧ (s'.runs k).pc = .done r := by
    intro k r hk
    by_cases hi : k = i
    · subst hi
      rw [stepped_self] at hk
      exact .inl ⟨rfl, hk⟩
    · rw [stepped_of_ne hi] at hk
      exact .inr ⟨hi, hk⟩
  -- what another call has mapped is no hole
  have hother : ∀ k l nr, (s'.runs l).pc = .done (.mapped nr true) → (s.runs k).ino = (s.runs l).ino →
      s.path k = s.path l →
      (forest s'.vol (s'.inodes (s'.runs k).ino).i_data).node (s'.path k) ≠ 0 := by
    intro k l nr hl hino hpath
    obtain ⟨h0, hnode⟩ := h.mapped hl
    rw [(h.asked k).1, h.path, hino, hpath, hnode]
    exact h0
  refine ⟨h.ok.keeps st, h.same.trans st.toSameMount, st.sbi_eq.trans h.sbi_eq, fun k => ?_,
    fun ino => ?_, fun k nr hk => ?_, fun k l nr nr' hk hl hino hpath => ?_, fun x hx => ?_⟩
  · rw [stepped_ino, stepped_block]
    exact h.asked k
  · have htrees := (h.trees ino).trans (h.ok.trees st ino).2.1 h.same
    refine ⟨htrees.grows, htrees.data, fun q hq h0 h0' => ?_⟩
    rcases htrees.leaf q hq h0 h0' with ⟨k, nr, h1, h2, h3⟩ | ⟨h1, h2, nr, h3⟩
    · exact ⟨k, nr, h1, h2, hkeep k _ h3⟩
    · rw [(h.asked i).1] at h1
      rw [h.path] at h2
      refine ⟨i, nr, h1, h2, ?_⟩
      rw [stepped_self, h3]
  · rcases hend k _ hk with ⟨rfl, hpc⟩ | ⟨-, hk⟩
    · have h0 := st.new nr hpc
      rw [h.path, (h.asked k).1] at h0
      by_contra hne
      have hp : s.path k ≠ [] := by
        intro he
        rw [he] at hne
        exact hne rfl
      have hpath : (shape s.vol).Path (s.path k) 0 := by
        have := (h.ok.call k).path
        rw [h.path, h.same.shape] at this
        exact this hp
      rw [(h.trees _).grows _ 0 hpath hne] at h0
      exact hne h0
    · exact h.new k nr hk
  · rcases hend k _ hk with ⟨rfl, hpc⟩ | ⟨-, hk'⟩
    · rcases hend l _ hl with ⟨rfl, -⟩ | ⟨-, hl'⟩
      · rfl
      · exact absurd (st.new nr hpc) (hother k l nr' hl' hino hpath)
    · rcases hend l _ hl with ⟨rfl, hpc⟩ | ⟨-, hl'⟩
      · exact absurd (st.new nr' hpc) (hother l k nr hk' hino.symm hpath.symm)
      · exact h.one k l nr nr' hk' hl' hino hpath
  · have hout := st.out x (h.ok.owned.used .rest x hx)
      (fun hin => by cases h.ok.owned.unique (.run i) .rest x hin hx)
      fun ht => by cases h.ok.owned.unique (.inode _) .rest x ht hx
    exact ⟨hout.1.trans (h.left x hx).1, hout.2.trans (h.left x hx).2⟩

/-! ## Whole runs -/

/-- What calls side by side have come to. -/
structure SideBySide (s s' : GetMount ι) : Prop where
  moves : ∀ i, (∃ r, (s'.runs i).pc = .done r) ∨ (s'.step i).isSome
  stays : ∀ ino b, s.mapped ino b ≠ 0 → s'.mapped ino b = s.mapped ino b ∧
    s'.vol.dev.bh.mem (s.mapped ino b) = s.vol.dev.bh.mem (s.mapped ino b)
  returned : ∀ i nr new, (s'.runs i).pc = .done (.mapped nr new) →
    nr ≠ 0 ∧ s'.mapped (s.runs i).ino (s.runs i).block = nr
  told : ∀ i nr, (s'.runs i).pc = .done (.mapped nr true) →
    s.mapped (s.runs i).ino (s.runs i).block = 0
  once : ∀ ino b, s.mapped ino b = 0 → s'.mapped ino b ≠ 0 → ∃! i,
    (s.runs i).ino = ino ∧ (s.runs i).block = b ∧ ∃ nr, (s'.runs i).pc = .done (.mapped nr true)
  apart : ∀ ino ino' x, TreeZone s'.vol (s'.inodes ino).i_data x →
    TreeZone s'.vol (s'.inodes ino').i_data x → ino = ino'
  others : ∀ x, s.others x → s'.others x ∧ s'.vol.dev.bh.mem x = s.vol.dev.bh.mem x
  no_leak : (∀ i, ∃ r, (s'.runs i).pc = .done r) → ∀ x, s'.others x → s.others x

lemma GetSince.side_by_side (size : SizeOk s.vol) (h : GetSince s s.others s') : SideBySide s s' := by
  have hwithin : ∀ b, Within s'.vol b ↔ Within s.vol b := fun b =>
    within_congr (congrArg _ h.sbi_eq) h.same
  have hmapped : ∀ ino b, Within s.vol b → s'.mapped ino b
      = (forest s'.vol (s'.inodes ino).i_data).node (block_path s.vol b) := by
    intro ino b hb
    rw [GetMount.mapped, blocks_within ((hwithin b).2 hb), zone_of_congr h.sbi_eq h.same.bits]
  have hblocks : ∀ ino b, Within s.vol b → s.mapped ino b
      = (forest s.vol (s.inodes ino).i_data).node (block_path s.vol b) := by
    intro ino b hb
    rw [GetMount.mapped, blocks_within hb, zone_of]
  have hin : ∀ i nr new, (s'.runs i).pc = .done (.mapped nr new) → Within s.vol (s.runs i).block := by
    intro i nr new hpc
    obtain ⟨h0, hnode⟩ := h.mapped hpc
    rw [← hwithin, ← (h.asked i).2]
    refine h.ok.within fun he => h0 ?_
    rw [h.path] at he
    rw [← hnode, he]
    rfl
  refine ⟨fun i => ?_, fun ino b h0 => ?_, fun i nr new hpc => ?_, fun i nr hpc => ?_,
    fun ino b h0 h0' => ?_, fun ino ino' x hx hx' => ?_, fun x hx => ?_, fun hdone x hx => ?_⟩
  · cases hpc : (s'.runs i).pc with
    | done r => exact .inl ⟨r, rfl⟩
    | _ =>
      obtain ⟨v, inode, pc, -, hrun, -⟩ := @GetOk.progress _ s' s.others i _ h.ok fun r he => by
        rw [hpc] at he
        cases he
      rw [hrun]
      exact .inr rfl
  · have hb : Within s.vol b := blocks_ne_zero h0
    have hp := block_path_spec size hb
    rw [hblocks ino b hb] at h0 ⊢
    rw [hmapped ino b hb]
    exact ⟨(h.trees ino).grows _ 0 hp h0, (h.trees ino).data _ hp h0⟩
  · obtain ⟨h0, hnode⟩ := h.mapped hpc
    refine ⟨h0, ?_⟩
    rw [hmapped _ _ (hin i nr new hpc)]
    exact hnode
  · rw [hblocks _ _ (hin i nr true hpc)]
    exact h.new i nr hpc
  · have hb : Within s.vol b := (hwithin b).1 (blocks_ne_zero h0')
    rw [hblocks ino b hb] at h0
    rw [hmapped ino b hb] at h0'
    obtain ⟨i, nr, hino, hpath, hpc⟩ := (h.trees ino).leaf _ (block_path_spec size hb) h0 h0'
    refine ⟨i, ⟨hino, ?_, nr, hpc⟩, fun k hk => ?_⟩
    · exact Geometry.path_inj ⟨size.bits, size.maxbytes⟩ (hin i nr true hpc) hb hpath
    · obtain ⟨hino', hblock, nr', hpc'⟩ := hk
      refine h.one k i nr' nr hpc' hpc (hino'.trans hino.symm) ?_
      rw [hpath, GetMount.path, hblock]
  · exact GetOwner.inode.inj (h.ok.owned.unique (.inode ino) (.inode ino') x hx hx')
  · refine ⟨⟨h.ok.owned.used .rest x hx, fun ino ht => ?_⟩, (h.left x hx).1⟩
    cases h.ok.owned.unique (.inode ino) .rest x ht hx
  · obtain ⟨k, hk⟩ := h.ok.leak x hx.1
    cases k with
    | inode ino => exact absurd hk (hx.2 ino)
    | run i =>
      obtain ⟨r, hr⟩ := hdone i
      have hk : x ∈ (s'.runs i).pc.zones := hk
      rw [hr] at hk
      cases hk
    | rest => exact hk

/-- In every interleaving of calls of `get_block` on the inodes of a mount: a call that has not returned
takes its next step, what was mapped stays so with its bytes, a call returns the zone its block is
mapped to, each block newly mapped was asked for by one call that is told so, no zone gets two
owners, and at the end none is lost. -/
theorem get_blocks_side_by_side {is : List ι} (start : GetStart s)
    (run : Run GetMount.step (fun _ _ => True) s is s') : SideBySide s s' := by
  refine GetSince.side_by_side start.size (run.inv (P := GetSince s s.others) ?_ start.since)
  intro t k t' _ h hstep
  exact h.step hstep

/-- Two calls for neighbouring blocks of an empty file, below one indirect block. -/
def two_calls : GetMount Bool where
  vol := file_vol
  inodes _ := empty_inode
  runs i := ⟨0, if i then 7 else 8, true, fun _ => true, .reread⟩

lemma two_calls_start : GetStart two_calls := by
  have hnode : ∀ q, (forest file_vol empty_inode.i_data).node q = 0 := by
    intro q
    induction q with
    | nil => rfl
    | cons j q ih =>
      cases q with
      | nil => rfl
      | cons k q => rw [node_cons (List.cons_ne_nil k q), ih, if_pos rfl]
  have hnone : ∀ x, ¬ TreeZone file_vol empty_inode.i_data x := by
    rintro x ⟨h0, q, n, -, rfl⟩
    exact h0 (hnode q)
  have hcov : ∀ i, file_vol.s_zmap.Covered i := fun _ => Or.inr rfl
  exact ⟨file_vol_area, file_vol_built.ok.toGeometry.sizeOk (show 7 * 1024 < 2 ^ 31 by decide),
    hcov, rfl, fun _ => file_vol_built.ok.tree, fun _ _ x h => absurd h (hnone x), fun i => by cases i <;> decide, fun _ => rfl⟩

/-- The call that is second takes back its branch and finds the block of the first. -/
lemma two_calls_run : ∃ s', Run GetMount.step (fun _ _ => True) two_calls
    [true, false, true, false, true, false, true, false, false, false, false, false, false, false, false]
    s' := by
  have h : (List.foldlM (fun s i => if True then GetMount.step s i else none) two_calls [true, false,
      true, false, true, false, true, false, false, false, false, false, false, false, false]).isSome
      = true := by decide +kernel
  obtain ⟨s', h'⟩ := Option.isSome_iff_exists.1 h
  exact ⟨s', Run.of_foldlM h'⟩

/-- The calls are for the same indirect block, which both have allocated. -/
theorem get_blocks_side_by_side_two : ∃ s', Run GetMount.step (fun _ _ => True) two_calls
    [true, false, true, false, true, false, true, false, false, false, false, false, false, false, false]
    s' ∧ SideBySide two_calls s' := by
  obtain ⟨s', run⟩ := two_calls_run
  exact ⟨s', run, get_blocks_side_by_side two_calls_start run⟩

/-! ## Every call returns -/

/-- A bound for the steps a call still takes. -/
def GetMount.left (s : GetMount ι) (i : ι) : Nat :=
  (s.vol.sbi.s_zmap_blocks + 1)
      * (s.runs i).pc.left (s.path i) (holes (forest s.vol (s.inodes (s.runs i).ino).i_data) (s.path i))
    + (s.runs i).pc.scans s.vol.sbi.s_zmap_blocks

lemma GetPc.scans_le (n : Nat) (pc : GetPc) : pc.scans n ≤ n := by
  cases pc with
  | alloc i chain where_ offsets => exact Nat.sub_le n i
  | grow i chain branch parent offsets => exact Nat.sub_le n i
  | _ => exact Nat.zero_le n

lemma GetPc.left_mono {p : List Nat} {m n : Nat} (h : m ≤ n) (pc : GetPc) : pc.left p m ≤ pc.left p n := by
  have hmul : (2 * p.length + 5) * (m + 1) ≤ (2 * p.length + 5) * (n + 1) :=
    Nat.mul_le_mul_left _ (Nat.succ_le_succ h)
  cases pc with
  | reread => exact Nat.add_le_add_right (Nat.add_le_add_right hmul _) 1
  | read chain e offsets => exact Nat.add_le_add_right hmul _
  | undo zones err =>
    cases err with
    | none => exact Nat.add_le_add_right (Nat.add_le_add_right (Nat.add_le_add_right hmul _) _) 2
    | some err => exact Nat.le_refl _
  | _ => exact Nat.le_refl _

/-- A step of a call brings its own end nearer and no other one further away. -/
lemma GetOk.left_step (ok : GetOk s rest) {k : ι} (h : s.step k = some s') (i : ι) :
    List.count i [k] + s'.left i ≤ s.left i := by
  obtain ⟨v, inode, pc, hrun, rfl, st⟩ := ok.step_cases h
  unfold GetMount.left
  rw [path_stepped st.sbi_eq st.bits, stepped_ino, stepped_vol, st.sbi_eq]
  by_cases hi : i = k
  · subst hi
    rw [stepped_self, stepped_inode, List.count_singleton_self]
    have hscans := GetPc.scans_le s.vol.sbi.s_zmap_blocks pc
    rcases GetStep.left (ok.call i) (ok.way i) hrun st with hlt | ⟨heq, hlt⟩
    · have hmul := Nat.mul_le_mul_left (s.vol.sbi.s_zmap_blocks + 1) hlt
      rw [Nat.mul_succ] at hmul
      unfold GetMount.path
      dsimp only at hmul ⊢
      omega
    · unfold GetMount.path
      dsimp only
      rw [heq]
      omega
  · rw [stepped_of_ne hi, List.count_eq_zero_of_not_mem (mt List.mem_singleton.1 hi), Nat.zero_add]
    refine Nat.add_le_add_right (Nat.mul_le_mul_left _ (GetPc.left_mono
      (holes_mono fun q hq hs h0 => ?_) _)) _
    obtain ⟨m, hm⟩ := path_above (ok.call i).path hq hs
    exact (ok.trees st _).2.1.grows q m hm h0

lemma holes_le_length (t : Forest) (p : List Nat) : holes t p ≤ p.length := by
  induction p with
  | nil => exact Nat.le_refl _
  | cons j p ih =>
    rw [holes, List.length_cons]
    split <;> omega

lemma block_path_length (v : Vol) (b : Nat) : (block_path v b).length ≤ 4 := by
  rw [block_path, List.length_reverse]
  unfold block_to_path
  dsimp only
  split_ifs <;> simp only [List.length_cons, List.length_nil] <;> decide

/-- However the steps are interleaved, no call takes more of them than 70 for each bitmap block and 70
more. -/
theorem get_block_returns {is : List ι} (start : GetStart s)
    (run : Run GetMount.step (fun _ _ => True) s is s') (i : ι) :
    is.count i ≤ 70 * (s.vol.sbi.s_zmap_blocks + 1) := by
  have key : ∀ {s is s'}, Run GetMount.step (fun _ _ => True) s is s' → ∀ {rest}, GetOk s rest →
      is.count i + s'.left i ≤ s.left i := by
    intro s is s' run
    induction run with
    | nil s => exact fun _ => Nat.le_of_eq (Nat.zero_add _)
    | @cons s k t is s' _ hstep _ ih =>
      intro rest ok
      obtain ⟨v, inode, pc, -, rfl, st⟩ := ok.step_cases hstep
      have h1 := ok.left_step hstep i
      have h2 := ih (ok.keeps st)
      have h3 : List.count i (k :: is) = List.count i [k] + List.count i is :=
        @List.count_append ι _ i [k] is
      omega
  have hcount := key run start.since.ok
  have hlen : (s.path i).length ≤ 4 := block_path_length s.vol (s.runs i).block
  have hholes := holes_le_length (forest s.vol (s.inodes (s.runs i).ino).i_data) (s.path i)
  have hleft : (s.runs i).pc.left (s.path i)
      (holes (forest s.vol (s.inodes (s.runs i).ino).i_data) (s.path i)) ≤ 70 := by
    rw [start.reread i, GetPc.left]
    have := Nat.mul_le_mul (Nat.add_le_add_right (Nat.mul_le_mul_left 2 hlen) 5)
      (Nat.add_le_add_right (hholes.trans hlen) 1)
    omega
  have hscans : (s.runs i).pc.scans s.vol.sbi.s_zmap_blocks = 0 := by
    rw [start.reread i]
    rfl
  rw [Nat.mul_comm]
  refine Nat.le_trans (Nat.le_of_add_right_le hcount) ?_
  rw [GetMount.left, hscans]
  exact Nat.mul_le_mul_left _ hleft

/-- The call that starts again is still through after less. -/
theorem get_block_returns_two : ∃ is s', Run GetMount.step (fun _ _ => True) two_calls is s' ∧
    is.count false = 11 ∧ is.count false ≤ 70 * (two_calls.vol.sbi.s_zmap_blocks + 1) := by
  obtain ⟨s', run⟩ := two_calls_run
  exact ⟨_, s', run, by decide, get_block_returns two_calls_start run false⟩

end

end CominixFs
