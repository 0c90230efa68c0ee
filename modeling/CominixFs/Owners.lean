import CominixFs.Lib.Owners
import CominixFs.File

/-!
# The blocks of an inode

An inode has the blocks of its forest, or once it is chunked those of its list (`InodeZone`). A step
of the driver is an exchange of the blocks of one inode (`OwnStep`), which leaves the blocks of every
other inode alone (`OwnStep.left`).
-/

namespace CominixFs
open Bytes Forest

/-- A zone of the normal area that is in use. -/
def InUse (v : Vol) (x : Nat) : Prop := InArea v x ∧ zbit v x = true

/-- A block of the list of a chunked inode. -/
def ListZone (v : Vol) (inode : Inode) (x : Nat) : Prop :=
  ∃ k < list_blocks v.dev (inode.i_data 2), list_block v.dev (get_list_head inode) k = x

/-- The types of inode that have blocks. -/
def has_blocks : Ftype → Bool
  | .reg | .dir | .lnk => true
  | _ => false

/-- A block of an inode. -/
def InodeZone (v : Vol) (inode : Inode) (x : Nat) : Prop :=
  if inode_is_chunked inode then ListZone v inode x
  else has_blocks inode.i_mode = true ∧ TreeZone v inode.i_data x

/-- The list of a chunked inode: its blocks and its entries. The buffers of an empty one are not
marked. -/
structure Listed (v : Vol) (inode : Inode) (blocks : List Nat) (es : List ChunkEntry) : Prop where
  head : blocks.head? = some (get_list_head inode)
  size : inode.i_data 2 = es.length
  last : blocks.getLast? = some (inode.i_data 3)
  nodup : blocks.Nodup
  used : ∀ b ∈ blocks, InUse v b
  list : ListOk v.dev blocks es
  covered : es ≠ [] → ∀ b ∈ blocks, v.dev.bh.Covered b

/-- The blocks of an inode are in order. -/
structure InodeOk (v : Vol) (inode : Inode) : Prop where
  tree : inode_is_chunked inode = false → has_blocks inode.i_mode = true → TreeOk v inode.i_data
  list : inode_is_chunked inode = true → inode.i_mode = .reg ∧ ∃ blocks es, Listed v inode blocks es

/-- A step that exchanges the blocks `old` for the blocks `new`, and leaves the others in use alone
but the extra superblock. -/
structure OwnStep (v v' : Vol) (old new : Nat → Prop) : Prop extends ZmapStep v v' where
  printk : v'.printk = v.printk
  ex : Exchange (InUse v) (InUse v') old new
  out : ∀ b, InUse v b → ¬ old b → b ≠ v.sbi.extra_sb_location →
    v'.dev.bh.mem b = v.dev.bh.mem b ∧ v'.dev.bh.dirty b = v.dev.bh.dirty b

/-- No more zones are in use than those that were and those that are new. -/
def Exact (v v' : Vol) (old new : Nat → Prop) : Prop :=
  ∀ x, InUse v' x → InUse v x ∧ ¬ old x ∨ new x

variable {v v' v'' : Vol} {inode inode' : Inode} {old new next : Nat → Prop}

lemma SameMount.inUse (h : SameMount v v') {x : Nat} :
    InUse v' x ↔ InArea v x ∧ zbit v' x = true := and_congr_left fun _ => h.inArea

/-! ## Steps -/

lemma OwnStep.trans (h : OwnStep v v' old new) (h' : OwnStep v' v'' new next) :
    OwnStep v v'' old next := by
  refine ⟨h.toZmapStep.trans h'.toZmapStep, h'.printk.trans h.printk, h.ex.trans h'.ex,
    fun b hb hold hesb => ?_⟩
  obtain ⟨h1, h2⟩ := h.out b hb hold hesb
  have hnew : ¬ new b := by
    intro hn
    cases (h.ex.fresh b hn).2 with
    | inl ho => exact hold ho
    | inr hfree => exact hfree hb
  obtain ⟨h3, h4⟩ := h'.out b (h.ex.keep b hb hold) hnew (by rw [h.esb]; exact hesb)
  exact ⟨h3.trans h1, h4.trans h2⟩

/-- What the owner has besides stays. -/
lemma OwnStep.frame (h : OwnStep v v' old new) {rest : Nat → Prop}
    (hrest : ∀ x, rest x → InUse v x ∧ ¬ old x) :
    OwnStep v v' (fun x => old x ∨ rest x) fun x => new x ∨ rest x :=
  ⟨h.toZmapStep, h.printk, h.ex.frame hrest, fun b hb hold => h.out b hb fun ho => hold (.inl ho)⟩

lemma Exact.trans (h : Exact v v' old new) (h' : Exact v' v'' new next) : Exact v v'' old next := by
  intro x hx
  rcases h' x hx with ⟨hu, hn⟩ | hnext
  · rcases h x hu with hold | hnew
    · exact .inl hold
    · exact absurd hnew hn
  · exact .inr hnext

lemma Exact.frame (h : Exact v v' old new) (rest : Nat → Prop) :
    Exact v v' (fun x => old x ∨ rest x) fun x => new x ∨ rest x := by
  intro x hx
  by_cases hr : rest x
  · exact .inr (.inr hr)
  · rcases h x hx with ⟨hu, hold⟩ | hnew
    · exact .inl ⟨hu, fun h => h.elim hold hr⟩
    · exact .inr (.inl hnew)

lemma TreeStep.own (h : TreeStep v v' old new) : OwnStep v v' old new := by
  refine ⟨h.toZmapStep, h.printk, ⟨fun x hx hold => ?_, fun x hx => ?_⟩, fun b hb hold _ => ?_⟩
  · exact h.inUse.2 ⟨hx.1, (h.zbit x hx.1).2 (.inl ⟨hx.2, hold⟩)⟩
  · obtain ⟨harea, hfree⟩ := h.fresh x hx
    refine ⟨h.inUse.2 ⟨harea, (h.zbit x harea).2 (.inr hx)⟩, hfree.imp_right fun hz hu => ?_⟩
    rw [hu.2] at hz
    cases hz
  · exact h.out b hold fun _ => hb.2

lemma TreeStep.exact (h : TreeStep v v' old new) : Exact v v' old new := by
  intro x hx
  obtain ⟨harea, hset⟩ := h.inUse.1 hx
  exact ((h.zbit x harea).1 hset).imp_left fun ⟨hz, hold⟩ => ⟨⟨harea, hz⟩, hold⟩

/-- Growing a list takes its blocks. -/
lemma ListGrown.own {blocks : List Nat} (ok : VolOk v) (g : ListGrown v v' blocks) :
    OwnStep v v' (fun _ => False) (· ∈ blocks) := by
  refine ⟨g.toZmapStep, g.printk, ⟨fun x hx _ => ?_, fun x hx => ?_⟩, fun b hb _ hesb => ?_⟩
  · exact g.inUse.2 ⟨hx.1, (g.zbit x hx.1).2 (.inr hx.2)⟩
  · obtain ⟨harea, hfree⟩ := g.free x hx
    refine ⟨g.inUse.2 ⟨harea, (g.zbit x harea).2 (.inl hx)⟩, .inr fun hu => ?_⟩
    rw [hu.2] at hfree
    cases hfree
  · apply g.mem_out b (ok.low hb.1) hesb
    intro hmem
    have hset := hb.2
    rw [(g.free b hmem).2] at hset
    cases hset

lemma ListGrown.exact {blocks : List Nat} (g : ListGrown v v' blocks) :
    Exact v v' (fun _ => False) (· ∈ blocks) := by
  intro x hx
  obtain ⟨harea, hset⟩ := g.inUse.1 hx
  cases (g.zbit x harea).1 hset with
  | inl hmem => exact .inr hmem
  | inr hz => exact .inl ⟨⟨harea, hz⟩, id⟩

/-! ## The blocks of the other inodes -/

lemma Listed.zone_iff {blocks : List Nat} {es : List ChunkEntry} (h : Listed v inode blocks es)
    (hE : 0 < entries_per_block v.dev) {x : Nat} : ListZone v inode x ↔ x ∈ blocks := by
  have hlen := h.list.length hE
  unfold ListZone
  rw [h.size, ← hlen]
  constructor
  · rintro ⟨k, hk, rfl⟩
    rw [h.list.list_block h.head (List.getElem?_eq_getElem hk)]
    exact List.getElem_mem hk
  · intro hx
    obtain ⟨k, hk, rfl⟩ := List.getElem_of_mem hx
    exact ⟨k, hk, h.list.list_block h.head (List.getElem?_eq_getElem hk)⟩

lemma InodeZone.of_list (h : inode_is_chunked inode = true) {x : Nat} :
    InodeZone v inode x ↔ ListZone v inode x := by
  unfold InodeZone
  rw [if_pos h]

lemma InodeZone.of_tree (h : inode_is_chunked inode = false)
    (hb : has_blocks inode.i_mode = true) {x : Nat} :
    InodeZone v inode x ↔ TreeZone v inode.i_data x := by
  unfold InodeZone
  rw [h, if_neg Bool.false_ne_true]
  exact and_iff_right hb

/-- The blocks of an inode in order are in use. -/
lemma InodeOk.used (ok : InodeOk v inode) (hE : 0 < entries_per_block v.dev) {x : Nat}
    (hx : InodeZone v inode x) : InUse v x := by
  cases hc : inode_is_chunked inode with
  | true =>
    obtain ⟨-, blocks, es, hl⟩ := ok.list hc
    exact hl.used x ((hl.zone_iff hE).1 ((InodeZone.of_list hc).1 hx))
  | false =>
    unfold InodeZone at hx
    rw [hc, if_neg Bool.false_ne_true] at hx
    exact (ok.tree hc hx.1).zone x hx.2

/-- A list whose blocks are left alone. -/
lemma Listed.frame {blocks : List Nat} {es : List ChunkEntry} (h : Listed v inode blocks es)
    (st : ZmapStep v v') (hleft : ∀ x ∈ blocks, zbit v' x = true ∧
      v'.dev.bh.mem x = v.dev.bh.mem x ∧ v'.dev.bh.dirty x = v.dev.bh.dirty x) :
    Listed v' inode blocks es := by
  refine ⟨h.head, h.size, h.last, h.nodup, fun b hb => ?_,
    h.list.congr st.bs fun b hb => (hleft b hb).2.1, fun hes b hb => ?_⟩
  · exact st.inUse.2 ⟨(h.used b hb).1, (hleft b hb).1⟩
  · obtain ⟨-, h1, h2⟩ := hleft b hb
    exact (h.covered hes b hb).congr h1 (by rw [st.disk]) fun hd => h2 ▸ hd

/-- An inode whose blocks are left alone. -/
lemma InodeOk.frame (ok : InodeOk v inode) (hE : 0 < entries_per_block v.dev) (st : ZmapStep v v')
    (hleft : ∀ x, InodeZone v inode x → zbit v' x = true ∧
      v'.dev.bh.mem x = v.dev.bh.mem x ∧ v'.dev.bh.dirty x = v.dev.bh.dirty x) :
    InodeOk v' inode ∧ ∀ x, InodeZone v' inode x ↔ InodeZone v inode x := by
  cases hc : inode_is_chunked inode with
  | true =>
    obtain ⟨hreg, blocks, es, hl⟩ := ok.list hc
    have hl' := hl.frame st fun x hx =>
      hleft x ((InodeZone.of_list hc).2 ((hl.zone_iff hE).2 hx))
    have hE' : 0 < entries_per_block v'.dev := by
      rw [entries_per_block, st.bs]
      exact hE
    refine ⟨⟨fun h => absurd (hc.symm.trans h) Bool.noConfusion, fun _ => ⟨hreg, blocks, es, hl'⟩⟩,
      fun x => ?_⟩
    rw [InodeZone.of_list hc, InodeZone.of_list hc, hl'.zone_iff hE', hl.zone_iff hE]
  | false =>
    have hkeep : has_blocks inode.i_mode = true → TreeOk v' inode.i_data ∧
        ∀ x, TreeZone v' inode.i_data x ↔ TreeZone v inode.i_data x := by
      intro hb
      have htree := ok.tree hc hb
      have hz : ∀ p n, (shape v).Path p n → (forest v inode.i_data).node p ≠ 0 →
          InodeZone v inode ((forest v inode.i_data).node p) := fun p n hp h0 =>
        (InodeZone.of_tree hc hb).2 ⟨h0, p, n, hp, rfl⟩
      obtain ⟨hok', hnode⟩ := htree.frame st
        (fun x hx => (hleft x ((InodeZone.of_tree hc hb).2 hx)).1)
        (fun p n hp h0 => (hleft _ (hz p _ hp h0)).2.1)
        (fun p n hp h0 hcov => by
          obtain ⟨-, h1, h2⟩ := hleft _ (hz p _ hp h0)
          exact hcov.congr h1 (by rw [st.disk]) fun hd => h2 ▸ hd)
      exact ⟨hok', fun x => treeZone_congr st.toSameMount hnode⟩
    refine ⟨⟨fun _ hb => (hkeep hb).1, fun h => absurd (hc.symm.trans h) Bool.noConfusion⟩,
      fun x => ?_⟩
    unfold InodeZone
    rw [hc, if_neg Bool.false_ne_true, if_neg Bool.false_ne_true]
    exact and_congr_right fun hb => (hkeep hb).2 x

/-- A step of another owner leaves an inode alone. -/
lemma OwnStep.left (st : OwnStep v v' old new) (ok : InodeOk v inode)
    (hE : 0 < entries_per_block v.dev)
    (hother : ∀ x, InodeZone v inode x → ¬ old x ∧ x ≠ v.sbi.extra_sb_location) :
    InodeOk v' inode ∧ ∀ x, InodeZone v' inode x ↔ InodeZone v inode x := by
  refine ok.frame hE st.toZmapStep fun x hx => ?_
  have hu := ok.used hE hx
  obtain ⟨hold, hesb⟩ := hother x hx
  exact ⟨(st.ex.keep x hu hold).2, st.out x hu hold hesb⟩

/-- A step that takes and gives up zones of the normal area only leaves the heap alone. -/
lemma TreeStep.heap {cs : List Stored} (h : TreeStep v v' old new) (ok : VolOk v)
    (hold : ∀ x, old x → InArea v x) (inv : HeapInv v cs) : HeapInv v' cs := by
  apply inv.low ok.lay h.toSameMount (by rw [h.sbi_eq]) (fun b hb => ok.low hb)
  intro b hb
  exact (h.out b (fun ho => hb (hold b ho)) fun harea => absurd harea hb).1

end CominixFs
