import CominixFs.Owners
import CominixFs.BlockMap

/-!
# The steps of `get_block`

Pages of the same and of different files are mapped at the same time. What is locked is one scan of
a block of the zone bitmap (`bitmap_lock`), one step of `get_branch` down the tree and the splice of
`splice_branch` (`pointers_lock`), so the calls interleave at these steps. A call whose place was
taken while it allocated gives its branch up and starts again.

A step of one call (`get_step_spec`) is one with zones of its own, or hangs them on the tree.
-/

namespace CominixFs
open Bytes Bitmap Forest

/-- Where a call of `get_block` is. -/
inductive GetPc where
  | reread
  /-- The entries read so far, the one read last apart, and the offsets below it. -/
  | read (chain : List Indirect) (p : Indirect) (offsets : List Nat)
  /-- A first zone is searched in bitmap block `i`. -/
  | alloc (i : Nat) (chain : List Indirect) (where_ : Ptr) (offsets : List Nat)
  /-- The branch so far, its last block and the offsets below it. Without any it is spliced, else the
  next zone is searched in bitmap block `i`. -/
  | grow (i : Nat) (chain branch : List Indirect) (parent : Nat) (offsets : List Nat)
  | no_buffer (nr : Nat) (branch : List Indirect)
  /-- The zones to free, and the error to return, or none to start again. -/
  | undo (zones : List Nat) (err : Option Errno)
  | done (r : GetBlock)

/-- A call of `get_block`. `getblk` says for which blocks `sb_getblk` gets a buffer. -/
structure GetRun where
  ino : Nat
  block : Nat
  create : Bool
  getblk : Nat → Bool
  pc : GetPc

/-- What comes after an entry was read. -/
def seen_entry (create : Bool) (chain : List Indirect) (p : Indirect) (offsets : List Nat) : GetPc :=
  if p.key = 0 then
    if create then .alloc 0 chain p.p offsets else .done .hole
  else
    match offsets with
    | [] => .done (.mapped p.key false)
    | off :: offsets => .read chain p (off :: offsets)

/-- The buffers of a branch that is given up are forgotten, before its zones are freed. -/
def give_up (v : Vol) (branch : List Indirect) (err : Option Errno) : Vol × GetPc :=
  (branch.tail.foldl bforget_entry v, .undo (branch.map Indirect.key) err)

/-- The pass of the loop of `cominix_new_block` over bitmap block `i`: the volume and what the function
returns, or that it goes on with the next block. -/
def scan_block (v : Vol) (i : Nat) : Option (Vol × Nat) :=
  if v.sbi.s_zmap_blocks ≤ i then some (v, 0)
  else
    let j := find_first_zero_bit (v.s_zmap.mem i) (bits_per_zone v.dev)
    if j < bits_per_zone v.dev then
      let v := { v with s_zmap := assign v.s_zmap i j true }
      let j := int_to_ulong (j + i * bits_per_zone v.dev + (v.sbi.s_firstdatazone + (2 ^ 64 - 1)))
      some (v, if j < v.sbi.s_firstdatazone ∨ v.sbi.s_nzones ≤ j then 0 else j)
    else none

/-- One step of a call: the volume, the inode, and where the call is then. `none` is a `BUG()`, or a
call that has returned. -/
def get_step (v : Vol) (inode : Inode) (r : GetRun) : Option (Vol × Inode × GetPc) :=
  match r.pc with
  | .reread =>
    match block_to_path v r.block with
    | [] => some (v, inode, .done (.failed Errno.EIO))
    | k :: offsets =>
      if inode.i_data 0 = 1 ∨ inode.i_data 1 = 1 then none
      else some (v, inode, seen_entry r.create [] ⟨.i_data k, inode.i_data k⟩ offsets)
  | .read chain p offsets =>
    if v.dev.nblocks ≤ p.key then some (v, inode, .done (.failed Errno.EIO))
    else if verify_chain v inode (chain ++ [p]) then
      some (v, inode, seen_entry r.create (chain ++ [p])
        ⟨.word p.key (offsets.headD 0), v.dev.word p.key (offsets.headD 0)⟩ offsets.tail)
    else some (v, inode, if r.create then .reread else .done (.failed .EAGAIN))
  | .alloc i chain where_ offsets =>
    match scan_block v i with
    | none => some (v, inode, .alloc (i + 1) chain where_ offsets)
    | some (v, parent) =>
      if parent = 0 then some (v, inode, .done (.failed .ENOSPC))
      else some (v, inode, .grow 0 chain [⟨where_, parent⟩] parent offsets)
  | .grow i chain branch parent (off :: offsets) =>
    match scan_block v i with
    | none => some (v, inode, .grow (i + 1) chain branch parent (off :: offsets))
    | some (v, nr) =>
      if nr = 0 then
        let (v, pc) := give_up v branch (some .ENOSPC)
        some (v, inode, pc)
      else if r.getblk parent then
        let d := v.dev.store parent (put (fun _ => 0) (4 * off) 4 nr)
        some ({ v with dev := d.mark_buffer_dirty parent }, inode,
          .grow 0 chain (branch ++ [⟨.word parent off, nr⟩]) nr offsets)
      else some (v, inode, .no_buffer nr branch)
  | .no_buffer nr branch =>
    let (v, pc) := give_up (cominix_free_block v nr) branch (some .ENOMEM)
    some (v, inode, pc)
  | .grow _ chain branch parent [] =>
    let where_ := branch.headD ⟨.i_data 0, 0⟩
    if verify_chain v inode chain && where_.p.get v inode == 0 then
      let (v, inode) := where_.p.set v inode where_.key
      some (mark_entry v where_.p, mark_inode_dirty inode, .done (.mapped parent true))
    else
      let (v, pc) := give_up v branch none
      some (v, inode, pc)
  | .undo (nr :: zones) err => some (cominix_free_block v nr, inode, .undo zones err)
  | .undo [] none => some (v, inode, .reread)
  | .undo [] (some err) => some (v, inode, .done (.failed err))
  | .done _ => none

/-- The zones a call has taken that are not in the tree of its inode. -/
def GetPc.zones : GetPc → List Nat
  | .grow _ _ branch _ _ => branch.map Indirect.key
  | .no_buffer nr branch => nr :: branch.map Indirect.key
  | .undo zones _ => zones
  | _ => []

/-- A call has got as far as it says on the path of its block. -/
inductive OnWay (v : Vol) (z : Nat → Nat) (p : List Nat) : GetPc → Prop where
  | reread :
    OnWay v z p .reread
  | read {r off offsets} :
    r ≠ [] →
    (off :: offsets).reverse ++ r = p →
    Live (forest v z) r →
    (forest v z).node r ≠ 0 →
    OnWay v z p (.read (entries (forest v z) r.tail).reverse (entry (forest v z) r) (off :: offsets))
  | alloc {i r offsets} :
    r ≠ [] →
    offsets.reverse ++ r = p →
    Live (forest v z) r →
    OnWay v z p (.alloc i (entries (forest v z) r.tail).reverse (ptr (forest v z) r) offsets)
  | grow {i r made offsets nr news} :
    r ≠ [] →
    offsets.reverse ++ (made.reverse ++ r) = p →
    Live (forest v z) r →
    news.length = made.length →
    Fresh v.dev nr made news →
    OnWay v z p (.grow i (entries (forest v z) r.tail).reverse
      (⟨ptr (forest v z) r, nr⟩ :: branchEntries nr made news)
      ((nr :: news).getLast (List.cons_ne_nil nr news)) offsets)
  | no_buffer {nr where_ parent made news} :
    news.length = made.length →
    OnWay v z p (.no_buffer nr (⟨where_, parent⟩ :: branchEntries parent made news))
  | undo {zones err} :
    OnWay v z p (.undo zones err)
  | mapped {nr new} :
    nr ≠ 0 →
    (forest v z).node p = nr →
    OnWay v z p (.done (.mapped nr new))
  | hole :
    OnWay v z p (.done .hole)
  | failed {err} :
    OnWay v z p (.done (.failed err))

/-- A step of a call with its own zones only, of which it had `own` and has `own'`. -/
structure PrivateStep (v v' : Vol) (own own' : List Nat) : Prop extends ZmapStep v v' where
  sbi_eq : v'.sbi = v.sbi
  printk : v'.printk = v.printk
  nodup : own'.Nodup
  keep : ∀ x, InUse v x → x ∉ own → InUse v' x
  fresh : ∀ x, x ∈ own' → InUse v' x ∧ (x ∈ own ∨ ¬ InUse v x)
  exact : ∀ x, InUse v' x → InUse v x ∧ x ∉ own ∨ x ∈ own'
  out : ∀ x, InUse v x → x ∉ own →
    v'.dev.bh.mem x = v.dev.bh.mem x ∧ v'.dev.bh.dirty x = v.dev.bh.dirty x

/-- A step of a call: `p` is the path of its block, `z` are the words of its inode. -/
structure GetStep (v v' : Vol) (z z' : Nat → Nat) (p : List Nat) (own : List Nat) (pc' : GetPc) : Prop
    extends ZmapStep v v' where
  sbi_eq : v'.sbi = v.sbi
  printk : v'.printk = v.printk
  tree : TreeOk v' z'
  nodup : pc'.zones.Nodup
  keep : ∀ x, InUse v x → x ∉ own → InUse v' x
  fresh : ∀ x, x ∈ pc'.zones → InUse v' x ∧ (x ∈ own ∨ ¬ InUse v x)
  taken : ∀ x, TreeZone v' z' x → TreeZone v z x ∨ x ∈ own
  apart : ∀ x ∈ pc'.zones, ¬ TreeZone v' z' x
  exact : ∀ x, InUse v' x → InUse v x ∧ x ∉ own ∨ x ∈ pc'.zones ∨ TreeZone v' z' x
  out : ∀ x, InUse v x → x ∉ own → ¬ TreeZone v z x →
    v'.dev.bh.mem x = v.dev.bh.mem x ∧ v'.dev.bh.dirty x = v.dev.bh.dirty x
  data : ∀ q, (shape v).Path q 0 → (forest v z).node q ≠ 0 →
    v'.dev.bh.mem ((forest v z).node q) = v.dev.bh.mem ((forest v z).node q)
  grows : ∀ q n, (shape v).Path q n → (forest v z).node q ≠ 0 →
    (forest v' z').node q = (forest v z).node q
  leaf : ∀ q, (shape v).Path q 0 → (forest v z).node q = 0 → (forest v' z').node q ≠ 0 →
    q = p ∧ ∃ nr, pc' = .done (.mapped nr true)
  new : ∀ nr, pc' = .done (.mapped nr true) → (forest v z).node p = 0
  way : OnWay v' z' p pc'

variable {v v' v'' : Vol} {z z' : Nat → Nat} {p r own own' own'' news made : List Nat} {pc pc' : GetPc}
  {inode : Inode} {nr nr' parent off : Nat}

/-! ## Branches in the making -/

/-- One more block below the last one of a branch. -/
lemma Fresh.snoc {d d' : Dev} (h : Fresh d nr made news) (hlen : news.length = made.length)
    (hparent : (nr :: news).getLast (List.cons_ne_nil nr news) = parent) (hnd : (nr :: news).Nodup)
    (hmem : ∀ b ∈ nr :: news, b ≠ parent → d'.bh.mem b = d.bh.mem b ∧ d'.bh.dirty b = d.bh.dirty b)
    (hword : ∀ j, d'.word parent j = if j = off then nr' else 0)
    (hdirty : d'.bh.dirty parent = true) :
    Fresh d' nr (made ++ [off]) (news ++ [nr']) := by
  induction h with
  | nil =>
    obtain rfl : _ = parent := hparent
    exact .cons hword hdirty .nil
  | @cons z o n made news hw hd _ ih =>
    rw [List.nodup_cons] at hnd
    rw [List.getLast_cons (List.cons_ne_nil n news)] at hparent
    obtain ⟨hm, hm'⟩ := List.forall_mem_cons.1 hmem
    obtain ⟨h1, h2⟩ := hm (by
      rintro rfl
      exact hnd.1 (hparent ▸ List.getLast_mem _))
    refine .cons (fun j => ?_) (h2.trans hd) ?_
    · rw [Dev.word_congr h1]
      exact hw j
    · exact ih (Nat.succ.inj hlen) hparent hnd.2 hm'

lemma branchEntries_snoc (hlen : news.length = made.length) (off nr' : Nat) :
    branchEntries nr (made ++ [off]) (news ++ [nr'])
      = branchEntries nr made news
        ++ [⟨.word ((nr :: news).getLast (List.cons_ne_nil nr news)) off, nr'⟩] := by
  induction made generalizing nr news with
  | nil =>
    obtain rfl := List.length_eq_zero_iff.1 hlen
    rfl
  | cons o made ih =>
    cases news with
    | nil => cases hlen
    | cons n news =>
      rw [List.getLast_cons (List.cons_ne_nil n news)]
      exact congrArg _ (ih (Nat.succ.inj hlen))

/-- The zones of a branch. -/
lemma branch_zones (where_ : Ptr) (hlen : news.length = made.length) :
    (⟨where_, nr⟩ :: branchEntries nr made news : List Indirect).map Indirect.key = nr :: news := by
  rw [List.map_cons, branchEntries_keys (Nat.le_of_eq hlen)]

/-! ## Steps with private zones -/

lemma InUse.congr (hs : SameMount v v') (hz : v'.s_zmap = v.s_zmap) {x : Nat} :
    InUse v' x ↔ InUse v x := by
  unfold InUse zbit
  rw [hs.inArea, hs.bits_per_zone, hs.first, hz]

namespace PrivateStep

lemma refl (hnd : own.Nodup) (hu : ∀ x ∈ own, InUse v x) : PrivateStep v v own own := by
  refine ⟨.refl v, rfl, rfl, hnd, fun _ hx _ => hx, fun x hx => ⟨hu x hx, .inl hx⟩, fun x hx => ?_,
    fun _ _ _ => ⟨rfl, rfl⟩⟩
  by_cases hown : x ∈ own
  · exact .inr hown
  · exact .inl ⟨hx, hown⟩

/-- The buffers of private blocks are written, marked or forgotten. -/
lemma buffers {dev : Dev} (hnd : own.Nodup) (hu : ∀ x ∈ own, InUse v x)
    (hs : SameMount v { v with dev := dev })
    (hout : ∀ x, x ∉ own → dev.bh.mem x = v.dev.bh.mem x ∧ dev.bh.dirty x = v.dev.bh.dirty x) :
    PrivateStep v { v with dev := dev } own own := by
  have huse := fun x => @InUse.congr v { v with dev := dev } hs rfl x
  have h := refl hnd hu
  exact ⟨.of_eq hs rfl, rfl, rfl, hnd, fun x hx hown => (huse x).2 (h.keep x hx hown),
    fun x hx => ⟨(huse x).2 (h.fresh x hx).1, (h.fresh x hx).2⟩,
    fun x hx => h.exact x ((huse x).1 hx), fun x _ hown => hout x hown⟩

lemma trans (h : PrivateStep v v' own own') (h' : PrivateStep v' v'' own' own'') :
    PrivateStep v v'' own own'' := by
  have hnew : ∀ x, InUse v x → x ∉ own → InUse v' x ∧ x ∉ own' := fun x hx hown =>
    ⟨h.keep x hx hown, fun hin => (h.fresh x hin).2.elim hown fun hfree => hfree hx⟩
  refine ⟨h.toZmapStep.trans h'.toZmapStep, h'.sbi_eq.trans h.sbi_eq, h'.printk.trans h.printk,
    h'.nodup, fun x hx hown => ?_, fun x hx => ?_, fun x hx => ?_, fun x hx hown => ?_⟩
  · obtain ⟨h1, h2⟩ := hnew x hx hown
    exact h'.keep x h1 h2
  · obtain ⟨h1, h2⟩ := h'.fresh x hx
    refine ⟨h1, ?_⟩
    by_contra hnot
    obtain ⟨h3, h4⟩ := not_or.1 hnot
    obtain ⟨h5, h6⟩ := hnew x (not_not.1 h4) h3
    exact h2.elim h6 fun hfree => hfree h5
  · rcases h'.exact x hx with ⟨h1, h2⟩ | h1
    · exact .inl ((h.exact x h1).resolve_right h2)
    · exact .inr h1
  · obtain ⟨h1, h2⟩ := hnew x hx hown
    obtain ⟨h3, h4⟩ := h.out x hx hown
    obtain ⟨h5, h6⟩ := h'.out x h1 h2
    exact ⟨h5.trans h3, h6.trans h4⟩

/-- A zone that was free is taken, or none. -/
lemma of_quiet (q : Quiet v v' news) (hu : ∀ x ∈ own, InUse v x) (hnd' : own'.Nodup)
    (hown : ∀ x, x ∈ own' ↔ x ∈ own ∨ x ∈ news) : PrivateStep v v' own own' := by
  have huse : ∀ x, InUse v' x ↔ InUse v x ∨ x ∈ news := by
    intro x
    constructor
    · rintro ⟨harea, hset⟩
      have harea := q.inArea.1 harea
      exact ((q.zbit x harea).1 hset).symm.imp (fun h => ⟨harea, h⟩) id
    · rintro (⟨harea, hset⟩ | hx)
      · exact ⟨q.inArea.2 harea, (q.zbit x harea).2 (.inr hset)⟩
      · have harea := (q.free x hx).1
        exact ⟨q.inArea.2 harea, (q.zbit x harea).2 (.inl hx)⟩
  have hfree : ∀ x ∈ news, ¬ InUse v x := by
    intro x hx hin
    have := (q.free x hx).2
    rw [hin.2] at this
    cases this
  refine ⟨q.toZmapStep, q.sbi_eq, q.printk, hnd', fun x hx _ => (huse x).2 (.inl hx), fun x hx => ?_,
    fun x hx => ?_, fun x hx _ => q.out x fun _ => hx.2⟩
  · rcases (hown x).1 hx with hold | hnew
    · exact ⟨(huse x).2 (.inl (hu x hold)), .inl hold⟩
    · exact ⟨(huse x).2 (.inr hnew), .inr (hfree x hnew)⟩
  · by_cases hin : x ∈ own
    · exact .inr ((hown x).2 (.inl hin))
    · exact ((huse x).1 hx).imp (fun h => ⟨h, hin⟩) fun h => (hown x).2 (.inr h)

/-- A private zone is freed. -/
lemma free (ok : ZmapOk v) (hnd : (nr :: own).Nodup) (hu : ∀ x ∈ nr :: own, InUse v x) :
    PrivateStep v (cominix_free_block v nr) (nr :: own) own := by
  obtain ⟨hnr, hu'⟩ := List.forall_mem_cons.1 hu
  obtain ⟨hnot, hnd'⟩ := List.nodup_cons.1 hnd
  obtain ⟨hdev, hsbi, hd⟩ := cominix_free_block_spec ok hnr.1 hnr.2
  have huse : ∀ x, InUse (cominix_free_block v nr) x ↔ InUse v x ∧ x ≠ nr := by
    intro x
    constructor
    · rintro ⟨harea, hset⟩
      have harea := hd.inArea.1 harea
      obtain ⟨h1, h2⟩ := (hd.zbit x harea).1 hset
      exact ⟨⟨harea, h1⟩, h2⟩
    · rintro ⟨⟨harea, hset⟩, hne⟩
      exact ⟨hd.inArea.2 harea, (hd.zbit x harea).2 ⟨hset, hne⟩⟩
  refine ⟨hd.toZmapStep, hsbi, hd.printk, hnd', fun x hx hown => ?_, fun x hx => ?_, fun x hx => ?_,
    fun x _ _ => by rw [hdev]; exact ⟨rfl, rfl⟩⟩
  · exact (huse x).2 ⟨hx, fun e => hown (e ▸ List.mem_cons_self)⟩
  · exact ⟨(huse x).2 ⟨hu' x hx, fun e => hnot (e ▸ hx)⟩, .inl (List.mem_cons_of_mem _ hx)⟩
  · obtain ⟨h1, h2⟩ := (huse x).1 hx
    by_cases hin : x ∈ own
    · exact .inr hin
    · exact .inl ⟨h1, List.not_mem_cons_of_ne_of_not_mem h2 hin⟩

/-- The buffers of a branch that is given up are forgotten. -/
lemma forget {branch : List Indirect} (hnd : own.Nodup) (hu : ∀ x ∈ own, InUse v x)
    (hword : ∀ c ∈ branch, ∀ b k, c.p = .word b k → b ∈ own) :
    PrivateStep v (branch.foldl bforget_entry v) own own := by
  obtain ⟨h1, h2, h3, h4, h5, h6⟩ := @forget_spec branch v
  have huse := fun x => @InUse.congr v _ h1 h2 x
  have h := refl hnd hu
  exact ⟨.of_eq h1 h2, h4, h3, hnd, fun x hx hown => (huse x).2 (h.keep x hx hown),
    fun x hx => ⟨(huse x).2 (h.fresh x hx).1, (h.fresh x hx).2⟩,
    fun x hx => h.exact x ((huse x).1 hx),
    fun x _ hown => ⟨by rw [h5], h6 x fun c hc k e => hown (hword c hc x k e)⟩⟩

/-- The tree of no inode is touched. -/
lemma tree (st : PrivateStep v v' own own') (ok : TreeOk v z)
    (hown : ∀ x ∈ own, ¬ TreeZone v z x) :
    TreeOk v' z ∧ ∀ q n, (shape v).Path q n → (forest v' z).node q = (forest v z).node q := by
  have hout : ∀ x, TreeZone v z x → InUse v' x ∧ v'.dev.bh.mem x = v.dev.bh.mem x ∧
      v'.dev.bh.dirty x = v.dev.bh.dirty x := fun x hx =>
    ⟨st.keep x (ok.zone x hx) fun h => hown x h hx, st.out x (ok.zone x hx) fun h => hown x h hx⟩
  refine ok.frame st.toZmapStep (fun x hx => (hout x hx).1.2)
    (fun q n hq h0 => (hout _ ⟨h0, q, _, hq, rfl⟩).2.1) fun q n hq h0 hc => ?_
  obtain ⟨-, h1, h2⟩ := hout _ ⟨h0, q, _, hq, rfl⟩
  exact hc.congr h1 (by rw [st.disk]) fun hd => h2.trans hd

end PrivateStep

/-- A step with private zones is one of a call that does not end. -/
lemma PrivateStep.getStep (st : PrivateStep v v' own pc'.zones) (ok : TreeOk v z)
    (hown : ∀ x ∈ own, ¬ TreeZone v z x) (hnew : ∀ nr, pc' ≠ .done (.mapped nr true))
    (hway : (∀ q n, (shape v).Path q n → (forest v' z).node q = (forest v z).node q) →
      OnWay v' z p pc') : GetStep v v' z z p own pc' := by
  obtain ⟨htree, hnode⟩ := st.tree ok hown
  have hzone : ∀ x, TreeZone v' z x ↔ TreeZone v z x := by
    intro x
    unfold TreeZone Zone
    rw [st.shape]
    exact and_congr_right fun _ => exists_congr fun q => exists_congr fun n =>
      and_congr_right fun hq => by rw [hnode q n hq]
  refine ⟨st.toZmapStep, st.sbi_eq, st.printk, htree, st.nodup, st.keep, st.fresh,
    fun x hx => .inl ((hzone x).1 hx), fun x hx ht => ?_, fun x hx => ?_, fun x hu hx _ => st.out x hu hx,
    fun q hq h0 => ?_, fun q n hq _ => hnode q n hq, fun q hq h0 h0' => ?_, fun nr he => absurd he (hnew nr), hway hnode⟩
  · have ht := (hzone x).1 ht
    rcases (st.fresh x hx).2 with hin | hfree
    · exact hown x hin ht
    · exact hfree (ok.zone x ht)
  · exact (st.exact x hx).imp_right .inl
  · have ht : TreeZone v z ((forest v z).node q) := ⟨h0, q, 0, hq, rfl⟩
    exact (st.out _ (ok.zone _ ht) fun hx => hown _ hx ht).1
  · rw [hnode q 0 hq] at h0'
    exact absurd h0 h0'

/-! ## What others do -/

/-- The place of an entry depends on the blocks above it only. -/
lemma ptr_congr {t t' : Forest} (h : ∀ q, q ≠ [] → q <:+ r → q ≠ r → t'.node q = t.node q) :
    ptr t' r = ptr t r := by
  cases r with
  | nil => rfl
  | cons j r =>
    cases r with
    | nil => rfl
    | cons k r =>
      rw [ptr, ptr, h (k :: r) (List.cons_ne_nil k r) (List.suffix_cons j _)
        (List.cons_ne_self j (k :: r)).symm]

lemma tail_suffix {q : List Nat} (h : q <:+ r.tail) (hr : r ≠ []) : q <:+ r ∧ q ≠ r := by
  obtain ⟨j, r, rfl⟩ := List.exists_cons_of_ne_nil hr
  refine ⟨h.trans (List.suffix_cons j r), ?_⟩
  rintro rfl
  have := h.length_le
  rw [List.length_cons, List.tail_cons] at this
  omega

/-- A tree that has grown has the blocks above a place as they were. -/
lemma Live.grown {t t' : Forest} (h : Live t r) (hr : r ≠ [])
    (grows : ∀ q, q ≠ [] → q <:+ r → t.node q ≠ 0 → t'.node q = t.node q) :
    Live t' r ∧ entries t' r.tail = entries t r.tail ∧ ptr t' r = ptr t r := by
  have hsame : ∀ q, q ≠ [] → q <:+ r → q ≠ r → t'.node q = t.node q := fun q hq hs hne =>
    grows q hq hs (h q hq hs hne)
  refine ⟨fun q hq hs hne => ?_, entries_congr fun q hq hs => ?_, ptr_congr hsame⟩
  · rw [hsame q hq hs hne]
    exact h q hq hs hne
  · obtain ⟨h1, h2⟩ := tail_suffix hs hr
    exact hsame q hq h1 h2

/-- A branch whose blocks are left alone. -/
lemma Fresh.frame {d d' : Dev} (h : Fresh d nr made news)
    (hmem : ∀ b ∈ nr :: news, d'.bh.mem b = d.bh.mem b ∧ d'.bh.dirty b = d.bh.dirty b) :
    Fresh d' nr made news := by
  induction h with
  | nil => exact .nil
  | cons hw hd _ ih =>
    obtain ⟨⟨h1, h2⟩, hrest⟩ := List.forall_mem_cons.1 hmem
    refine .cons (fun j => ?_) (h2.trans hd) (ih hrest)
    rw [Dev.word_congr h1]
    exact hw j

/-- What is above a block of a file is a place of the tree. -/
lemma path_above {q : List Nat} (hp : p ≠ [] → (shape v).Path p 0) (hq : q ≠ []) (hs : q <:+ p) :
    ∃ n, (shape v).Path q n := by
  obtain ⟨l, rfl⟩ := hs
  exact (hp (List.append_ne_nil_of_right_ne_nil l hq)).of_append hq

/-- A call keeps what it has while the tree grows and its own blocks are left alone. -/
lemma OnWay.frame (way : OnWay v z p pc) (hp : p ≠ [] → (shape v).Path p 0)
    (grows : ∀ q n, (shape v).Path q n → (forest v z).node q ≠ 0 →
      (forest v' z').node q = (forest v z).node q)
    (hmem : ∀ b ∈ pc.zones, v'.dev.bh.mem b = v.dev.bh.mem b ∧ v'.dev.bh.dirty b = v.dev.bh.dirty b) :
    OnWay v' z' p pc := by
  have hgrow : ∀ {l r}, l ++ r = p → ∀ q, q ≠ [] → q <:+ r → (forest v z).node q ≠ 0 →
      (forest v' z').node q = (forest v z).node q := by
    intro l r hl q hq hs h0
    obtain ⟨m, hm⟩ := path_above hp hq (hs.trans ⟨l, hl⟩)
    exact grows q m hm h0
  cases way with
  | reread => exact .reread
  | read hr hl hlive h0 =>
    obtain ⟨h1, h2, h3⟩ := hlive.grown hr (hgrow hl)
    have h4 := hgrow hl _ hr (List.suffix_refl _) h0
    rw [← h2, ← show entry (forest v' z') _ = entry (forest v z) _ by rw [entry, h3, h4, entry]]
    exact .read hr hl h1 (h4 ▸ h0)
  | alloc hr hl hlive =>
    obtain ⟨h1, h2, h3⟩ := hlive.grown hr (hgrow hl)
    rw [← h2, ← h3]
    exact .alloc hr hl h1
  | @grow _ _ made _ _ _ hr hl hlive hlen hfresh =>
    obtain ⟨h1, h2, h3⟩ := hlive.grown hr (hgrow ((List.append_assoc _ _ _).trans hl))
    rw [← h2, ← h3]
    refine .grow hr hl h1 hlen (hfresh.frame fun b hb => hmem b ?_)
    rw [GetPc.zones, branch_zones _ hlen]
    exact hb
  | no_buffer hlen => exact .no_buffer hlen
  | undo => exact .undo
  | mapped h0 hnode =>
    refine .mapped h0 ?_
    have hne : p ≠ [] := by
      rintro rfl
      exact h0 hnode.symm
    rw [grows p 0 (hp hne) (hnode ▸ h0), hnode]
  | hole => exact .hole
  | failed => exact .failed

/-! ## The steps of a call -/

/-- Setting a clear bit takes the zone it stands for, if that is one of the normal area. -/
lemma takes_bit {k : Nat} (ok : ZmapOk v) (hk : 0 < k) (hst : ZmapStep v v') (hp : v'.printk = v.printk)
    (hclear : bitAt v.s_zmap (bits_per_zone v.dev) k = false)
    (hset : ∀ n, bitAt v'.s_zmap (bits_per_zone v.dev) n
      = if n = k then true else bitAt v.s_zmap (bits_per_zone v.dev) n) :
    Takes v v' (if v.sbi.s_firstdatazone + k - 1 < v.sbi.s_nzones
      then [v.sbi.s_firstdatazone + k - 1] else []) := by
  have hfirst := ok.first_pos
  refine ⟨hst, hp, by split <;> simp, fun x hx => ?_, fun x hx => ?_⟩
  · by_cases hin : v.sbi.s_firstdatazone + k - 1 < v.sbi.s_nzones
    · rw [if_pos hin, List.mem_singleton] at hx
      subst hx
      refine ⟨⟨by omega, hin⟩, ?_⟩
      rw [zbit, ← hclear]
      congr 1
      omega
    · rw [if_neg hin] at hx
      cases hx
  · obtain ⟨h1, h2⟩ := hx
    rw [zbit, zbit, hst.bits_per_zone, hst.first, hset]
    by_cases hx : x = v.sbi.s_firstdatazone + k - 1
    · rw [if_pos (by omega), if_pos (by omega)]
      simp [hx]
    · rw [if_neg (by omega)]
      split <;> simp [hx]

/-- The search goes on only while there are bitmap blocks. -/
lemma scan_block_none {i : Nat} (h : scan_block v i = none) : i < v.sbi.s_zmap_blocks := by
  by_contra hi
  unfold scan_block at h
  rw [if_pos (Nat.not_lt.1 hi)] at h
  cases h

/-- The pass over a bitmap block takes a zone that was free, or none. -/
lemma scan_block_quiet (area : AreaOk v) (i : Nat) : scan_block v i = none ∨
    ∃ v' nr, scan_block v i = some (v', nr) ∧ v'.dev = v.dev ∧
      (nr ≠ 0 ∧ Quiet v v' [nr] ∨ nr = 0 ∧ Quiet v v' []) := by
  have hpos := bits_per_zone_pos v.dev
  have hfirst := area.zmap.first_pos
  have hnzones := area.zmap.nzones_lt
  unfold scan_block
  by_cases hi : v.sbi.s_zmap_blocks ≤ i
  · rw [if_pos hi]
    exact .inr ⟨v, 0, rfl, rfl, .inr ⟨rfl, .of_eq (.refl v) rfl rfl, rfl, fun _ _ => ⟨rfl, rfl⟩⟩⟩
  · rw [if_neg hi]
    obtain ⟨-, -, hzero⟩ := find_first_zero_bit_spec (v.s_zmap.mem i) (bits_per_zone v.dev)
    generalize find_first_zero_bit (v.s_zmap.mem i) (bits_per_zone v.dev) = j at *
    dsimp only
    by_cases hj : j < bits_per_zone v.dev
    · rw [if_pos hj]
      right
      have hclear : bitAt v.s_zmap (bits_per_zone v.dev) (i * bits_per_zone v.dev + j) = false := by
        rw [bitAt, Nat.mul_comm, Nat.mul_add_div hpos, Nat.div_eq_of_lt hj, Nat.mul_add_mod,
          Nat.mod_eq_of_lt hj, Nat.add_zero]
        exact hzero hj
      have hk : 0 < i * bits_per_zone v.dev + j := by
        rw [Nat.pos_iff_ne_zero]
        intro h0
        rw [h0, area.zmap.bit_zero] at hclear
        cases hclear
      have hlt : (i + 1) * bits_per_zone v.dev ≤ v.sbi.s_zmap_blocks * bits_per_zone v.dev :=
        Nat.mul_le_mul_right _ (by omega)
      rw [Nat.add_mul, Nat.one_mul] at hlt
      have hblocks := area.zmap.blocks_lt
      rw [Nat.add_comm j, int_to_ulong_zone hk (by omega) (by omega)]
      have ht := @takes_bit v { v with s_zmap := assign v.s_zmap i j true } _ area.zmap hk
        (zmapStep_assign hj (.inl rfl)) rfl hclear fun n => bitAt_assign hj
      refine ⟨_, _, rfl, rfl, ?_⟩
      by_cases hin : v.sbi.s_firstdatazone + (i * bits_per_zone v.dev + j) - 1 < v.sbi.s_nzones
      · rw [if_pos hin] at ht
        rw [if_pos ⟨hin, by omega⟩]
        exact .inl ⟨by omega, ht, rfl, fun _ _ => ⟨rfl, rfl⟩⟩
      · rw [if_neg hin] at ht
        rw [if_neg fun h => hin h.1]
        exact .inr ⟨rfl, ht, rfl, fun _ _ => ⟨rfl, rfl⟩⟩
    · exact .inl (if_neg hj)


/-- What a step of one call needs. -/
structure CallOk (v : Vol) (z : Nat → Nat) (p : List Nat) (pc : GetPc) : Prop where
  area : AreaOk v
  s_zmap : ∀ i, v.s_zmap.Covered i
  tree : TreeOk v z
  path : p ≠ [] → (shape v).Path p 0
  nodup : pc.zones.Nodup
  used : ∀ x ∈ pc.zones, InUse v x
  apart : ∀ x ∈ pc.zones, ¬ TreeZone v z x

/-- After an entry was read the call is one block further, or at its end. -/
lemma seen_way {create : Bool} {offsets : List Nat} (hr : r ≠ []) (hl : offsets.reverse ++ r = p)
    (hlive : Live (forest v z) r) :
    OnWay v z p (seen_entry create (entries (forest v z) r.tail).reverse (entry (forest v z) r)
        offsets) ∧
      (seen_entry create (entries (forest v z) r.tail).reverse (entry (forest v z) r) offsets).zones = [] ∧
      ∀ nr, seen_entry create (entries (forest v z) r.tail).reverse (entry (forest v z) r) offsets
        ≠ .done (.mapped nr true) := by
  unfold seen_entry
  by_cases h0 : (entry (forest v z) r).key = 0
  · rw [if_pos h0]
    cases create with
    | true => exact ⟨.alloc hr hl hlive, rfl, fun _ h => by cases h⟩
    | false => exact ⟨.hole, rfl, fun _ h => by cases h⟩
  · rw [if_neg h0]
    cases offsets with
    | nil =>
      obtain rfl : r = p := hl
      exact ⟨.mapped h0 rfl, rfl, fun _ h => by cases h⟩
    | cons off offsets => exact ⟨.read hr hl hlive h0, rfl, fun _ h => by cases h⟩

namespace CallOk

/-- A step that only reads. -/
lemma look (ok : CallOk v z p pc) (hpc : pc.zones = []) (hpc' : pc'.zones = [])
    (hnew : ∀ nr, pc' ≠ .done (.mapped nr true)) (way : OnWay v z p pc') :
    GetStep v v z z p pc.zones pc' := by
  refine PrivateStep.getStep ?_ ok.tree ok.apart hnew fun _ => way
  rw [hpc, hpc']
  exact .refl .nil fun x hx => absurd hx List.not_mem_nil

/-- The first entry is read from the inode. -/
lemma reread_eq {create : Bool} {block : Nat} (ok : CallOk v inode.i_data (block_path v block) .reread)
    {getblk : Nat → Bool} {ino : Nat} :
    get_step v inode ⟨ino, block, create, getblk, .reread⟩ = some (v, inode, .done (.failed Errno.EIO)) ∨
      ∃ r offsets, r ≠ [] ∧ offsets.reverse ++ r = block_path v block ∧ Live (forest v inode.i_data) r ∧
        get_step v inode ⟨ino, block, create, getblk, .reread⟩ = some (v, inode,
          seen_entry create (entries (forest v inode.i_data) r.tail).reverse
            (entry (forest v inode.i_data) r) offsets) := by
  have hne : ∀ k, k < 10 → inode.i_data k ≠ 1 := by
    intro k hk h1
    have := (ok.tree.zone 1 ⟨by decide, [k], k - 6, .slot (s := shape v) hk, h1⟩).1.1
    have := ok.area.first
    omega
  cases hb : block_to_path v block with
  | nil =>
    left
    unfold get_step
    rw [hb]
  | cons k offsets =>
    right
    refine ⟨[k], offsets, List.cons_ne_nil k [], ?_, fun q hq hs he => ?_, ?_⟩
    · rw [CominixFs.block_path, hb, List.reverse_cons]
    · rcases List.suffix_cons_iff.1 hs with hs | hs
      · exact absurd hs he
      · exact absurd (List.suffix_nil.1 hs) hq
    · unfold get_step
      rw [hb]
      dsimp only
      rw [if_neg fun h => h.elim (hne 0 (by decide)) (hne 1 (by decide))]
      rfl

lemma reread {create : Bool} {block : Nat} (ok : CallOk v inode.i_data (block_path v block) .reread)
    {getblk : Nat → Bool} {ino : Nat} :
    ∃ pc', get_step v inode ⟨ino, block, create, getblk, .reread⟩ = some (v, inode, pc') ∧
      GetStep v v inode.i_data inode.i_data (block_path v block) [] pc' := by
  rcases @reread_eq _ _ create block ok getblk ino with h | ⟨r, offsets, hr, hl, hlive, h⟩
  · exact ⟨_, h, ok.look rfl rfl (fun _ h => by cases h) .failed⟩
  · obtain ⟨h1, h2, h3⟩ := @seen_way v inode.i_data _ r create offsets hr hl hlive
    exact ⟨_, h, ok.look rfl h2 h3 h1⟩

/-- The entry below is read: what was read above it has not changed. -/
lemma read_eq {create : Bool} {block : Nat} {chain : List Indirect} {e : Indirect} {offsets : List Nat}
    (ok : CallOk v inode.i_data p (.read chain e offsets))
    (way : OnWay v inode.i_data p (.read chain e offsets)) {getblk : Nat → Bool} {ino : Nat} :
    ∃ r, r ≠ [] ∧ offsets ≠ [] ∧ offsets.tail.reverse ++ r = p ∧ Live (forest v inode.i_data) r ∧
      get_step v inode ⟨ino, block, create, getblk, .read chain e offsets⟩ = some (v, inode,
        seen_entry create (entries (forest v inode.i_data) r.tail).reverse
          (entry (forest v inode.i_data) r) offsets.tail) := by
  cases way with
  | @read r off offsets hr hl hlive h0 =>
    obtain ⟨m, hm⟩ := path_above ok.path hr ⟨_, hl⟩
    have hlt : ¬ v.dev.nblocks ≤ (entry (forest v inode.i_data) r).key :=
      Nat.not_le.2 (ok.tree.lt_nblocks ok.area.nzones_le ok.area.nblocks_pos hm)
    obtain ⟨j, c, rfl⟩ := List.exists_cons_of_ne_nil hr
    have hchain : (entries (forest v inode.i_data) c).reverse ++ [entry (forest v inode.i_data) (j :: c)]
        = (entries (forest v inode.i_data) (j :: c)).reverse := by
      rw [entries, List.reverse_cons]
    have hentry : (⟨.word (entry (forest v inode.i_data) (j :: c)).key off,
        v.dev.word (entry (forest v inode.i_data) (j :: c)).key off⟩ : Indirect)
        = entry (forest v inode.i_data) (off :: j :: c) := by
      rw [entry, entry, ptr_cons hr, node_cons_of_ne hr h0]
      rfl
    refine ⟨off :: j :: c, List.cons_ne_nil _ _, List.cons_ne_nil _ _, ?_, hlive.cons (fun _ => h0) off, ?_⟩
    · rw [← hl, List.reverse_cons, List.append_assoc, List.singleton_append]
      rfl
    · unfold get_step
      dsimp only [List.tail_cons, List.headD_cons]
      rw [if_neg hlt, hchain, if_pos (by rw [verify_reverse, verify_entries hlive]), hentry]

lemma read {create : Bool} {block : Nat} {chain : List Indirect} {e : Indirect} {offsets : List Nat}
    (ok : CallOk v inode.i_data p (.read chain e offsets))
    (way : OnWay v inode.i_data p (.read chain e offsets)) {getblk : Nat → Bool} {ino : Nat} :
    ∃ pc', get_step v inode ⟨ino, block, create, getblk, .read chain e offsets⟩ = some (v, inode, pc') ∧
      GetStep v v inode.i_data inode.i_data p [] pc' := by
  obtain ⟨r, hr, -, hl, hlive, h⟩ := @read_eq _ _ _ create block _ _ _ ok way getblk ino
  obtain ⟨h1, h2, h3⟩ := @seen_way v inode.i_data p r create offsets.tail hr hl hlive
  exact ⟨_, h, ok.look rfl h2 h3 h1⟩

/-- The blocks above a place when no node is another. -/
lemma same (ok : CallOk v z p pc) {l : List Nat} (hr : r ≠ []) (hl : l ++ r = p)
    (hlive : Live (forest v z) r)
    (hnode : ∀ q n, (shape v).Path q n → (forest v' z).node q = (forest v z).node q) :
    Live (forest v' z) r ∧ entries (forest v' z) r.tail = entries (forest v z) r.tail ∧
      ptr (forest v' z) r = ptr (forest v z) r := by
  refine hlive.grown hr fun q hq hs _ => ?_
  obtain ⟨m, hm⟩ := path_above ok.path hq (hs.trans ⟨l, hl⟩)
  exact hnode q m hm

lemma alloc {create : Bool} {block i : Nat} {chain : List Indirect} {where_ : Ptr} {offsets : List Nat}
    (ok : CallOk v inode.i_data p (.alloc i chain where_ offsets))
    (way : OnWay v inode.i_data p (.alloc i chain where_ offsets)) {getblk : Nat → Bool} {ino : Nat} :
    ∃ v' pc', get_step v inode ⟨ino, block, create, getblk, .alloc i chain where_ offsets⟩
        = some (v', inode, pc') ∧ GetStep v v' inode.i_data inode.i_data p [] pc' := by
  unfold get_step
  dsimp only
  rcases scan_block_quiet ok.area i with hnone | ⟨v₁, nr, hnew, -, h⟩
  · rw [hnone]
    refine ⟨v, _, rfl, ok.look rfl rfl (fun _ h => by cases h) ?_⟩
    cases way with
    | alloc hr hl hlive => exact .alloc hr hl hlive
  rw [hnew]
  dsimp only
  rcases h with ⟨h0, q⟩ | ⟨h0, q⟩
  · rw [if_neg h0]
    have st : PrivateStep v v₁ [] [nr] :=
      .of_quiet q (fun x hx => absurd hx List.not_mem_nil) q.nodup fun x => by simp
    refine ⟨_, _, rfl, st.getStep ok.tree ok.apart (fun _ h => by cases h) fun hnode => ?_⟩
    cases way with
    | alloc hr hl hlive =>
      obtain ⟨h1, h2, h3⟩ := ok.same hr hl hlive hnode
      rw [← h2, ← h3]
      exact .grow hr hl h1 rfl .nil
  · rw [if_pos h0]
    have st : PrivateStep v v₁ [] [] :=
      .of_quiet q (fun x hx => absurd hx List.not_mem_nil) .nil fun x => by simp
    exact ⟨_, _, rfl, st.getStep ok.tree ok.apart (fun _ h => by cases h) fun _ => .failed⟩

/-- A branch that is given up: its buffers are forgotten, its zones are still to be freed. -/
lemma give_up {made news : List Nat} {where_ : Ptr} {err : Option Errno}
    (hlen : news.length = made.length) (hnd : (nr :: news).Nodup) (hu : ∀ x ∈ nr :: news, InUse v x) :
    ∃ v', CominixFs.give_up v (⟨where_, nr⟩ :: branchEntries nr made news) err
        = (v', .undo (nr :: news) err) ∧ PrivateStep v v' (nr :: news) (nr :: news) := by
  refine ⟨_, ?_, @PrivateStep.forget v _ (branchEntries nr made news) hnd hu
    fun c hc b k hp => branchEntries_word hc hp⟩
  rw [CominixFs.give_up, branch_zones where_ hlen]
  rfl

lemma undo {create : Bool} {block : Nat} {zones : List Nat} {err : Option Errno}
    (ok : CallOk v inode.i_data p (.undo zones err)) {getblk : Nat → Bool} {ino : Nat} :
    ∃ v' pc', get_step v inode ⟨ino, block, create, getblk, .undo zones err⟩ = some (v', inode, pc') ∧
      GetStep v v' inode.i_data inode.i_data p zones pc' := by
  cases zones with
  | nil =>
    cases err with
    | none => exact ⟨v, .reread, rfl, ok.look rfl rfl (fun _ h => by cases h) .reread⟩
    | some err => exact ⟨v, .done (.failed err), rfl, ok.look rfl rfl (fun _ h => by cases h) .failed⟩
  | cons nr zones =>
    have st : PrivateStep v (cominix_free_block v nr) (nr :: zones) zones :=
      .free ok.area.zmap ok.nodup ok.used
    exact ⟨_, .undo zones err, rfl, st.getStep ok.tree ok.apart (fun _ h => by cases h) fun _ => .undo⟩

lemma no_buffer {create : Bool} {block : Nat} {branch : List Indirect}
    (ok : CallOk v inode.i_data p (.no_buffer nr branch))
    (way : OnWay v inode.i_data p (.no_buffer nr branch)) {getblk : Nat → Bool} {ino : Nat} :
    ∃ v' pc', get_step v inode ⟨ino, block, create, getblk, .no_buffer nr branch⟩
        = some (v', inode, pc') ∧
      GetStep v v' inode.i_data inode.i_data p (nr :: branch.map Indirect.key) pc' := by
  cases way with
  | @no_buffer _ where_ parent made news hlen =>
    have hkeys := @branch_zones news made parent where_ hlen
    have hnd : (nr :: parent :: news).Nodup := hkeys ▸ ok.nodup
    have hu : ∀ x ∈ nr :: parent :: news, InUse v x := hkeys ▸ ok.used
    have hfree := PrivateStep.free ok.area.zmap hnd hu
    obtain ⟨v', hv', hforget⟩ := @give_up (cominix_free_block v nr) parent made news where_
      (some .ENOMEM) hlen hfree.nodup fun x hx => (hfree.fresh x hx).1
    refine ⟨v', .undo (parent :: news) (some .ENOMEM), ?_, ?_⟩
    · unfold get_step
      dsimp only
      rw [hv']
    · rw [hkeys]
      exact (hfree.trans hforget).getStep ok.tree (hkeys ▸ ok.apart) (fun _ h => by cases h)
        fun _ => .undo

/-- The branch gets one more block, or is given up. -/
lemma grow {create : Bool} {block i : Nat} {chain branch : List Indirect} {offsets : List Nat}
    (ok : CallOk v inode.i_data p (.grow i chain branch parent (off :: offsets)))
    (way : OnWay v inode.i_data p (.grow i chain branch parent (off :: offsets)))
    {getblk : Nat → Bool} {ino : Nat} :
    ∃ v' pc', get_step v inode ⟨ino, block, create, getblk, .grow i chain branch parent (off :: offsets)⟩
        = some (v', inode, pc') ∧
      GetStep v v' inode.i_data inode.i_data p (branch.map Indirect.key) pc' := by
  cases way with
  | @grow _ r made _ nr news hr hl hlive hlen hfresh =>
    generalize hlast : (nr :: news).getLast (List.cons_ne_nil nr news) = parent
    have hparent : parent ∈ nr :: news := hlast ▸ List.getLast_mem _
    have hkeys := @branch_zones news made nr (ptr (forest v inode.i_data) r) hlen
    have hnd : (nr :: news).Nodup := hkeys ▸ ok.nodup
    have hu : ∀ x ∈ nr :: news, InUse v x := hkeys ▸ ok.used
    unfold get_step
    dsimp only
    rw [hkeys]
    rcases scan_block_quiet ok.area i with hnone | ⟨v₁, nr', hnew, hdev, h⟩
    · rw [hnone]
      have st : PrivateStep v v (nr :: news) (nr :: news) := .refl hnd hu
      refine ⟨v, _, rfl, PrivateStep.getStep ?_ ok.tree (hkeys ▸ ok.apart) (fun _ h => by cases h)
        fun _ => ?_⟩
      · rw [GetPc.zones, hkeys]
        exact st
      · have way := @OnWay.grow v inode.i_data p (i + 1) r made _ nr news hr hl hlive hlen hfresh
        simp only [hlast] at way
        exact way
    rw [hnew]
    dsimp only
    rcases h with ⟨h0, q⟩ | ⟨h0, q⟩
    · rw [if_neg h0]
      obtain ⟨harea, hfree⟩ := q.free nr' (List.mem_singleton_self nr')
      have hnot : nr' ∉ nr :: news := by
        intro hin
        rw [(hu nr' hin).2] at hfree
        cases hfree
      by_cases hget : getblk parent = true
      · rw [if_pos hget]
        have hnd' : ((nr :: news) ++ [nr']).Nodup := by
          rw [List.nodup_append]
          refine ⟨hnd, q.nodup, ?_⟩
          rintro x hx y hy rfl
          exact hnot (List.mem_singleton.1 hy ▸ hx)
        have htake : PrivateStep v v₁ (nr :: news) ((nr :: news) ++ [nr']) :=
          .of_quiet q hu hnd' fun x => List.mem_append
        have hlt : nr' < 2 ^ 32 := by
          have := ok.area.zmap.nzones_lt
          have := harea.2
          omega
        generalize hd₂ : (v₁.dev.store parent (put (fun _ => 0) (4 * off) 4 nr')).mark_buffer_dirty
          parent = d₂
        have hd : ∀ b, b ≠ parent → d₂.bh.mem b = v₁.dev.bh.mem b ∧
            d₂.bh.dirty b = v₁.dev.bh.dirty b := by
          intro b hb
          rw [← hd₂]
          exact ⟨v₁.dev.bh.set_mem_of_ne _ hb, Buffers.mark_dirty_of_ne _ hb⟩
        have hstore : PrivateStep v₁ { v₁ with dev := d₂ } ((nr :: news) ++ [nr'])
            ((nr :: news) ++ [nr']) := by
          refine .buffers hnd' (fun x hx => (htake.fresh x hx).1) ?_ fun x hx => hd x ?_
          · rw [← hd₂]
            exact ⟨rfl, rfl, rfl, rfl, rfl⟩
          · rintro rfl
            exact hx (List.mem_append_left _ hparent)
        have hbranch : (⟨ptr (forest v inode.i_data) r, nr⟩ :: branchEntries nr made news)
            ++ [⟨.word parent off, nr'⟩]
            = ⟨ptr (forest v inode.i_data) r, nr⟩ :: branchEntries nr (made ++ [off]) (news ++ [nr']) := by
          rw [branchEntries_snoc hlen, hlast, List.cons_append]
        have hlen' : (news ++ [nr']).length = (made ++ [off]).length := by
          rw [List.length_append, List.length_append, hlen]
          rfl
        refine ⟨{ v₁ with dev := d₂ }, _, rfl, ?_⟩
        rw [hbranch]
        have hzones : (GetPc.grow 0 (entries (forest v inode.i_data) r.tail).reverse
            (⟨ptr (forest v inode.i_data) r, nr⟩ :: branchEntries nr (made ++ [off]) (news ++ [nr']))
            nr' offsets).zones = (nr :: news) ++ [nr'] := branch_zones _ hlen'
        refine PrivateStep.getStep (hzones ▸ htake.trans hstore) ok.tree (hkeys ▸ ok.apart)
          (fun _ h => by cases h) fun hnode => ?_
        obtain ⟨h1, h2, h3⟩ := ok.same hr ((List.append_assoc _ _ _).trans hl) hlive hnode
        rw [← h2, ← h3]
        have hway := @OnWay.grow { v₁ with dev := d₂ } inode.i_data p 0 r (made ++ [off]) offsets nr
          (news ++ [nr']) hr (by rw [← hl]; simp) h1 hlen' ?_
        · have hnr' : (nr :: (news ++ [nr'])).getLast (List.cons_ne_nil _ _) = nr' := by simp
          rwa [hnr'] at hway
        · refine hfresh.snoc hlen hlast hnd (fun b _ hb => ?_) (fun j => ?_) ?_
          · obtain ⟨h4, h5⟩ := hd b hb
            rw [← hdev]
            exact ⟨h4, h5⟩
          · change le (d₂.bh.mem parent) (4 * j) 4 = _
            rw [← hd₂]
            simp only [Dev.mark_bh, Dev.store_bh, Buffers.mark_mem, Buffers.set_mem_self]
            by_cases hj : j = off
            · rw [if_pos hj, hj, le_put hlt]
            · rw [if_neg hj, le_put_disjoint (by omega), le_zero]
          · rw [← hd₂]
            exact Buffers.mark_dirty_self _ _
      · rw [if_neg hget]
        have hnd' : (nr' :: nr :: news).Nodup := List.nodup_cons.2 ⟨hnot, hnd⟩
        have st : PrivateStep v v₁ (nr :: news) (nr' :: nr :: news) := by
          refine .of_quiet q hu hnd' fun x => ?_
          rw [List.mem_cons, List.mem_singleton, or_comm]
        refine ⟨v₁, _, rfl, PrivateStep.getStep ?_ ok.tree (hkeys ▸ ok.apart) (fun _ h => by cases h)
          fun _ => .no_buffer hlen⟩
        rw [GetPc.zones, hkeys]
        exact st
    · rw [if_pos h0]
      have st : PrivateStep v v₁ (nr :: news) (nr :: news) := .of_quiet q hu hnd fun x => by simp
      obtain ⟨v', hv', hforget⟩ := @give_up v₁ nr made news (ptr (forest v inode.i_data) r)
        (some .ENOSPC) hlen hnd fun x hx => (st.fresh x hx).1
      rw [hv']
      exact ⟨v', _, rfl, (st.trans hforget).getStep ok.tree (hkeys ▸ ok.apart) (fun _ h => by cases h)
        fun _ => .undo⟩

end CallOk

/-- Before the zones of a branch were taken the volume was one on which they are free. -/
lemma before_taken {branch : List Indirect} (ok : ZmapOk v) (hcov : ∀ i, v.s_zmap.Covered i)
    (hnd : (branch.map Indirect.key).Nodup) (hu : ∀ x ∈ branch.map Indirect.key, InUse v x) :
    ∃ v₀, v₀.dev = v.dev ∧ v₀.sbi = v.sbi ∧ Drops v v₀ (· ∈ branch.map Indirect.key) ∧
      Quiet v₀ v (branch.map Indirect.key) := by
  obtain ⟨hdev, hsbi, hd⟩ := @free_keys_spec branch v ok hnd fun c hc => hu _ (List.mem_map_of_mem hc)
  generalize branch.foldl (fun v c => cominix_free_block v c.key) v = v₀ at *
  refine ⟨v₀, hdev, hsbi, hd, ⟨⟨⟨⟨?_, hd.bits.symm, hd.nblocks.symm, hd.disk.symm, hd.zmap_disk.symm⟩,
    fun i _ => hcov i, fun _ => ?_⟩, hd.printk.symm, hnd, fun x hx => ?_, fun x hx => ?_⟩, hsbi.symm,
    fun b _ => by rw [hdev]; exact ⟨rfl, rfl⟩⟩⟩
  · rw [hsbi]
  · rw [hd.bits_per_zone]
    exact ok.bit_zero
  · have harea := (hu x hx).1
    refine ⟨hd.inArea.2 harea, Bool.eq_false_iff.2 fun hset => ?_⟩
    exact ((hd.zbit x harea).1 hset).2 hx
  · have harea := hd.inArea.1 hx
    rw [hd.zbit x harea]
    constructor
    · intro hset
      by_cases hin : x ∈ branch.map Indirect.key
      · exact .inl hin
      · exact .inr ⟨hset, hin⟩
    · rintro (hin | ⟨hset, -⟩)
      · exact (hu x hin).2
      · exact hset

/-- A branch that was hung on the tree is the step of a call that maps its block. -/
lemma Grew.getStep {v₀ : Vol} (hd : Drops v v₀ (· ∈ own)) (hsbi : v₀.sbi = v.sbi)
    (hdev : v₀.dev = v.dev) (g : Grew v₀ v' z z' p own) (area : AreaOk v)
    (hu : ∀ x ∈ own, InUse v x) (hp : (shape v).Path p 0) (hne : own ≠ [])
    (hlast : own.getLast hne = nr) (h0 : (forest v z).node p = 0) :
    GetStep v v' z z' p own (.done (.mapped nr true)) := by
  have hforest : forest v₀ z = forest v z := by rw [forest, hdev, forest]
  have hst := hd.toZmapStep.trans g.toZmapStep
  obtain ⟨q, hq, hg⟩ := g.grown
  have hlst := g.last (hd.shape ▸ hp) hne
  rw [hd.shape, hforest] at hg
  have hzone : ∀ x, TreeZone v' z' x ↔ TreeZone v z x ∨ x ∈ own := by
    intro x
    have := hg.zone_iff hp hq g.zero (x := x)
    unfold TreeZone
    rw [hst.shape]
    exact this
  have huse : ∀ x, InUse v' x ↔ InUse v x := by
    intro x
    constructor
    · rintro ⟨harea, hset⟩
      have harea := hst.inArea.1 harea
      rcases (g.zbit x (hd.inArea.2 harea)).1 hset with hin | hset
      · exact hu x hin
      · exact ⟨harea, ((hd.zbit x harea).1 hset).1⟩
    · rintro ⟨harea, hset⟩
      refine ⟨hst.inArea.2 harea, (g.zbit x (hd.inArea.2 harea)).2 ?_⟩
      by_cases hin : x ∈ own
      · exact .inl hin
      · exact .inr ((hd.zbit x harea).2 ⟨hset, hin⟩)
  have hnr : nr ≠ 0 := by
    have hin : nr ∈ own := hlast ▸ List.getLast_mem hne
    rintro rfl
    exact area.ne_zero (hu 0 hin).1 rfl
  refine ⟨hst, g.sbi_eq.trans hsbi, g.printk.trans hd.printk, g.tree, .nil, fun x hx _ => (huse x).2 hx,
    fun x hx => absurd hx List.not_mem_nil, fun x hx => (hzone x).1 hx,
    fun x hx => absurd hx List.not_mem_nil, fun x hx => ?_, fun x hx hown ht => ?_,
    fun q' hq' _ => ?_, fun q' n hq' hq0 => ?_, fun q' hq' hq0 hq0' => ?_, fun _ _ => h0, .mapped hnr (hlst.trans hlast)⟩
  · by_cases hin : x ∈ own
    · exact .inr (.inr ((hzone x).2 (.inr hin)))
    · exact .inl ⟨(huse x).1 hx, hin⟩
  · rw [← hdev]
    refine g.out x (fun _ => ?_) fun h => ht ?_
    · exact (hd.zbit x hx.1).2 ⟨hx.2, hown⟩
    · unfold TreeZone at h
      rw [hd.shape, hforest] at h
      exact h
  · rw [← hforest, ← hdev]
    exact g.leaf q' (hd.shape ▸ hq')
  · -- what is below the place was not there
    refine hg.others q' n hq' ?_
    rintro ⟨l, rfl⟩
    rw [← List.reverse_reverse l] at hq0
    exact node_ne_of_append hq hq0 hg.vacant
  · have hqq : q <:+ q' := by
      by_contra hnot
      rw [hg.others q' 0 hq' hnot] at hq0'
      exact hq0' hq0
    have hqp : q' <:+ p := by
      by_contra hnot
      exact hq0' (hg.empty q' 0 hq' hqq hnot)
    obtain ⟨l, rfl⟩ := hqp
    have hlen := path_height hp hq'
    obtain rfl : l = [] := List.length_eq_zero_iff.1 (by omega)
    exact ⟨rfl, nr, rfl⟩

/-- The splice under `pointers_lock`, at the place of the first block of the branch. -/
lemma get_step_splice {c : Indirect} {chain branch : List Indirect} {create : Bool} {i block ino : Nat}
    {getblk : Nat → Bool} :
    get_step v inode ⟨ino, block, create, getblk, .grow i chain (c :: branch) parent []⟩ =
      if (verify_chain v inode chain && c.p.get v inode == 0) = true then
        some (mark_entry (c.p.set v inode c.key).1 c.p, mark_inode_dirty (c.p.set v inode c.key).2,
          .done (.mapped parent true))
      else some ((give_up v (c :: branch) none).1, inode, (give_up v (c :: branch) none).2) := rfl

/-- The blocks above a place are what they were when they were read. -/
lemma verify_above (hr : r ≠ []) (hlive : Live (forest v inode.i_data) r) :
    verify_chain v inode (entries (forest v inode.i_data) r.tail).reverse = true := by
  obtain ⟨j, c, rfl⟩ := List.exists_cons_of_ne_nil hr
  rw [verify_reverse]
  exact verify_entries hlive.tail.1

namespace CallOk

/-- The branch is spliced, or given up when its place was taken. -/
lemma splice {create : Bool} {block i : Nat} {chain branch : List Indirect}
    (ok : CallOk v inode.i_data p (.grow i chain branch parent []))
    (way : OnWay v inode.i_data p (.grow i chain branch parent [])) {getblk : Nat → Bool} {ino : Nat} :
    ∃ v' inode' pc', get_step v inode ⟨ino, block, create, getblk, .grow i chain branch parent []⟩
        = some (v', inode', pc') ∧
      GetStep v v' inode.i_data inode'.i_data p (branch.map Indirect.key) pc' := by
  cases way with
  | @grow _ r made _ nr news hr hl hlive hlen hfresh =>
    have hkeys := @branch_zones news made nr (ptr (forest v inode.i_data) r) hlen
    have hnd : (nr :: news).Nodup := hkeys ▸ ok.nodup
    have hu : ∀ x ∈ nr :: news, InUse v x := hkeys ▸ ok.used
    have hapart : ∀ x ∈ nr :: news, ¬ TreeZone v inode.i_data x := hkeys ▸ ok.apart
    rw [get_step_splice, hkeys, verify_above hr hlive, ptr_get hlive hr, Bool.true_and]
    by_cases h0 : (forest v inode.i_data).node r = 0
    · rw [if_pos (beq_iff_eq.2 h0)]
      have hl' : made.reverse ++ r = p := hl
      have hp : (shape v).Path p 0 := ok.path (by rw [← hl']; simp [hr])
      obtain ⟨v₀, hdev, hsbi, hd, hq⟩ := @before_taken v (⟨ptr (forest v inode.i_data) r, nr⟩ ::
        branchEntries nr made news) ok.area.zmap ok.s_zmap (by rwa [hkeys]) (by rwa [hkeys])
      rw [hkeys] at hd hq
      have hforest : forest v₀ inode.i_data = forest v inode.i_data := by rw [forest, hdev, forest]
      have htree₀ : TreeOk v₀ inode.i_data := by
        refine (ok.tree.frame hd.toZmapStep (fun x hx => ?_) (fun _ _ _ _ => by rw [hdev])
          fun _ _ _ _ hc => by rwa [hdev]).1
        obtain ⟨harea, hset⟩ := ok.tree.zone x hx
        exact (hd.zbit x harea).2 ⟨hset, fun h => hapart x h hx⟩
      obtain ⟨i, c, rfl⟩ := List.exists_cons_of_ne_nil hr
      have hzero : 0 ∉ nr :: news := fun h => ok.area.ne_zero (hu 0 h).1 rfl
      obtain ⟨hgrew, -⟩ := splice_spec htree₀ (ok.area.step hd.toZmapStep)
        (by rwa [hd.shape]) hl' (by rwa [hforest]) (by rwa [hforest]) hq (by rw [hlen, List.length_reverse]) hzero
        (by rwa [List.reverse_reverse])
      rw [hforest] at hgrew
      refine ⟨_, _, _, rfl, ?_⟩
      have hp0 : (forest v inode.i_data).node p = 0 := by
        by_contra hne
        rw [← hl'] at hne
        exact node_ne_of_append (List.cons_ne_nil i c) hne h0
      exact hgrew.getStep hd hsbi hdev ok.area hu hp (List.cons_ne_nil nr news) rfl hp0
    · rw [if_neg (mt beq_iff_eq.1 h0)]
      obtain ⟨v', hv', hforget⟩ := @give_up v nr made news (ptr (forest v inode.i_data) r) none hlen
        hnd hu
      rw [hv']
      exact ⟨v', inode, _, rfl, hforget.getStep ok.tree hapart (fun _ h => by cases h)
        fun _ => .undo⟩

end CallOk

/-- One step of a call that has not returned. -/
lemma get_step_spec {run : GetRun} (ok : CallOk v inode.i_data (block_path v run.block) run.pc)
    (way : OnWay v inode.i_data (block_path v run.block) run.pc) (h : ∀ r, run.pc ≠ .done r) :
    ∃ v' inode' pc', get_step v inode run = some (v', inode', pc') ∧
      GetStep v v' inode.i_data inode'.i_data (block_path v run.block) run.pc.zones pc' := by
  obtain ⟨ino, block, create, getblk, pc⟩ := run
  cases pc with
  | reread =>
    obtain ⟨pc', hrun, st⟩ := ok.reread
    exact ⟨v, inode, pc', hrun, st⟩
  | read chain e offsets =>
    obtain ⟨pc', hrun, st⟩ := ok.read way
    exact ⟨v, inode, pc', hrun, st⟩
  | alloc i chain where_ offsets =>
    obtain ⟨v', pc', hrun, st⟩ := ok.alloc way
    exact ⟨v', inode, pc', hrun, st⟩
  | grow i chain branch parent offsets =>
    cases offsets with
    | nil => exact ok.splice way
    | cons off offsets =>
      obtain ⟨v', pc', hrun, st⟩ := ok.grow way
      exact ⟨v', inode, pc', hrun, st⟩
  | no_buffer nr branch =>
    obtain ⟨v', pc', hrun, st⟩ := ok.no_buffer way
    exact ⟨v', inode, pc', hrun, st⟩
  | undo zones err =>
    obtain ⟨v', pc', hrun, st⟩ := ok.undo
    exact ⟨v', inode, pc', hrun, st⟩
  | done r => exact absurd rfl (h r)

/-! ## How long a call takes -/

/-- The holes on a path. -/
def holes (t : Forest) : List Nat → Nat
  | [] => 0
  | j :: p => holes t p + if t.node (j :: p) = 0 then 1 else 0

/-- A bound for the steps a call still takes, when there are `h` holes on its path `p` and a search for
a zone is one step. A branch is given up when its place is no hole any more, so with every new start
there are fewer. -/
def GetPc.left (p : List Nat) (h : Nat) : GetPc → Nat
  | .reread => (2 * p.length + 5) * (h + 1) + p.length + 1
  | .read _ _ offsets => (2 * p.length + 5) * (h + 1) + offsets.length
  | .alloc _ _ _ offsets =>
    (2 * p.length + 5) * (offsets.length + 1) + p.length + 2 * offsets.length + 5
  | .grow _ _ branch _ offsets =>
    (2 * p.length + 5) * (branch.length + offsets.length) + p.length + branch.length
      + 2 * offsets.length + 3
  | .no_buffer _ branch => branch.length + 2
  | .undo zones none => (2 * p.length + 5) * (h + 1) + p.length + zones.length + 2
  | .undo zones (some _) => zones.length + 1
  | .done _ => 0

/-- The bitmap blocks, of `n`, that a search may still have to look at. -/
def GetPc.scans (n : Nat) : GetPc → Nat
  | .alloc i _ _ _ => n - i
  | .grow i _ _ _ _ => n - i
  | _ => 0

section

variable {t t' : Forest}

/-- From a hole down the path is made of holes. -/
lemma le_holes (hr : r ≠ []) (h0 : t.node r = 0) (l : List Nat) : l.length + 1 ≤ holes t (l ++ r) := by
  induction l with
  | nil =>
    obtain ⟨j, r, rfl⟩ := List.exists_cons_of_ne_nil hr
    rw [List.nil_append, holes, if_pos h0]
    exact Nat.le_add_left ..
  | cons j l ih =>
    have hj : t.node (j :: (l ++ r)) = 0 := by
      by_contra hne
      rw [← List.cons_append, ← List.reverse_reverse (j :: l)] at hne
      exact node_ne_of_append hr hne h0
    rw [List.cons_append, holes, if_pos hj, List.length_cons]
    exact Nat.succ_le_succ ih

/-- Up from a block there are no holes. -/
lemma holes_le (h0 : t.node r ≠ 0) (l : List Nat) : holes t (l ++ r) ≤ l.length := by
  induction l with
  | nil =>
    rw [List.nil_append]
    induction r with
    | nil => exact Nat.le_refl _
    | cons j r ih =>
      rw [holes, if_neg h0, Nat.add_zero]
      cases r with
      | nil => exact Nat.le_refl _
      | cons k r =>
        have hne : t.node ([j].reverse ++ k :: r) ≠ 0 := h0
        exact ih (node_ne_of_append (List.cons_ne_nil k r) hne)
  | cons j l ih =>
    rw [List.cons_append, holes, List.length_cons]
    split <;> omega

/-- A tree that grows has fewer holes. -/
lemma holes_mono (grows : ∀ q, q ≠ [] → q <:+ p → t.node q ≠ 0 → t'.node q = t.node q) :
    holes t' p ≤ holes t p := by
  induction p with
  | nil => exact Nat.le_refl _
  | cons j p ih =>
    rw [holes, holes]
    have ih := ih fun q hq hs => grows q hq (hs.trans (List.suffix_cons j p))
    by_cases h0 : t.node (j :: p) = 0
    · rw [if_pos h0]
      split <;> omega
    · have h0' := grows _ (List.cons_ne_nil j p) (List.suffix_refl _) h0
      rw [if_neg h0, if_neg (h0' ▸ h0)]
      exact ih

/-- After an entry was read. -/
lemma seen_left {create : Bool} {chain : List Indirect} {offsets : List Nat} (hr : r ≠ [])
    (hl : offsets.reverse ++ r = p) :
    (seen_entry create chain (entry t r) offsets).left p (holes t p)
      < (2 * p.length + 5) * (holes t p + 1) + offsets.length + 1 := by
  have hlen : offsets.length < p.length := by
    have := List.length_pos_iff.2 hr
    rw [← hl, List.length_append, List.length_reverse]
    omega
  unfold seen_entry
  by_cases h0 : (entry t r).key = 0
  · rw [if_pos h0]
    cases create with
    | true =>
      have hholes : offsets.length + 1 ≤ holes t p := by
        have := le_holes hr h0 offsets.reverse
        rwa [hl, List.length_reverse] at this
      have : (2 * p.length + 5) * (offsets.length + 1 + 1) ≤ (2 * p.length + 5) * (holes t p + 1) :=
        Nat.mul_le_mul_left _ (Nat.succ_le_succ hholes)
      rw [Nat.mul_succ] at this
      rw [if_pos rfl, GetPc.left]
      omega
    | false => exact Nat.succ_pos _
  · rw [if_neg h0]
    cases offsets with
    | nil => exact Nat.succ_pos _
    | cons off offsets => exact Nat.lt_succ_self _

end

/-- Every step of a call brings its end nearer, or the end of its search for a zone. -/
lemma GetStep.left {run : GetRun} {inode' : Inode}
    (ok : CallOk v inode.i_data (block_path v run.block) run.pc)
    (way : OnWay v inode.i_data (block_path v run.block) run.pc)
    (hrun : get_step v inode run = some (v', inode', pc'))
    (st : GetStep v v' inode.i_data inode'.i_data (block_path v run.block) run.pc.zones pc') :
    pc'.left (block_path v run.block) (holes (forest v' inode'.i_data) (block_path v run.block))
        < run.pc.left (block_path v run.block)
          (holes (forest v inode.i_data) (block_path v run.block)) ∨
      pc'.left (block_path v run.block) (holes (forest v' inode'.i_data) (block_path v run.block))
        = run.pc.left (block_path v run.block)
          (holes (forest v inode.i_data) (block_path v run.block)) ∧
      pc'.scans v.sbi.s_zmap_blocks < run.pc.scans v.sbi.s_zmap_blocks := by
  obtain ⟨ino, block, create, getblk, pc⟩ := run
  dsimp only at *
  generalize hp : block_path v block = p at *
  have hmono : holes (forest v' inode'.i_data) p ≤ holes (forest v inode.i_data) p := by
    refine holes_mono fun q hq hs h0 => ?_
    obtain ⟨m, hm⟩ := path_above ok.path hq hs
    exact st.grows q m hm h0
  have hmul : (2 * p.length + 5) * (holes (forest v' inode'.i_data) p + 1)
      ≤ (2 * p.length + 5) * (holes (forest v inode.i_data) p + 1) :=
    Nat.mul_le_mul_left _ (Nat.succ_le_succ hmono)
  cases pc with
  | reread =>
    left
    subst hp
    rcases @CallOk.reread_eq _ _ create block ok getblk ino with h | ⟨r, offsets, hr, hl, -, h⟩
    · rw [h] at hrun
      cases hrun
      exact Nat.succ_pos _
    · rw [h] at hrun
      cases hrun
      have hlen : offsets.length < (block_path v block).length := by
        have := List.length_pos_iff.2 hr
        rw [← hl, List.length_append, List.length_reverse]
        omega
      have := @seen_left _ _ (forest v inode.i_data) create
        (entries (forest v inode.i_data) r.tail).reverse offsets hr hl
      rw [GetPc.left]
      omega
  | read chain e offsets =>
    left
    obtain ⟨r, hr, hne, hl, -, h⟩ := @CallOk.read_eq _ _ _ create block _ _ _ ok way getblk ino
    rw [h] at hrun
    cases hrun
    have := @seen_left _ _ (forest v inode.i_data) create
      (entries (forest v inode.i_data) r.tail).reverse offsets.tail hr hl
    have := List.length_pos_iff.2 hne
    rw [GetPc.left]
    rw [List.length_tail] at *
    omega
  | alloc i chain where_ offsets =>
    unfold get_step at hrun
    dsimp only at hrun
    cases hscan : scan_block v i with
    | none =>
      rw [hscan] at hrun
      cases hrun
      exact .inr ⟨rfl, Nat.sub_lt_sub_left (scan_block_none hscan) (Nat.lt_succ_self i)⟩
    | some n =>
      left
      rw [hscan] at hrun
      dsimp only at hrun
      by_cases h0 : n.2 = 0
      · rw [if_pos h0] at hrun
        cases hrun
        exact Nat.succ_pos _
      · rw [if_neg h0] at hrun
        cases hrun
        rw [GetPc.left, GetPc.left, List.length_singleton, Nat.add_comm 1]
        omega
  | grow i chain branch parent offsets =>
    cases offsets with
    | nil =>
      left
      cases way with
      | @grow _ r made _ nr news hr hl hlive hlen _ =>
        rw [get_step_splice] at hrun
        split at hrun
        · cases hrun
          exact Nat.succ_pos _
        · next hnot =>
          cases hrun
          have hnode : (forest v inode.i_data).node r ≠ 0 := by
            intro h0
            refine hnot ?_
            rw [verify_above hr hlive, ptr_get hlive hr, h0]
            rfl
          have hentries : (branchEntries nr made news).length = made.length := by
            rw [← List.length_map Indirect.key, branchEntries_keys (Nat.le_of_eq hlen), hlen]
          have hl' : made.reverse ++ r = p := hl
          obtain ⟨m, hm⟩ := path_above ok.path hr ⟨_, hl'⟩
          -- the place of the branch is no hole any more
          have hholes := holes_le (st.grows r m hm hnode ▸ hnode) made.reverse
          rw [hl', List.length_reverse] at hholes
          have hmul := Nat.mul_le_mul_left (2 * p.length + 5) (Nat.add_le_add_right hholes 1)
          change GetPc.left p _ (.undo ((_ :: branchEntries nr made news).map Indirect.key) none) < _
          simp only [GetPc.left, List.length_map, List.length_cons, List.length_nil, hentries, Nat.add_zero]
          omega
    | cons off offsets =>
      unfold get_step at hrun
      dsimp only at hrun
      cases hscan : scan_block v i with
      | none =>
        rw [hscan] at hrun
        cases hrun
        exact .inr ⟨rfl, Nat.sub_lt_sub_left (scan_block_none hscan) (Nat.lt_succ_self i)⟩
      | some n =>
        left
        rw [hscan] at hrun
        dsimp only at hrun
        by_cases h0 : n.2 = 0
        · rw [if_pos h0] at hrun
          cases hrun
          rw [give_up, GetPc.left, GetPc.left, List.length_map]
          omega
        · rw [if_neg h0] at hrun
          by_cases hget : getblk parent = true
          · rw [if_pos hget] at hrun
            cases hrun
            have hsum : branch.length + 1 + offsets.length = branch.length + (offsets.length + 1) := by
              omega
            rw [GetPc.left, GetPc.left, List.length_append, List.length_singleton, List.length_cons, hsum]
            omega
          · rw [if_neg hget] at hrun
            cases hrun
            rw [GetPc.left, GetPc.left, List.length_cons]
            omega
  | no_buffer nr branch =>
    left
    cases hrun
    rw [GetPc.left, GetPc.left, List.length_map]
    omega
  | undo zones err =>
    left
    cases zones with
    | nil =>
      cases err with
      | none =>
        cases hrun
        rw [GetPc.left, GetPc.left, List.length_nil]
        omega
      | some err =>
        cases hrun
        exact Nat.succ_pos _
    | cons nr zones =>
      cases hrun
      cases err with
      | none =>
        rw [GetPc.left, GetPc.left, List.length_cons]
        omega
      | some err => exact Nat.lt_succ_self _
  | done r => cases hrun

end CominixFs
