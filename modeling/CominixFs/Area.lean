import CominixFs.Hashtable
import CominixFs.ZoneBitmap

/-!
# The normal area below the chunk area

On a mounted volume (`VolOk`) the zones of the normal area, the extra superblock among them, lie
below the hashtable and the heap. So what is done in one area leaves the other alone.
-/

namespace CominixFs
open Bytes

/-- A mounted volume of less than 4 GiB. Without room for it at the first mount there is no extra
superblock. -/
structure VolOk (v : Vol) : Prop where
  lay : HeapLayout v
  zmap : ZmapOk v
  first : 1 < v.sbi.s_firstdatazone
  below : v.sbi.s_nzones * v.dev.bs ≤ v.sbi.hashtable
  esb : v.sbi.extra_sb_location = 0 ∨
    InArea v v.sbi.extra_sb_location ∧ zbit v v.sbi.extra_sb_location = true

/-- A block that ends below the hashtable. -/
def Low (v : Vol) (b : Nat) : Prop := (b + 1) * v.dev.bs ≤ v.sbi.hashtable

namespace VolOk

variable {v v' : Vol}

lemma low (ok : VolOk v) {z : Nat} (hz : InArea v z) : Low v z :=
  (Nat.mul_le_mul_right _ hz.2).trans ok.below

lemma ne_zero (ok : VolOk v) {z : Nat} (hz : InArea v z) : z ≠ 0 := by
  have := ok.zmap.first_pos
  have := hz.1
  omega

/-- The normal area lies inside the device. -/
lemma nzones_le (ok : VolOk v) : v.sbi.s_nzones ≤ v.dev.nblocks := by
  have h1 := ok.below
  have h2 := ok.lay.table_in
  exact Nat.le_of_mul_le_mul_right (h1.trans (by omega)) v.dev.bs_pos

lemma lt_nblocks (ok : VolOk v) {z : Nat} (hz : InArea v z) : z < v.dev.nblocks :=
  lt_of_lt_of_le hz.2 ok.nzones_le

lemma lt_32 (ok : VolOk v) {z : Nat} (hz : InArea v z) : z < 2 ^ 32 := by
  have := ok.zmap.nzones_lt
  have := hz.2
  omega

/-- A free zone is not the extra superblock. -/
lemma ne_esb (ok : VolOk v) {z : Nat} (hz : InArea v z) (hfree : zbit v z = false) :
    z ≠ v.sbi.extra_sb_location := by
  rintro rfl
  rcases ok.esb with h0 | ⟨-, hset⟩
  · exact ok.ne_zero hz h0
  · rw [hfree] at hset
    cases hset

/-- What keeps the layout, takes no bit back and keeps the bit of the extra superblock keeps a
mounted volume. -/
lemma step (ok : VolOk v) (h : ZmapStep v v') (hlay : HeapLayout v')
    (hesb : InArea v v.sbi.extra_sb_location → zbit v v.sbi.extra_sb_location = true →
      zbit v' v.sbi.extra_sb_location = true) : VolOk v' := by
  have hloc : v'.sbi.extra_sb_location = v.sbi.extra_sb_location := by rw [h.sbi]
  refine ⟨hlay, ok.zmap.step h, by rw [h.first]; exact ok.first, ?_, ?_⟩
  · have hht : v'.sbi.hashtable = v.sbi.hashtable := by rw [h.sbi]
    rw [h.nzones, h.bs, hht]
    exact ok.below
  · rw [hloc, h.inArea]
    rcases ok.esb with h0 | ⟨hin, hset⟩
    · exact .inl h0
    · exact .inr ⟨hin, hesb hin hset⟩

lemma takes (ok : VolOk v) {news : List Nat} (h : Takes v v' news) (hlay : HeapLayout v') :
    VolOk v' :=
  ok.step h.toZmapStep hlay fun hin hset => (h.zbit _ hin).2 (.inr hset)

/-- Writes in the chunk area keep a mounted volume and take no zone. -/
lemma heap (ok : VolOk v) (h : HeapFrame v v') (hlay : HeapLayout v') :
    VolOk v' ∧ Takes v v' [] :=
  have ht : Takes v v' [] := .of_eq h.toSameMount h.s_zmap h.printk
  ⟨ok.takes ht hlay, ht⟩

end VolOk

/-- The flat device at an offset depends on one block. -/
lemma Dev.flat_congr {d d' : Dev} {a : Nat} (hbs : d'.bs = d.bs)
    (h : d'.bh.mem (a / d.bs) = d.bh.mem (a / d.bs)) : d'.flat a = d.flat a := by
  simp only [Dev.flat, Bytes.flat, hbs, h]

/-- Changes to blocks below the hashtable leave the heap alone. -/
lemma HeapInv.low {v v' : Vol} {cs : List Stored} {S : Nat → Prop} (lay : HeapLayout v)
    (inv : HeapInv v cs) (h : SameMount v v') (hbrk : v'.sbi.heap_brk = v.sbi.heap_brk)
    (hlow : ∀ b, S b → Low v b) (hmem : ∀ b, ¬ S b → v'.dev.bh.mem b = v.dev.bh.mem b) :
    HeapInv v' cs := by
  have hnb : v'.sbi.buckets = v.sbi.buckets := by rw [h.sbi]; rfl
  have hht : v'.sbi.hashtable = v.sbi.hashtable := by rw [h.sbi]
  have hge := lay.brk_ge
  have hsz := lay.table_size
  unfold HeapInv
  rw [h.bs, hnb, hht, hbrk]
  refine inv.congr (by omega) fun a ha _ => Dev.flat_congr h.bs (hmem _ fun hs => ?_)
  have := low_block v.dev.bs_pos (hlow _ hs) ha
  omega

end CominixFs
