import CominixFs.Lib.Runs
import CominixFs.ChunkHandler

/-!
# The heap allocator

What one `chunk_alloc` does (`chunk_alloc_inv`, `round_brk_spec`) and what a run of them does to
the regions handed out (`chunk_alloc_run_safe`). The round-up to the next block is computed in 32
bits, so it is right exactly while the next block starts below 4 GiB (`round_brk_ge_iff`). The first
break is the one the extra superblock has, which a mount does not check (`AllocFits`).
-/

namespace CominixFs
open Bytes

/-- A header at this break would cross a block boundary. -/
def Straddles (d : Dev) (brk : Nat) : Prop := brk / d.bs ≠ (brk + 23) / d.bs

/-- The round-up of the next allocation is not taken, or its result fits 32 bits. -/
def RoundFits (v : Vol) : Prop :=
  Straddles v.dev v.sbi.heap_brk → (v.sbi.heap_brk / v.dev.bs + 1) * v.dev.bs < 2 ^ 32

instance (v : Vol) : Decidable (RoundFits v) :=
  inferInstanceAs (Decidable (v.sbi.heap_brk / v.dev.bs ≠ (v.sbi.heap_brk + 23) / v.dev.bs → _))

/-- What a mount leaves: the end of the heap is a 32-bit number of zones, here of 1024 to 4096 bytes. -/
structure Mounted (v : Vol) : Prop where
  bits : 10 ≤ v.dev.s_blocksize_bits ∧ v.dev.s_blocksize_bits ≤ 12
  zones : ∃ s_zones : ℕ, s_zones < 2 ^ 32 ∧ v.sbi.max_brk = s_zones * v.dev.bs

/-- The next allocation starts in the heap: the break is below its end, and is, rounded up or not, at
or above the end of the hashtable, and the round-up fits 32 bits. -/
structure AllocFits (v : Vol) : Prop where
  brk_lt : v.sbi.heap_brk < v.sbi.max_brk
  above_table : v.sbi.hashtable + v.sbi.hashtable_size ≤ v.sbi.heap_brk ∨
    Straddles v.dev v.sbi.heap_brk ∧
      v.sbi.hashtable + v.sbi.hashtable_size ≤ (v.sbi.heap_brk / v.dev.bs + 1) * v.dev.bs
  round : RoundFits v

instance (v : Vol) : Decidable (AllocFits v) :=
  decidable_of_iff (v.sbi.heap_brk < v.sbi.max_brk ∧
    (v.sbi.hashtable + v.sbi.hashtable_size ≤ v.sbi.heap_brk ∨
      v.sbi.heap_brk / v.dev.bs ≠ (v.sbi.heap_brk + 23) / v.dev.bs ∧
        v.sbi.hashtable + v.sbi.hashtable_size ≤ (v.sbi.heap_brk / v.dev.bs + 1) * v.dev.bs) ∧
    RoundFits v) ⟨fun h => ⟨h.1, h.2.1, h.2.2⟩, fun h => ⟨h.brk_lt, h.above_table, h.round⟩⟩

lemma Dev.bs_bounds {d : Dev} (h : 10 ≤ d.s_blocksize_bits ∧ d.s_blocksize_bits ≤ 12) :
    1024 ≤ d.bs ∧ d.bs ≤ 4096 ∧ d.bs ∣ 2 ^ 32 :=
  ⟨Nat.pow_le_pow_right Nat.two_pos h.1, Nat.pow_le_pow_right Nat.two_pos h.2,
    Nat.pow_dvd_pow 2 (by omega)⟩

/-- A break below the end of the heap is far below `2 ^ 64`. -/
lemma Mounted.lt_62 {v : Vol} (m : Mounted v) (h : v.sbi.heap_brk < v.sbi.max_brk) :
    v.sbi.heap_brk < 2 ^ 62 := by
  obtain ⟨zones, hz, hmax⟩ := m.zones
  have : zones * v.dev.bs ≤ 2 ^ 32 * 4096 :=
    Nat.mul_le_mul (by omega) (Dev.bs_bounds m.bits).2.1
  omega

/-- A header crosses a boundary exactly when its 24 bytes do not fit in what is left of the
block. -/
lemma straddles_iff {d : Dev} (h : 24 ≤ d.bs) (brk : Nat) :
    Straddles d brk ↔ d.bs < brk % d.bs + 24 := by
  have hpos := d.bs_pos
  have hdm := Nat.div_add_mod' brk d.bs
  have hmod := Nat.mod_lt brk hpos
  unfold Straddles
  by_cases hs : d.bs < brk % d.bs + 24
  · have : brk / d.bs + 1 ≤ (brk + 23) / d.bs := by
      rw [Nat.le_div_iff_mul_le hpos, Nat.add_mul, Nat.one_mul]
      omega
    omega
  · have : (brk + 23) / d.bs = brk / d.bs := by
      rw [Nat.div_eq_iff hpos]
      omega
    omega

/-- Where the next chunk goes: block numbers wrap, but two neighbours stay different. -/
lemma round_brk_eq {d : Dev} {brk : Nat} (hb : 24 ≤ d.bs) (h62 : brk < 2 ^ 62) :
    round_brk d brk = if d.bs < brk % d.bs + 24 then (brk / d.bs + 1) * d.bs % 2 ^ 32 else brk := by
  have hpos := d.bs_pos
  have hlo : brk / d.bs ≤ (brk + 23) / d.bs := Nat.div_le_div_right (by omega)
  have hhi : (brk + 23) / d.bs ≤ brk / d.bs + 1 := by
    rw [← Nat.add_div_right _ hpos]
    exact Nat.div_le_div_right (by omega)
  have hne : block_no d brk ≠ block_no d ((brk + 23) % 2 ^ 64) ↔ Straddles d brk := by
    rw [Nat.mod_eq_of_lt (a := brk + 23) (by omega)]
    unfold block_no Straddles
    omega
  have hval : (block_no d brk + 1) * d.bs % 2 ^ 32 = (brk / d.bs + 1) * d.bs % 2 ^ 32 :=
    by rw [Nat.mul_mod, block_no, Nat.mod_add_mod, ← Nat.mul_mod]
  unfold round_brk
  rw [hval]
  exact if_congr (hne.trans (straddles_iff hb brk)) rfl rfl

/-- The new chunk starts at or above the break, with its header inside one block, when the
round-up fits 32 bits. -/
lemma round_brk_spec {d : Dev} {brk : Nat} (hb : 24 ≤ d.bs) (h62 : brk < 2 ^ 62)
    (hfit : Straddles d brk → (brk / d.bs + 1) * d.bs < 2 ^ 32) :
    brk ≤ round_brk d brk ∧ round_brk d brk < brk + 24 ∧
      round_brk d brk % d.bs + 24 ≤ d.bs := by
  have hpos := d.bs_pos
  have hdm := Nat.div_add_mod' brk d.bs
  have hmod := Nat.mod_lt brk hpos
  have hmul : (brk / d.bs + 1) * d.bs = brk / d.bs * d.bs + d.bs := by ring
  rw [round_brk_eq hb h62]
  by_cases hs : d.bs < brk % d.bs + 24
  · rw [if_pos hs, Nat.mod_eq_of_lt (hfit ((straddles_iff hb brk).2 hs)), Nat.mul_mod_left]
    omega
  · rw [if_neg hs]
    omega

/-- When the round-up does not fit 32 bits, the new chunk starts below the break. -/
lemma round_brk_ge_iff {d : Dev} {brk : Nat} (hb : 24 ≤ d.bs) (hble : d.bs ≤ 2 ^ 32)
    (h62 : brk < 2 ^ 62) :
    brk ≤ round_brk d brk ↔ (Straddles d brk → (brk / d.bs + 1) * d.bs < 2 ^ 32) := by
  constructor
  · intro hle hs
    by_contra hge
    have hcross := (straddles_iff hb brk).1 hs
    rw [round_brk_eq hb h62, if_pos hcross] at hle
    have hpos := d.bs_pos
    have hdm := Nat.div_add_mod' brk d.bs
    have hmod := Nat.mod_lt brk hpos
    have hmul : (brk / d.bs + 1) * d.bs = brk / d.bs * d.bs + d.bs := by ring
    have hwrap := Nat.div_add_mod ((brk / d.bs + 1) * d.bs) (2 ^ 32)
    have hq : 1 ≤ (brk / d.bs + 1) * d.bs / 2 ^ 32 :=
      (Nat.le_div_iff_mul_le (by decide)).2 (by omega)
    have : 2 ^ 32 * 1 ≤ 2 ^ 32 * ((brk / d.bs + 1) * d.bs / 2 ^ 32) := Nat.mul_le_mul_left _ hq
    omega
  · exact fun hfit => (round_brk_spec hb h62 hfit).1

/-- Everything a `chunk_alloc` that returns has done. -/
lemma chunk_alloc_inv {v v' : Vol} {size new : Nat} (hb : v.sbi.heap_brk < 2 ^ 62)
    (h : chunk_alloc v size = some (v', new)) :
    0 < size ∧ size < 2 ^ 63 ∧ v.sbi.s_nzones * v.dev.bs < v.sbi.heap_brk ∧
      new = round_brk v.dev v.sbi.heap_brk ∧ new + (24 + size) < v.sbi.max_brk ∧
      update_brk_on_disk { v with sbi := { v.sbi with heap_brk := new + (24 + size) } }
        (new + (24 + size)) = some v' := by
  unfold chunk_alloc at h
  have hnew : round_brk v.dev v.sbi.heap_brk < 2 ^ 62 := by
    unfold round_brk
    split
    · exact lt_trans (Nat.mod_lt _ (by decide)) (by decide)
    · exact hb
  split at h
  · cases h
  · rename_i hsize
    split at h
    · cases h
    · rename_i hlow
      have hmod : (round_brk v.dev v.sbi.heap_brk + (24 + size)) % 2 ^ 64
          = round_brk v.dev v.sbi.heap_brk + (24 + size) :=
        Nat.mod_eq_of_lt (by omega)
      simp only [hmod] at h
      split at h
      · cases h
      · rename_i hmax
        split at h
        · cases h
        · rename_i v1 hv1
          cases h
          exact ⟨by omega, by omega, by omega, rfl, by omega, hv1⟩

/-- The break written to disk touches the extra superblock only. -/
lemma update_brk_on_disk_inv {v v' : Vol} {brk : Nat} (h : update_brk_on_disk v brk = some v') :
    v.sbi.extra_sb_location < v.dev.nblocks ∧
      v' = { v with
        dev := (v.dev.store v.sbi.extra_sb_location
          (put (v.dev.bh.mem v.sbi.extra_sb_location) 16 8 brk)).mark_buffer_dirty
            v.sbi.extra_sb_location } := by
  simp only [update_brk_on_disk] at h
  split at h
  · rename_i hlt
    cases h
    exact ⟨hlt, rfl⟩
  · cases h

/-- A region handed out: its start and the size asked for. -/
structure Region where
  start : Nat
  size : Nat

/-- One past the last byte of a region, header included. -/
def Region.stop (r : Region) : Nat := r.start + (24 + r.size)

/-- A volume and the regions its allocator has returned, the last one first. -/
structure AllocRun where
  vol : Vol
  regions : List Region

def alloc_step (s : AllocRun) (size : Nat) : Option AllocRun :=
  (chunk_alloc s.vol size).map fun p => ⟨p.1, ⟨p.2, size⟩ :: s.regions⟩

/-- What the allocator owes its callers, about one returned region and those before it. -/
structure RegionSafe (s : AllocRun) (r : Region) (s' : AllocRun) : Prop where
  above_brk : s.vol.sbi.heap_brk ≤ r.start
  above_zones : s.vol.sbi.s_nzones * s.vol.dev.bs < r.start
  above_table : s.vol.sbi.hashtable + s.vol.sbi.hashtable_size ≤ r.start
  below_max : r.stop < s.vol.sbi.max_brk
  disjoint : ∀ r' ∈ s.regions, r'.stop ≤ r.start
  head : r.start / s.vol.dev.bs = (r.start + 23) / s.vol.dev.bs
  brk_eq : s'.vol.sbi.heap_brk = r.stop
  brk_lt : s.vol.sbi.heap_brk < s'.vol.sbi.heap_brk

/-- The regions returned so far lie below the break of a mounted volume. -/
structure AllocInv (s : AllocRun) : Prop where
  mounted : Mounted s.vol
  below : ∀ r ∈ s.regions, Region.stop r ≤ s.vol.sbi.heap_brk

lemma alloc_step_inv {s s' : AllocRun} {size : Nat} (h : alloc_step s size = some s') :
    ∃ new, chunk_alloc s.vol size = some (s'.vol, new) ∧ s'.regions = ⟨new, size⟩ :: s.regions := by
  simp only [alloc_step, Option.map_eq_some_iff] at h
  obtain ⟨⟨v', new⟩, hv, rfl⟩ := h
  exact ⟨new, hv, rfl⟩

/-- One allocation that starts in the heap returns a safe region and keeps the invariant. -/
lemma AllocInv.step {s s' : AllocRun} {size : Nat} (inv : AllocInv s) (fits : AllocFits s.vol)
    (h : alloc_step s size = some s') :
    AllocInv s' ∧ ∃ r, s'.regions = r :: s.regions ∧ RegionSafe s r s' := by
  have hbrk62 := inv.mounted.lt_62 fits.brk_lt
  obtain ⟨new, hv, hreg⟩ := alloc_step_inv h
  obtain ⟨h1024, h4096, hdvd⟩ := Dev.bs_bounds inv.mounted.bits
  obtain ⟨zones, hz, hmax⟩ := inv.mounted.zones
  obtain ⟨hs0, hs63, hlow, hnew, hroom, hupd⟩ := chunk_alloc_inv hbrk62 hv
  obtain ⟨-, hv'⟩ := update_brk_on_disk_inv hupd
  have hbrk : s'.vol.sbi.heap_brk = new + (24 + size) := by rw [hv']
  have hbits : s'.vol.dev.s_blocksize_bits = s.vol.dev.s_blocksize_bits := by rw [hv']; rfl
  obtain ⟨hge, hlt, hhead⟩ := round_brk_spec (by omega) hbrk62 fits.round
  have htable : s.vol.sbi.hashtable + s.vol.sbi.hashtable_size
      ≤ round_brk s.vol.dev s.vol.sbi.heap_brk := by
    rcases fits.above_table with h | ⟨hs, h⟩
    · exact h.trans hge
    · rw [round_brk_eq (by omega) hbrk62, if_pos ((straddles_iff (by omega) _).1 hs),
        Nat.mod_eq_of_lt (fits.round hs)]
      exact h
  rw [← hnew] at hge hlt hhead htable
  have hpos := s.vol.dev.bs_pos
  have hdm := Nat.div_add_mod' new s.vol.dev.bs
  refine ⟨⟨⟨by rw [hbits]; exact inv.mounted.bits, ⟨zones, hz, ?_⟩⟩, ?_⟩, ⟨new, size⟩, hreg, ?_⟩
  · rw [hv']; exact hmax
  · intro r hr
    rw [hreg, List.mem_cons] at hr
    rcases hr with rfl | hr
    · exact hbrk.ge
    · have := inv.below r hr
      omega
  · refine ⟨hge, lt_of_lt_of_le hlow hge, htable, hroom, ?_, ?_, hbrk, ?_⟩
    · intro r' hr'
      have := inv.below r' hr'
      dsimp only
      omega
    · dsimp only
      symm
      rw [Nat.div_eq_iff hpos]
      omega
    · omega

/-- The regions returned lie apart from each other, between the hashtable and the end of the
volume, and no header crosses a block. -/
structure RegionsSafe (v : Vol) (regions : List Region) : Prop where
  apart : regions.Pairwise fun r r' => r'.stop ≤ r.start
  above_zones : ∀ r ∈ regions, v.sbi.s_nzones * v.dev.bs < r.start
  above_table : ∀ r ∈ regions, v.sbi.hashtable + v.sbi.hashtable_size ≤ r.start
  below_max : ∀ r ∈ regions, r.stop < v.sbi.max_brk
  head : ∀ r ∈ regions, r.start / v.dev.bs = (r.start + 23) / v.dev.bs

/-- An allocation moves nothing of the layout but the break. -/
lemma alloc_step_layout {s s' : AllocRun} {size : Nat} (hbrk : s.vol.sbi.heap_brk < 2 ^ 62)
    (h : alloc_step s size = some s') :
    s'.vol.sbi.s_nzones = s.vol.sbi.s_nzones ∧ s'.vol.sbi.hashtable = s.vol.sbi.hashtable ∧
      s'.vol.sbi.hashtable_size = s.vol.sbi.hashtable_size ∧
      s'.vol.sbi.max_brk = s.vol.sbi.max_brk ∧ s'.vol.dev.bs = s.vol.dev.bs := by
  obtain ⟨new, hv, -⟩ := alloc_step_inv h
  obtain ⟨-, -, -, -, -, hupd⟩ := chunk_alloc_inv hbrk hv
  obtain ⟨-, hv'⟩ := update_brk_on_disk_inv hupd
  rw [hv']
  exact ⟨rfl, rfl, rfl, rfl, rfl⟩

lemma RegionsSafe.step {s s' : AllocRun} {size : Nat} (inv : AllocInv s)
    (safe : RegionsSafe s.vol s.regions) (fits : AllocFits s.vol)
    (h : alloc_step s size = some s') : RegionsSafe s'.vol s'.regions := by
  obtain ⟨-, r, hr, ok⟩ := inv.step fits h
  obtain ⟨h0, h1, h2, h3, h4⟩ := alloc_step_layout (inv.mounted.lt_62 fits.brk_lt) h
  rw [hr]
  refine ⟨List.pairwise_cons.2 ⟨ok.disjoint, safe.apart⟩, ?_, ?_, ?_, ?_⟩
  · rw [h0, h4]
    exact List.forall_mem_cons.2 ⟨ok.above_zones, safe.above_zones⟩
  · rw [h1, h2]
    exact List.forall_mem_cons.2 ⟨ok.above_table, safe.above_table⟩
  · rw [h3]
    exact List.forall_mem_cons.2 ⟨ok.below_max, safe.below_max⟩
  · rw [h4]
    exact List.forall_mem_cons.2 ⟨ok.head, safe.head⟩

/-- An allocation that returns a safe region has started in the heap. -/
lemma AllocInv.fits {s s' : AllocRun} {size : Nat} {r : Region} (inv : AllocInv s)
    (h : alloc_step s size = some s') (hr : s'.regions = r :: s.regions)
    (safe : RegionSafe s r s') : AllocFits s.vol := by
  obtain ⟨new, hv, hreg⟩ := alloc_step_inv h
  obtain ⟨h1024, h4096, -⟩ := Dev.bs_bounds inv.mounted.bits
  have hge := safe.above_brk
  have htable := safe.above_table
  have hstop := safe.below_max
  unfold Region.stop at hstop
  have hlt : s.vol.sbi.heap_brk < s.vol.sbi.max_brk := by omega
  have h62 := inv.mounted.lt_62 hlt
  obtain ⟨-, -, -, hnew, -, -⟩ := chunk_alloc_inv h62 hv
  rw [hr, List.cons.injEq] at hreg
  rw [hreg.1] at hge htable
  dsimp only at hge htable
  rw [hnew] at hge htable
  have hround := (round_brk_ge_iff (by omega) (by omega) h62).1 hge
  refine ⟨hlt, ?_, hround⟩
  rw [round_brk_eq (by omega) h62] at htable
  split at htable
  · rename_i hs
    have hs := (straddles_iff (by omega) _).2 hs
    rw [Nat.mod_eq_of_lt (hround hs)] at htable
    exact .inr ⟨hs, htable⟩
  · exact .inl htable

/-- Over any run of allocations on a mounted volume that all start in the heap, with no break rounded
up to 4 GiB or beyond, the regions returned are safe; a further one is safe exactly when it starts in
the heap, too. -/
theorem chunk_alloc_run_safe {v : Vol} (m : Mounted v) {sizes : List Nat} {s : AllocRun}
    (run : Run alloc_step (fun s _ => AllocFits s.vol) ⟨v, []⟩ sizes s) :
    RegionsSafe s.vol s.regions ∧
      ∀ size s', alloc_step s size = some s' →
        ∃ r, s'.regions = r :: s.regions ∧ r.size = size ∧
          (RegionSafe s r s' ↔ AllocFits s.vol) := by
  have hinit : AllocInv ⟨v, []⟩ ∧ RegionsSafe v [] :=
    ⟨⟨m, by simp⟩, ⟨.nil, by simp, by simp, by simp, by simp⟩⟩
  have hrun : AllocInv s ∧ RegionsSafe s.vol s.regions := by
    apply run.inv (P := fun s => AllocInv s ∧ RegionsSafe s.vol s.regions) _ hinit
    rintro s size s' fits ⟨inv, safe⟩ h
    exact ⟨(inv.step fits h).1, safe.step inv fits h⟩
  refine ⟨hrun.2, fun size s' h => ?_⟩
  obtain ⟨new, -, hreg⟩ := alloc_step_inv h
  refine ⟨⟨new, size⟩, hreg, rfl, fun safe => hrun.1.fits h hreg safe, fun fits => ?_⟩
  obtain ⟨-, r, hr, ok⟩ := hrun.1.step fits h
  rw [hreg, List.cons.injEq] at hr
  rw [hr.1]
  exact ok

/-- A freshly mounted volume of 8 GiB in blocks of 1024 bytes. -/
def vol8G : Vol where
  sbi := {
    s_ninodes := 1024, s_nzones := 40960, s_imap_blocks := 1, s_zmap_blocks := 1024
    s_firstdatazone := 1091, s_log_zone_size := 0, s_maxbytes := 2147483647
    extra_sb_location := 1092, hashtable := 41943040, hashtable_size := 32768
    heap_brk := 41975808, max_brk := 8589934592 }
  dev := { s_blocksize_bits := 10, nblocks := 8388608, bh := ⟨fun _ _ => 0, fun _ _ => 0, fun _ => false⟩ }
  s_zmap := ⟨fun _ _ => false, fun _ _ => false, fun _ => false⟩
  printk := []

lemma vol8G_mounted : Mounted vol8G := ⟨by decide, ⟨8388608, by decide, by decide⟩⟩

/-- Two allocations from a fresh volume start in the heap, and a third one would. -/
theorem vol8G_run_safe : ∃ s s' r,
    Run alloc_step (fun s _ => AllocFits s.vol) ⟨vol8G, []⟩ [2048, 65536] s ∧
    RegionsSafe s.vol s.regions ∧ alloc_step s 100 = some s' ∧ s'.regions = r :: s.regions ∧
    RegionSafe s r s' := by
  have h : (([2048, 65536].foldlM (fun s size => if AllocFits s.vol then alloc_step s size else none)
      (⟨vol8G, []⟩ : AllocRun)).bind fun s => (alloc_step s 100).map fun _ => decide (AllocFits s.vol))
      = some true := by
    decide +kernel
  obtain ⟨s, hs, h⟩ := Option.bind_eq_some_iff.1 h
  obtain ⟨s', hs', hfits⟩ := Option.map_eq_some_iff.1 h
  have run : Run alloc_step (fun s _ => AllocFits s.vol) ⟨vol8G, []⟩ [2048, 65536] s := .of_foldlM hs
  obtain ⟨hsafe, hnext⟩ := chunk_alloc_run_safe vol8G_mounted run
  obtain ⟨r, hr, -, hiff⟩ := hnext 100 s' hs'
  exact ⟨s, s', r, run, hsafe, hs', hr, hiff.2 (of_decide_eq_true hfits)⟩

/-- With the break 8 bytes below 4 GiB the next chunk is placed at byte 0 of the device. -/
theorem chunk_alloc_wraps : ∃ s s' r, Run alloc_step (fun _ _ => True) ⟨vol8G, []⟩ [4252991456] s ∧
    alloc_step s 2048 = some s' ∧ s'.regions = r :: s.regions ∧ r.start = 0 ∧
    ¬ RegionSafe s r s' := by
  have h : ((alloc_step ⟨vol8G, []⟩ 4252991456).bind fun s => (alloc_step s 2048).map fun s' =>
      (s.vol.sbi.heap_brk, s'.regions.map Region.start)) = some (4294967288, [0, 41975808]) := by
    decide +kernel
  simp only [Option.bind_eq_some_iff, Option.map_eq_some_iff] at h
  obtain ⟨s, hs, s', hs', heq⟩ := h
  obtain ⟨new, -, hreg⟩ := alloc_step_inv hs'
  rw [Prod.mk.injEq, hreg, List.map_cons, List.cons.injEq] at heq
  obtain ⟨hbrk, rfl, -⟩ := heq
  refine ⟨s, s', _, .cons trivial hs (.nil _), hs', hreg, rfl, fun safe => ?_⟩
  have := safe.above_brk
  rw [hbrk] at this
  exact absurd this (by decide)

/-- A break that the extra superblock has inside the hashtable is where the first chunk goes. -/
example : (alloc_step ⟨{ vol8G with sbi := { vol8G.sbi with heap_brk := 41943056 } }, []⟩ 100).map
    (fun s => s.regions.map Region.start) = some [41943056] := by
  decide +kernel

end CominixFs
