import CominixFs.HashtableMap

/-!
# Calls of `chunk_alloc` side by side

`brk_lock` is released before `update_brk_on_disk`, so a call takes three steps: the section under
the lock, the evaluation of `*brk` for the call of `update_brk_on_disk`, and the store into the extra
superblock. Two calls may store in the other order than they evaluated (`break_falls_back`). When
they do not, the break on disk never falls back and catches up whenever no call is in progress
(`break_kept`).
-/

namespace CominixFs
open Bytes

/-- The section of `chunk_alloc` under `brk_lock`. -/
def brk_section (v : Vol) (size : Nat) : Option (Vol × Nat) :=
  if size = 0 ∨ 2 ^ 63 ≤ size then none
  else if v.sbi.heap_brk ≤ v.sbi.s_nzones * v.dev.bs then none
  else
    let new := round_brk v.dev v.sbi.heap_brk
    let brk := (new + (24 + size)) % 2 ^ 64
    if v.sbi.max_brk ≤ brk then none
    else some ({ v with sbi := { v.sbi with heap_brk := brk } }, new)

/-- The three steps of one call make up `chunk_alloc`. -/
lemma chunk_alloc_steps (v : Vol) (size : Nat) : chunk_alloc v size =
    (brk_section v size).bind fun p =>
      (update_brk_on_disk p.1 p.1.sbi.heap_brk).map fun v => (v, p.2) := by
  unfold chunk_alloc brk_section
  split
  · rfl
  · split
    · rfl
    · dsimp only
      split
      · rfl
      · rw [Option.bind_some]
        dsimp only
        cases update_brk_on_disk _ _ <;> rfl

/-- The break in the buffer of the extra superblock. -/
def disk_brk (v : Vol) : Nat := le (v.dev.bh.mem v.sbi.extra_sb_location) 16 8

/-- Where a call is. A value evaluated comes with the number of allocations it has seen. -/
inductive AllocCall where
  | idle
  | unlocked
  | evaluated (brk seen : Nat)

inductive AllocAct (ι : Type) where
  | lock (i : ι) (size : Nat)
  | evaluate (i : ι)
  | store (i : ι)

/-- One mount and the calls on it, with the number of allocations, how many of them the value
stored last has seen, and the regions handed out. -/
structure AllocMount (ι : Type) where
  vol : Vol
  calls : ι → AllocCall
  allocs : Nat
  stored : Nat
  regions : List Region

variable {ι : Type} [DecidableEq ι]

def AllocMount.step (s : AllocMount ι) : AllocAct ι → Option (AllocMount ι)
  | .lock i size =>
    match s.calls i, brk_section s.vol size with
    | .idle, some (v, new) =>
      some { s with
        vol := v
        calls := Function.update s.calls i .unlocked
        allocs := s.allocs + 1
        regions := ⟨new, size⟩ :: s.regions }
    | _, _ => none
  | .evaluate i =>
    match s.calls i with
    | .unlocked =>
      some { s with calls := Function.update s.calls i (.evaluated s.vol.sbi.heap_brk s.allocs) }
    | _ => none
  | .store i =>
    match s.calls i with
    | .evaluated brk seen =>
      match update_brk_on_disk s.vol brk with
      | none => none
      | some v =>
        some { s with vol := v, calls := Function.update s.calls i .idle, stored := seen }
    | _ => none

/-- Calls store in the order in which they evaluated the break, and no allocation wraps. -/
def InOrder (s : AllocMount ι) : AllocAct ι → Prop
  | .lock _ _ => s.vol.sbi.heap_brk < s.vol.sbi.max_brk ∧ RoundFits s.vol
  | .evaluate _ => True
  | .store i =>
    match s.calls i with
    | .evaluated _ seen => s.stored ≤ seen
    | _ => True

instance (s : AllocMount ι) (a : AllocAct ι) : Decidable (InOrder s a) := by
  unfold InOrder
  split
  · infer_instance
  · infer_instance
  · split <;> infer_instance

/-- What the break in memory, the one on disk and the values evaluated have to do with each other:
who has seen more allocations has the larger value. -/
structure BreakOk (s : AllocMount ι) : Prop where
  mounted : Mounted s.vol
  brk_lt : (∃ i, s.calls i ≠ .idle) → s.vol.sbi.heap_brk < s.vol.sbi.max_brk
  stored_le : s.stored ≤ s.allocs
  disk_le : disk_brk s.vol ≤ s.vol.sbi.heap_brk
  last : s.stored = s.allocs → disk_brk s.vol = s.vol.sbi.heap_brk
  seen : ∀ i b n, s.calls i = .evaluated b n → n ≤ s.allocs ∧ b ≤ s.vol.sbi.heap_brk ∧
    (n = s.allocs → b = s.vol.sbi.heap_brk) ∧ (s.stored ≤ n → disk_brk s.vol ≤ b)
  mono : ∀ i j b b' n n', s.calls i = .evaluated b n → s.calls j = .evaluated b' n' → n ≤ n' → b ≤ b'
  pending : s.stored = s.allocs ∨
    ∃ i, s.calls i = .unlocked ∨ ∃ b, s.calls i = .evaluated b s.allocs
  regions : ∀ r ∈ s.regions, Region.stop r ≤ s.vol.sbi.heap_brk

/-- What the section has done when its round-up does not wrap. -/
lemma brk_lockinv {v v' : Vol} {size new : Nat} (m : Mounted v)
    (hlt : v.sbi.heap_brk < v.sbi.max_brk) (hfit : RoundFits v)
    (h : brk_section v size = some (v', new)) :
    v' = { v with sbi := { v.sbi with heap_brk := (⟨new, size⟩ : Region).stop } } ∧
      v.sbi.heap_brk < (⟨new, size⟩ : Region).stop ∧ Mounted v' ∧
      v'.sbi.heap_brk < v'.sbi.max_brk := by
  obtain ⟨h1024, h4096, -⟩ := Dev.bs_bounds m.bits
  obtain ⟨zones, hz, hmax⟩ := m.zones
  have h62 := m.lt_62 hlt
  obtain ⟨hge, hlt, -⟩ := round_brk_spec (by omega) h62 hfit
  have hzones : zones * v.dev.bs ≤ 2 ^ 32 * 4096 := Nat.mul_le_mul (by omega) h4096
  unfold brk_section at h
  split at h
  · cases h
  · next hsize =>
    split at h
    · cases h
    · dsimp only at h
      rw [Nat.mod_eq_of_lt (by omega)] at h
      split at h
      · cases h
      · next hroom =>
        cases h
        refine ⟨rfl, by unfold Region.stop; dsimp only; omega, ⟨m.bits, ⟨zones, hz, hmax⟩⟩, ?_⟩
        exact Nat.not_le.1 hroom

/-- What a store has done. -/
lemma store_brk {v v' : Vol} {brk : Nat} (hbrk : brk < 2 ^ 62) (m : Mounted v)
    (h : update_brk_on_disk v brk = some v') :
    disk_brk v' = brk ∧ v'.sbi = v.sbi ∧ Mounted v' := by
  obtain ⟨-, rfl⟩ := update_brk_on_disk_inv h
  refine ⟨?_, rfl, m.bits, m.zones⟩
  unfold disk_brk
  dsimp only
  rw [Dev.mark_bh, Buffers.mark_mem, Dev.store_bh, Buffers.set_mem_self, le_put]
  omega

lemma calls_update {calls : ι → AllocCall} {i : ι} {c : AllocCall} (j : ι) :
    Function.update calls i c j = if j = i then c else calls j := Function.update_apply ..

/-- A step in order keeps the invariant, and the break on disk does not fall back. -/
lemma BreakOk.step {s s' : AllocMount ι} {a : AllocAct ι} (ok : BreakOk s) (hord : InOrder s a)
    (h : s.step a = some s') : BreakOk s' ∧ disk_brk s.vol ≤ disk_brk s'.vol := by
  have hstored := ok.stored_le
  have hdisk := ok.disk_le
  cases a with
  | lock i size =>
    cases hc : s.calls i with
    | unlocked => simp [AllocMount.step, hc] at h
    | evaluated b n => simp [AllocMount.step, hc] at h
    | idle =>
      cases hs : brk_section s.vol size with
      | none => simp [AllocMount.step, hc, hs] at h
      | some p =>
        obtain ⟨v, new⟩ := p
        simp only [AllocMount.step, hc, hs, Option.some.injEq] at h
        subst h
        obtain ⟨rfl, hlt, m, hroom⟩ := brk_lockinv ok.mounted hord.1 hord.2 hs
        refine ⟨⟨m, fun _ => hroom, by dsimp only; omega, hdisk.trans (Nat.le_of_lt hlt), fun he => by dsimp only at he; omega,
          fun j b n hj => ?_, fun j k b b' n n' hj hk => ?_, .inr ⟨i, .inl (Function.update_self ..)⟩, ?_⟩,
          Nat.le_refl _⟩
        · dsimp only at hj ⊢
          rw [calls_update] at hj
          split at hj
          · cases hj
          · obtain ⟨h1, h2, -, h4⟩ := ok.seen j b n hj
            exact ⟨by omega, by omega, by omega, h4⟩
        · dsimp only at hj hk
          rw [calls_update] at hj hk
          split at hj
          · cases hj
          · split at hk
            · cases hk
            · exact ok.mono j k b b' n n' hj hk
        · refine List.forall_mem_cons.2 ⟨Nat.le_refl _, fun r hr => ?_⟩
          exact (ok.regions r hr).trans (Nat.le_of_lt hlt)
  | evaluate i =>
    cases hc : s.calls i with
    | idle => simp [AllocMount.step, hc] at h
    | evaluated b n => simp [AllocMount.step, hc] at h
    | unlocked =>
      simp only [AllocMount.step, hc, Option.some.injEq] at h
      subst h
      refine ⟨⟨ok.mounted, fun _ => ok.brk_lt ⟨i, by rw [hc]; exact AllocCall.noConfusion⟩, hstored, hdisk, ok.last, fun j b n hj => ?_, fun j k b b' n n' hj hk hn => ?_,
        .inr ⟨i, .inr ⟨_, Function.update_self ..⟩⟩, ok.regions⟩, Nat.le_refl _⟩
      · dsimp only at hj ⊢
        rw [calls_update] at hj
        split at hj
        · cases hj
          exact ⟨Nat.le_refl _, Nat.le_refl _, fun _ => rfl, fun _ => hdisk⟩
        · exact ok.seen j b n hj
      · dsimp only at hj hk
        rw [calls_update] at hj hk
        split at hj
        · cases hj
          split at hk
          · cases hk
            exact Nat.le_refl _
          · -- who has seen all allocations has the break itself
            obtain ⟨h1, -, h3, -⟩ := ok.seen k b' n' hk
            exact (h3 (Nat.le_antisymm h1 hn)).ge
        · split at hk
          · cases hk
            exact (ok.seen j b n hj).2.1
          · exact ok.mono j k b b' n n' hj hk hn
  | store i =>
    cases hc : s.calls i with
    | idle => simp [AllocMount.step, hc] at h
    | unlocked => simp [AllocMount.step, hc] at h
    | evaluated b n =>
      cases hu : update_brk_on_disk s.vol b with
      | none => simp [AllocMount.step, hc, hu] at h
      | some v =>
        simp only [AllocMount.step, hc, hu, Option.some.injEq] at h
        subst h
        unfold InOrder at hord
        dsimp only at hord
        rw [hc] at hord
        obtain ⟨h1, h2, h3, h4⟩ := ok.seen i b n hc
        have hroom := ok.brk_lt ⟨i, by rw [hc]; exact AllocCall.noConfusion⟩
        have h62 := ok.mounted.lt_62 hroom
        obtain ⟨hbrk, hsbi, m⟩ := store_brk (by omega) ok.mounted hu
        refine ⟨⟨m, fun _ => by rw [hsbi]; exact hroom, h1, ?_, fun he => ?_, fun j b' n' hj => ?_, fun j k b' b'' n' n'' hj hk => ?_, ?_, ?_⟩, ?_⟩
        · dsimp only
          rw [hbrk, hsbi]
          exact h2
        · dsimp only
          rw [hbrk, hsbi]
          exact h3 he
        · dsimp only at hj ⊢
          rw [hbrk, hsbi]
          rw [calls_update] at hj
          split at hj
          · cases hj
          · obtain ⟨h5, h6, h7, -⟩ := ok.seen j b' n' hj
            exact ⟨h5, h6, h7, ok.mono i j b b' n n' hc hj⟩
        · dsimp only at hj hk
          rw [calls_update] at hj hk
          split at hj
          · cases hj
          · split at hk
            · cases hk
            · exact ok.mono j k b' b'' n' n'' hj hk
        · dsimp only
          rcases Nat.lt_or_eq_of_le h1 with hlt | heq
          · rcases ok.pending with he | ⟨j, hj⟩
            · have : s.stored ≤ n := hord
              omega
            · have hji : j ≠ i := by
                rintro rfl
                rw [hc] at hj
                rcases hj with hj | ⟨b', hj⟩
                · cases hj
                · cases hj
                  exact Nat.lt_irrefl _ hlt
              exact .inr ⟨j, by rwa [Function.update_of_ne hji]⟩
          · exact .inl heq
        · dsimp only
          rw [hsbi]
          exact ok.regions
        · dsimp only
          rw [hbrk]
          exact h4 hord

/-- In every interleaving in which the calls store in order the break on disk never falls back, and
whenever no call is in progress it is the break in memory and lies above everything handed out. -/
theorem break_kept {v : Vol} (m : Mounted v) (hdisk : disk_brk v = v.sbi.heap_brk)
    {as bs : List (AllocAct ι)} {s s' : AllocMount ι}
    (run : Run AllocMount.step InOrder ⟨v, fun _ => .idle, 0, 0, []⟩ as s)
    (run' : Run AllocMount.step InOrder s bs s') :
    disk_brk s.vol ≤ disk_brk s'.vol ∧ ((∀ i, s'.calls i = .idle) →
      disk_brk s'.vol = s'.vol.sbi.heap_brk ∧ ∀ r ∈ s'.regions, r.stop ≤ disk_brk s'.vol) := by
  have start : BreakOk (⟨v, fun _ => .idle, 0, 0, []⟩ : AllocMount ι) :=
    ⟨m, fun ⟨i, hi⟩ => absurd rfl hi, Nat.le_refl _, hdisk.le, fun _ => hdisk, fun i b n h => (by cases h),
      fun i j b b' n n' h => (by cases h), .inl rfl, by simp⟩
  have ok : BreakOk s := run.inv (fun hord ok h => (ok.step hord h).1) start
  obtain ⟨ok', hle⟩ := run'.rel (P := BreakOk) (R := fun s s' => disk_brk s.vol ≤ disk_brk s'.vol)
    (fun _ => Nat.le_refl _)
    (fun hord ok hr h => ⟨(ok.step hord h).1, hr.trans (ok.step hord h).2⟩) ok
  refine ⟨hle, fun hidle => ?_⟩
  have heq : disk_brk s'.vol = s'.vol.sbi.heap_brk := by
    rcases ok'.pending with he | ⟨i, hi⟩
    · exact ok'.last he
    · rw [hidle i] at hi
      rcases hi with hi | ⟨b, hi⟩
      · cases hi
      · cases hi
  exact ⟨heq, fun r hr => heq ▸ ok'.regions r hr⟩

/-- `vol64K` with its break in memory and in the extra superblock. -/
def vol64K_mounted : Vol :=
  { vol64K with
    sbi := { vol64K.sbi with heap_brk := 8208 }
    dev := vol64K.dev.store 7 (put (fun _ => 0) 16 8 8208) }

lemma vol64K_mounted_ok : Mounted vol64K_mounted := ⟨by decide, ⟨64, by decide, by decide⟩⟩

/-- The second call allocates after the first has evaluated the break, and the first stores last. -/
theorem break_falls_back : ∃ s s' : AllocMount Bool,
    Run AllocMount.step (fun _ _ => True) ⟨vol64K_mounted, fun _ => .idle, 0, 0, []⟩
      [.lock false 100, .evaluate false, .lock true 100, .evaluate true, .store true] s ∧
    Run AllocMount.step (fun _ _ => True) s [.store false] s' ∧ (∀ i, s'.calls i = .idle) ∧
    disk_brk s'.vol < disk_brk s.vol ∧ disk_brk s'.vol < s'.vol.sbi.heap_brk := by
  have h : ((List.foldlM (fun s a => if True then s.step a else none)
      (⟨vol64K_mounted, fun _ => .idle, 0, 0, []⟩ : AllocMount Bool)
      [.lock false 100, .evaluate false, .lock true 100, .evaluate true, .store true]).bind fun s =>
        (List.foldlM (fun s a => if True then s.step a else none) s
          [(.store false : AllocAct Bool)]).map fun s' =>
            ([disk_brk s.vol, disk_brk s'.vol, s'.vol.sbi.heap_brk],
              [s'.calls false matches .idle, s'.calls true matches .idle]))
      = some ([8456, 8332, 8456], [true, true]) := by
    decide +kernel
  simp only [Option.bind_eq_some_iff, Option.map_eq_some_iff, Prod.mk.injEq, List.cons.injEq,
    and_true] at h
  obtain ⟨s, hs, s', hs', ⟨h1, h2, h3⟩, h4, h5⟩ := h
  refine ⟨s, s', .of_foldlM hs, .of_foldlM hs', fun i => ?_, by omega, by omega⟩
  cases i with
  | false => cases hc : s'.calls false <;> simp_all
  | true => cases hc : s'.calls true <;> simp_all

/-- The same steps with the first call storing before the second. -/
theorem break_kept_two : ∃ s : AllocMount Bool,
    Run AllocMount.step InOrder ⟨vol64K_mounted, fun _ => .idle, 0, 0, []⟩
      [.lock false 100, .evaluate false, .lock true 100, .evaluate true, .store false, .store true] s ∧
    s.regions.map Region.start = [8332, 8208] ∧ disk_brk vol64K_mounted ≤ disk_brk s.vol := by
  have h : (List.foldlM (fun s a => if InOrder s a then s.step a else none)
      (⟨vol64K_mounted, fun _ => .idle, 0, 0, []⟩ : AllocMount Bool)
      [.lock false 100, .evaluate false, .lock true 100, .evaluate true, .store false, .store true]).map
        (fun s => s.regions.map Region.start) = some [8332, 8208] := by
    decide +kernel
  obtain ⟨s, hs, hregions⟩ := Option.map_eq_some_iff.1 h
  have run := Run.of_foldlM hs
  exact ⟨s, run, hregions, (break_kept vol64K_mounted_ok (by decide +kernel) (.nil _) run).1⟩

end CominixFs
