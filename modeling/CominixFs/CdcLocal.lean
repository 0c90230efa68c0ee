import CominixFs.CdcCut
import CominixFs.Lib.GearHash

/-!
# Cuts are local

The mask of the cutter has bits 16 to 49, so a cut depends on the last 50 bytes read
(`cutsAt_window`). Two scans that have read the same 50 bytes therefore agree whether to cut there,
and when what follows is the same too, all chunks after a common cut are (`cuts_local`).
-/

namespace CominixFs

/-- The bytes a cut depends on. -/
def window : Nat := 50

/-- The scan for the end of the chunk at `a` comes to the byte at `p`: the byte lies past the part
skipped and below the limit, and no byte before it cut. -/
structure Reaches (f : Filp) (call a p : Nat) : Prop where
  skipped : a + MinSize + (window - 1) ≤ p
  limit : p - a < min (f.i_size - a) MaxSize
  uncut : p - a ≤ (cdc_get_chunk_size f call a).1

/-- The chunk at `a` ends with a cut at the byte at `p`. -/
def CutsTo (f : Filp) (call a p : Nat) : Prop := (cdc_get_chunk_size f call a).1 = p - a

/-- Whether the cutter cuts is up to the last 50 bytes. -/
lemma cutsAt_window {rest : List UInt8} {i : Nat} (hi : MinSize + (window - 1) ≤ i)
    (hlt : i < rest.length) :
    CutsAt rest i ↔ fingerprint ((rest.drop (i - (window - 1))).take window) &&& MaskS = 0 := by
  have hwin : window = 50 := rfl
  have hmin : MinSize = 2048 := rfl
  have hsplit : (rest.drop MinSize).take (i - MinSize + 1)
      = (rest.drop MinSize).take (i - MinSize - (window - 1))
        ++ (rest.drop (i - (window - 1))).take window := by
    rw [show i - MinSize + 1 = (i - MinSize - (window - 1)) + window by omega, List.take_add,
      List.drop_drop, show MinSize + (i - MinSize - (window - 1)) = i - (window - 1) by omega]
  have hlen : ((rest.drop (i - (window - 1))).take window).length = window := by
    rw [List.length_take, List.length_drop]
    omega
  have hmask : MaskS.toNat < 2 ^ ((rest.drop (i - (window - 1))).take window).length := by
    rw [hlen]
    decide
  have hwindow := @GearHash.window (fun b => gear_table.getD b.toNat 0)
    ((rest.drop MinSize).take (i - MinSize - (window - 1))) []
    ((rest.drop (i - (window - 1))).take window) 0 0 MaskS (by rw [hlen]; decide) hmask
  rw [← hsplit, List.nil_append] at hwindow
  exact Eq.congr_left hwindow

/-- Where the scan comes to, it cuts when the mask says so. -/
lemma Reaches.cuts_iff {f : Filp} (hf : f.NoFail) {call a p : Nat} (h : Reaches f call a p) :
    CutsTo f call a p ↔ CutsAt (f.bytes.drop a) (p - a) := by
  have hmin : MinSize = 2048 := rfl
  have hskip := h.skipped
  have hlimit := h.limit
  have huncut := h.uncut
  have hlen : (f.bytes.drop a).length = f.i_size - a := List.length_drop
  obtain ⟨hend, hbefore⟩ := @cut_spec (f.bytes.drop a) (by omega)
  unfold CutsTo
  rw [cdc_get_chunk_size_eq hf] at huncut ⊢
  rw [hlen] at hend
  constructor
  · intro heq
    rcases hend with ⟨-, -, hcut⟩ | hend
    · rwa [heq] at hcut
    · omega
  · intro hcut
    by_contra hne
    exact hbefore (p - a) (by omega) (by omega) hcut

/-- The sizes of the chunks from a position on depend on the bytes from there on. -/
lemma chunk_sizes_congr {f g : Filp} (hf : f.NoFail) (hg : g.NoFail) (call call' : Nat → Nat) :
    ∀ {fuel fuel' p q}, f.bytes.drop p = g.bytes.drop q → f.i_size - p < fuel →
      g.i_size - q < fuel' → chunk_sizes f call fuel p = chunk_sizes g call' fuel' q := by
  intro fuel
  induction fuel with
  | zero =>
    intro fuel' p q _ h _
    omega
  | succ fuel ih =>
    intro fuel' p q heq hfuel hfuel'
    cases fuel' with
    | zero => omega
    | succ fuel' =>
      have hlen : f.i_size - p = g.i_size - q := by
        have := congrArg List.length heq
        rwa [List.length_drop, List.length_drop] at this
      simp only [chunk_sizes]
      by_cases hlt : p < f.i_size
      · rw [if_pos hlt, if_pos (show q < g.i_size by omega), cdc_get_chunk_size_eq hf,
          cdc_get_chunk_size_eq hg, heq]
        have hrest : g.bytes.drop q ≠ [] := by
          intro h
          have := congrArg List.length h
          rw [List.length_drop, List.length_nil] at this
          unfold Filp.i_size at *
          omega
        have hpos := (cut_bounds hrest).1
        have hnext : f.bytes.drop (p + cut (g.bytes.drop q))
            = g.bytes.drop (q + cut (g.bytes.drop q)) := by
          rw [← List.drop_drop, heq, List.drop_drop]
        rw [@ih fuel' _ _ hnext (by omega) (by omega)]
      · rw [if_neg hlt, if_neg (show ¬ q < g.i_size by omega)]

/-- Scans that have read the same 50 bytes agree whether to cut, and when all the rest is the same
the chunks after a cut of one of them are the same. -/
theorem cuts_local {f g : Filp} (hf : f.NoFail) (hg : g.NoFail) {call call' a b p q : Nat}
    (ha : Reaches f call a p) (hb : Reaches g call' b q)
    (hwindow : (f.bytes.drop (p - 49)).take 50 = (g.bytes.drop (q - 49)).take 50) :
    (CutsTo f call a p ↔ CutsTo g call' b q) ∧
    (f.bytes.drop (p - 49) = g.bytes.drop (q - 49) → CutsTo f call a p ∨ CutsTo g call' b q →
      (CutsTo f call a p ∧ CutsTo g call' b q) ∧
      ∀ calls calls', ∃ sizes, chunk_sizes f calls (f.i_size + 1) p = some sizes ∧
        chunk_sizes g calls' (g.i_size + 1) q = some sizes) := by
  have hwin : window = 50 := rfl
  have hmin : MinSize = 2048 := rfl
  have hcut : ∀ {f : Filp} {call a p}, f.NoFail → Reaches f call a p →
      (CutsTo f call a p ↔ fingerprint ((f.bytes.drop (p - 49)).take 50) &&& MaskS = 0) := by
    intro f call a p hf h
    have hskip := h.skipped
    have hlimit := h.limit
    have hlen : (f.bytes.drop a).length = f.i_size - a := List.length_drop
    rw [h.cuts_iff hf, cutsAt_window (by omega) (by omega), List.drop_drop,
      show a + (p - a - (window - 1)) = p - 49 by omega]
    rfl
  have hiff : CutsTo f call a p ↔ CutsTo g call' b q := by
    rw [hcut hf ha, hcut hg hb, hwindow]
  refine ⟨hiff, fun hrest hone => ⟨?_, fun calls calls' => ?_⟩⟩
  · rw [hiff] at hone ⊢
    exact ⟨hone.elim id id, hone.elim id id⟩
  · have hskip := ha.skipped
    have hskip' := hb.skipped
    have hlimit := ha.limit
    have hafter : f.bytes.drop p = g.bytes.drop q := by
      have := congrArg (List.drop 49) hrest
      rwa [List.drop_drop, List.drop_drop, show p - 49 + 49 = p by omega,
        show q - 49 + 49 = q by omega] at this
    obtain ⟨sizes, hsizes, -⟩ := @chunk_sizes_spec f hf calls (f.i_size + 1) p (by omega) (by omega)
    have hsame := @chunk_sizes_congr f g hf hg calls calls' (f.i_size + 1) (g.i_size + 1) p q hafter
      (by omega) (by omega)
    exact ⟨sizes, hsizes, hsame.symm.trans hsizes⟩

/-- The file of the sevens behind five other bytes. -/
def moved_file : Filp := ⟨List.replicate 5 1 ++ seven_file.bytes, fun _ => some 0⟩

/-- Both are cut at the same seven, and into the same chunks after it. -/
theorem cuts_local_sevens : (CutsTo seven_file 0 0 2114 ∧ CutsTo moved_file 0 0 2119) ∧
    ∃ sizes, chunk_sizes seven_file (fun _ => 0) 2161 2114 = some sizes ∧
      chunk_sizes moved_file (fun _ => 0) 2166 2119 = some sizes := by
  have hf := seven_file_noFail
  have hg : moved_file.NoFail := fun _ => Option.some_ne_none 0
  have hlen := seven_file_size
  have hlen' : moved_file.i_size = 2165 := by
    unfold Filp.i_size at hlen ⊢
    unfold moved_file
    rw [List.length_append, List.length_replicate, hlen]
  have hsize : (cdc_get_chunk_size seven_file 0 0).1 = 2114 := by
    rw [cdc_get_chunk_size_eq hf]
    decide +kernel
  have hsize' : (cdc_get_chunk_size moved_file 0 0).1 = 2119 := by
    rw [cdc_get_chunk_size_eq hg]
    decide +kernel
  have ha : Reaches seven_file 0 0 2114 :=
    ⟨by decide, by rw [hlen]; decide, Nat.le_of_eq hsize.symm⟩
  have hb : Reaches moved_file 0 0 2119 :=
    ⟨by decide, by rw [hlen']; decide, Nat.le_of_eq hsize'.symm⟩
  obtain ⟨hcuts, hsizes⟩ := (cuts_local hf hg ha hb (by decide +kernel)).2 (by decide +kernel) (.inl hsize)
  rw [hlen, hlen'] at hsizes
  exact ⟨hcuts, hsizes (fun _ => 0) fun _ => 0⟩

end CominixFs
