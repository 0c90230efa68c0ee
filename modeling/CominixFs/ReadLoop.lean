import CominixFs.ChunkLoop

/-!
# Short reads in the read loop of `chunk_and_replace`

Every turn of the inner loop asks for `chunk_size` bytes at the place in `buf` it has reached. It
stays inside `buf` exactly when the first read is not short (`read_loop_ok_iff`).
-/

namespace CominixFs

/-- The reads the loop asks for, each a place in `buf` and a number of bytes. -/
def read_asks (f : Filp) (chunk_size : Nat) : Nat → Nat → Nat → Nat → List (Nat × Nat)
  | 0, _, _, _ => []
  | fuel + 1, call, f_pos, pos =>
    if chunk_size ≤ pos then []
    else
      (pos, chunk_size) ::
        match kernel_read f call f_pos chunk_size with
        | none => []
        | some read => read_asks f chunk_size fuel (call + 1) (f_pos + read.length) (pos + read.length)

/-- The loop asks for no byte outside `buf`, ends, and leaves the bytes of the chunk in `buf`. -/
structure ReadOk (f : Filp) (chunk_size call f_pos : Nat) : Prop where
  inside : ∀ a ∈ read_asks f chunk_size (chunk_size + 1) call f_pos 0, a.1 + a.2 ≤ chunk_size
  done : ∃ call', read_loop f chunk_size (chunk_size + 1) call f_pos []
    = .done ((f.bytes.drop f_pos).take chunk_size) (f_pos + chunk_size) call'

/-- What a read inside the file that does not fail transfers. -/
lemma kernel_read_length {f : Filp} {call f_pos n m : Nat} (hm : f.results call = some m)
    (hin : f_pos + n ≤ f.i_size) : ∃ read, kernel_read f call f_pos n = some read ∧
      read.length = min (m + 1) n ∧ (n ≤ m + 1 → read = (f.bytes.drop f_pos).take n) := by
  unfold Filp.i_size at hin
  refine ⟨_, by rw [kernel_read, hm, Option.map_some], ?_, fun h => by rw [Nat.min_eq_right h]⟩
  rw [List.length_take, List.length_drop]
  omega

/-- For every chunk the cutter makes the read loop does what it should exactly when the first read
transfers the whole chunk. -/
theorem read_loop_ok_iff {f : Filp} (hf : f.NoFail) {call pos n call' : Nat} (hpos : pos < f.i_size)
    (hcut : cdc_get_chunk_size f call pos = (n, call')) :
    ReadOk f n call' pos ↔ ∃ m, f.results call' = some m ∧ n ≤ m + 1 := by
  obtain ⟨h0, -, hin⟩ := cdc_get_chunk_size_bounds call hpos
  rw [hcut] at h0 hin
  dsimp only at h0 hin
  obtain ⟨m, hm⟩ := Option.ne_none_iff_exists'.1 (hf call')
  obtain ⟨read, hread, hlen, hfull⟩ := kernel_read_length hm hin
  obtain ⟨k, rfl⟩ : ∃ k, n = k + 1 := ⟨n - 1, by omega⟩
  constructor
  · intro ok
    refine ⟨m, hm, ?_⟩
    by_contra hshort
    -- the second read is asked for at a place past the start of `buf`
    have hask : (read.length, k + 1) ∈ read_asks f (k + 1) (k + 1 + 1) call' pos 0 := by
      rw [read_asks, if_neg (by omega), hread]
      dsimp only
      rw [Nat.zero_add, read_asks, if_neg (by omega)]
      exact List.mem_cons_of_mem _ List.mem_cons_self
    have := ok.inside _ hask
    dsimp only at this
    omega
  · rintro ⟨m', hm', hle⟩
    obtain rfl : m = m' := by
      rw [hm] at hm'
      exact Option.some.inj hm'
    rw [Nat.min_eq_right hle] at hlen
    constructor
    · intro a ha
      rw [read_asks, if_neg (by omega), hread] at ha
      dsimp only at ha
      rw [read_asks, if_pos (by omega)] at ha
      rw [List.mem_singleton.1 ha]
      dsimp only
      omega
    · refine ⟨call' + 1, ?_⟩
      rw [read_loop, if_neg (by rw [List.length_nil]; omega), hread]
      dsimp only
      rw [if_neg (by rw [List.length_nil]; omega), List.nil_append, read_loop, if_pos (by omega),
        ← hfull hle, hlen]

/-- A file of three bytes whose first read transfers one byte. -/
def shortFile : Filp := ⟨[1, 2, 3], fun _ => some 0⟩

/-- The second read asks for three bytes at the second byte of a `buf` of three. -/
theorem read_loop_overruns : shortFile.NoFail ∧ cdc_get_chunk_size shortFile 0 0 = (3, 0) ∧
    read_asks shortFile 3 4 0 0 0 = [(0, 3), (1, 3), (2, 3)] ∧ ¬ ReadOk shortFile 3 0 0 :=
  ⟨fun _ => by simp [shortFile], by decide, by decide, fun ok => by
    have := ok.inside (1, 3) (by decide)
    omega⟩

/-- A file of three bytes whose reads are full. -/
theorem read_loop_ok_three : ReadOk ⟨[1, 2, 3], fun _ => some 2⟩ 3 0 0 :=
  (@read_loop_ok_iff ⟨[1, 2, 3], fun _ => some 2⟩ (fun _ => by simp) 0 0 3 0 (by decide)
    (by decide)).2 ⟨2, rfl, by decide⟩

end CominixFs
