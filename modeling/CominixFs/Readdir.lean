import CominixFs.DirEntries

/-!
# Reading a directory (`cominix_readdir`)

A call emits entries from a position on until the callback refuses one or the directory ends, and
leaves the position for the next call. Whatever the callbacks refuse, repeated calls emit the live
entries in the order of their slots (`readdirs_readTo`), and all of them once the position is at the
end (`ReadTo.all`).
-/

namespace CominixFs

/-- `struct dir_context`: the position, and the names and inode numbers the callback has taken. -/
structure DirContext where
  pos : Nat
  emitted : List (List UInt8 × Nat)

/-- The callback behind `dir_emit`: whether it takes the next entry. -/
abbrev Actor := DirContext → List UInt8 × Nat → Bool

/-- The bytes of a name up to `strnlen`. -/
def Dirent.file_name (de : Dirent) : List UInt8 := (de.name.take s_namelen).takeWhile (· ≠ 0)

/-- The loop of `cominix_readdir` over entries of a page: whether it went through all of them. -/
def readdir_entries (actor : Actor) : List Dirent → DirContext → DirContext × Bool
  | [], ctx => (ctx, true)
  | de :: des, ctx =>
    if de.inode = 0 then readdir_entries actor des { ctx with pos := ctx.pos + s_dirsize }
    else if actor ctx (de.file_name, de.inode) then
      readdir_entries actor des
        ⟨ctx.pos + s_dirsize, ctx.emitted ++ [(de.file_name, de.inode)]⟩
    else (ctx, false)

/-- The entries of a page from entry `k` on. -/
def page_entries (d : Directory) (n k : Nat) : List Dirent :=
  ((List.range (cominix_last_byte d n / s_dirsize)).drop k).map (d.page n)

/-- The loop of `cominix_readdir` over the pages. -/
def readdir_pages (d : Directory) (actor : Actor) : Nat → Nat → Nat → DirContext → DirContext
  | 0, _, _, ctx => ctx
  | m + 1, n, offset, ctx =>
    match readdir_entries actor (page_entries d n (offset / s_dirsize)) ctx with
    | (ctx, true) => readdir_pages d actor m (n + 1) 0 ctx
    | (ctx, false) => ctx

/-- `cominix_readdir`. -/
def cominix_readdir (d : Directory) (actor : Actor) (pos : Nat) : DirContext :=
  let pos := (pos + (s_dirsize - 1)) / s_dirsize * s_dirsize
  if d.i_size ≤ pos then ⟨pos, []⟩
  else
    let n := pos / PAGE_SIZE
    readdir_pages d actor (dir_pages d - n) n (pos % PAGE_SIZE) ⟨pos, []⟩

/-- Calls of `cominix_readdir` one after the other, and all they emit. -/
def readdirs (d : Directory) : List Actor → DirContext → DirContext
  | [], ctx => ctx
  | actor :: calls, ctx =>
    let r := cominix_readdir d actor ctx.pos
    readdirs d calls ⟨r.pos, ctx.emitted ++ r.emitted⟩

/-- The names and inode numbers of the live entries. -/
def listing (des : List Dirent) : List (List UInt8 × Nat) :=
  (des.filter fun de => de.inode ≠ 0).map fun de => (de.file_name, de.inode)

variable {d : Directory} {actor : Actor}

lemma listing_append (l l' : List Dirent) : listing (l ++ l') = listing l ++ listing l' := by
  rw [listing, List.filter_append, List.map_append]
  rfl

lemma listing_free {de : Dirent} (h : de.inode = 0) (l : List Dirent) :
    listing (de :: l) = listing l := by
  rw [listing, List.filter_cons_of_neg (by simpa using h)]
  rfl

lemma listing_live {de : Dirent} (h : de.inode ≠ 0) (l : List Dirent) :
    listing (de :: l) = (de.file_name, de.inode) :: listing l := by
  rw [listing, List.filter_cons_of_pos (by simpa using h)]
  rfl

/-- What the loop leaves: it went through some entries, and what it emitted is theirs; the first of
the others was refused. -/
structure Went (actor : Actor) (des : List Dirent) (ctx : DirContext)
    (r : DirContext × Bool) (j : Nat) : Prop where
  le : j ≤ des.length
  pos : r.1.pos = ctx.pos + j * 64
  emitted : r.1.emitted = ctx.emitted ++ listing (des.take j)
  all : r.2 = true → j = des.length
  refused : r.2 = false → ∃ entry, actor r.1 entry = false

lemma readdir_entries_spec : ∀ des ctx, ∃ j, Went actor des ctx (readdir_entries actor des ctx) j := by
  intro des
  induction des with
  | nil =>
    intro ctx
    refine ⟨0, Nat.le_refl _, ?_, ?_, fun _ => rfl, fun h => ?_⟩
    · rw [Nat.zero_mul, Nat.add_zero]
      rfl
    · exact (List.append_nil _).symm
    · cases h
  | cons de des ih =>
    intro ctx
    unfold readdir_entries
    by_cases hz : de.inode = 0
    · rw [if_pos hz]
      obtain ⟨j, w⟩ := ih { ctx with pos := ctx.pos + s_dirsize }
      refine ⟨j + 1, Nat.succ_le_succ w.le, ?_, ?_, fun h => congrArg (· + 1) (w.all h), w.refused⟩
      · rw [w.pos]
        change ctx.pos + 64 + j * 64 = _
        omega
      · rw [List.take_succ_cons, listing_free hz]
        exact w.emitted
    · rw [if_neg hz]
      by_cases he : actor ctx (de.file_name, de.inode) = true
      · rw [if_pos he]
        obtain ⟨j, w⟩ := ih ⟨ctx.pos + s_dirsize, ctx.emitted ++ [(de.file_name, de.inode)]⟩
        refine ⟨j + 1, Nat.succ_le_succ w.le, ?_, ?_, fun h => congrArg (· + 1) (w.all h), w.refused⟩
        · rw [w.pos]
          change ctx.pos + 64 + j * 64 = _
          omega
        · rw [List.take_succ_cons, listing_live hz, w.emitted, List.append_assoc]
          rfl
      · rw [if_neg he]
        refine ⟨0, Nat.zero_le _, ?_, ?_, fun h => ?_,
          fun _ => ⟨_, Bool.eq_false_iff.2 he⟩⟩
        · rw [Nat.zero_mul, Nat.add_zero]
        · exact (List.append_nil _).symm
        · cases h

/-- Entries in two parts are gone through one part after the other. -/
lemma readdir_entries_append (l l' : List Dirent) : ∀ ctx, readdir_entries actor (l ++ l') ctx
    = match readdir_entries actor l ctx with
      | (ctx, true) => readdir_entries actor l' ctx
      | (ctx, false) => (ctx, false) := by
  induction l with
  | nil => exact fun _ => rfl
  | cons de l ih =>
    intro ctx
    rw [List.cons_append, readdir_entries, readdir_entries]
    split
    · exact ih _
    · split
      · exact ih _
      · rfl

/-- The entries of a page from one on are slots. -/
lemma page_entries_eq {n k : Nat} (hn : n < dir_pages d) (hk : k ≤ 64) :
    page_entries d n k = (d.slots.drop (64 * n + k)).take (64 - k) := by
  have hcount : cominix_last_byte d n / s_dirsize = min 64 (d.nslots - 64 * n) := by
    unfold dir_pages PAGE_SIZE at hn
    unfold cominix_last_byte Directory.nslots PAGE_SIZE s_dirsize
    split <;> omega
  unfold page_entries
  rw [hcount]
  apply List.ext_getElem
  · rw [List.length_map, List.length_drop, List.length_range, List.length_take, List.length_drop,
      Directory.length_slots]
    omega
  · intro i h1 h2
    rw [List.length_map, List.length_drop, List.length_range] at h1
    rw [List.getElem_map, List.getElem_drop, List.getElem_range, List.getElem_take, List.getElem_drop,
      Directory.getElem_slots, ← slot_page (by omega)]
    congr 1
    omega

/-- The loop over the pages is one over the slots. -/
lemma readdir_pages_eq : ∀ m n k ctx, n + m = dir_pages d → k < 64 →
    readdir_pages d actor m n (k * 64) ctx
      = (readdir_entries actor (d.slots.drop (64 * n + k)) ctx).1 := by
  intro m
  induction m with
  | zero =>
    intro n k ctx hn hk
    have hnone : d.slots.drop (64 * n + k) = [] := by
      apply List.drop_eq_nil_of_le
      rw [Directory.length_slots]
      unfold dir_pages PAGE_SIZE at hn
      unfold Directory.nslots
      omega
    rw [hnone]
    rfl
  | succ m ih =>
    intro n k ctx hn hk
    have hsplit : d.slots.drop (64 * n + k)
        = page_entries d n k ++ d.slots.drop (64 * (n + 1) + 0) := by
      rw [page_entries_eq (by omega) (Nat.le_of_lt hk)]
      conv_lhs => rw [← List.take_append_drop (64 - k) (d.slots.drop (64 * n + k)), List.drop_drop]
      congr 2
      omega
    have hoff : k * 64 / s_dirsize = k := Nat.mul_div_cancel k (by decide)
    rw [readdir_pages, hsplit, readdir_entries_append, hoff]
    split
    · rename_i ctx' heq
      have := ih (n + 1) 0 ctx' (by omega) (by decide)
      rw [Nat.zero_mul] at this
      rw [this]
    · rfl

/-- A call from a slot on. -/
lemma cominix_readdir_spec (ha : d.i_size % 64 = 0) {i : Nat} (hi : i ≤ d.nslots) :
    ∃ j, i ≤ j ∧ j ≤ d.nslots ∧ (cominix_readdir d actor (64 * i)).pos = 64 * j ∧
      listing (d.slots.take j)
        = listing (d.slots.take i) ++ (cominix_readdir d actor (64 * i)).emitted ∧
      (j = d.nslots ∨ ∃ entry, actor (cominix_readdir d actor (64 * i)) entry = false) := by
  have halign : (64 * i + (s_dirsize - 1)) / s_dirsize * s_dirsize = 64 * i := by
    unfold s_dirsize
    omega
  unfold cominix_readdir
  dsimp only
  rw [halign]
  by_cases hend : d.i_size ≤ 64 * i
  · have hin : i = d.nslots := by
      unfold Directory.nslots at hi ⊢
      omega
    rw [if_pos hend]
    exact ⟨i, Nat.le_refl i, hi, rfl, (List.append_nil _).symm, .inl hin⟩
  · rw [if_neg hend]
    have hpage : 64 * i / PAGE_SIZE = i / 64 := by
      unfold PAGE_SIZE
      omega
    have hoff : 64 * i % PAGE_SIZE = i % 64 * 64 := by
      unfold PAGE_SIZE
      omega
    have hpages : i / 64 + (dir_pages d - i / 64) = dir_pages d := by
      unfold dir_pages PAGE_SIZE
      omega
    rw [hpage, hoff, readdir_pages_eq _ _ _ _ hpages (Nat.mod_lt i (by decide)), Nat.div_add_mod]
    obtain ⟨j, w⟩ := @readdir_entries_spec actor (d.slots.drop i) ⟨64 * i, []⟩
    have hle := w.le
    have hall := w.all
    have href := w.refused
    rw [List.length_drop, Directory.length_slots] at hle hall
    refine ⟨i + j, Nat.le_add_right i j, by omega, ?_, ?_, ?_⟩
    · rw [w.pos]
      dsimp only
      omega
    · rw [w.emitted, List.nil_append, ← listing_append, List.take_add]
    · cases hdone : (readdir_entries actor (d.slots.drop i) ⟨64 * i, []⟩).2 with
      | true =>
        have := hall hdone
        omega
      | false => exact .inr (href hdone)

/-- Where repeated calls are: at a slot, with the live entries before it emitted. -/
def ReadTo (d : Directory) (ctx : DirContext) : Prop :=
  ∃ j ≤ d.nslots, ctx.pos = 64 * j ∧ ctx.emitted = listing (d.slots.take j)

/-- What was emitted is the listing up to some entry. -/
lemma ReadTo.initial {ctx : DirContext} (h : ReadTo d ctx) : ctx.emitted <+: listing d.slots := by
  obtain ⟨j, -, -, he⟩ := h
  refine ⟨listing (d.slots.drop j), ?_⟩
  rw [he, ← listing_append, List.take_append_drop]

/-- At the end everything was emitted. -/
lemma ReadTo.all {ctx : DirContext} (h : ReadTo d ctx) (hend : d.i_size ≤ ctx.pos) :
    ctx.emitted = listing d.slots := by
  obtain ⟨j, hj, hpos, he⟩ := h
  have hall : d.slots.length ≤ j := by
    rw [Directory.length_slots]
    unfold Directory.nslots
    omega
  rw [he, List.take_of_length_le hall]

lemma readTo_start : ReadTo d ⟨0, []⟩ := ⟨0, Nat.zero_le _, rfl, rfl⟩

lemma readdirs_readTo (ha : d.i_size % 64 = 0) : ∀ calls ctx, ReadTo d ctx →
    ReadTo d (readdirs d calls ctx) := by
  intro calls
  induction calls with
  | nil => exact fun _ h => h
  | cons actor calls ih =>
    rintro ctx ⟨i, hi, hpos, hemitted⟩
    obtain ⟨j, -, hj, hpos', hlist, -⟩ := @cominix_readdir_spec d actor ha i hi
    apply ih
    rw [hpos]
    exact ⟨j, hj, hpos', by rw [hlist, hemitted]⟩

/-- A callback that takes the first entry of a call. -/
def TakesFirst (actor : Actor) : Prop := ∀ ctx entry, ctx.emitted = [] → actor ctx entry = true

/-- At the end the position stays there. -/
lemma readdirs_end : ∀ calls ctx, d.i_size ≤ ctx.pos → d.i_size ≤ (readdirs d calls ctx).pos := by
  intro calls
  induction calls with
  | nil => exact fun _ h => h
  | cons actor calls ih =>
    intro ctx h
    apply ih
    have halign : ctx.pos ≤ (ctx.pos + (s_dirsize - 1)) / s_dirsize * s_dirsize := by
      unfold s_dirsize
      omega
    unfold cominix_readdir
    dsimp only
    rw [if_pos (Nat.le_trans h halign)]
    exact Nat.le_trans h halign

/-- Every call gets on: it reaches the end or emits an entry. -/
lemma readdirs_progress (ha : d.i_size % 64 = 0) : ∀ calls ctx, ReadTo d ctx →
    (∀ actor ∈ calls, TakesFirst actor) → d.i_size ≤ (readdirs d calls ctx).pos ∨
      ctx.emitted.length + calls.length ≤ (readdirs d calls ctx).emitted.length := by
  intro calls
  induction calls with
  | nil => exact fun _ _ _ => .inr (Nat.le_refl _)
  | cons actor calls ih =>
    rintro ctx ⟨i, hi, hpos, hemitted⟩ htake
    obtain ⟨j, -, hj, hpos', hlist, hlast⟩ := @cominix_readdir_spec d actor ha i hi
    rw [readdirs, hpos]
    cases hlast with
    | inl hend =>
      refine .inl (readdirs_end _ _ ?_)
      dsimp only
      rw [hpos', hend]
      unfold Directory.nslots
      omega
    | inr hrefused =>
      obtain ⟨entry, hno⟩ := hrefused
      have hsome : (cominix_readdir d actor (64 * i)).emitted ≠ [] := by
        intro hnil
        rw [htake actor List.mem_cons_self _ entry hnil] at hno
        cases hno
      have hlen := List.length_pos_iff.2 hsome
      have hnext : ReadTo d ⟨(cominix_readdir d actor (64 * i)).pos,
          ctx.emitted ++ (cominix_readdir d actor (64 * i)).emitted⟩ :=
        ⟨j, hj, hpos', by rw [hlist, hemitted]⟩
      refine (ih _ hnext fun a h => htake a (List.mem_cons_of_mem _ h)).imp id fun h => ?_
      rw [List.length_append] at h
      rw [List.length_cons]
      omega

/-- More calls than entries, each taking one, reach the end. -/
lemma readdirs_reach (ha : d.i_size % 64 = 0) {calls : List Actor}
    (htake : ∀ actor ∈ calls, TakesFirst actor) (hmany : d.nslots < calls.length) :
    d.i_size ≤ (readdirs d calls ⟨0, []⟩).pos := by
  refine (readdirs_progress ha calls _ readTo_start htake).resolve_right fun h => ?_
  have hle := (readdirs_readTo ha calls _ readTo_start).initial.length_le
  have hlist : (listing d.slots).length ≤ d.nslots := by
    rw [listing, List.length_map, ← Directory.length_slots]
    exact List.length_filter_le _ _
  simp only [List.length_nil, Nat.zero_add] at h
  omega

end CominixFs
