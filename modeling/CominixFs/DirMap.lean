import CominixFs.Readdir
import CominixFs.Lib.Refine
import Mathlib.Data.List.Nodup

/-!
# A directory as a map from names to inode numbers

`map_op` says what the changes of a directory do to a map. `DirRefines` relates a directory to the map
it stores, `DirRefines.put` is what storing one entry does to it, and every sequence of changes keeps
it (`directory_refines_map`).
-/

namespace CominixFs

open Refine

/-- A name a directory can store. -/
structure FileName (name : List UInt8) : Prop where
  pos : 0 < name.length
  le : name.length ≤ s_namelen
  no_zero : 0 ∉ name

instance (name : List UInt8) : Decidable (FileName name) :=
  decidable_of_iff (0 < name.length ∧ name.length ≤ s_namelen ∧ 0 ∉ name)
    ⟨fun ⟨h1, h2, h3⟩ => ⟨h1, h2, h3⟩, fun h => ⟨h.pos, h.le, h.no_zero⟩⟩

/-- A change of a directory. -/
inductive DirOp where
  | add_link (name : List UInt8) (i_ino : Nat)
  | delete_entry (name : List UInt8)
  | set_link (name : List UInt8) (i_ino : Nat)

/-- The change of the entry that `cominix_find_entry` finds. -/
def at_entry (d : Directory) (name : List UInt8) (f : Nat → Nat → Directory × Option DirErr) :
    Directory × Option DirErr :=
  match cominix_find_entry d name with
  | none => (d, some .ENOENT)
  | some (n, k) => f n k

/-- A change where no page operation fails. -/
def dir_op (d : Directory) : DirOp → Directory × Option DirErr
  | .add_link name i_ino => cominix_add_link d name i_ino .done
  | .delete_entry name => at_entry d name fun n k => cominix_delete_entry d n k .done
  | .set_link name i_ino => at_entry d name fun n k => cominix_set_link d n k i_ino .done

/-- The inode numbers of names. -/
abbrev NameMap := List UInt8 → Option Nat

/-- Let a name have an inode number, and none when it is 0. -/
def NameMap.set (f : NameMap) (name : List UInt8) (i_ino : Nat) : NameMap :=
  Function.update f name (if i_ino = 0 then none else some i_ino)

/-- What a change of a directory does to the map. -/
def map_op (f : NameMap) : DirOp → NameMap × Option DirErr
  | .add_link name i_ino => (f.set name i_ino, none)
  | .delete_entry name => if f name = none then (f, some .ENOENT) else (f.set name 0, none)
  | .set_link name i_ino => if f name = none then (f, some .ENOENT) else (f.set name i_ino, none)

/-- A change the callers make: `cominix_add_link` is for a name that is not there. -/
def map_legal (f : NameMap) : DirOp → Prop
  | .add_link name i_ino => FileName name ∧ f name = none ∧ i_ino ≠ 0
  | .delete_entry name => FileName name
  | .set_link name _ => FileName name

/-- The map of an empty directory. -/
def empty_map (i_ino parent : Nat) : NameMap :=
  NameMap.set (NameMap.set (fun _ => none) dot i_ino) dotdot parent

/-- The directory stores the map: one live entry for each name. -/
structure DirRefines (d : Directory) (f : NameMap) : Prop where
  aligned : d.i_size % 64 = 0
  named : ∀ m < d.nslots, (d.slot m).inode ≠ 0 →
    ∃ name, FileName name ∧ (d.slot m).name = pad name ∧ f name = some (d.slot m).inode
  stored : ∀ {name i_ino}, f name = some i_ino →
    FileName name ∧ i_ino ≠ 0 ∧ ∃ m < d.nslots, d.slot m = ⟨i_ino, pad name⟩
  unique : ∀ m < d.nslots, ∀ m' < d.nslots, (d.slot m).inode ≠ 0 → (d.slot m').inode ≠ 0 →
    (d.slot m).name = (d.slot m').name → m = m'

/-- The inode number that `cominix_find_entry` finds. -/
def found (d : Directory) (name : List UInt8) : Option Nat :=
  (cominix_find_entry d name).map fun p => (d.page p.1 p.2).inode

variable {d : Directory} {f : NameMap} {name : List UInt8} {i_ino : Nat}

lemma FileName.pad_inj {name' : List UInt8} (h : FileName name) (h' : FileName name')
    (heq : pad name = pad name') : name = name' :=
  CominixFs.pad_inj h.no_zero h'.no_zero h.le h'.le heq

lemma NameMap.set_self (f : NameMap) (h : i_ino ≠ 0) : f.set name i_ino name = some i_ino := by
  rw [set, Function.update_self, if_neg h]

lemma NameMap.set_zero (f : NameMap) : f.set name 0 name = none := by
  rw [set, Function.update_self, if_pos rfl]

lemma NameMap.set_of_ne (f : NameMap) {name' : List UInt8} (h : name' ≠ name) :
    f.set name i_ino name' = f name' :=
  Function.update_of_ne h _ _

/-- The slots after an entry is stored. -/
lemma Directory.lt_put_nslots (ha : d.i_size % 64 = 0) {m m' : Nat} {de : Dirent}
    (hm : m ≤ d.nslots) : m' < (d.put m de).nslots ↔ m' = m ∨ m' < d.nslots := by
  cases Nat.lt_or_eq_of_le hm with
  | inl hlt =>
    rw [put_nslots_of_lt hlt]
    omega
  | inr heq =>
    subst heq
    rw [put_nslots_end ha]
    omega

namespace DirRefines

/-- An entry stored over a free slot, past the end or over the entry of its name. -/
lemma put (h : DirRefines d f) {m : Nat} (hm : m ≤ d.nslots) (hv : FileName name)
    (hself : m < d.nslots → (d.slot m).inode ≠ 0 → (d.slot m).name = pad name)
    (hother : ∀ m' < d.nslots, m' ≠ m → (d.slot m').inode ≠ 0 → (d.slot m').name ≠ pad name) :
    DirRefines (d.put m ⟨i_ino, pad name⟩) (f.set name i_ino) := by
  refine ⟨Directory.put_aligned h.aligned, ?_, ?_, ?_⟩
  · intro m' hm' hlive
    by_cases he : m' = m
    · subst he
      rw [Directory.put_slot_self] at hlive ⊢
      exact ⟨name, hv, rfl, f.set_self hlive⟩
    · have hlt := ((Directory.lt_put_nslots h.aligned hm).1 hm').resolve_left he
      rw [Directory.put_slot_of_ne d _ he] at hlive ⊢
      obtain ⟨name', hv', hpad, hf⟩ := h.named m' hlt hlive
      refine ⟨name', hv', hpad, ?_⟩
      rw [f.set_of_ne fun e => hother m' hlt he hlive (by rw [hpad, e])]
      exact hf
  · intro name' i hi
    by_cases he : name' = name
    · subst he
      by_cases hz : i_ino = 0
      · subst hz
        rw [f.set_zero] at hi
        cases hi
      · rw [f.set_self hz] at hi
        cases hi
        refine ⟨hv, hz, m, (Directory.lt_put_nslots h.aligned hm).2 (.inl rfl), ?_⟩
        exact Directory.put_slot_self d m _
    · rw [f.set_of_ne he] at hi
      obtain ⟨hv', hz, m', hlt, hslot⟩ := h.stored hi
      refine ⟨hv', hz, m', (Directory.lt_put_nslots h.aligned hm).2 (.inr hlt), ?_⟩
      -- the slot stored over holds no other name
      rw [Directory.put_slot_of_ne d, hslot]
      rintro rfl
      have hpad := hself hlt (by rw [hslot]; exact hz)
      rw [hslot] at hpad
      exact he (hv'.pad_inj hv hpad)
  · intro m₁ h₁ m₂ h₂ hl₁ hl₂ heq
    rw [Directory.lt_put_nslots h.aligned hm] at h₁ h₂
    by_cases he₁ : m₁ = m
    · by_cases he₂ : m₂ = m
      · rw [he₁, he₂]
      · subst he₁
        rw [Directory.put_slot_of_ne d _ he₂] at hl₂ heq
        rw [Directory.put_slot_self] at heq
        exact absurd heq.symm (hother m₂ (h₂.resolve_left he₂) he₂ hl₂)
    · rw [Directory.put_slot_of_ne d _ he₁] at hl₁ heq
      by_cases he₂ : m₂ = m
      · subst he₂
        rw [Directory.put_slot_self] at heq
        exact absurd heq (hother m₁ (h₁.resolve_left he₁) he₁ hl₁)
      · rw [Directory.put_slot_of_ne d _ he₂] at hl₂ heq
        exact h.unique m₁ (h₁.resolve_left he₁) m₂ (h₂.resolve_left he₂) hl₁ hl₂ heq

lemma same {d' : Directory} (h : DirRefines d f) (hs : d.Same d') : DirRefines d' f := by
  have hn := hs.nslots
  refine ⟨hs.i_size ▸ h.aligned, ?_, ?_, ?_⟩
  · intro m hm
    rw [hn] at hm
    rw [hs.slot m hm]
    exact h.named m hm
  · intro name' i hi
    obtain ⟨hv, hz, m, hm, hslot⟩ := h.stored hi
    exact ⟨hv, hz, m, hn ▸ hm, (hs.slot m hm).trans hslot⟩
  · intro m hm m' hm'
    rw [hn] at hm hm'
    rw [hs.slot m hm, hs.slot m' hm']
    exact h.unique m hm m' hm'

/-- A live entry that matches a name has it. -/
lemma of_matches (h : DirRefines d f) (hv : FileName name) {m : Nat} (hm : m < d.nslots)
    (hmatch : Matches (d.slot m) name) :
    (d.slot m).name = pad name ∧ f name = some (d.slot m).inode := by
  obtain ⟨name', hv', hpad, hf⟩ := h.named m hm hmatch.1
  have hname := hmatch.2
  rw [hpad] at hname
  have heq := (namecompare_pad hv.no_zero hv'.no_zero hv.le hv'.le).1 hname
  subst heq
  exact ⟨hpad, hf⟩

lemma find_some (h : DirRefines d f) (hv : FileName name) {n k : Nat}
    (hfind : cominix_find_entry d name = some (n, k)) :
    k < 64 ∧ 64 * n + k < d.nslots ∧ (d.slot (64 * n + k)).inode ≠ 0 ∧
      (d.slot (64 * n + k)).name = pad name ∧ f name = some (d.slot (64 * n + k)).inode := by
  obtain ⟨hk, hlt, hmatch⟩ := find_entry_some hfind
  obtain ⟨hpad, hf⟩ := h.of_matches hv hlt hmatch
  exact ⟨hk, hlt, hmatch.1, hpad, hf⟩

lemma find_none (h : DirRefines d f) (hv : FileName name) :
    cominix_find_entry d name = none ↔ f name = none := by
  rw [find_entry_none]
  constructor
  · intro hno
    cases hf : f name with
    | none => rfl
    | some i =>
      obtain ⟨-, hz, m, hm, hslot⟩ := h.stored hf
      refine absurd ⟨?_, ?_⟩ (hno m hm)
      · rw [hslot]
        exact hz
      · rw [hslot]
        exact (namecompare_pad hv.no_zero hv.no_zero hv.le hv.le).2 rfl
  · intro hf m hm hmatch
    rw [(h.of_matches hv hm hmatch).2] at hf
    cases hf

/-- `cominix_find_entry` is the map. -/
lemma found_eq (h : DirRefines d f) (hv : FileName name) : found d name = f name := by
  unfold found
  cases hfind : cominix_find_entry d name with
  | none => exact ((h.find_none hv).1 hfind).symm
  | some p =>
    obtain ⟨hk, -, -, -, hf⟩ := h.find_some hv hfind
    rw [slot_page hk] at hf
    exact hf.symm

/-- `cominix_add_link` of a name that is not there. -/
lemma add_link (h : DirRefines d f) (hv : FileName name) (hnone : f name = none) :
    (cominix_add_link d name i_ino .done).2 = none ∧
      DirRefines (cominix_add_link d name i_ino .done).1 (f.set name i_ino) := by
  have hdone : (cominix_add_link d name i_ino .done).2 = none :=
    add_link_done h.aligned ((h.find_none hv).2 hnone)
  obtain ⟨m, hm, heq⟩ := add_link_ok h.aligned hdone
  have hle : m ≤ d.nslots := by
    cases hm with
    | inl hend => exact Nat.le_of_eq hend
    | inr hfree => exact Nat.le_of_lt hfree.1
  refine ⟨hdone, ?_⟩
  rw [heq]
  apply h.put hle hv
  · intro hlt hlive
    cases hm with
    | inl hend => exact absurd hlt (by rw [hend]; exact Nat.lt_irrefl _)
    | inr hfree => exact absurd hfree.2 hlive
  · intro m' hlt' _ hlive' hpad
    obtain ⟨name', hv', hpad', hf⟩ := h.named m' hlt' hlive'
    rw [hv'.pad_inj hv (hpad'.symm.trans hpad), hnone] at hf
    cases hf

/-- `cominix_add_link` uses a free slot when there is one. -/
lemma add_link_reuse (h : DirRefines d f) (hv : FileName name) (hnone : f name = none)
    (hfree : ∃ m < d.nslots, (d.slot m).inode = 0) :
    (cominix_add_link d name i_ino .done).1.i_size = d.i_size := by
  obtain ⟨m₀, hlt₀, hz₀⟩ := hfree
  have hdone : (cominix_add_link d name i_ino .done).2 = none := (h.add_link hv hnone).1
  obtain ⟨m, hm, heq⟩ := add_link_place h.aligned hdone
  rw [heq, Directory.put_i_size]
  cases hm with
  | inl hend => exact absurd hz₀ (hend.2 m₀ hlt₀)
  | inr hin =>
    have hlt := hin.1
    unfold Directory.nslots at hlt
    omega

/-- The entry of a name made to name another inode, or none. -/
lemma set_link (h : DirRefines d f) (hv : FileName name) {n k : Nat}
    (hfind : cominix_find_entry d name = some (n, k)) :
    DirRefines (cominix_set_link d n k i_ino .done).1 (f.set name i_ino) := by
  obtain ⟨hk, hlt, hlive, hpad, -⟩ := h.find_some hv hfind
  have hput : DirRefines (d.put (64 * n + k) ⟨i_ino, pad name⟩) (f.set name i_ino) := by
    apply h.put (Nat.le_of_lt hlt) hv
    · exact fun _ _ => hpad
    · exact fun m' hlt' hne hlive' hpad' =>
        hne (h.unique m' hlt' _ hlt hlive' hlive (hpad'.trans hpad.symm))
  rw [set_link_ok hk rfl]
  rw [← hpad] at hput
  exact hput

/-- One change of the directory is the change of the map. -/
lemma step (h : DirRefines d f) (op : DirOp) (hop : map_legal f op) :
    DirRefines (dir_op d op).1 (map_op f op).1 ∧ (dir_op d op).2 = (map_op f op).2 := by
  have hset : ∀ name i_ino, FileName name →
      DirRefines (at_entry d name fun n k => cominix_set_link d n k i_ino .done).1
          (map_op f (.set_link name i_ino)).1 ∧
        (at_entry d name fun n k => cominix_set_link d n k i_ino .done).2
          = (map_op f (.set_link name i_ino)).2 := by
    intro name i_ino hv
    dsimp only [at_entry, map_op]
    cases hfind : cominix_find_entry d name with
    | none =>
      rw [if_pos ((h.find_none hv).1 hfind)]
      exact ⟨h, rfl⟩
    | some p =>
      rw [if_neg fun hno => by rw [(h.find_none hv).2 hno] at hfind; cases hfind]
      exact ⟨h.set_link hv hfind, rfl⟩
  cases op with
  | add_link name i_ino =>
    obtain ⟨hv, hnone, -⟩ := hop
    exact (h.add_link hv hnone).symm
  -- `cominix_delete_entry` stores the entry with inode number 0
  | delete_entry name => exact hset name 0 hop
  | set_link name i_ino => exact hset name i_ino hop

/-- A run of changes of the directory is one of the map. -/
lemma run (h : DirRefines d f) {ops : List DirOp} (hlegal : Legal map_legal map_op f ops) :
    DirRefines (Refine.run dir_op d ops).1 (Refine.run map_op f ops).1 ∧
      (Refine.run dir_op d ops).2 = (Refine.run map_op f ops).2 :=
  run_simulates (R := DirRefines) (fun _ _ op h hop => h.step op hop) h hlegal

end DirRefines

/-! ## The empty directory -/

lemma refines_new (h : d.i_size = 0) : DirRefines d fun _ => none := by
  have hn : d.nslots = 0 := by
    rw [Directory.nslots, h]
  refine ⟨by rw [h], ?_, ?_, ?_⟩
  · intro m hm
    rw [hn] at hm
    exact absurd hm (Nat.not_lt_zero m)
  · intro name i hi
    cases hi
  · intro m hm
    rw [hn] at hm
    exact absurd hm (Nat.not_lt_zero m)

lemma make_empty_refines (h : d.i_size = 0) {parent : Nat} :
    DirRefines (cominix_make_empty d i_ino parent .done).1 (empty_map i_ino parent) := by
  have hn : d.nslots = 0 := by
    rw [Directory.nslots, h]
  have hdot : DirRefines (d.put 0 ⟨i_ino, pad dot⟩) (NameMap.set (fun _ => none) dot i_ino) := by
    apply (refines_new h).put (Nat.zero_le _) (by decide)
    · intro hlt
      rw [hn] at hlt
      exact absurd hlt (Nat.not_lt_zero 0)
    · intro m hlt
      rw [hn] at hlt
      exact absurd hlt (Nat.not_lt_zero m)
  have hsize : (d.put 0 ⟨i_ino, pad dot⟩).i_size = 64 := by
    rw [Directory.put_i_size, h]
    rfl
  have hone : (d.put 0 ⟨i_ino, pad dot⟩).nslots = 1 := by
    rw [Directory.nslots, hsize]
  have hdotdot : DirRefines ((d.put 0 ⟨i_ino, pad dot⟩).put 1 ⟨parent, pad dotdot⟩)
      (empty_map i_ino parent) := by
    apply hdot.put (Nat.le_of_eq hone.symm) (by decide)
    · intro hlt
      rw [hone] at hlt
      exact absurd hlt (Nat.lt_irrefl 1)
    · intro m hlt _ _
      rw [hone] at hlt
      have hm : m = 0 := Nat.lt_one_iff.1 hlt
      subst hm
      rw [Directory.put_slot_self]
      change pad dot ≠ pad dotdot
      decide
  have htwo : ((d.put 0 ⟨i_ino, pad dot⟩).put 1 ⟨parent, pad dotdot⟩).i_size = 128 := by
    rw [Directory.put_i_size, hsize]
    rfl
  -- storing the page at once is storing both entries
  refine hdotdot.same ⟨?_, fun m hm => ?_⟩
  · rw [htwo]
    unfold cominix_make_empty dir_commit_chunk s_dirsize
    dsimp only
    rw [h]
    rfl
  · rw [Directory.nslots, htwo] at hm
    have hcase : m = 0 ∨ m = 1 := by omega
    cases hcase with
    | inl h0 =>
      subst h0
      rw [Directory.put_slot_of_ne _ _ (by decide), Directory.put_slot_self]
      unfold cominix_make_empty dir_commit_chunk
      dsimp only
      rw [h]
      rfl
    | inr h1 =>
      subst h1
      rw [Directory.put_slot_self]
      unfold cominix_make_empty dir_commit_chunk
      dsimp only
      rw [h]
      rfl

/-! ## The listing -/

lemma file_name_pad {de : Dirent} (hv : FileName name) (h : de.name = pad name) :
    de.file_name = name := by
  have hall : ∀ b ∈ name, decide (b ≠ 0) = true := by
    intro b hb
    apply decide_eq_true
    rintro rfl
    exact hv.no_zero hb
  have hlen : (pad name).length ≤ s_namelen := by
    rw [pad, List.length_append, List.length_replicate]
    have := hv.le
    omega
  rw [Dirent.file_name, h, List.take_of_length_le hlen, pad, List.takeWhile_append_of_pos hall,
    List.takeWhile_replicate]
  exact List.append_nil name

lemma mem_listing {e : List UInt8 × Nat} :
    e ∈ listing d.slots ↔ ∃ m < d.nslots, (d.slot m).inode ≠ 0 ∧
      ((d.slot m).file_name, (d.slot m).inode) = e := by
  rw [listing, List.mem_map]
  constructor
  · rintro ⟨de, hde, rfl⟩
    obtain ⟨hin, hlive⟩ := List.mem_filter.1 hde
    obtain ⟨m, hm, rfl⟩ := Directory.mem_slots.1 hin
    exact ⟨m, hm, by simpa using hlive, rfl⟩
  · rintro ⟨m, hm, hlive, rfl⟩
    exact ⟨d.slot m, List.mem_filter.2 ⟨Directory.mem_slots.2 ⟨m, hm, rfl⟩, by simpa using hlive⟩,
      rfl⟩

namespace DirRefines

/-- The listing is the map. -/
lemma mem_listing (h : DirRefines d f) : (name, i_ino) ∈ listing d.slots ↔ f name = some i_ino := by
  rw [CominixFs.mem_listing]
  constructor
  · rintro ⟨m, hm, hlive, he⟩
    obtain ⟨name', hv, hpad, hf⟩ := h.named m hm hlive
    rw [file_name_pad hv hpad] at he
    cases he
    exact hf
  · intro hf
    obtain ⟨hv, hz, m, hm, hslot⟩ := h.stored hf
    have hpad : (d.slot m).name = pad name := by rw [hslot]
    refine ⟨m, hm, ?_, ?_⟩
    · rw [hslot]
      exact hz
    · rw [file_name_pad hv hpad, hslot]

/-- No name is listed twice. -/
lemma nodup_listing (h : DirRefines d f) : ((listing d.slots).map Prod.fst).Nodup := by
  have hmap : (listing d.slots).map Prod.fst
      = ((List.range d.nslots).filter fun m => (d.slot m).inode ≠ 0).map
          fun m => (d.slot m).file_name := by
    rw [listing, Directory.slots, List.filter_map, List.map_map, List.map_map]
    rfl
  rw [hmap]
  refine List.Nodup.map_on ?_ (List.nodup_range.filter _)
  intro m hm m' hm' heq
  obtain ⟨hin, hlive⟩ := List.mem_filter.1 hm
  obtain ⟨hin', hlive'⟩ := List.mem_filter.1 hm'
  have hlt := List.mem_range.1 hin
  have hlt' := List.mem_range.1 hin'
  have hl : (d.slot m).inode ≠ 0 := by simpa using hlive
  have hl' : (d.slot m').inode ≠ 0 := by simpa using hlive'
  obtain ⟨name, hv, hpad, -⟩ := h.named m hlt hl
  obtain ⟨name', hv', hpad', -⟩ := h.named m' hlt' hl'
  rw [file_name_pad hv hpad, file_name_pad hv' hpad'] at heq
  exact h.unique m hlt m' hlt' hl hl' (by rw [hpad, hpad', heq])

end DirRefines

/-! ## What a directory shows -/

/-- What repeated calls of `cominix_readdir` from position 0 emit: entries of the map, none twice,
and all of them when the position is at the end, which enough calls reach. -/
structure Lists (d : Directory) (f : NameMap) (calls : List Actor) : Prop where
  once : ((readdirs d calls ⟨0, []⟩).emitted.map Prod.fst).Nodup
  sound : ∀ name i_ino, (name, i_ino) ∈ (readdirs d calls ⟨0, []⟩).emitted → f name = some i_ino
  complete : d.i_size ≤ (readdirs d calls ⟨0, []⟩).pos →
    ∀ name i_ino, f name = some i_ino → (name, i_ino) ∈ (readdirs d calls ⟨0, []⟩).emitted
  reach : (∀ actor ∈ calls, TakesFirst actor) → d.nslots < calls.length →
    d.i_size ≤ (readdirs d calls ⟨0, []⟩).pos

/-- The functions on a directory show the map. -/
structure Shows (d : Directory) (f : NameMap) : Prop where
  aligned : d.i_size % 64 = 0
  find_entry : ∀ name, FileName name → found d name = f name
  no_bug : ∀ name, add_link_scan d name ≠ none
  add_link : ∀ name i_ino, FileName name → f name = none → i_ino ≠ 0 →
    (cominix_add_link d name i_ino .done).2 = none ∧ ∀ name', FileName name' →
      found (cominix_add_link d name i_ino .done).1 name' = f.set name i_ino name'
  reuse : ∀ name i_ino, FileName name → f name = none → (∃ m < d.nslots, (d.slot m).inode = 0) →
    (cominix_add_link d name i_ino .done).1.i_size = d.i_size
  readdir : ∀ calls, Lists d f calls

namespace DirRefines

lemma lists (h : DirRefines d f) (calls : List Actor) : Lists d f calls := by
  have hread := readdirs_readTo h.aligned calls _ readTo_start
  refine ⟨?_, ?_, ?_, readdirs_reach h.aligned⟩
  · exact h.nodup_listing.sublist (hread.initial.sublist.map Prod.fst)
  · exact fun name i hmem => h.mem_listing.1 (hread.initial.subset hmem)
  · intro hend name i hf
    rw [hread.all hend]
    exact h.mem_listing.2 hf

lemma shows (h : DirRefines d f) : Shows d f := by
  refine ⟨h.aligned, fun _ hv => h.found_eq hv, ?_, ?_, ?_, h.lists⟩
  · intro name hnone
    obtain ⟨n, k, stop, hs, -⟩ := add_link_scan_spec h.aligned name
    rw [hnone] at hs
    cases hs
  · intro name i hv hnone _
    obtain ⟨hdone, hadd⟩ := h.add_link hv hnone
    exact ⟨hdone, fun _ hv' => hadd.found_eq hv'⟩
  · exact fun _ _ hv hnone hfree => h.add_link_reuse hv hnone hfree

end DirRefines

/-- A directory that `cominix_make_empty` started refines a map from names to inode numbers: every
sequence of changes answers as the map does, and the functions on the directory show the map. -/
theorem directory_refines_map (hnew : d.i_size = 0) {ino parent : Nat} {ops : List DirOp}
    (hlegal : Legal map_legal map_op (empty_map ino parent) ops) :
    let r := Refine.run dir_op (cominix_make_empty d ino parent .done).1 ops
    let s := Refine.run map_op (empty_map ino parent) ops
    r.2 = s.2 ∧ Shows r.1 s.1 := by
  obtain ⟨href, hans⟩ := (make_empty_refines hnew).run hlegal
  exact ⟨hans, href.shows⟩

/-- A name is added, taken away and added again, and another made to name a second inode. -/
theorem directory_refines_map_four :
    let ops := [.add_link [97] 5, .delete_entry [97], .add_link [98] 6, .set_link [98] 7]
    let r := Refine.run dir_op (cominix_make_empty .new 2 1 .done).1 ops
    let s := Refine.run map_op (empty_map 2 1) ops
    r.2 = s.2 ∧ Shows r.1 s.1 :=
  directory_refines_map rfl
    ⟨⟨by decide, by decide, by decide⟩, (by decide : FileName [97]),
      ⟨by decide, by decide, by decide⟩, (by decide : FileName [98]), trivial⟩

end CominixFs
