import Mathlib.Tactic.Common
import Mathlib.Data.List.Basic

/-!
# Scans of ranges

`List.findSome?` over a range is a loop that stops at the first index for which its body gives a
value. The loops are characterised by the index they stop at, alone and nested.
-/

namespace List

variable {α : Type}

/-- A scan stops at the first index whose body gives a value. -/
lemma findSome?_range_eq_some {f : Nat → Option α} {b : α} (n : Nat) :
    (range n).findSome? f = some b ↔ ∃ j < n, f j = some b ∧ ∀ i < j, f i = none := by
  induction n with
  | zero => simp
  | succ n ih =>
    rw [range_succ, findSome?_append]
    constructor
    · intro h
      cases hp : (range n).findSome? f with
      | some c =>
        rw [hp, Option.some_or] at h
        obtain ⟨j, hj, hb, hfirst⟩ := ih.1 (hp.trans h)
        exact ⟨j, Nat.lt_succ_of_lt hj, hb, hfirst⟩
      | none =>
        rw [hp, Option.none_or] at h
        have hnone := findSome?_eq_none_iff.1 hp
        refine ⟨n, Nat.lt_succ_self n, ?_, fun i hi => hnone i (mem_range.2 hi)⟩
        simpa using h
    · rintro ⟨j, hj, hb, hfirst⟩
      cases Nat.lt_succ_iff_lt_or_eq.1 hj with
      | inl hlt => rw [ih.2 ⟨j, hlt, hb, hfirst⟩, Option.some_or]
      | inr heq =>
        subst heq
        have hnone : (range j).findSome? f = none :=
          findSome?_eq_none_iff.2 fun i hi => hfirst i (mem_range.1 hi)
        rw [hnone, Option.none_or]
        simpa using hb

/-- A scan that never stops has a body that never gives a value. -/
lemma findSome?_range_eq_none {f : Nat → Option α} {n : Nat} :
    (range n).findSome? f = none ↔ ∀ i < n, f i = none := by
  rw [findSome?_eq_none_iff]
  exact ⟨fun h i hi => h i (mem_range.2 hi), fun h i hi => h i (mem_range.1 hi)⟩

/-- Nested scans stop at the first pair of indices, outer index first. -/
lemma findSome?_range_range_eq_some {f : Nat → Nat → Option α} {b : α} {n : Nat} {w : Nat → Nat}
    (h : ((range n).findSome? fun i => (range (w i)).findSome? (f i)) = some b) :
    ∃ i < n, ∃ j < w i, f i j = some b ∧ (∀ j' < j, f i j' = none) ∧
      ∀ i' < i, ∀ j' < w i', f i' j' = none := by
  obtain ⟨i, hi, hb, hfirst⟩ := (findSome?_range_eq_some n).1 h
  obtain ⟨j, hj, hf, hbefore⟩ := (findSome?_range_eq_some (w i)).1 hb
  exact ⟨i, hi, j, hj, hf, hbefore, fun i' hi' => findSome?_range_eq_none.1 (hfirst i' hi')⟩

lemma findSome?_range_range_eq_none {f : Nat → Nat → Option α} {n : Nat} {w : Nat → Nat} :
    ((range n).findSome? fun i => (range (w i)).findSome? (f i)) = none ↔
      ∀ i < n, ∀ j < w i, f i j = none := by
  rw [findSome?_range_eq_none]
  exact ⟨fun h i hi => findSome?_range_eq_none.1 (h i hi),
    fun h i hi => findSome?_range_eq_none.2 (h i hi)⟩

end List
