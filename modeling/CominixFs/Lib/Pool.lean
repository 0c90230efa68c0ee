import Mathlib.Order.Bounds.Basic
import CominixFs.Lib.Refine

/-!
# Pools of names

A pool is a set of free names out of a universe. It hands out its least name, or none when it is
empty, and takes names back. So a name is not handed out twice unless it is given back in between
(`taken_once`).
-/

namespace Pool
open Refine

/-- A call of a pool, with its result. -/
inductive Event (α : Type) where
  | take (name : Option α)
  | give (name : α)

variable {α : Type} [LinearOrder α]

/-- What a call does to the free names; a name outside the universe is not taken back. -/
inductive Step (U : Set α) : Set α → Event α → Set α → Prop where
  | take {F : Set α} {z} :
    IsLeast F z →
    Step U F (.take (some z)) (F \ {z})
  | empty :
    Step U ∅ (.take none) ∅
  | give {F : Set α} {z} :
    z ∈ U →
    Step U F (.give z) (insert z F)
  | foreign {F : Set α} {z} :
    z ∉ U →
    Step U F (.give z) F

variable {U F F' : Set α} {z : α} {es es₁ es₂ es₃ : List (Event α)}

/-- The free names stay within the universe. -/
lemma subset (t : Trace (Step U) F es F') (h : F ⊆ U) : F' ⊆ U := by
  refine t.inv (P := fun F => F ⊆ U) (fun hs h => ?_) h
  cases hs with
  | take _ => exact Set.sdiff_subset.trans h
  | empty => exact h
  | give hz => exact Set.insert_subset hz h
  | foreign _ => exact h

/-- A name that is handed out is one of the universe. -/
lemma take_mem (t : Trace (Step U) F es F') (h : F ⊆ U) (hz : .take (some z) ∈ es) : z ∈ U := by
  obtain ⟨es₁, F₁, F₂, ht, hs⟩ := t.mem hz
  cases hs with
  | take hleast => exact subset ht h hleast.1

/-- A name that is not free becomes free by being given back. -/
lemma given (t : Trace (Step U) F es F') (hF : z ∉ F) (hF' : z ∈ F') : .give z ∈ es := by
  induction t with
  | nil => exact absurd hF' hF
  | cons hs _ ih =>
    cases hs with
    | take _ => exact List.mem_cons_of_mem _ (ih (fun h => hF h.1) hF')
    | empty => exact List.mem_cons_of_mem _ (ih hF hF')
    | @give F y hy =>
      by_cases he : z = y
      · rw [he]
        exact List.mem_cons_self
      · exact List.mem_cons_of_mem _ (ih (fun h => h.elim he hF) hF')
    | foreign _ => exact List.mem_cons_of_mem _ (ih hF hF')

/-- Between two times a name is handed out it is given back. -/
lemma taken_once (t : Trace (Step U) F (es₁ ++ .take (some z) :: (es₂ ++ .take (some z) :: es₃)) F') :
    .give z ∈ es₂ := by
  obtain ⟨F₁, -, h1⟩ := t.append_inv
  cases h1 with
  | cons hs h1 =>
    obtain ⟨F₂, h2, h3⟩ := h1.append_inv
    cases hs with
    | take _ =>
      cases h3 with
      | cons hs' _ =>
        cases hs' with
        | take hleast => exact given h2 (fun h => h.2 rfl) hleast.1

end Pool
