import Mathlib.Tactic.Common
import Mathlib.Logic.Function.Basic

/-!
# A write-back cache

Numbered buffers over a device: each has contents in memory, contents on the device and a dirty
mark. Changing a buffer and marking it are separate operations, as they are in a kernel, so a
change that is never marked is lost when the buffers are dropped (`sync`).
-/

/-- Buffers with contents of type `α`. -/
structure Buffers (α : Type) where
  mem : Nat → α
  disk : Nat → α
  dirty : Nat → Bool

namespace Buffers

variable {α : Type}

/-- Change the contents in memory; the mark stays. -/
def set (c : Buffers α) (i : Nat) (a : α) : Buffers α :=
  { c with mem := Function.update c.mem i a }

/-- Mark a buffer dirty. -/
def mark (c : Buffers α) (i : Nat) : Buffers α :=
  { c with dirty := Function.update c.dirty i true }

/-- Forget a buffer: its mark is cleared. -/
def forget (c : Buffers α) (i : Nat) : Buffers α :=
  { c with dirty := Function.update c.dirty i false }

/-- Write every dirty buffer to the device, then drop the clean ones except those in `keep`. -/
def sync (keep : Nat → Bool) (c : Buffers α) : Buffers α where
  mem i := if c.dirty i || keep i then c.mem i else c.disk i
  disk i := if c.dirty i then c.mem i else c.disk i
  dirty _ := false

/-- The device holds what memory holds, or will after the next write-back. -/
def Covered (c : Buffers α) (i : Nat) : Prop :=
  c.dirty i = true ∨ c.mem i = c.disk i

@[simp] lemma set_disk (c : Buffers α) (i : Nat) (a : α) : (c.set i a).disk = c.disk := rfl
@[simp] lemma set_dirty (c : Buffers α) (i : Nat) (a : α) : (c.set i a).dirty = c.dirty := rfl
@[simp] lemma mark_mem (c : Buffers α) (i : Nat) : (c.mark i).mem = c.mem := rfl
@[simp] lemma mark_disk (c : Buffers α) (i : Nat) : (c.mark i).disk = c.disk := rfl

@[simp] lemma set_mem_self (c : Buffers α) (i : Nat) (a : α) : (c.set i a).mem i = a := by
  simp [set]

lemma set_mem_of_ne (c : Buffers α) {i j : Nat} (a : α) (h : j ≠ i) :
    (c.set i a).mem j = c.mem j := by
  simp [set, Function.update_of_ne h]

@[simp] lemma mark_dirty_self (c : Buffers α) (i : Nat) : (c.mark i).dirty i = true := by
  simp [mark]

lemma mark_dirty_of_ne (c : Buffers α) {i j : Nat} (h : j ≠ i) :
    (c.mark i).dirty j = c.dirty j := by
  simp [mark, Function.update_of_ne h]

lemma mark_dirty_of_dirty (c : Buffers α) {i j : Nat} (h : c.dirty j = true) :
    (c.mark i).dirty j = true := by
  by_cases hj : j = i
  · subst hj; simp
  · rwa [mark_dirty_of_ne c hj]

lemma forget_dirty_of_ne (c : Buffers α) {i j : Nat} (h : j ≠ i) :
    (c.forget i).dirty j = c.dirty j := by
  simp [forget, Function.update_of_ne h]

/-- A covered buffer survives a write-back, dropped or kept. -/
lemma sync_mem {c : Buffers α} {i : Nat} (keep : Nat → Bool) (h : c.Covered i) :
    (c.sync keep).mem i = c.mem i := by
  simp only [sync]
  rcases h with h | h
  · simp [h]
  · split <;> simp [h]

lemma sync_disk {c : Buffers α} {i : Nat} (keep : Nat → Bool) (h : c.Covered i) :
    (c.sync keep).disk i = c.mem i := by
  simp only [sync]
  rcases h with h | h
  · simp [h]
  · split <;> simp [h]

lemma sync_covered {c : Buffers α} {i : Nat} (keep : Nat → Bool) (h : c.Covered i) :
    (c.sync keep).Covered i :=
  .inr ((sync_mem keep h).trans (sync_disk keep h).symm)

/-- Covering is kept when the contents and the device are the same and no mark is lost. -/
lemma Covered.congr {c c' : Buffers α} {i : Nat} (h : c.Covered i) (hm : c'.mem i = c.mem i)
    (hd : c'.disk i = c.disk i) (hk : c.dirty i = true → c'.dirty i = true) : c'.Covered i := by
  rcases h with h | h
  · exact .inl (hk h)
  · exact .inr (by rw [hm, hd, h])

end Buffers
