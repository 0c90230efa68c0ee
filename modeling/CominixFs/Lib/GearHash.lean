import Mathlib.Data.Nat.ModEq
import Mathlib.Tactic.Common

/-!
# Gear hashes

A gear hash shifts its 64 bits left and adds the table value of the next byte. A byte leaves the low
bits again one bit with every byte that follows it, so a mask with bits below `w` sees the last `w`
bytes only (`window`), whatever the table.
-/

namespace GearHash

variable {gear : UInt8 → UInt64}

/-- One byte more. -/
def roll (gear : UInt8 → UInt64) (h : UInt64) (b : UInt8) : UInt64 := (h <<< 1) + gear b

/-- Hashes that agree in `k` low bits agree in one more after the next byte. -/
lemma roll_modEq {h h' : UInt64} {k : Nat} (b : UInt8) (e : h.toNat ≡ h'.toNat [MOD 2 ^ k])
    (hk : k < 64) : (roll gear h b).toNat ≡ (roll gear h' b).toNat [MOD 2 ^ (k + 1)] := by
  have hdvd : 2 ^ (k + 1) ∣ 2 ^ 64 := Nat.pow_dvd_pow 2 hk
  have hroll : ∀ h : UInt64,
      (roll gear h b).toNat ≡ h.toNat * 2 + (gear b).toNat [MOD 2 ^ (k + 1)] := by
    intro h
    have hsum : (roll gear h b).toNat ≡ (h <<< 1).toNat + (gear b).toNat [MOD 2 ^ 64] := by
      rw [roll, UInt64.toNat_add]
      exact Nat.mod_modEq _ _
    have hshift : (h <<< 1).toNat ≡ h.toNat * 2 [MOD 2 ^ 64] := by
      rw [UInt64.toNat_shiftLeft, Nat.shiftLeft_eq]
      exact Nat.mod_modEq _ _
    exact (hsum.trans (hshift.add_right _)).of_dvd hdvd
  have htwice : h.toNat * 2 ≡ h'.toNat * 2 [MOD 2 ^ (k + 1)] := by
    rw [pow_succ]
    exact e.mul_right' 2
  exact ((hroll h).trans (htwice.add_right _)).trans (hroll h').symm

/-- After `w` bytes the low `w` bits no longer know what was hashed before. -/
lemma foldl_modEq {bytes : List UInt8} : ∀ {k : Nat} {h h' : UInt64},
    h.toNat ≡ h'.toNat [MOD 2 ^ k] → k + bytes.length ≤ 64 →
      (bytes.foldl (roll gear) h).toNat
        ≡ (bytes.foldl (roll gear) h').toNat [MOD 2 ^ (k + bytes.length)] := by
  induction bytes with
  | nil => exact fun e _ => e
  | cons b bytes ih =>
    intro k h h' e hk
    rw [List.length_cons] at hk ⊢
    rw [List.foldl_cons, List.foldl_cons, Nat.add_comm bytes.length, ← Nat.add_assoc]
    apply ih
    · exact roll_modEq b e (by omega)
    · omega

/-- A mask below `2 ^ w` sees the low `w` bits only. -/
lemma and_congr {x y mask : UInt64} {w : Nat} (e : x.toNat ≡ y.toNat [MOD 2 ^ w])
    (hmask : mask.toNat < 2 ^ w) : x &&& mask = y &&& mask := by
  have hlow : ∀ z : UInt64, (z &&& mask).toNat = z.toNat % 2 ^ w &&& mask.toNat := by
    intro z
    have hlt : z.toNat &&& mask.toNat < 2 ^ w := Nat.and_lt_two_pow _ hmask
    rw [UInt64.toNat_and, ← Nat.mod_eq_of_lt hlt, Nat.and_mod_two_pow, Nat.mod_eq_of_lt hmask]
  rw [← UInt64.toNat_inj, hlow, hlow, e]

/-- A mask below `2 ^ w` sees the last `w` bytes only. -/
lemma window {pre pre' bytes : List UInt8} {h h' mask : UInt64} (hlen : bytes.length ≤ 64)
    (hmask : mask.toNat < 2 ^ bytes.length) :
    (pre ++ bytes).foldl (roll gear) h &&& mask = (pre' ++ bytes).foldl (roll gear) h' &&& mask := by
  rw [List.foldl_append, List.foldl_append]
  refine and_congr ?_ hmask
  have e := @foldl_modEq gear bytes 0 (pre.foldl (roll gear) h) (pre'.foldl (roll gear) h')
    (by rw [pow_zero]; exact Nat.modEq_one) (by omega)
  rwa [Nat.zero_add] at e

end GearHash
