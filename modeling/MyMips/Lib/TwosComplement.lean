import Mathlib.Data.BitVec
import Mathlib.Data.Int.ModEq
import Mathlib.Tactic.Common

namespace TwosComplement
variable {w : ℕ} (a b : BitVec w)

def Fits (w : ℕ) (x : ℤ) : Prop := -2 ^ (w - 1) ≤ x ∧ x < 2 ^ (w - 1)

instance (w : ℕ) (x : ℤ) : Decidable (Fits w x) := inferInstanceAs (Decidable (_ ∧ _))

theorem saddOverflow_iff : BitVec.saddOverflow a b = true ↔ ¬ Fits w (a.toInt + b.toInt) := by
  simp only [BitVec.saddOverflow, Fits, Bool.or_eq_true, decide_eq_true_eq]
  omega

theorem ssubOverflow_iff : BitVec.ssubOverflow a b = true ↔ ¬ Fits w (a.toInt - b.toInt) := by
  simp only [BitVec.ssubOverflow, Fits, Bool.or_eq_true, decide_eq_true_eq]
  omega

theorem udiv_mul_add_umod : a / b * b + a % b = a := by
  have hlt := a.isLt
  have hsum : a.toNat / b.toNat * b.toNat + a.toNat % b.toNat = a.toNat := Nat.div_add_mod' _ _
  apply BitVec.eq_of_toNat_eq
  rw [BitVec.toNat_add, BitVec.toNat_mul, BitVec.toNat_udiv, BitVec.toNat_umod, Nat.mod_add_mod,
    hsum, Nat.mod_eq_of_lt hlt]

theorem sdiv_eq_ofInt : a.sdiv b = BitVec.ofInt w (a.toInt.tdiv b.toInt) := by
  apply BitVec.eq_of_toInt_eq
  rw [BitVec.toInt_sdiv, BitVec.toInt_ofInt]

theorem sdiv_mul_add_srem : a.sdiv b * b + a.srem b = a := by
  have hrem : a.srem b = BitVec.ofInt w (a.toInt.tmod b.toInt) := by
    rw [← BitVec.toInt_srem, BitVec.ofInt_toInt]
  have hb : b = BitVec.ofInt w b.toInt := BitVec.ofInt_toInt.symm
  calc a.sdiv b * b + a.srem b
      = BitVec.ofInt w (a.toInt.tdiv b.toInt) * BitVec.ofInt w b.toInt +
          BitVec.ofInt w (a.toInt.tmod b.toInt) := by rw [sdiv_eq_ofInt, hrem, ← hb]
    _ = BitVec.ofInt w (a.toInt.tdiv b.toInt * b.toInt + a.toInt.tmod b.toInt) := by
          rw [BitVec.ofInt_add, BitVec.ofInt_mul]
    _ = a := by rw [Int.tdiv_mul_add_tmod, BitVec.ofInt_toInt]

theorem abs_srem_lt (hb : b ≠ 0) : |(a.srem b).toInt| < |b.toInt| := by
  have hne : b.toInt ≠ 0 := by
    intro h0
    exact hb (BitVec.eq_of_toInt_eq (h0.trans BitVec.toInt_zero.symm))
  rw [BitVec.toInt_srem, Int.abs_eq_natAbs, Int.abs_eq_natAbs, Int.natAbs_tmod]
  exact_mod_cast Nat.mod_lt _ (Int.natAbs_pos.mpr hne)

/-- The remainder is zero or has the sign of the dividend. -/
theorem sign_srem : a.srem b = 0 ∨ (a.srem b).toInt.sign = a.toInt.sign := by
  have hsign := Int.sign_tmod a.toInt b.toInt
  rw [← BitVec.toInt_srem] at hsign
  split_ifs at hsign with hdvd
  · left
    apply BitVec.eq_of_toInt_eq
    rw [Int.sign_eq_zero_iff_zero.mp hsign]
    exact BitVec.toInt_zero.symm
  · exact .inr hsign

theorem toNat_modEq_toInt : (a.toNat : ℤ) ≡ a.toInt [ZMOD 2 ^ w] := by
  have hmod : Int.bmod a.toNat (2 ^ w) % ((2 ^ w : ℕ) : ℤ) = a.toNat % ((2 ^ w : ℕ) : ℤ) :=
    Int.bmod_emod
  push_cast at hmod
  rw [BitVec.toInt_eq_toNat_bmod]
  exact hmod.symm

theorem toNat_add_modEq : ((a + b).toNat : ℤ) ≡ a.toNat + b.toNat [ZMOD 2 ^ w] := by
  rw [BitVec.toNat_add]
  push_cast
  exact Int.mod_modEq _ _

theorem toNat_mul_modEq : ((a * b).toNat : ℤ) ≡ a.toNat * b.toNat [ZMOD 2 ^ w] := by
  rw [BitVec.toNat_mul]
  push_cast
  exact Int.mod_modEq _ _

theorem toNat_sub_modEq : ((a - b).toNat : ℤ) ≡ a.toNat - b.toNat [ZMOD 2 ^ w] := by
  have hsum := toNat_add_modEq (a - b) b
  rw [BitVec.sub_add_cancel] at hsum
  have hsub := hsum.symm.sub_right (b.toNat : ℤ)
  rwa [add_sub_cancel_right] at hsub

/-- Extension keeps the value a word is read as. -/
theorem toNat_signExtend_modEq {v : ℕ} (h : w ≤ v) :
    ((a.signExtend v).toNat : ℤ) ≡ a.toInt [ZMOD 2 ^ v] := by
  have hext := toNat_modEq_toInt (a.signExtend v)
  rwa [BitVec.toInt_signExtend_of_le h] at hext

/-- A product of sign-extended words is the product of the signed values. -/
theorem toNat_signExtend_mul_modEq {v : ℕ} (h : w ≤ v) :
    ((a.signExtend v * b.signExtend v).toNat : ℤ) ≡ a.toInt * b.toInt [ZMOD 2 ^ v] :=
  (toNat_mul_modEq _ _).trans ((toNat_signExtend_modEq a h).mul (toNat_signExtend_modEq b h))

theorem toNat_setWidth_mul_modEq {v : ℕ} (h : w ≤ v) :
    ((a.setWidth v * b.setWidth v).toNat : ℤ) ≡ a.toNat * b.toNat [ZMOD 2 ^ v] := by
  have hmul := toNat_mul_modEq (a.setWidth v) (b.setWidth v)
  rwa [BitVec.toNat_setWidth_of_le h, BitVec.toNat_setWidth_of_le h] at hmul

end TwosComplement
