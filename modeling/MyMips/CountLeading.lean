import MyMips.Cpu
import Mathlib

namespace MyMips

/-- One turn of the CLZ loop on `n` and `v`: `while (n < 32 && !(v & 0x80000000u))`. -/
def clzStep (r : Word × Word) : Outcome Word (Word × Word) :=
  if r.1.toNat < 32 ∧ r.2 &&& 0x80000000#32 = 0 then .next (r.1 + 1, r.2 <<< 1) else .done r.1

def cloStep (r : Word × Word) : Outcome Word (Word × Word) :=
  if r.1.toNat < 32 ∧ r.2 &&& 0x80000000#32 ≠ 0 then .next (r.1 + 1, r.2 <<< 1) else .done r.1

/-- The two loops in one: count the leading bits that are `b`. -/
def countLoop (b : Bool) : ℕ → Word → Word → Word
  | 0, n, _ => n
  | k + 1, n, v => if v.msb = b then countLoop b k (n + 1) (v <<< 1) else n

def countStep (b : Bool) (r : Word × Word) : Outcome Word (Word × Word) :=
  if r.1.toNat < 32 ∧ r.2.msb = b then .next (r.1 + 1, r.2 <<< 1) else .done r.1

section
variable (v x : Word) (b : Bool)

theorem and_top_eq_zero : v &&& 0x80000000#32 = 0 ↔ v.msb = false := by
  have htop : (0x80000000#32 : Word) = BitVec.twoPow 32 31 := rfl
  rw [htop, BitVec.and_twoPow, BitVec.msb_eq_getLsbD_last]
  cases v.getLsbD (32 - 1)
  · exact iff_of_true rfl rfl
  · exact iff_of_false (by decide) (by decide)

theorem clzLoop_eq (k : ℕ) (n : Word) : clzLoop k n v = countLoop false k n v := by
  induction k generalizing n v with
  | zero => rfl
  | succ k ih => simp only [clzLoop, countLoop, and_top_eq_zero, ih]

theorem cloLoop_eq (k : ℕ) (n : Word) : cloLoop k n v = countLoop true k n v := by
  induction k generalizing n v with
  | zero => rfl
  | succ k ih =>
    simp only [cloLoop, countLoop, ne_eq, and_top_eq_zero, Bool.not_eq_false, ih]

theorem clzStep_eq : clzStep = countStep false := by
  funext r
  simp only [clzStep, countStep, and_top_eq_zero]

theorem cloStep_eq : cloStep = countStep true := by
  funext r
  simp only [cloStep, countStep, ne_eq, and_top_eq_zero, Bool.not_eq_false]

/-- The bound on `n` ends the loop after the turns it has left. -/
theorem run_countStep (k n : ℕ) (hk : n + k = 32) :
    Run.run (countStep b) (k + 1) (BitVec.ofNat 32 n, v) =
      some (countLoop b k (BitVec.ofNat 32 n) v) := by
  have hn : (BitVec.ofNat 32 n).toNat = n := by
    rw [BitVec.toNat_ofNat]
    exact Nat.mod_eq_of_lt (by omega)
  induction k generalizing n v with
  | zero =>
    -- All 32 bits are counted: the bound ends the loop, whatever the top bit.
    have hfull : ¬ n < 32 := by omega
    simp only [Run.run, countStep, hn, hfull, false_and, if_false, countLoop]
  | succ k ih =>
    have hlt : n < 32 := by omega
    rw [Run.run, countStep, countLoop]
    simp only [hn, hlt, true_and]
    by_cases hmsb : v.msb = b
    · have hsucc : BitVec.ofNat 32 n + 1 = BitVec.ofNat 32 (n + 1) := by
        rw [BitVec.ofNat_add]
        rfl
      simp only [if_pos hmsb, hsucc]
      apply ih (v <<< 1) (n + 1) (by omega)
      rw [BitVec.toNat_ofNat]
      exact Nat.mod_eq_of_lt (by omega)
    · simp only [if_neg hmsb]

theorem returns_countStep : Run.Returns (countStep b) (0, v) (countLoop b 32 0 v) :=
  ⟨33, run_countStep v b 32 0 rfl⟩

/-- The bits left to count, of the operand or of its complement. -/
theorem countLoop_eq_clzAuxRec (j : ℕ) (hj : j ≤ 31) :
    countLoop b (j + 1) (BitVec.ofNat 32 (31 - j)) (x <<< (31 - j)) =
      (if b then ~~~x else x).clzAuxRec j := by
  -- The top bit after `31 - j` shifts is bit `j`.
  have hbit (j : ℕ) (hj : j ≤ 31) : (x <<< (31 - j)).msb = x.getLsbD j := by
    rw [BitVec.msb_eq_getLsbD_last, BitVec.getLsbD_shiftLeft]
    have hsub : 32 - 1 - (31 - j) = j := by omega
    have hlow : ¬ 32 - 1 < 31 - j := by omega
    simp [hsub, hlow]
  have hother (j : ℕ) (hj : j ≤ 31) :
      (if b then ~~~x else x).getLsbD j = true ↔ ¬ x.getLsbD j = b := by
    have hwidth : j < 32 := by omega
    cases b <;> simp [hwidth]
  induction j with
  | zero =>
    rw [countLoop, hbit 0 hj, BitVec.clzAuxRec]
    by_cases hx : x.getLsbD 0 = b
    · rw [if_pos hx, if_neg (fun h => (hother 0 hj).mp h hx)]
      rfl
    · rw [if_neg hx, if_pos ((hother 0 hj).mpr hx)]
  | succ j ih =>
    -- One turn of the loop against one of `clz`, which looks at the bits from the top too.
    rw [countLoop, hbit (j + 1) hj, BitVec.clzAuxRec]
    by_cases hx : x.getLsbD (j + 1) = b
    · rw [if_pos hx, if_neg (fun h => (hother (j + 1) hj).mp h hx), ← ih (by omega)]
      have hturn : 31 - j = 31 - (j + 1) + 1 := by omega
      rw [hturn, BitVec.ofNat_add, BitVec.shiftLeft_add]
      rfl
    · rw [if_neg hx, if_pos ((hother (j + 1) hj).mpr hx)]

theorem countLoop_eq_clz : countLoop b 32 0 x = (if b then ~~~x else x).clz := by
  have hall := countLoop_eq_clzAuxRec x b 31 le_rfl
  rw [Nat.sub_self, BitVec.shiftLeft_zero] at hall
  exact hall

/-- The loops end with the number of leading zeros, of the operand for CLZ and of its
complement for CLO. -/
theorem clzStep_returns : Run.Returns clzStep (0, v) v.clz := by
  have hrun := returns_countStep v false
  rw [countLoop_eq_clz] at hrun
  rw [clzStep_eq]
  exact hrun

theorem cloStep_returns : Run.Returns cloStep (0, v) (~~~v).clz := by
  have hrun := returns_countStep v true
  rw [countLoop_eq_clz] at hrun
  rw [cloStep_eq]
  exact hrun

end

/-- `s` with `v` in register `n`, a write to `$0` being discarded. -/
def withCount (s : State) (n : Reg) (v : Word) : State :=
  { s with reg := fun r => if r = R0 then 0 else if r = n then v else s.reg r }

theorem setReg_setReg_R0 (s : State) (n : Reg) (v : Word) :
    (s.setReg n v).setReg R0 0 = withCount s n v := by
  have hreg : ((s.setReg n v).setReg R0 0).reg = (withCount s n v).reg := by
    funext r
    rw [State.setReg_reg, State.setReg_reg, withCount]
  calc (s.setReg n v).setReg R0 0
      = { s with reg := ((s.setReg n v).setReg R0 0).reg } := rfl
    _ = withCount s n v := by rw [hreg, withCount]

/-- CLZ and CLO for every operand: the loops end, CLZ with the number of leading zeros
and CLO with that of the complement, and the count is all that is written. -/
theorem count_leading (v : Word) :
    (∃ n ≤ 32, Run.Returns clzStep (0, v) (BitVec.ofNat 32 n) ∧ (n = 32 ↔ v = 0) ∧
      (v ≠ 0 → 2 ^ (31 - n) ≤ v.toNat ∧ v.toNat < 2 ^ (32 - n))) ∧
    (∃ c, Run.Returns clzStep (0, ~~~v) c ∧ Run.Returns cloStep (0, v) c) ∧
    ∀ (h : Host) (i : Word) (s : State), opcode i = some .OP_SPECIAL2 → s.reg (rs i) = v →
      (special2 i = some .CLZ → ∃ c, Run.Returns clzStep (0, v) c ∧
        execInst h i s = (.ok, withCount s (rd i) c)) ∧
      (special2 i = some .CLO → ∃ c, Run.Returns cloStep (0, v) c ∧
        execInst h i s = (.ok, withCount s (rd i) c)) := by
  refine ⟨⟨v.clz.toNat, BitVec.le_def.mp BitVec.clz_le, ?_, ?_, ?_⟩,
    ⟨(~~~v).clz, clzStep_returns _, cloStep_returns v⟩, ?_⟩
  · rw [BitVec.ofNat_toNat, BitVec.setWidth_eq]
    exact clzStep_returns v
  · calc v.clz.toNat = 32 ↔ v.clz = 32#32 := by rw [← BitVec.toNat_inj]; rfl
      _ ↔ v = 0 := BitVec.clz_eq_iff_eq_zero
  · intro hv
    have hlow := BitVec.two_pow_sub_clz_le_toNat_of_ne_zero (by decide) hv
    exact ⟨hlow, BitVec.toNat_lt_two_pow_sub_clz⟩
  · intro h i s ho hv
    -- The executors write the count and then clear `$0`.
    have hexec : execInst h i s = execSpecial2 i s := execInst_of_opcode h ho (by decide) s
    refine ⟨fun hf => ⟨_, clzStep_returns v, ?_⟩, fun hf => ⟨_, cloStep_returns v, ?_⟩⟩
    · rw [hexec, ← setReg_setReg_R0]
      simp only [execSpecial2, hf, hv, clzLoop_eq, countLoop_eq_clz]
      rfl
    · rw [hexec, ← setReg_setReg_R0]
      simp only [execSpecial2, hf, hv, cloLoop_eq, countLoop_eq_clz]
      rfl

end MyMips
