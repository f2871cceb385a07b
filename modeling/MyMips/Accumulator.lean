import MyMips.Lib.TwosComplement
import MyMips.RunOutcome

namespace MyMips
open TwosComplement

inductive AccOp
  | mult (a b : Word)
  | multu (a b : Word)
  | madd (a b : Word)
  | maddu (a b : Word)
  | msub (a b : Word)
  | msubu (a b : Word)
  | mthi (a : Word)
  | mtlo (a : Word)
  deriving DecidableEq

def AccOp.replay : AccOp → ℤ → ℤ
  | .mult a b, _ => a.toInt * b.toInt
  | .multu a b, _ => a.toNat * b.toNat
  | .madd a b, v => v + a.toInt * b.toInt
  | .maddu a b, v => v + a.toNat * b.toNat
  | .msub a b, v => v - a.toInt * b.toInt
  | .msubu a b, v => v - a.toNat * b.toNat
  | .mthi a, v => a.toNat * 2 ^ 32 + v % 2 ^ 32
  | .mtlo a, v => v - v % 2 ^ 32 + a.toNat

/-- The accumulator operation the word `i` performs in state `s`. -/
def accOp (i : Word) (s : State) : Option AccOp :=
  let a := s.reg (rs i)
  let b := s.reg (rt i)
  match opcode i with
  | some .OP_SPECIAL =>
    match special i with
    | some .MULT => some (.mult a b)
    | some .MULTU => some (.multu a b)
    | some .MTHI => some (.mthi a)
    | some .MTLO => some (.mtlo a)
    | _ => none
  | some .OP_SPECIAL2 =>
    match special2 i with
    | some .MADD => some (.madd a b)
    | some .MADDU => some (.maddu a b)
    | some .MSUB => some (.msub a b)
    | some .MSUBU => some (.msubu a b)
    | _ => none
  | _ => none

def accValue (s : State) : ℤ := s.hi.toNat * 2 ^ 32 + s.lo.toNat

section step
variable (s : State) (a b : Word)

theorem accValue_setHiLo (res : DWord) : accValue (s.setHiLo res) = res.toNat := by
  have hlt := res.isLt
  simp only [accValue, State.setHiLo, BitVec.toNat_setWidth, BitVec.toNat_ushiftRight,
    Nat.shiftRight_eq_div_pow]
  omega

theorem accValue_eq_acc : accValue s = s.acc.toNat := by
  have hlo := s.lo.isLt
  rw [State.acc, BitVec.toNat_append, ← Nat.shiftLeft_add_eq_or_of_lt hlo, Nat.shiftLeft_eq]
  rfl

theorem accValue_mod : accValue s % 2 ^ 32 = s.lo.toNat := by
  have hlo := s.lo.isLt
  unfold accValue
  omega

theorem accValue_inj {t : State} (h : accValue s ≡ accValue t [ZMOD 2 ^ 64]) :
    s.hi = t.hi ∧ s.lo = t.lo := by
  have h1 := s.hi.isLt
  have h2 := s.lo.isLt
  have h3 := t.hi.isLt
  have h4 := t.lo.isLt
  unfold Int.ModEq accValue at h
  constructor
  · apply BitVec.eq_of_toNat_eq
    omega
  · apply BitVec.eq_of_toNat_eq
    omega

/-- An operation on congruent integers gives congruent integers. -/
theorem AccOp.replay_congr (o : AccOp) {v u : ℤ} (h : v ≡ u [ZMOD 2 ^ 64]) :
    o.replay v ≡ o.replay u [ZMOD 2 ^ 64] := by
  have hlow : v % 2 ^ 32 = u % 2 ^ 32 := h.of_dvd (by norm_num)
  cases o with
  | mult a b | multu a b => rfl
  | madd a b | maddu a b => exact h.add_right _
  | msub a b | msubu a b => exact h.sub_right _
  | mthi a => rw [replay, replay, hlow]
  | mtlo a =>
    rw [replay, replay, hlow]
    exact (h.sub_right _).add_right _

theorem acc_add_modEq (p : DWord) {x : ℤ} (hp : (p.toNat : ℤ) ≡ x [ZMOD 2 ^ 64]) :
    accValue (s.setHiLo (s.acc + p)) ≡ accValue s + x [ZMOD 2 ^ 64] := by
  rw [accValue_setHiLo, accValue_eq_acc]
  calc ((s.acc + p).toNat : ℤ)
      ≡ s.acc.toNat + p.toNat [ZMOD 2 ^ 64] := toNat_add_modEq s.acc p
    _ ≡ s.acc.toNat + x [ZMOD 2 ^ 64] := hp.add_left _

theorem acc_sub_modEq (p : DWord) {x : ℤ} (hp : (p.toNat : ℤ) ≡ x [ZMOD 2 ^ 64]) :
    accValue (s.setHiLo (s.acc - p)) ≡ accValue s - x [ZMOD 2 ^ 64] := by
  rw [accValue_setHiLo, accValue_eq_acc]
  calc ((s.acc - p).toNat : ℤ)
      ≡ s.acc.toNat - p.toNat [ZMOD 2 ^ 64] := toNat_sub_modEq s.acc p
    _ ≡ s.acc.toNat - x [ZMOD 2 ^ 64] := hp.sub_left _

end step

section run
variable (h : Host) {s t : State} {i : Word} {o : AccOp}

/-- `$0` is cleared at the common exit; the accumulator is not touched there. -/
theorem accValue_retire (u : State) : accValue (retire u).2 = accValue u := rfl

theorem execRegister_acc (hi : opcode i = some .OP_SPECIAL) (ho : accOp i s = some o) :
    accValue (execRegister i s).2 ≡ o.replay (accValue s) [ZMOD 2 ^ 64] := by
  cases hf : special i with
  | none => simp [accOp, hi, hf] at ho
  | some f =>
    -- Only four of the words write HI or LO here; on the others there is no operation.
    cases f with
    | MULT =>
      obtain rfl : AccOp.mult _ _ = o := by simpa [accOp, hi, hf] using ho
      simp only [execRegister, hf, accValue_retire, mult, accValue_setHiLo, AccOp.replay]
      exact toNat_signExtend_mul_modEq _ _ (by omega)
    | MULTU =>
      obtain rfl : AccOp.multu _ _ = o := by simpa [accOp, hi, hf] using ho
      simp only [execRegister, hf, accValue_retire, multu, accValue_setHiLo, AccOp.replay]
      exact toNat_setWidth_mul_modEq _ _ (by omega)
    | MTHI =>
      obtain rfl : AccOp.mthi _ = o := by simpa [accOp, hi, hf] using ho
      simp only [execRegister, hf, accValue_retire, AccOp.replay, accValue_mod]
      rfl
    | MTLO =>
      obtain rfl : AccOp.mtlo _ = o := by simpa [accOp, hi, hf] using ho
      simp only [execRegister, hf, accValue_retire, AccOp.replay, accValue_mod]
      simp only [accValue, add_sub_cancel_right]
      rfl
    | _ => simp [accOp, hi, hf] at ho

theorem execSpecial2_acc (hi : opcode i = some .OP_SPECIAL2) (ho : accOp i s = some o) :
    accValue (execSpecial2 i s).2 ≡ o.replay (accValue s) [ZMOD 2 ^ 64] := by
  cases hf : special2 i with
  | none => simp [accOp, hi, hf] at ho
  | some f =>
    cases f with
    | MADD =>
      obtain rfl : AccOp.madd _ _ = o := by simpa [accOp, hi, hf] using ho
      simp only [execSpecial2, hf, accValue_retire]
      exact acc_add_modEq s _ (toNat_signExtend_mul_modEq _ _ (by omega))
    | MADDU =>
      obtain rfl : AccOp.maddu _ _ = o := by simpa [accOp, hi, hf] using ho
      simp only [execSpecial2, hf, accValue_retire]
      exact acc_add_modEq s _ (toNat_setWidth_mul_modEq _ _ (by omega))
    | MSUB =>
      obtain rfl : AccOp.msub _ _ = o := by simpa [accOp, hi, hf] using ho
      simp only [execSpecial2, hf, accValue_retire]
      exact acc_sub_modEq s _ (toNat_signExtend_mul_modEq _ _ (by omega))
    | MSUBU =>
      obtain rfl : AccOp.msubu _ _ = o := by simpa [accOp, hi, hf] using ho
      simp only [execSpecial2, hf, accValue_retire]
      exact acc_sub_modEq s _ (toNat_setWidth_mul_modEq _ _ (by omega))
    | MUL | CLZ | CLO => simp [accOp, hi, hf] at ho

/-- One instruction does to HI:LO, modulo `2 ^ 64`, what its operation does to an exact
integer. -/
theorem execInst_acc (ho : accOp i s = some o) :
    accValue (execInst h i s).2 ≡ o.replay (accValue s) [ZMOD 2 ^ 64] := by
  cases hop : opcode i with
  | none => simp [accOp, hop] at ho
  | some c =>
    cases c with
    | OP_SPECIAL =>
      have hreg := execRegister_acc hop ho
      cases hf : special i with
      | none => simp [accOp, hop, hf] at ho
      | some f =>
        cases f with
        | MULT | MULTU | MTHI | MTLO =>
          rw [execInst_isSpecial h i s ⟨hop, hf⟩ (by decide) (by decide) (by decide)]
          exact hreg
        | _ => simp [accOp, hop, hf] at ho
    | OP_SPECIAL2 =>
      rw [execInst_of_opcode h hop (by decide)]
      exact execSpecial2_acc hop ho
    | _ => simp [accOp, hop] at ho

/-- Accumulator instructions in any order, with any change in between that leaves HI and
LO alone. The log has the latest operation last. -/
inductive AccRun (h : Host) (s : State) : List AccOp → State → Prop
  | start : AccRun h s [] s
  | acc {log : List AccOp} {t : State} {i : Word} {o : AccOp} :
    AccRun h s log t → accOp i t = some o → AccRun h s (log ++ [o]) (execInst h i t).2
  | other {log : List AccOp} {t u : State} :
    AccRun h s log t → u.hi = t.hi → u.lo = t.lo → AccRun h s log u

def replay (log : List AccOp) (v : ℤ) : ℤ := log.foldl (fun v o => o.replay v) v

theorem AccRun.modEq {log : List AccOp} (hrun : AccRun h s log t) :
    accValue t ≡ replay log (accValue s) [ZMOD 2 ^ 64] := by
  induction hrun with
  | start => rfl
  | @acc log t i o _ ho ih =>
    rw [replay, List.foldl_append]
    calc accValue (execInst h i t).2
        ≡ o.replay (accValue t) [ZMOD 2 ^ 64] := execInst_acc h ho
      _ ≡ o.replay (replay log (accValue s)) [ZMOD 2 ^ 64] := o.replay_congr ih
  | @other log t u _ hhi hlo ih =>
    -- Nothing is logged, and the accumulator is the same.
    have hsame : accValue u = accValue t := by rw [accValue, accValue, hhi, hlo]
    rwa [hsame]

/-- An operation that takes back the one before it on exact integers restores HI and LO. -/
theorem execInst_undo {j : Word} {o' : AccOp} (hi : accOp i s = some o)
    (hj : accOp j (execInst h i s).2 = some o') (hundo : ∀ v, o'.replay (o.replay v) = v) :
    (execInst h j (execInst h i s).2).2.hi = s.hi ∧
      (execInst h j (execInst h i s).2).2.lo = s.lo := by
  apply accValue_inj
  calc accValue (execInst h j (execInst h i s).2).2
      ≡ o'.replay (accValue (execInst h i s).2) [ZMOD 2 ^ 64] := execInst_acc h hj
    _ ≡ o'.replay (o.replay (accValue s)) [ZMOD 2 ^ 64] := o'.replay_congr (execInst_acc h hi)
    _ = accValue s := hundo (accValue s)

end run

/-- HI:LO accumulates exactly modulo `2 ^ 64` over every sequence of accumulator
instructions, and taking a product back restores both halves. -/
theorem accumulator_exact (h : Host) (s : State) :
    (∀ log t, AccRun h s log t → accValue t ≡ replay log (accValue s) [ZMOD 2 ^ 64]) ∧
    (∀ i j a b,
      (accOp i s = some (.madd a b) ∧ accOp j (execInst h i s).2 = some (.msub a b)) ∨
        (accOp i s = some (.maddu a b) ∧ accOp j (execInst h i s).2 = some (.msubu a b)) →
      (execInst h j (execInst h i s).2).2.hi = s.hi ∧
        (execInst h j (execInst h i s).2).2.lo = s.lo) := by
  refine ⟨fun log t hrun => hrun.modEq h, ?_⟩
  rintro i j a b (⟨hi, hj⟩ | ⟨hi, hj⟩)
  · exact execInst_undo h hi hj fun v => add_sub_cancel_right v _
  · exact execInst_undo h hi hj fun v => add_sub_cancel_right v _

/-- `mult t0, t1`, `madd t0, t1` and `msub t0, t1` with -2 and 3. -/
theorem accumulator_exact_negative :
    let s := ((resetState (fun _ => 0) 0).setReg 8 (-2)).setReg 9 3
    let t := (execInst nullHost 0x01090018#32 s).2
    let u := (execInst nullHost 0x71090000#32 t).2
    accValue u ≡ -12 [ZMOD 2 ^ 64] ∧ (execInst nullHost 0x71090004#32 u).2.hi = t.hi := by
  intro s t u
  have hmult : accOp 0x01090018#32 s = some (.mult (-2) 3) := by decide
  have hmadd : accOp 0x71090000#32 t = some (.madd (-2) 3) := by decide
  have hmsub : accOp 0x71090004#32 u = some (.msub (-2) 3) := by decide
  constructor
  · exact (accumulator_exact nullHost s).1 _ u ((AccRun.start.acc hmult).acc hmadd)
  · exact ((accumulator_exact nullHost t).2 _ _ _ _ (.inl ⟨hmadd, hmsub⟩)).1

end MyMips
