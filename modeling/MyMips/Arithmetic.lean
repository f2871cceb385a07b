import MyMips.Lib.TwosComplement
import MyMips.RunOutcome

namespace MyMips
open TwosComplement

structure UnsignedQuotient (a b q r : Word) : Prop where
  equation : a = q * b + r
  remainder : r < b

structure SignedQuotient (a b q r : Word) : Prop where
  equation : a = q * b + r
  remainder : |r.toInt| < |b.toInt|
  sign : r = 0 ∨ r.toInt.sign = a.toInt.sign
  quotient : q = BitVec.ofInt 32 (a.toInt.tdiv b.toInt)

/-- A division returns, without a host division that is undefined or traps; it leaves HI
and LO alone when the divisor is zero and puts remainder and quotient there otherwise. -/
structure DivDefined (h : Host) (i : Word) (s : State) : Prop where
  returns : (execInst h i s).1 = .ok
  zero : s.reg (rt i) = 0 → (execInst h i s).2.hi = s.hi ∧ (execInst h i s).2.lo = s.lo
  unsigned : IsSpecial .DIVU i → s.reg (rt i) ≠ 0 → UnsignedQuotient (s.reg (rs i))
    (s.reg (rt i)) (execInst h i s).2.lo (execInst h i s).2.hi
  signed : IsSpecial .DIV i → s.reg (rt i) ≠ 0 → SignedQuotient (s.reg (rs i))
    (s.reg (rt i)) (execInst h i s).2.lo (execInst h i s).2.hi

section division
variable (h : Host) {i : Word} (s : State)

theorem unsignedQuotient {a b : Word} (hb : b ≠ 0) : UnsignedQuotient a b (a / b) (a % b) := by
  refine ⟨(udiv_mul_add_umod a b).symm, ?_⟩
  apply BitVec.umod_lt
  rw [BitVec.lt_def]
  apply Nat.pos_of_ne_zero
  intro h0
  exact hb (BitVec.eq_of_toNat_eq h0)

theorem signedQuotient {a b : Word} (hb : b ≠ 0) :
    SignedQuotient a b (a.sdiv b) (a.srem b) where
  equation := (sdiv_mul_add_srem a b).symm
  remainder := abs_srem_lt a b hb
  sign := sign_srem a b
  quotient := sdiv_eq_ofInt a b

theorem isSpecial_unique {f g : Special} (hf : IsSpecial f i) (hne : f ≠ g) :
    ¬ IsSpecial g i :=
  fun hg => hne (Option.some.inj (hf.2.symm.trans hg.2))

theorem divDefined_divu (hi : IsSpecial .DIVU i) : DivDefined h i s := by
  have hexec : execInst h i s = retire (divu i s) := by
    rw [execInst_isSpecial h i s hi (by decide) (by decide) (by decide)]
    simp only [execRegister, hi.2]
  have hret : (execInst h i s).1 = .ok := by rw [hexec, retire_fst]
  have hdiv : ¬ IsSpecial .DIV i := isSpecial_unique hi (by decide)
  by_cases hb : s.reg (rt i) = 0
  · have hsame : divu i s = s := if_pos hb
    rw [hsame] at hexec
    refine ⟨hret, fun _ => ?_, fun _ hne => absurd hb hne, fun hd => absurd hd hdiv⟩
    rw [hexec]
    exact ⟨rfl, rfl⟩
  · have hquot : divu i s = { s with
        lo := s.reg (rs i) / s.reg (rt i)
        hi := s.reg (rs i) % s.reg (rt i) } := if_neg hb
    rw [hquot] at hexec
    refine ⟨hret, fun h0 => absurd h0 hb, fun _ hne => ?_, fun hd => absurd hd hdiv⟩
    rw [hexec]
    exact unsignedQuotient hne

theorem divDefined_div (hi : IsSpecial .DIV i) (ht : ¬ DivTraps i s) : DivDefined h i s := by
  have hexec {t : State} (hd : div i s = some t) : execInst h i s = retire t := by
    rw [execInst_isSpecial h i s hi (by decide) (by decide) (by decide)]
    simp only [execRegister, hi.2, hd]
  have hdivu : ¬ IsSpecial .DIVU i := isSpecial_unique hi (by decide)
  -- The test for a zero divisor is the only one before the host division.
  by_cases hb : s.reg (rt i) = 0
  · have hsame : div i s = some s := if_pos hb
    have hstep := hexec hsame
    refine ⟨by rw [hstep, retire_fst], fun _ => ?_, fun hd => absurd hd hdivu,
      fun _ hne => absurd hb hne⟩
    rw [hstep]
    exact ⟨rfl, rfl⟩
  · have hquot : div i s = some { s with
        lo := (s.reg (rs i)).sdiv (s.reg (rt i))
        hi := (s.reg (rs i)).srem (s.reg (rt i)) } := by
      unfold div
      dsimp only
      rw [if_neg hb, if_neg ht]
    have hstep := hexec hquot
    refine ⟨by rw [hstep, retire_fst], fun h0 => absurd h0 hb, fun hd => absurd hd hdivu,
      fun _ hne => ?_⟩
    rw [hstep]
    exact signedQuotient hne

/-- Every division is defined but one: the most negative number by -1. -/
theorem division_defined (hi : IsSpecial .DIV i ∨ IsSpecial .DIVU i) :
    DivDefined h i s ↔ ¬ (IsSpecial .DIV i ∧ DivTraps i s) := by
  constructor
  · rintro hdef ⟨hd, ht⟩
    have hret := hdef.returns
    rw [execInst_isSpecial h i s hd (by decide) (by decide) (by decide)] at hret
    simp [execRegister, hd.2, (div_eq_none i s).mpr ht] at hret
  · intro hn
    rcases hi with hd | hu
    · exact divDefined_div h s hd fun ht => hn ⟨hd, ht⟩
    · exact divDefined_divu h s hu

end division

/-- `div t0, t1` with 7 / -2. -/
theorem division_defined_truncates :
    let s := ((resetState (fun _ => 0) 0).setReg 8 7).setReg 9 (-2)
    DivDefined nullHost 0x0109001A#32 s :=
  (division_defined nullHost _ (.inl (by decide))).mpr (by decide)

/-- `div t0, t1` with the most negative number and -1. -/
theorem division_defined_fails :
    ¬ ∀ (h : Host) (i : Word) (s : State), IsSpecial .DIV i ∨ IsSpecial .DIVU i →
      DivDefined h i s := by
  intro hall
  let s := ((resetState (fun _ => 0) 0).setReg 8 0x80000000#32).setReg 9 0xFFFFFFFF#32
  have hret := (hall nullHost 0x0109001A#32 s (.inl (by decide))).returns
  exact absurd hret (by decide)

abbrev IsTrapping (i : Word) : Prop :=
  IsSpecial .ADD i ∨ IsSpecial .SUB i ∨ opcode i = some .ADDI

def exactResult (i : Word) (s : State) : ℤ :=
  if opcode i = some .ADDI then (s.reg (rs i)).toInt + (simm i).toInt
  else if special i = some .SUB then (s.reg (rs i)).toInt - (s.reg (rt i)).toInt
  else (s.reg (rs i)).toInt + (s.reg (rt i)).toInt

def destination (i : Word) : Reg := if opcode i = some .ADDI then rt i else rd i

/-- `$k0` is the trap flag, except that a result that goes to `$k0` itself replaces the
flag. -/
structure TrapOutcome (i : Word) (s t : State) : Prop where
  flag : ¬ Fits 32 (exactResult i s) → t.reg K0 = 1
  kept : ¬ Fits 32 (exactResult i s) → ∀ n, n ≠ K0 → n ≠ R0 → t.reg n = s.reg n
  result : Fits 32 (exactResult i s) → destination i ≠ R0 →
    (t.reg (destination i)).toInt = exactResult i s
  clear : Fits 32 (exactResult i s) → destination i ≠ K0 → t.reg K0 = 0
  zero : t.reg R0 = 0

section trapping
variable (h : Host) {i : Word} (s : State)

/-- The common form of the three instructions. -/
theorem trapOutcome_of (ovf : Bool) (v : Word) (hovf : ovf = true ↔ ¬ Fits 32 (exactResult i s))
    (hv : ovf = false → v.toInt = exactResult i s) :
    TrapOutcome i s (retire (if ovf then s.setReg K0 1
      else (s.setReg K0 0).setReg (destination i) v)).2 := by
  have hk : K0 ≠ R0 := by decide
  cases ovf with
  | true =>
    have hout : ¬ Fits 32 (exactResult i s) := hovf.mp rfl
    refine ⟨fun _ => ?_, fun _ n hnk hn0 => ?_, fun hf => absurd hf hout, fun hf => absurd hf hout,
      by simp⟩
    · simp [hk]
    · simp [hnk, hn0]
  | false =>
    have hfits : Fits 32 (exactResult i s) := by
      by_contra hout
      exact absurd (hovf.mpr hout) (by decide)
    refine ⟨fun hn => absurd hfits hn, fun hn => absurd hfits hn, fun _ hd => ?_, fun _ hd => ?_,
      by simp⟩
    · simp [hd, hv rfl]
    · simp [hk, hd.symm]

theorem trapOutcome_add (hi : IsSpecial .ADD i) : TrapOutcome i s (retire (add i s)).2 := by
  have hexact : exactResult i s = (s.reg (rs i)).toInt + (s.reg (rt i)).toInt := by
    simp [exactResult, hi.1, hi.2]
  have hdest : destination i = rd i := by simp [destination, hi.1]
  have hout := trapOutcome_of s (BitVec.saddOverflow (s.reg (rs i)) (s.reg (rt i)))
    (s.reg (rs i) + s.reg (rt i)) (hexact ▸ saddOverflow_iff _ _)
    (fun hf => hexact ▸ BitVec.toInt_add_of_not_saddOverflow (by simp [hf]))
  rwa [hdest] at hout

theorem trapOutcome_sub (hi : IsSpecial .SUB i) : TrapOutcome i s (retire (sub i s)).2 := by
  have hexact : exactResult i s = (s.reg (rs i)).toInt - (s.reg (rt i)).toInt := by
    simp [exactResult, hi.1, hi.2]
  have hdest : destination i = rd i := by simp [destination, hi.1]
  have hout := trapOutcome_of s (BitVec.ssubOverflow (s.reg (rs i)) (s.reg (rt i)))
    (s.reg (rs i) - s.reg (rt i)) (hexact ▸ ssubOverflow_iff _ _)
    (fun hf => hexact ▸ BitVec.toInt_sub_of_not_ssubOverflow (by simp [hf]))
  rwa [hdest] at hout

theorem trapOutcome_addi (hi : opcode i = some .ADDI) :
    TrapOutcome i s (retire (addi i s)).2 := by
  have hexact : exactResult i s = (s.reg (rs i)).toInt + (simm i).toInt := if_pos hi
  have hdest : destination i = rt i := if_pos hi
  have hout := trapOutcome_of s (BitVec.saddOverflow (s.reg (rs i)) (simm i))
    (s.reg (rs i) + simm i) (hexact ▸ saddOverflow_iff _ _)
    (fun hf => hexact ▸ BitVec.toInt_add_of_not_saddOverflow (by simp [hf]))
  rwa [hdest] at hout

/-- Every ADD, SUB and ADDI, whatever registers it names. -/
theorem trap_outcome (hi : IsTrapping i) :
    (execInst h i s).1 = .ok ∧ TrapOutcome i s (execInst h i s).2 := by
  rcases hi with hadd | hsub | haddi
  · have hexec : execInst h i s = retire (add i s) := by
      rw [execInst_isSpecial h i s hadd (by decide) (by decide) (by decide)]
      simp only [execRegister, hadd.2]
    rw [hexec]
    exact ⟨rfl, trapOutcome_add s hadd⟩
  · have hexec : execInst h i s = retire (sub i s) := by
      rw [execInst_isSpecial h i s hsub (by decide) (by decide) (by decide)]
      simp only [execRegister, hsub.2]
    rw [hexec]
    exact ⟨rfl, trapOutcome_sub s hsub⟩
  · have hexec : execInst h i s = retire (addi i s) := by
      rw [execInst_of_opcode h haddi (by decide)]
      simp only [execImmediate, haddi]
    rw [hexec]
    exact ⟨rfl, trapOutcome_addi s haddi⟩

end trapping

/-- `addi t0, t0, 1` at the largest number. -/
theorem trap_outcome_overflow :
    let s := (resetState (fun _ => 0) 0).setReg 8 0x7FFFFFFF#32
    (execInst nullHost 0x21080001#32 s).2.reg K0 = 1 ∧
      (execInst nullHost 0x21080001#32 s).2.reg 8 = 0x7FFFFFFF#32 := by
  intro s
  obtain ⟨_, hout⟩ := trap_outcome nullHost s (i := 0x21080001#32) (.inr (.inr (by decide)))
  exact ⟨hout.flag (by decide), hout.kept (by decide) 8 (by decide) (by decide)⟩

/-- `addi k0, r0, 5` leaves the sum in `$k0`, not the flag. -/
theorem trap_outcome_clash :
    ¬ ∀ (h : Host) (i : Word) (s : State), IsTrapping i → Fits 32 (exactResult i s) →
      (execInst h i s).2.reg K0 = 0 := by
  intro hall
  have hflag := hall nullHost 0x201A0005#32 (resetState (fun _ => 0) 0) (.inr (.inr (by decide)))
    (by decide)
  exact absurd hflag (by decide)

end MyMips
