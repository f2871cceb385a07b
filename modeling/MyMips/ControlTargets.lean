import MyMips.Pipeline
import MyMips.RunOutcome

namespace MyMips

/-- What `exec_inst` leaves when it is called on `i` with no transfer pending. -/
def execClear (h : Host) (i : Word) (s : State) : State :=
  (execInst h i { s with branchPending := false }).2

section clear
variable (h : Host) (i : Word) (s : State)

theorem latch_execClear : (execClear h i s).latch = controlTarget i s :=
  execInst_latch h i (s := { s with branchPending := false }) rfl

end clear

/-- The condition of a conditional branch; `none` for other words. -/
def branchCondition (i : Word) (s : State) : Option Bool :=
  let a := s.reg (rs i)
  match opcode i with
  | some .BEQ => some (a == s.reg (rt i))
  | some .BNE => some (a != s.reg (rt i))
  | some .BGTZ => some (decide (0 < a.toInt))
  | some .BLEZ => some (decide (a.toInt ≤ 0))
  | some .OP_REGIMM =>
    match regimm i with
    | some .BLTZ | some .BLTZAL => some (decide (a.toInt < 0))
    | some .BGEZ | some .BGEZAL => some (decide (0 ≤ a.toInt))
    | none => none
  | some .OP_COP1 => if fmt i = some .BC1 then some (s.fpCond == bc1Sense i) else none
  | _ => none

def slotRelative (i pc : Word) : Word := BitVec.ofInt 32 (pc.toNat + 4 + 4 * (imm16 i).toInt)

def slotRegion (i pc : Word) : Word := ((pc + 4) &&& 0xF0000000#32) ||| (target26 i <<< 2)

abbrev IsJump (i : Word) : Prop := opcode i = some .J ∨ opcode i = some .JAL

/-- Every branch schedules, when it is taken, its target relative to the delay slot, and
every jump its target in the region of the delay slot. -/
structure SlotTargets (h : Host) (i : Word) (s : State) : Prop where
  branch : ∀ c, branchCondition i s = some c →
    (execClear h i s).latch = if c then some (slotRelative i s.pc) else none
  jump : IsJump i → (execClear h i s).latch = some (slotRegion i s.pc)

def SlotInRegion (pc : Word) : Prop := pc.toNat % 2 ^ 28 < 2 ^ 28 - 4

section targets
variable (h : Host) (i : Word) (s : State)

theorem branchDest_eq : branchDest i s = slotRelative i s.pc := by
  have hfour : simm i <<< 2 = 4 * simm i := by
    apply BitVec.eq_of_toNat_eq
    rw [BitVec.toNat_shiftLeft, Nat.shiftLeft_eq, Nat.mul_comm]
    exact (BitVec.toNat_mul 4 (simm i)).symm
  have hshift : simm i <<< 2 = BitVec.ofInt 32 (4 * (imm16 i).toInt) := by
    rw [hfour, BitVec.ofInt_mul]
    rfl
  have hpc : s.pc = BitVec.ofInt 32 s.pc.toNat := by
    rw [BitVec.ofInt_natCast, BitVec.ofNat_toNat, BitVec.setWidth_eq]
  rw [branchDest, slotRelative, hshift, BitVec.ofInt_add, BitVec.ofInt_add, ← hpc]
  rfl

theorem controlTarget_branch {c : Bool} (hc : branchCondition i s = some c) :
    controlTarget i s = if c then some (branchDest i s) else none := by
  unfold branchCondition at hc
  dsimp only at hc
  cases ho : opcode i with
  | none => simp [ho] at hc
  | some o =>
    rw [ho] at hc
    cases o with
    | BEQ | BNE | BGTZ | BLEZ =>
      -- The words with a condition; the others have none and `hc` is absurd.
      obtain rfl := Option.some.inj hc
      simp only [controlTarget, ho]
      simp
    | OP_REGIMM =>
      simp only at hc
      cases hr : regimm i with
      | none => simp [hr] at hc
      | some r =>
        rw [hr] at hc
        cases r with
        | BLTZ | BGEZ | BLTZAL | BGEZAL =>
          obtain rfl := Option.some.inj hc
          simp only [controlTarget, ho, hr]
          simp
    | OP_COP1 =>
      simp only [Option.ite_none_right_eq_some] at hc
      obtain ⟨hf, hc⟩ := hc
      obtain rfl := Option.some.inj hc
      simp [controlTarget, ho, hf]
    | _ => simp at hc

theorem controlTarget_jump (hi : IsJump i) :
    controlTarget i s = some ((s.pc &&& 0xF0000000#32) ||| (target26 i <<< 2)) := by
  rcases hi with ho | ho <;> simp only [controlTarget, ho]

theorem getLsbD_region (x : Word) {k : ℕ} (hk : k < 32) :
    (x &&& 0xF0000000#32).getLsbD k = (x.getLsbD k && decide (28 ≤ k)) := by
  have hmask : 0xF0000000#32 = BitVec.allOnes 32 <<< 28 := by decide
  rw [hmask, BitVec.getLsbD_and, BitVec.getLsbD_shiftLeft, BitVec.getLsbD_allOnes]
  have hlow : k - 28 < 32 := by omega
  rcases Nat.lt_or_ge k 28 with hk28 | hk28
  · have hno : ¬ 28 ≤ k := by omega
    simp [hk28, hno]
  · have hno : ¬ k < 28 := by omega
    simp [hk, hk28, hno, hlow]

/-- The upper four bits of an address, as a multiple of the size of a region. -/
theorem toNat_region (x : Word) : (x &&& 0xF0000000#32).toNat = x.toNat / 2 ^ 28 * 2 ^ 28 := by
  have hlt := x.isLt
  have hshift : x &&& 0xF0000000#32 = (x >>> 28) <<< 28 := by
    apply BitVec.eq_of_getLsbD_eq
    intro k hk
    rw [getLsbD_region x hk, BitVec.getLsbD_shiftLeft, BitVec.getLsbD_ushiftRight]
    rcases Nat.lt_or_ge k 28 with hlow | hhigh
    · simp [hlow]
    · have hback : 28 + (k - 28) = k := by omega
      simp [hk, hhigh, hback]
  rw [hshift, BitVec.toNat_shiftLeft, BitVec.toNat_ushiftRight, Nat.shiftRight_eq_div_pow,
    Nat.shiftLeft_eq]
  omega

/-- The two regions are the same exactly when the delay slot is in the region of `pc`. -/
theorem region_eq_iff (pc : Word) :
    pc &&& 0xF0000000#32 = (pc + 4) &&& 0xF0000000#32 ↔ SlotInRegion pc := by
  have hlt := pc.isLt
  have h1 := toNat_region pc
  have h2 := toNat_region (pc + 4)
  have hsum : (pc + 4).toNat = (pc.toNat + 4) % 2 ^ 32 := BitVec.toNat_add _ _
  unfold SlotInRegion
  constructor
  · intro he
    rw [he, h2, hsum] at h1
    omega
  · intro hin
    apply BitVec.eq_of_toNat_eq
    rw [h1, h2, hsum]
    omega

/-- The field of a jump lies below the region bits. -/
theorem getLsbD_target {k : ℕ} (hk : 28 ≤ k) : (target26 i <<< 2).getLsbD k = false := by
  have hmask : 0x3FFFFFF#32 = BitVec.allOnes 32 >>> 6 := by decide
  rw [target26, hmask, BitVec.getLsbD_shiftLeft, BitVec.getLsbD_and, BitVec.getLsbD_ushiftRight,
    BitVec.getLsbD_allOnes]
  have hhigh : ¬ 6 + (k - 2) < 32 := by omega
  simp [hhigh]

theorem jump_eq_iff (x y : Word) :
    (x &&& 0xF0000000#32) ||| (target26 i <<< 2) = (y &&& 0xF0000000#32) ||| (target26 i <<< 2) ↔
      x &&& 0xF0000000#32 = y &&& 0xF0000000#32 := by
  constructor
  · intro he
    apply BitVec.eq_of_getLsbD_eq
    intro k hk
    -- The regions differ above bit 27 only, and the target field has no bit there.
    rcases Nat.lt_or_ge k 28 with hlow | hhigh
    · have hno : ¬ 28 ≤ k := by omega
      rw [getLsbD_region x hk, getLsbD_region y hk]
      simp [hno]
    · have hbit := congrArg (BitVec.getLsbD · k) he
      simpa only [BitVec.getLsbD_or, getLsbD_target i hhigh, Bool.or_false] using hbit
  · intro he
    rw [he]

variable {h i s} in
/-- A jump to the region of its delay slot is in that region itself. -/
theorem SlotTargets.slotInRegion (ht : SlotTargets h i s) (hi : IsJump i) : SlotInRegion s.pc := by
  have hjump := ht.jump hi
  rw [latch_execClear, controlTarget_jump i s hi] at hjump
  exact (region_eq_iff s.pc).mp ((jump_eq_iff i _ _).mp (Option.some.inj hjump))

/-- Branches always go where the delay slot says, jumps exactly when the delay slot is
in the region of the jump. -/
theorem slotTargets_iff : SlotTargets h i s ↔ (IsJump i → SlotInRegion s.pc) := by
  have hlatch := latch_execClear h i s
  constructor
  · exact fun ht hi => ht.slotInRegion hi
  · intro hin
    refine ⟨fun c hc => ?_, fun hi => ?_⟩
    · rw [hlatch, controlTarget_branch i s hc, branchDest_eq]
    · have hregion := (region_eq_iff s.pc).mpr (hin hi)
      rw [hlatch, controlTarget_jump i s hi, hregion]
      rfl

end targets

/-- `j 0` in the last word of the first region goes back to address 0. -/
theorem slotTargets_fails :
    ¬ ∀ (h : Host) (i : Word) (s : State), SlotTargets h i s := by
  intro hall
  have htargets := hall nullHost 0x08000000#32 (resetState (fun _ => 0) 0x0FFFFFFC)
  have hin := htargets.slotInRegion (.inl (by decide))
  exact absurd hin (by unfold SlotInRegion; decide)

abbrev IsLink (i : Word) : Prop :=
  opcode i = some .JAL ∨ IsSpecial .JALR i ∨
    opcode i = some .OP_REGIMM ∧ (regimm i = some .BLTZAL ∨ regimm i = some .BGEZAL)

def linkReg (i : Word) : Reg := if opcode i = some .OP_SPECIAL then rd i else RA

def linkTarget (i : Word) (s : State) : Option Word :=
  if opcode i = some .OP_SPECIAL then some (s.reg (rs i))
  else if opcode i = some .JAL then some ((s.pc &&& 0xF0000000#32) ||| (target26 i <<< 2))
  else if branchCondition i s = some true then some (slotRelative i s.pc)
  else none

/-- The operands are those before the instruction, and the return address is all it
writes to the general registers. -/
structure LinkOrder (h : Host) (i : Word) (s : State) : Prop where
  target : (execClear h i s).latch = linkTarget i s
  link : linkReg i ≠ R0 → (execClear h i s).reg (linkReg i) = s.pc + 8
  frame : ∀ n, n ≠ linkReg i → n ≠ R0 → (execClear h i s).reg n = s.reg n
  zero : s.reg R0 = 0 → (execClear h i s).reg R0 = 0

/-- JALR jumps through the register it links to, which does not hold the return address. -/
def LinksOwnTarget (i : Word) (s : State) : Prop :=
  IsSpecial .JALR i ∧ rs i = rd i ∧ s.reg (rs i) ≠ s.pc + 8

section links
variable (h : Host) (i : Word) (s : State)

theorem branchIf_reg (c : Bool) : (branchIf c i s).reg = s.reg := by
  cases c <;> rfl

/-- The general registers after a link instruction, `$0` aside. -/
theorem reg_execClear (hi : IsLink i) {n : Reg} (hn : n ≠ R0) :
    (execClear h i s).reg n = if n = linkReg i then s.pc + 8 else s.reg n := by
  rcases hi with ho | hf | ⟨ho, hr⟩
  · have hlink : linkReg i = RA := by simp [linkReg, ho]
    rw [execClear, execInst_of_opcode h ho (by decide), hlink]
    simp only [execJump, ho]
    exact State.setReg_reg _ _ _ _
  · have hlink : linkReg i = rd i := by simp [linkReg, hf.1]
    rw [execClear, execInst_isSpecial h i _ hf (by decide) (by decide) (by decide), hlink]
    simp only [execRegister, hf.2, retire_snd]
    rw [State.setReg_reg_of_ne _ _ _ _ hn]
    exact State.setReg_reg _ _ _ _
  · have hlink : linkReg i = RA := by simp [linkReg, ho]
    have hal : regimm i = some .BGEZAL ∨ regimm i = some .BLTZAL := hr.symm
    rw [execClear, execInst_of_opcode h ho (by decide), hlink]
    simp only [execImmediate, ho, retire_snd]
    rw [State.setReg_reg_of_ne _ _ _ _ hn, execRegimm, branchIf_reg, if_pos hal]
    exact State.setReg_reg _ _ _ _

theorem reg_zero_execClear (hi : IsLink i) (hs : s.reg R0 = 0) :
    (execClear h i s).reg R0 = 0 := by
  rcases hi with ho | hf | ⟨ho, -⟩
  · -- `exec_jump` leaves `$0` alone, the others clear it.
    rw [execClear, execInst_of_opcode h ho (by decide)]
    simp only [execJump, ho]
    have hkeep := State.setReg_reg_of_ne { s with branchPending := false } RA R0 (s.pc + 8)
      (by decide)
    exact hkeep.trans hs
  · rw [execClear, execInst_isSpecial h i _ hf (by decide) (by decide) (by decide)]
    simp only [execRegister, hf.2, retire_snd]
    exact State.setReg_reg_self _ _ _
  · rw [execClear, execInst_of_opcode h ho (by decide)]
    simp only [execImmediate, ho, retire_snd]
    exact State.setReg_reg_self _ _ _

/-- JALR schedules the value its source has after the link is written. -/
theorem controlTarget_jalr (hf : IsSpecial .JALR i) :
    controlTarget i s = some (if rs i = rd i then s.pc + 8 else s.reg (rs i)) := by
  simp only [controlTarget, hf.1, hf.2]

/-- The other three read their operands first. -/
theorem controlTarget_link (hi : IsLink i) (hno : ¬ IsSpecial .JALR i) :
    controlTarget i s = linkTarget i s := by
  rcases hi with ho | hf | ⟨ho, hr⟩
  · rw [controlTarget_jump i s (.inr ho)]
    simp [linkTarget, ho]
  · exact absurd hf hno
  · have hcond : ∃ c, branchCondition i s = some c := by
      rcases hr with hr | hr <;> simp [branchCondition, ho, hr]
    obtain ⟨c, hc⟩ := hcond
    rw [controlTarget_branch i s hc, branchDest_eq]
    simp [linkTarget, ho, hc]

/-- What is scheduled is what the registers before the instruction say, unless JALR
overwrites its own source. -/
theorem controlTarget_eq_linkTarget (hi : IsLink i) :
    controlTarget i s = linkTarget i s ↔ ¬ LinksOwnTarget i s := by
  -- JALR is the only one that reads a register after it has written the link.
  by_cases hf : IsSpecial .JALR i
  · have hlink : linkTarget i s = some (s.reg (rs i)) := if_pos hf.1
    rw [controlTarget_jalr i s hf, hlink, Option.some.injEq]
    by_cases halias : rs i = rd i
    · rw [if_pos halias]
      constructor
      · rintro heq ⟨-, -, hne⟩
        exact hne heq.symm
      · intro hno
        by_contra hne
        exact hno ⟨hf, halias, fun heq => hne heq.symm⟩
    · rw [if_neg halias]
      exact iff_of_true rfl fun hown => halias hown.2.1
  · exact iff_of_true (controlTarget_link i s hi hf) fun hown => hf hown.1

variable {h i s} in
theorem LinkOrder.not_linksOwnTarget (horder : LinkOrder h i s) (hi : IsLink i) :
    ¬ LinksOwnTarget i s := by
  rw [← controlTarget_eq_linkTarget i s hi, ← latch_execClear h i s]
  exact horder.target

/-- A link instruction reads its operands first unless JALR overwrites its own source. -/
theorem linkOrder_iff (hi : IsLink i) : LinkOrder h i s ↔ ¬ LinksOwnTarget i s := by
  constructor
  · exact fun horder => horder.not_linksOwnTarget hi
  · intro hown
    have htarget : (execClear h i s).latch = linkTarget i s := by
      calc (execClear h i s).latch = controlTarget i s := latch_execClear h i s
        _ = linkTarget i s := (controlTarget_eq_linkTarget i s hi).mpr hown
    refine ⟨htarget, fun hne => ?_, fun n hlink hn => ?_, reg_zero_execClear h i s hi⟩
    · rw [reg_execClear h i s hi hne, if_pos rfl]
    · rw [reg_execClear h i s hi hn, if_neg hlink]

end links

/-- `jalr $ra, $t0` calls the function `$t0` points to. -/
theorem linkOrder_iff_distinct :
    LinkOrder nullHost 0x0100F809#32 ((resetState (fun _ => 0) 0x400000).setReg 8 0x400100) :=
  (linkOrder_iff _ _ _ (.inr (.inl (by decide)))).mpr fun hown => absurd hown.2.1 (by decide)

/-- `jalr $t0, $t0` falls through to the return address. -/
theorem linkOrder_fails :
    ¬ ∀ (h : Host) (i : Word) (s : State), IsLink i → LinkOrder h i s := by
  intro hall
  have hjalr : IsSpecial .JALR 0x01004009#32 := by decide
  have horder := hall nullHost 0x01004009#32 (resetState (fun _ => 0) 0x400000)
    (.inr (.inl hjalr))
  exact horder.not_linksOwnTarget (.inr (.inl hjalr)) ⟨hjalr, by decide, by decide⟩

end MyMips
