import MyMips.ExecFrame
import MyMips.Lib.DelaySlot

/-! The branch-delay pipeline. No executor moves `pc`, and the latch an executor
leaves behind is the target of the control transfer it performed; together with
`step_instruction` this is the two-program-counter machine. -/
namespace MyMips

def State.latch (s : State) : Option Word :=
  if s.branchPending then some s.branchTarget else none

/-- The target of the control transfer that the word `i` performs in state `s`;
`none` unless it is a jump or a taken branch. A `jalr` whose source is its own
link register jumps to the link. -/
def controlTarget (i : Word) (s : State) : Option Word :=
  match opcode i with
  | some .J | some .JAL => some ((s.pc &&& 0xF0000000#32) ||| (target26 i <<< 2))
  | some .OP_SPECIAL =>
    match special i with
    | some .JR => some (s.reg (rs i))
    | some .JALR => some (if rs i = rd i then s.pc + 8 else s.reg (rs i))
    | _ => none
  | some .BEQ => if s.reg (rs i) = s.reg (rt i) then some (branchDest i s) else none
  | some .BNE => if s.reg (rs i) ≠ s.reg (rt i) then some (branchDest i s) else none
  | some .BGTZ => if 0 < (s.reg (rs i)).toInt then some (branchDest i s) else none
  | some .BLEZ => if (s.reg (rs i)).toInt ≤ 0 then some (branchDest i s) else none
  | some .OP_REGIMM =>
    match regimm i with
    | some .BGEZ | some .BGEZAL =>
      if 0 ≤ (s.reg (rs i)).toInt then some (branchDest i s) else none
    | _ => if (s.reg (rs i)).toInt < 0 then some (branchDest i s) else none
  | some .OP_COP1 =>
    if fmt i = some .BC1 ∧ s.fpCond = bc1Sense i then some (branchDest i s) else none
  | _ => none

section latch
variable (h : Host) (u : FpUnit) (i : Word) (s : State)

@[simp] theorem latch_setReg (n : Reg) (v : Word) : (s.setReg n v).latch = s.latch := rfl
@[simp] theorem latch_scheduleBranch (t : Word) : (s.scheduleBranch t).latch = some t := rfl
@[simp] theorem latch_loadWord (a : Word) : (loadWord h a s).2.latch = s.latch := by
  simp [State.latch]
@[simp] theorem latch_storeWord (a v : Word) : (storeWord h a v s).latch = s.latch := by
  simp [State.latch]
@[simp] theorem latch_setFpr (n : ℕ) (v : Word) : (s.setFpr n v).latch = s.latch := by
  simp [State.latch]
@[simp] theorem latch_add : (add i s).latch = s.latch := by
  unfold add; dsimp only; split <;> rfl
@[simp] theorem latch_sub : (sub i s).latch = s.latch := by
  unfold sub; dsimp only; split <;> rfl
@[simp] theorem latch_addi : (addi i s).latch = s.latch := by
  unfold addi; dsimp only; split <;> rfl
@[simp] theorem latch_divu : (divu i s).latch = s.latch := by
  unfold divu; dsimp only; split <;> rfl

theorem latch_div {s' : State} (hd : div i s = some s') : s'.latch = s.latch := by
  unfold div at hd
  dsimp only at hd
  split_ifs at hd <;> cases hd <;> rfl

theorem latch_branchIf (c : Bool) :
    (branchIf c i s).latch = if c then some (branchDest i s) else s.latch := by
  cases c <;> rfl

variable {s} (hs : s.latch = none)
include hs

theorem execRegister_latch (ho : opcode i = some .OP_SPECIAL) :
    (execRegister i s).2.latch = controlTarget i s := by
  cases hf : special i with
  | none => simp only [execRegister, controlTarget, ho, hf, hs]
  | some f =>
    cases f with
    | DIV =>
      -- A trapping division latches nothing.
      cases hd : div i s with
      | none => simp only [execRegister, controlTarget, ho, hf, hd, hs]
      | some s' =>
        simp only [execRegister, controlTarget, ho, hf, hd, retire_snd, latch_setReg]
        rw [latch_div i s hd, hs]
    | MOVZ =>
      simp only [execRegister, controlTarget, ho, hf, retire_snd, latch_setReg]
      split <;> exact hs
    | MOVN =>
      simp only [execRegister, controlTarget, ho, hf, retire_snd, latch_setReg]
      split <;> exact hs
    | JALR =>
      simp only [execRegister, controlTarget, ho, hf, retire_snd, latch_setReg,
        latch_scheduleBranch, State.setReg_reg]
    | JR =>
      simp only [execRegister, controlTarget, ho, hf, retire_snd, latch_setReg,
        latch_scheduleBranch]
    | MULT | MULTU | MTHI | MTLO =>
      simp only [execRegister, controlTarget, ho, hf, retire_snd, latch_setReg]
      exact hs
    | _ => simp [execRegister, controlTarget, ho, hf, hs]

theorem execRegimm_latch (ho : opcode i = some .OP_REGIMM) :
    (execRegimm i s).latch = controlTarget i s := by
  have hdest (n : Reg) (v : Word) : branchDest i (s.setReg n v) = branchDest i s := rfl
  have hneg : (s.reg (rs i)).slt 0#32 = decide ((s.reg (rs i)).toInt < 0) := by
    simp [BitVec.slt_eq_decide]
  cases hr : regimm i with
  | none => simp [execRegimm, controlTarget, ho, hr, latch_branchIf, hs, hneg]
  | some r => cases r <;> simp [execRegimm, controlTarget, ho, hr, latch_branchIf, hs, hneg, hdest]

omit hs in
theorem execJump_latch (ho : opcode i = some .J ∨ opcode i = some .JAL) :
    (execJump i s).2.latch = controlTarget i s := by
  rcases ho with ho | ho <;> simp only [execJump, controlTarget, ho, latch_scheduleBranch]

theorem execSpecial2_latch (ho : opcode i = some .OP_SPECIAL2) :
    (execSpecial2 i s).2.latch = controlTarget i s := by
  have ht : controlTarget i s = none := by simp only [controlTarget, ho]
  obtain ⟨reg, hi, lo, hframe⟩ := execSpecial2_frame i s
  rw [ht, hframe]
  exact hs

theorem fpSingle_latch : (fpSingle u i s).2.latch = none := by
  obtain ⟨f, c, hframe⟩ := fpSingle_frame u i s
  rw [hframe]
  exact hs

theorem fpDouble_latch : (fpDouble u i s).2.latch = none := by
  obtain ⟨f, c, hframe⟩ := fpDouble_frame u i s
  rw [hframe]
  exact hs

theorem fpWord_latch : (fpWord u i s).2.latch = none := by
  obtain ⟨f, c, hframe⟩ := fpWord_frame u i s
  rw [hframe]
  exact hs

theorem execCop1_latch (ho : opcode i = some .OP_COP1) :
    (execCop1 u i s).2.latch = controlTarget i s := by
  cases hf : fmt i with
  | none => simp [execCop1, controlTarget, ho, hf, hs]
  | some f =>
    cases f with
    | S => simp [execCop1, controlTarget, ho, hf, fpSingle_latch u i hs]
    | D => simp [execCop1, controlTarget, ho, hf, fpDouble_latch u i hs]
    | W => simp [execCop1, controlTarget, ho, hf, fpWord_latch u i hs]
    | BC1 =>
      by_cases hc : s.fpCond = bc1Sense i
      · simp [execCop1, controlTarget, ho, hf, hc]
      · simp [execCop1, controlTarget, ho, hf, hc, hs]
    | MFC1 | MTC1 => simp [execCop1, controlTarget, ho, hf, hs]

theorem execCop1Ldst_latch : (execCop1Ldst h i s).2.latch = none := by
  obtain ⟨f, c, m, r, k, e, hframe⟩ := execCop1Ldst_frame h i s
  rw [hframe]
  exact hs

theorem execImmediate_latch (hz : opcode i ≠ some .OP_SPECIAL) (hc : opcode i ≠ some .OP_COP1)
    (hj : opcode i ≠ some .J) (hl : opcode i ≠ some .JAL) :
    (execImmediate h i s).2.latch = controlTarget i s := by
  cases ho : opcode i with
  | none => simp only [execImmediate, controlTarget, ho, hs]
  | some o =>
    cases o with
    | OP_SPECIAL => exact absurd ho hz
    | OP_COP1 => exact absurd ho hc
    | J => exact absurd ho hj
    | JAL => exact absurd ho hl
    | OP_REGIMM =>
      simp only [execImmediate, ho, retire_snd, latch_setReg]
      exact execRegimm_latch i hs ho
    | BEQ | BNE =>
      simp [execImmediate, controlTarget, ho, latch_branchIf, hs]
    | BGTZ | BLEZ =>
      simp [execImmediate, controlTarget, ho, latch_branchIf, hs, BitVec.slt_eq_decide,
        BitVec.sle_eq_decide]
    | SB | SH =>
      simp only [execImmediate, controlTarget, ho, retire_snd, latch_setReg]
      exact hs
    | _ => simp [execImmediate, controlTarget, ho, hs]

/-- From an empty latch, an instruction latches exactly the transfer it performs. -/
theorem execInst_latch : (execInst h i s).2.latch = controlTarget i s := by
  apply execInst_rule h (P := fun r => r.2.latch = controlTarget i s)
  case hnop =>
    rintro rfl
    exact hs
  case hsyscall =>
    intro ho hf
    obtain ⟨v, m, e, he⟩ := callSyscall_frame h s
    simp only [he, controlTarget, ho, hf]
    exact hs
  case hbreak =>
    intro ho hf
    simp only [controlTarget, ho, hf, latch_setReg, hs]
  case hregister => exact fun ho _ _ => execRegister_latch i hs ho
  case hspecial2 => exact fun ho => execSpecial2_latch i hs ho
  case hcop1 => exact fun ho => execCop1_latch h.fp i hs ho
  case hldst =>
    intro ho
    have hnone : controlTarget i s = none := by
      rcases ho with ho | ho | ho | ho <;> simp only [controlTarget, ho]
    rw [hnone]
    exact execCop1Ldst_latch h i hs
  case hjump => exact fun ho => execJump_latch i ho
  case himm =>
    intro hno
    exact execImmediate_latch h i hs (hno _ (by decide)) (hno _ (by decide)) (hno _ (by decide))
      (hno _ (by decide))

end latch

/-- The two-program-counter view of a state: the next `pc` is the latched target,
or the following word. -/
def State.twoPc (s : State) : TwoPc Word := ⟨s.pc, s.latch.getD (s.pc + 4)⟩

def State.transfer (s : State) : Option Word := controlTarget (wordAt s.memory s.pc) s

def transfers (h : Host) : ℕ → State → List (Option Word)
  | 0, _ => []
  | n + 1, s => s.transfer :: transfers h n (stepInstruction h s).2

/-- `step_instruction` in terms of the latch. -/
theorem stepInstruction_eq (h : Host) (s : State) :
    stepInstruction h s =
      match execInst h (wordAt s.memory s.pc) { s with branchPending := false } with
      | (.ok, t) => (.ok, { t with pc := s.latch.getD (t.pc + 4) })
      | (ret, t) => (ret, t) := by
  unfold stepInstruction
  dsimp only
  generalize execInst h (wordAt s.memory s.pc) { s with branchPending := false } = r
  rcases r with ⟨ret, t⟩
  cases ret with
  | ok => cases hp : s.branchPending <;> simp [State.latch, hp]
  | err | stop | trap => rfl

/-- What one completed step does to `pc` and to the latch. -/
theorem stepInstruction_ok {h : Host} {s s' : State} (hstep : stepInstruction h s = (.ok, s')) :
    s'.pc = s.latch.getD (s.pc + 4) ∧ s'.latch = s.transfer := by
  have hpc := execInst_pc h (wordAt s.memory s.pc) { s with branchPending := false }
  have hlatch := execInst_latch h (wordAt s.memory s.pc)
    (s := { s with branchPending := false }) rfl
  rw [stepInstruction_eq] at hstep
  rcases hr : execInst h (wordAt s.memory s.pc) { s with branchPending := false } with ⟨ret, t⟩
  rw [hr] at hstep hpc hlatch
  cases ret with
  | ok =>
    simp only [Prod.mk.injEq, true_and] at hstep
    subst hstep
    exact ⟨by simpa using congrArg (fun p => s.latch.getD (p + 4)) hpc, hlatch⟩
  | err | stop | trap => simp at hstep

theorem step_two_pc {h : Host} {s s' : State} (hstep : stepInstruction h s = (.ok, s')) :
    s'.twoPc = s.twoPc.step (· + 4) s.transfer := by
  obtain ⟨hpc, hlatch⟩ := stepInstruction_ok hstep
  simp only [State.twoPc, TwoPc.step, hpc, hlatch]

/-- A run of the interpreter is a run of the two-program-counter machine. -/
theorem run_two_pc {h : Host} {n : ℕ} {s t : State} (hrun : Run.Steps (executeStep h) n s t) :
    t.twoPc = s.twoPc.run (· + 4) (transfers h n s) := by
  induction hrun with
  | refl s => rfl
  | @head n s u t hs _ ih =>
    have hstep := executeStep_next hs
    rw [ih, step_two_pc hstep, transfers, TwoPc.run_cons, hstep]

/-- The emulator refines the two-program-counter machine step by step and over
runs: after a transfer to `target` at any point of a run, the next instruction
is the delay slot `nPC`, and the one after it is at `target`. -/
theorem pipeline_refines_two_pc (h : Host) :
    (∀ s s', stepInstruction h s = (.ok, s') →
      s'.twoPc = match s.transfer with
        | some target => ⟨s.twoPc.npc, target⟩
        | none => ⟨s.twoPc.npc, s.twoPc.npc + 4⟩) ∧
    (∀ n s t, Run.Steps (executeStep h) n s t →
      t.twoPc = s.twoPc.run (· + 4) (transfers h n s) ∧
      ∀ target slot after, t.transfer = some target → executeStep h t = .next slot →
        executeStep h slot = .next after → slot.pc = t.twoPc.npc ∧ after.pc = target) := by
  refine ⟨?_, ?_⟩
  · intro s s' hstep
    rw [step_two_pc hstep]
    cases s.transfer <;> rfl
  · intro n s t hrun
    refine ⟨run_two_pc hrun, ?_⟩
    intro target slot after ht hslot hafter
    have h1 := step_two_pc (executeStep_next hslot)
    have h2 := step_two_pc (executeStep_next hafter)
    rw [h1, ht] at h2
    exact ⟨congrArg TwoPc.pc h1, congrArg TwoPc.pc h2⟩

/-- `j 8` with a nop in its delay slot, run from address 0. -/
theorem pipeline_refines_two_pc_jump :
    let s := resetState (flatImage [0x08000002#32, 0, 0]) 0
    let slot := (stepInstruction nullHost s).2
    let after := (stepInstruction nullHost slot).2
    slot.twoPc.npc = 8 ∧ slot.pc = s.twoPc.npc ∧ after.pc = 8 := by
  intro s slot after
  obtain ⟨hstep, hrun⟩ := pipeline_refines_two_pc nullHost
  have h1 : stepInstruction nullHost s = (.ok, slot) := Prod.ext (by decide) rfl
  have h2 : stepInstruction nullHost slot = (.ok, after) := Prod.ext (by decide) rfl
  have ht : s.transfer = some 8 := by decide
  have hnpc := hstep s slot h1
  rw [ht] at hnpc
  refine ⟨congrArg TwoPc.npc hnpc, (hrun 0 s s (.refl s)).2 8 slot after ht ?_ ?_⟩
  · simp only [executeStep, h1]
  · simp only [executeStep, h2]

end MyMips
