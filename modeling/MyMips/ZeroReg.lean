import MyMips.ExecFrame

namespace MyMips

section
variable (h : Host) (u : FpUnit) (i : Word) (s : State)

@[simp] theorem retire_reg_zero : (retire s).2.reg 0 = 0 := by
  rw [retire_snd]
  exact State.setReg_reg_self s R0 0

theorem execRegister_reg_zero (h0 : s.reg 0 = 0) : (execRegister i s).2.reg 0 = 0 := by
  cases hf : special i with
  | none => simpa only [execRegister, hf] using h0
  | some f =>
    cases f with
    | SYSCALL | BREAK => simpa only [execRegister, hf] using h0
    | DIV =>
      cases hd : div i s with
      | none => simpa only [execRegister, hf, hd] using h0
      | some s' => simp only [execRegister, hf, hd, retire_reg_zero]
    | _ => simp only [execRegister, hf, retire_reg_zero]

theorem execImmediate_reg_zero (h0 : s.reg 0 = 0) : (execImmediate h i s).2.reg 0 = 0 := by
  cases ho : opcode i with
  | none => simpa only [execImmediate, ho] using h0
  | some o =>
    cases o with
    | OP_SPECIAL | OP_COP1 | OP_SPECIAL2 | LWC1 | LDC1 | SWC1 | SDC1 | J | JAL =>
      simpa only [execImmediate, ho] using h0
    | _ => simp only [execImmediate, ho, retire_reg_zero]

theorem execSpecial2_reg_zero (h0 : s.reg 0 = 0) : (execSpecial2 i s).2.reg 0 = 0 := by
  cases hf : special2 i with
  | none => simpa only [execSpecial2, hf] using h0
  | some f => cases f <;> simp only [execSpecial2, hf, retire_reg_zero]

/-- The jumps skip the clear: their link register is `$ra`. -/
theorem execJump_reg_zero (h0 : s.reg 0 = 0) : (execJump i s).2.reg 0 = 0 := by
  have hra : (s.setReg RA (s.pc + 8)).reg 0 = 0 := by
    rw [State.setReg_reg_of_ne _ _ _ _ (by decide), h0]
  cases ho : opcode i with
  | none => simpa only [execJump, ho] using h0
  | some o =>
    cases o with
    | JAL => simpa only [execJump, ho, State.scheduleBranch] using hra
    | _ => simpa only [execJump, ho, State.scheduleBranch] using h0

theorem fpSingle_reg : (fpSingle u i s).2.reg = s.reg := by
  obtain ⟨f, c, he⟩ := fpSingle_frame u i s
  rw [he]

theorem fpDouble_reg : (fpDouble u i s).2.reg = s.reg := by
  obtain ⟨f, c, he⟩ := fpDouble_frame u i s
  rw [he]

theorem fpWord_reg : (fpWord u i s).2.reg = s.reg := by
  obtain ⟨f, c, he⟩ := fpWord_frame u i s
  rw [he]

theorem execCop1_reg_zero (h0 : s.reg 0 = 0) : (execCop1 u i s).2.reg 0 = 0 := by
  cases hf : fmt i with
  | none => simpa only [execCop1, hf] using h0
  | some f =>
    cases f with
    | MFC1 =>
      simp only [execCop1, hf]
      exact State.setReg_reg_self _ R0 0
    | MTC1 => simpa only [execCop1, hf, State.setFpr_reg] using h0
    | BC1 =>
      simp only [execCop1, hf]
      split <;> exact h0
    | S => simpa only [execCop1, hf, fpSingle_reg] using h0
    | D => simpa only [execCop1, hf, fpDouble_reg] using h0
    | W => simpa only [execCop1, hf, fpWord_reg] using h0

theorem execCop1Ldst_reg : (execCop1Ldst h i s).2.reg = s.reg := by
  obtain ⟨f, c, m, r, k, e, he⟩ := execCop1Ldst_frame h i s
  rw [he]

/-- A syscall's result register is `$v0`. -/
theorem callSyscall_reg_zero (h0 : s.reg 0 = 0) : (callSyscall h s).2.reg 0 = 0 := by
  obtain ⟨v, m, e, he⟩ := callSyscall_frame h s
  have hv : (0 : Reg) ≠ V0 := by decide
  rw [he]
  simpa only [Function.update_of_ne hv] using h0

/-- No instruction word, decodable or not, leaves anything but zero in `$0`. -/
theorem execInst_reg_zero (h0 : s.reg 0 = 0) : (execInst h i s).2.reg 0 = 0 := by
  apply execInst_rule h (P := fun r => r.2.reg 0 = 0)
  case hnop => exact fun _ => h0
  case hsyscall => exact fun _ _ => callSyscall_reg_zero h s h0
  case hbreak =>
    intro _ _
    have hk : (0 : Reg) ≠ K0 := by decide
    rw [State.setReg_reg_of_ne _ _ _ _ hk, h0]
  case hregister => exact fun _ _ _ => execRegister_reg_zero i s h0
  case hspecial2 => exact fun _ => execSpecial2_reg_zero i s h0
  case hcop1 => exact fun _ => execCop1_reg_zero h.fp i s h0
  case hldst =>
    intro _
    rw [execCop1Ldst_reg, h0]
  case hjump => exact fun _ => execJump_reg_zero i s h0
  case himm => exact fun _ => execImmediate_reg_zero h i s h0

theorem stepInstruction_reg_zero (h0 : s.reg 0 = 0) : (stepInstruction h s).2.reg 0 = 0 := by
  obtain ⟨pc, hstep⟩ := stepInstruction_frame h s
  rw [hstep]
  exact execInst_reg_zero h _ { s with branchPending := false } h0

end

end MyMips
