import MyMips.DecodeDomain

namespace MyMips

abbrev IsSpecial (f : Special) (i : Word) : Prop :=
  opcode i = some .OP_SPECIAL ∧ special i = some f

abbrev DivTraps (i : Word) (s : State) : Prop :=
  s.reg (rs i) = 0x80000000#32 ∧ s.reg (rt i) = 0xFFFFFFFF#32

abbrev Implemented (s : State) : Prop := (Switch.select Syscall (s.reg V0)).isSome

abbrev Exits (s : State) : Prop := s.reg V0 = 10 ∨ s.reg V0 = 17

def retCode (i : Word) (s : State) : Ret :=
  if rejected i then .err
  else if IsSpecial .BREAK i then .stop
  else if IsSpecial .SYSCALL i then if Exits s ∨ ¬ Implemented s then .stop else .ok
  else if IsSpecial .DIV i ∧ DivTraps i s then .trap
  else .ok

section ret
variable (h : Host) (u : FpUnit) (i : Word) (s : State)

theorem callSyscall_stops : (callSyscall h s).1 = true ↔ Exits s ∨ ¬ Implemented s := by
  have hcode {n : Syscall} (hn : Switch.select Syscall (s.reg V0) = some n) :
      s.reg V0 = SwitchLabels.code n := (Switch.code_of_select hn).symm
  unfold callSyscall
  cases hn : Switch.select Syscall (s.reg V0) with
  | none => simp [Implemented, hn]
  | some n => cases n <;> simp [Implemented, Exits, hcode hn] <;> decide

theorem div_eq_none : div i s = none ↔ DivTraps i s := by
  unfold div
  dsimp only
  split_ifs with h0 ht
  · -- A zero divisor is not -1.
    have hne : ¬ DivTraps i s := fun hd => absurd (h0.symm.trans hd.2) (by decide)
    simp [hne]
  · exact ⟨fun _ => ht, fun _ => rfl⟩
  · exact ⟨fun hs => absurd hs (by simp), fun hd => absurd hd ht⟩

/-- What every executor but the division returns: go on, or a decode error. -/
abbrev Proceeds (r : Ret) : Prop := r = .ok ∨ r = .err

theorem execRegister_proceeds (hf : special i ≠ some .DIV) : Proceeds (execRegister i s).1 := by
  cases hs : special i with
  | none => exact .inr (by simp only [execRegister, hs])
  | some f =>
    cases f with
    | DIV => exact absurd hs hf
    | SYSCALL | BREAK => exact .inr (by simp only [execRegister, hs])
    | _ => exact .inl (by simp only [execRegister, hs, retire_fst])

theorem execSpecial2_proceeds : Proceeds (execSpecial2 i s).1 := by
  cases hs : special2 i with
  | none => exact .inr (by simp only [execSpecial2, hs])
  | some f => cases f <;> exact .inl (by simp only [execSpecial2, hs, retire_fst])

theorem execImmediate_proceeds : Proceeds (execImmediate h i s).1 := by
  unfold execImmediate
  split <;> first | exact .inl rfl | exact .inr rfl

theorem execJump_proceeds : Proceeds (execJump i s).1 := by
  unfold execJump
  dsimp only
  split <;> first | exact .inl rfl | exact .inr rfl

theorem fpSingle_proceeds : Proceeds (fpSingle u i s).1 := by
  unfold fpSingle
  split <;> first | exact .inl rfl | exact .inr rfl

theorem fpDouble_proceeds : Proceeds (fpDouble u i s).1 := by
  unfold fpDouble
  split <;> first | exact .inl rfl | exact .inr rfl

theorem fpWord_proceeds : Proceeds (fpWord u i s).1 := by
  unfold fpWord
  split <;> first | exact .inl rfl | exact .inr rfl

theorem execCop1_proceeds : Proceeds (execCop1 u i s).1 := by
  cases hc : fmt i with
  | none => exact .inr (by simp only [execCop1, hc])
  | some c =>
    cases c with
    | MFC1 | MTC1 | BC1 => exact .inl (by simp only [execCop1, hc])
    | S => simpa only [execCop1, hc] using fpSingle_proceeds u i s
    | D => simpa only [execCop1, hc] using fpDouble_proceeds u i s
    | W => simpa only [execCop1, hc] using fpWord_proceeds u i s

theorem execCop1Ldst_proceeds : Proceeds (execCop1Ldst h i s).1 := by
  unfold execCop1Ldst
  split <;> first | exact .inl rfl | exact .inr rfl

/-- Outside the three special cases an instruction proceeds. -/
theorem execInst_proceeds (hs : ¬ IsSpecial .SYSCALL i) (hb : ¬ IsSpecial .BREAK i)
    (hd : ¬ IsSpecial .DIV i) : Proceeds (execInst h i s).1 := by
  apply execInst_rule h (P := fun r => Proceeds r.1)
  case hnop => exact fun _ => .inl rfl
  case hsyscall => exact fun ho hf => absurd ⟨ho, hf⟩ hs
  case hbreak => exact fun ho hf => absurd ⟨ho, hf⟩ hb
  case hregister => exact fun ho _ _ => execRegister_proceeds i s fun hf => hd ⟨ho, hf⟩
  case hspecial2 => exact fun _ => execSpecial2_proceeds i s
  case hcop1 => exact fun _ => execCop1_proceeds h.fp i s
  case hldst => exact fun _ => execCop1Ldst_proceeds h i s
  case hjump => exact fun _ => execJump_proceeds i s
  case himm => exact fun _ => execImmediate_proceeds h i s

theorem ne_zero_of_isSpecial {f : Special} (hf : IsSpecial f i) (hne : f ≠ .SLL) : i ≠ 0 := by
  rintro rfl
  have hzero : special 0 = some .SLL := by decide
  exact hne (Option.some.inj (hf.2.symm.trans hzero))

/-- A SPECIAL word other than the nop reaches its case. -/
theorem execInst_special {f : Special} (hf : IsSpecial f i) (hne : f ≠ .SLL) :
    execInst h i s =
      if f = .SYSCALL then (if (callSyscall h s).1 then .stop else .ok, (callSyscall h s).2)
      else if f = .BREAK then (.stop, s.setReg K0 1)
      else execRegister i s := by
  have hz := ne_zero_of_isSpecial i hf hne
  simp only [execInst, if_neg hz, hf.1, hf.2, Option.some.injEq, true_and]

/-- Apart from SYSCALL and BREAK that case is the one of `exec_register`. -/
theorem execInst_isSpecial {f : Special} (hf : IsSpecial f i) (hne : f ≠ .SLL)
    (hc : f ≠ .SYSCALL) (hb : f ≠ .BREAK) : execInst h i s = execRegister i s :=
  execInst_register h (ne_zero_of_isSpecial i hf hne) hf.1 hf.2 hc hb s

/-- The return code of every instruction, in every state. -/
theorem execInst_ret : (execInst h i s).1 = retCode i s := by
  have herr := execInst_err h i s
  unfold retCode
  split_ifs with hr hb hc hx hd
  · exact herr.mpr hr
  · rw [execInst_special h i s hb (by decide)]
    rfl
  · rw [execInst_special h i s hc (by decide)]
    simp [(callSyscall_stops h s).mpr hx]
  · rw [execInst_special h i s hc (by decide)]
    simp [Bool.eq_false_iff.mpr (mt (callSyscall_stops h s).mp hx)]
  · rw [execInst_special h i s hd.1 (by decide)]
    simp [execRegister, hd.1.2, (div_eq_none i s).mpr hd.2]
  · by_cases hi : IsSpecial .DIV i
    · have hsome : div i s ≠ none := fun hn => hd ⟨hi, (div_eq_none i s).mp hn⟩
      rw [execInst_isSpecial h i s hi (by decide) (by decide) (by decide)]
      obtain ⟨t, ht⟩ := Option.ne_none_iff_exists'.mp hsome
      simp [execRegister, hi.2, ht]
    · exact (execInst_proceeds h i s hc hb hi).resolve_right (mt herr.mp hr)

end ret

def State.instr (s : State) : Word := wordAt s.memory s.pc

section outcome
variable (h : Host) (t : State)

end outcome

end MyMips
