import MyMips.Cpu

namespace MyMips

section arith
variable (i : Word) (s : State)

theorem add_frame : ∃ reg, add i s = { s with reg := reg } := by
  unfold add
  dsimp only
  split_ifs <;> exact ⟨_, rfl⟩

theorem sub_frame : ∃ reg, sub i s = { s with reg := reg } := by
  unfold sub
  dsimp only
  split_ifs <;> exact ⟨_, rfl⟩

theorem addi_frame : ∃ reg, addi i s = { s with reg := reg } := by
  unfold addi
  dsimp only
  split_ifs <;> exact ⟨_, rfl⟩

theorem div_frame {t : State} (ht : div i s = some t) :
    ∃ hi lo, t = { s with hi := hi, lo := lo } := by
  unfold div at ht
  dsimp only at ht
  split_ifs at ht <;> cases ht
  · exact ⟨s.hi, s.lo, rfl⟩
  · exact ⟨_, _, rfl⟩

theorem divu_frame : ∃ hi lo, divu i s = { s with hi := hi, lo := lo } := by
  unfold divu
  dsimp only
  split_ifs
  · exact ⟨s.hi, s.lo, rfl⟩
  · exact ⟨_, _, rfl⟩

theorem branchIf_frame (c : Bool) :
    ∃ p t, branchIf c i s = { s with branchPending := p, branchTarget := t } := by
  cases c
  · exact ⟨s.branchPending, s.branchTarget, rfl⟩
  · exact ⟨_, _, rfl⟩

end arith

section executors
variable (h : Host) (u : FpUnit) (i : Word) (s : State)

theorem execRegister_frame : ∃ reg hi lo p t, (execRegister i s).2 =
    { s with reg := reg, hi := hi, lo := lo, branchPending := p, branchTarget := t } := by
  -- A word that is not decoded keeps every field.
  have hself : ∃ reg hi lo p t, s =
      { s with reg := reg, hi := hi, lo := lo, branchPending := p, branchTarget := t } :=
    ⟨s.reg, s.hi, s.lo, s.branchPending, s.branchTarget, rfl⟩
  cases hf : special i with
  | none => simpa only [execRegister, hf] using hself
  | some f =>
    cases f with
    | SYSCALL | BREAK => simpa only [execRegister, hf] using hself
    | ADD =>
      obtain ⟨reg, hadd⟩ := add_frame i s
      simp only [execRegister, hf, retire_snd, hadd]
      exact ⟨_, s.hi, s.lo, s.branchPending, s.branchTarget, rfl⟩
    | SUB =>
      obtain ⟨reg, hsub⟩ := sub_frame i s
      simp only [execRegister, hf, retire_snd, hsub]
      exact ⟨_, s.hi, s.lo, s.branchPending, s.branchTarget, rfl⟩
    | DIV =>
      cases hd : div i s with
      | none => simpa only [execRegister, hf, hd] using hself
      | some t =>
        obtain ⟨hi, lo, rfl⟩ := div_frame i s hd
        simp only [execRegister, hf, hd, retire_snd]
        exact ⟨_, hi, lo, s.branchPending, s.branchTarget, rfl⟩
    | DIVU =>
      obtain ⟨hi, lo, hdivu⟩ := divu_frame i s
      simp only [execRegister, hf, retire_snd, hdivu]
      exact ⟨_, hi, lo, s.branchPending, s.branchTarget, rfl⟩
    | MOVZ | MOVN =>
      simp only [execRegister, hf, retire_snd]
      split_ifs <;> exact ⟨_, s.hi, s.lo, s.branchPending, s.branchTarget, rfl⟩
    | _ =>
      simp only [execRegister, hf, retire_snd]
      exact ⟨_, _, _, _, _, rfl⟩

theorem execSpecial2_frame : ∃ reg hi lo, (execSpecial2 i s).2 =
    { s with reg := reg, hi := hi, lo := lo } := by
  cases hf : special2 i with
  | none =>
    simp only [execSpecial2, hf]
    exact ⟨s.reg, s.hi, s.lo, rfl⟩
  | some f => cases f <;> simp only [execSpecial2, hf, retire_snd] <;> exact ⟨_, _, _, rfl⟩

theorem execJump_frame : ∃ reg p t, (execJump i s).2 =
    { s with reg := reg, branchPending := p, branchTarget := t } := by
  cases ho : opcode i with
  | none =>
    simp only [execJump, ho]
    exact ⟨s.reg, s.branchPending, s.branchTarget, rfl⟩
  | some o => cases o <;> simp only [execJump, ho] <;> exact ⟨_, _, _, rfl⟩

theorem execImmediate_frame : ∃ reg p t m r k e, (execImmediate h i s).2 = { s with
    reg := reg
    branchPending := p
    branchTarget := t
    memory := m
    ready := r
    lastKey := k
    events := e } := by
  have hself : ∃ reg p t m r k e, s = { s with
      reg := reg
      branchPending := p
      branchTarget := t
      memory := m
      ready := r
      lastKey := k
      events := e } :=
    ⟨s.reg, s.branchPending, s.branchTarget, s.memory, s.ready, s.lastKey, s.events, rfl⟩
  cases ho : opcode i with
  | none => simpa only [execImmediate, ho] using hself
  | some o =>
    cases o with
    | OP_SPECIAL | OP_COP1 | OP_SPECIAL2 | LWC1 | LDC1 | SWC1 | SDC1 | J | JAL =>
      simpa only [execImmediate, ho] using hself
    | ADDI =>
      obtain ⟨reg, haddi⟩ := addi_frame i s
      simp only [execImmediate, ho, retire_snd, haddi]
      exact ⟨_, s.branchPending, s.branchTarget, s.memory, s.ready, s.lastKey, s.events, rfl⟩
    | BEQ | BNE | BGTZ | BLEZ =>
      simp only [execImmediate, ho, retire_snd]
      obtain ⟨p, t, hbranch⟩ := branchIf_frame i s _
      rw [hbranch]
      exact ⟨_, p, t, s.memory, s.ready, s.lastKey, s.events, rfl⟩
    | OP_REGIMM =>
      simp only [execImmediate, ho, retire_snd, execRegimm]
      split_ifs
      all_goals
        obtain ⟨p, t, hbranch⟩ := branchIf_frame i _ _
        rw [hbranch]
        exact ⟨_, p, t, s.memory, s.ready, s.lastKey, s.events, rfl⟩
    | LW | LWL | LWR =>
      simp only [execImmediate, ho, retire_snd]
      obtain ⟨k, e, hload⟩ := loadWord_frame h _ s
      rw [hload]
      exact ⟨_, s.branchPending, s.branchTarget, s.memory, s.ready, k, e, rfl⟩
    | SW =>
      simp only [execImmediate, ho, retire_snd]
      obtain ⟨m, r, k, e, hstore⟩ := storeWord_frame h (memAddr i s) (s.reg (rt i)) s
      rw [hstore]
      exact ⟨_, s.branchPending, s.branchTarget, m, r, k, e, rfl⟩
    | SWL | SWR =>
      -- The merge reads the aligned word before it stores it back.
      simp only [execImmediate, ho, retire_snd]
      obtain ⟨k, e, hload⟩ := loadWord_frame h (memAddr i s &&& ~~~3#32) s
      obtain ⟨m, r, k', e', hstore⟩ := storeWord_frame h _ _ (loadWord h _ s).2
      rw [hstore, hload]
      exact ⟨_, s.branchPending, s.branchTarget, m, r, k', e', rfl⟩
    | _ =>
      simp only [execImmediate, ho, retire_snd]
      exact ⟨_, s.branchPending, s.branchTarget, _, s.ready, s.lastKey, s.events, rfl⟩

theorem setd_frame (n : ℕ) (d : DWord) : ∃ f c, setd n d s = { s with fpr := f, fpCond := c } := by
  obtain ⟨f, c, hlow⟩ := s.setFpr_frame n (d.setWidth 32)
  obtain ⟨f', c', hhigh⟩ := (s.setFpr n (d.setWidth 32)).setFpr_frame (n + 1)
    ((d >>> 32).setWidth 32)
  rw [setd, hhigh, hlow]
  exact ⟨f', c', rfl⟩

theorem setCond_frame (c : Bool) : ∃ f c', setCond c s = { s with fpr := f, fpCond := c' } :=
  ⟨s.fpr, _, rfl⟩

theorem fpSingle_frame : ∃ f c, (fpSingle u i s).2 = { s with fpr := f, fpCond := c } := by
  cases hf : fpFunct i with
  | none =>
    simp only [fpSingle, hf]
    exact ⟨s.fpr, s.fpCond, rfl⟩
  | some f =>
    cases f <;> simp only [fpSingle, hf] <;> first
      | exact s.setFpr_frame _ _
      | exact setd_frame s _ _
      | exact setCond_frame s _
      | exact ⟨s.fpr, s.fpCond, rfl⟩

theorem fpDouble_frame : ∃ f c, (fpDouble u i s).2 = { s with fpr := f, fpCond := c } := by
  cases hf : fpFunct i with
  | none =>
    simp only [fpDouble, hf]
    exact ⟨s.fpr, s.fpCond, rfl⟩
  | some f =>
    cases f <;> simp only [fpDouble, hf] <;> first
      | exact s.setFpr_frame _ _
      | exact setd_frame s _ _
      | exact setCond_frame s _
      | exact ⟨s.fpr, s.fpCond, rfl⟩

theorem fpWord_frame : ∃ f c, (fpWord u i s).2 = { s with fpr := f, fpCond := c } := by
  cases hf : fpFunct i with
  | none =>
    simp only [fpWord, hf]
    exact ⟨s.fpr, s.fpCond, rfl⟩
  | some f =>
    cases f <;> simp only [fpWord, hf] <;> first
      | exact s.setFpr_frame _ _
      | exact setd_frame s _ _
      | exact ⟨s.fpr, s.fpCond, rfl⟩

theorem execCop1_frame : ∃ reg f c p t, (execCop1 u i s).2 =
    { s with reg := reg, fpr := f, fpCond := c, branchPending := p, branchTarget := t } := by
  -- All but MFC1 and BC1 stay within the register file of the unit.
  have hfloat {r : State} (hr : ∃ f c, r = { s with fpr := f, fpCond := c }) :
      ∃ reg f c p t, r =
        { s with reg := reg, fpr := f, fpCond := c, branchPending := p, branchTarget := t } := by
    obtain ⟨f, c, rfl⟩ := hr
    exact ⟨s.reg, f, c, s.branchPending, s.branchTarget, rfl⟩
  cases hf : fmt i with
  | none =>
    simp only [execCop1, hf]
    exact hfloat ⟨s.fpr, s.fpCond, rfl⟩
  | some c =>
    cases c with
    | MFC1 =>
      simp only [execCop1, hf]
      exact ⟨_, s.fpr, s.fpCond, s.branchPending, s.branchTarget, rfl⟩
    | MTC1 =>
      simp only [execCop1, hf]
      exact hfloat (s.setFpr_frame _ _)
    | BC1 =>
      simp only [execCop1, hf]
      split_ifs
      · exact ⟨s.reg, s.fpr, s.fpCond, _, _, rfl⟩
      · exact hfloat ⟨s.fpr, s.fpCond, rfl⟩
    | S =>
      simp only [execCop1, hf]
      exact hfloat (fpSingle_frame u i s)
    | D =>
      simp only [execCop1, hf]
      exact hfloat (fpDouble_frame u i s)
    | W =>
      simp only [execCop1, hf]
      exact hfloat (fpWord_frame u i s)

theorem execCop1Ldst_frame : ∃ f c m r k e, (execCop1Ldst h i s).2 =
    { s with fpr := f, fpCond := c, memory := m, ready := r, lastKey := k, events := e } := by
  cases ho : opcode i with
  | none =>
    simp only [execCop1Ldst, ho]
    exact ⟨s.fpr, s.fpCond, s.memory, s.ready, s.lastKey, s.events, rfl⟩
  | some o =>
    cases o with
    | LWC1 =>
      simp only [execCop1Ldst, ho]
      obtain ⟨k, e, hload⟩ := loadWord_frame h (memAddr i s) s
      obtain ⟨f, c, hset⟩ := (loadWord h (memAddr i s) s).2.setFpr_frame (ft i) _
      rw [hset, hload]
      exact ⟨f, c, s.memory, s.ready, k, e, rfl⟩
    | SWC1 =>
      simp only [execCop1Ldst, ho]
      obtain ⟨m, r, k, e, hstore⟩ := storeWord_frame h (memAddr i s) (s.getFpr (ft i)) s
      rw [hstore]
      exact ⟨s.fpr, s.fpCond, m, r, k, e, rfl⟩
    | LDC1 =>
      simp only [execCop1Ldst, ho]
      obtain ⟨k, e, hload⟩ := loadWord_frame h (memAddr i s) s
      obtain ⟨f, c, hset⟩ := (loadWord h (memAddr i s) s).2.setFpr_frame (ft i) _
      rw [hset, hload]
      obtain ⟨k', e', hload'⟩ := loadWord_frame h (memAddr i s + 4) _
      rw [hload']
      obtain ⟨f', c', hset'⟩ := State.setFpr_frame _ (ft i + 1) _
      rw [hset']
      exact ⟨f', c', s.memory, s.ready, k', e', rfl⟩
    | SDC1 =>
      simp only [execCop1Ldst, ho]
      obtain ⟨m, r, k, e, hstore⟩ := storeWord_frame h (memAddr i s) (s.getFpr (ft i)) s
      rw [hstore]
      obtain ⟨m', r', k', e', hstore'⟩ := storeWord_frame h (memAddr i s + 4) _ _
      rw [hstore']
      exact ⟨s.fpr, s.fpCond, m', r', k', e', rfl⟩
    | _ =>
      simp only [execCop1Ldst, ho]
      exact ⟨s.fpr, s.fpCond, s.memory, s.ready, s.lastKey, s.events, rfl⟩

/-- Only `step_instruction` moves the program counter. -/
theorem execInst_pc : (execInst h i s).2.pc = s.pc := by
  apply execInst_rule h (P := fun r => r.2.pc = s.pc)
  case hnop => exact fun _ => rfl
  case hsyscall =>
    intro _ _
    obtain ⟨v, m, e, he⟩ := callSyscall_frame h s
    simp only [he]
  case hbreak => exact fun _ _ => rfl
  case hregister =>
    intro _ _ _
    obtain ⟨reg, hi, lo, p, t, he⟩ := execRegister_frame i s
    simp only [he]
  case hspecial2 =>
    intro _
    obtain ⟨reg, hi, lo, he⟩ := execSpecial2_frame i s
    simp only [he]
  case hcop1 =>
    intro _
    obtain ⟨reg, f, c, p, t, he⟩ := execCop1_frame h.fp i s
    simp only [he]
  case hldst =>
    intro _
    obtain ⟨f, c, m, r, k, e, he⟩ := execCop1Ldst_frame h i s
    simp only [he]
  case hjump =>
    intro _
    obtain ⟨reg, p, t, he⟩ := execJump_frame i s
    simp only [he]
  case himm =>
    intro _
    obtain ⟨reg, p, t, m, r, k, e, he⟩ := execImmediate_frame h i s
    simp only [he]

end executors

end MyMips
