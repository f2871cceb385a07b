import MyMips.Lib.Run
import MyMips.Syscalls
import MyMips.Fpu

namespace MyMips

/-- The common exit of an executor's switch: `glob->reg[R0] = 0; return 0;`. -/
def retire (s : State) : Ret × State := (.ok, s.setReg R0 0)

@[simp] theorem retire_fst (s : State) : (retire s).1 = .ok := rfl
@[simp] theorem retire_snd (s : State) : (retire s).2 = s.setReg R0 0 := rfl

/-- A state with `$0` clear survives the executors' clearing of it. -/
theorem setReg_R0_self {s : State} (h0 : s.reg R0 = 0) : s.setReg R0 0 = s := by
  have hreg : Function.update s.reg R0 0 = s.reg := by
    rw [← h0]
    exact Function.update_eq_self _ _
  rw [State.setReg, hreg]

def flag (c : Bool) : Word := if c then 1 else 0

def execRegister (i : Word) (s : State) : Ret × State :=
  match special i with
  | some .ADD => retire (add i s)
  | some .SUB => retire (sub i s)
  | some .ADDU => retire (s.setReg (rd i) (s.reg (rs i) + s.reg (rt i)))
  | some .SUBU => retire (s.setReg (rd i) (s.reg (rs i) - s.reg (rt i)))
  | some .MULT => retire (mult i s)
  | some .MULTU => retire (multu i s)
  | some .DIV =>
    match div i s with
    | some s' => retire s'
    | none => (.trap, s)
  | some .DIVU => retire (divu i s)
  | some .AND => retire (s.setReg (rd i) (s.reg (rs i) &&& s.reg (rt i)))
  | some .OR => retire (s.setReg (rd i) (s.reg (rs i) ||| s.reg (rt i)))
  | some .XOR => retire (s.setReg (rd i) (s.reg (rs i) ^^^ s.reg (rt i)))
  | some .NOR => retire (s.setReg (rd i) (~~~(s.reg (rs i) ||| s.reg (rt i))))
  | some .SLT => retire (s.setReg (rd i) (flag ((s.reg (rs i)).slt (s.reg (rt i)))))
  | some .SLTU => retire (s.setReg (rd i) (flag ((s.reg (rs i)).ult (s.reg (rt i)))))
  | some .SLL => retire (s.setReg (rd i) (s.reg (rt i) <<< (shamt i).toNat))
  | some .SRL => retire (s.setReg (rd i) (s.reg (rt i) >>> (shamt i).toNat))
  | some .SRA => retire (s.setReg (rd i) ((s.reg (rt i)).sshiftRight (shamt i).toNat))
  | some .SLLV =>
    retire (s.setReg (rd i) (s.reg (rt i) <<< (s.reg (rs i) &&& 0x1F#32).toNat))
  | some .SRLV =>
    retire (s.setReg (rd i) (s.reg (rt i) >>> (s.reg (rs i) &&& 0x1F#32).toNat))
  | some .SRAV =>
    retire (s.setReg (rd i) ((s.reg (rt i)).sshiftRight (s.reg (rs i) &&& 0x1F#32).toNat))
  | some .MFHI => retire (s.setReg (rd i) s.hi)
  | some .MFLO => retire (s.setReg (rd i) s.lo)
  | some .MTHI => retire { s with hi := s.reg (rs i) }
  | some .MTLO => retire { s with lo := s.reg (rs i) }
  | some .MOVZ =>
    retire (if s.reg (rt i) = 0 then s.setReg (rd i) (s.reg (rs i)) else s)
  | some .MOVN =>
    retire (if s.reg (rt i) ≠ 0 then s.setReg (rd i) (s.reg (rs i)) else s)
  | some .JR => retire (s.scheduleBranch (s.reg (rs i)))
  | some .JALR =>
    -- The link is written before the target is read.
    let s := s.setReg (rd i) (s.pc + 8)
    retire (s.scheduleBranch (s.reg (rs i)))
  | some .SYSCALL | some .BREAK | none => (.err, s)

def branchIf (c : Bool) (i : Word) (s : State) : State :=
  if c then s.scheduleBranch (branchDest i s) else s

def execRegimm (i : Word) (s : State) : State :=
  let negative := (s.reg (rs i)).slt 0
  let take := if regimm i = some .BGEZ ∨ regimm i = some .BGEZAL then !negative else negative
  let s := if regimm i = some .BGEZAL ∨ regimm i = some .BLTZAL then s.setReg RA (s.pc + 8)
    else s
  branchIf take i s

def execImmediate (h : Host) (i : Word) (s : State) : Ret × State :=
  match opcode i with
  | some .ADDI => retire (addi i s)
  | some .ADDIU => retire (s.setReg (rt i) (s.reg (rs i) + simm i))
  | some .ANDI => retire (s.setReg (rt i) (s.reg (rs i) &&& (imm16 i).setWidth 32))
  | some .ORI => retire (s.setReg (rt i) (s.reg (rs i) ||| (imm16 i).setWidth 32))
  | some .XORI => retire (s.setReg (rt i) (s.reg (rs i) ^^^ (imm16 i).setWidth 32))
  | some .SLTI => retire (s.setReg (rt i) (flag ((s.reg (rs i)).slt (simm i))))
  | some .SLTIU => retire (s.setReg (rt i) (flag ((s.reg (rs i)).ult (simm i))))
  | some .LUI => retire (s.setReg (rt i) ((imm16 i).setWidth 32 <<< 16))
  | some .BEQ => retire (branchIf (s.reg (rs i) == s.reg (rt i)) i s)
  | some .BNE => retire (branchIf (s.reg (rs i) != s.reg (rt i)) i s)
  | some .BGTZ => retire (branchIf (BitVec.slt 0 (s.reg (rs i))) i s)
  | some .BLEZ => retire (branchIf ((s.reg (rs i)).sle 0) i s)
  | some .OP_REGIMM => retire (execRegimm i s)
  | some .LB =>
    retire (s.setReg (rt i) (((loadByte (memAddr i s) s).setWidth 8).signExtend 32))
  | some .LBU => retire (s.setReg (rt i) (loadByte (memAddr i s) s))
  | some .LH =>
    retire (s.setReg (rt i) (((loadHalf (memAddr i s) s).setWidth 16).signExtend 32))
  | some .LHU => retire (s.setReg (rt i) (loadHalf (memAddr i s) s))
  | some .LW =>
    let r := loadWord h (memAddr i s) s
    retire (r.2.setReg (rt i) r.1)
  | some .LWL =>
    let a := memAddr i s
    let r := loadWord h (a &&& ~~~3#32) s
    let sh := 24 - 8 * (a &&& 3#32)
    retire (r.2.setReg (rt i) ((r.1 <<< sh) ||| (r.2.reg (rt i) &&& ((1#32 <<< sh) - 1))))
  | some .LWR =>
    let a := memAddr i s
    let r := loadWord h (a &&& ~~~3#32) s
    let sh := 8 * (a &&& 3#32)
    retire (r.2.setReg (rt i)
      ((r.1 >>> sh) ||| (r.2.reg (rt i) &&& ~~~(0xFFFFFFFF#32 >>> sh))))
  | some .SB => retire (storeByte (memAddr i s) (s.reg (rt i)) s)
  | some .SH => retire (storeHalf (memAddr i s) (s.reg (rt i)) s)
  | some .SW => retire (storeWord h (memAddr i s) (s.reg (rt i)) s)
  | some .SWL =>
    let a := memAddr i s
    let al := a &&& ~~~3#32
    let sh := 24 - 8 * (a &&& 3#32)
    let r := loadWord h al s
    retire (storeWord h al
      ((s.reg (rt i) >>> sh) ||| (r.1 &&& ~~~(0xFFFFFFFF#32 >>> sh))) r.2)
  | some .SWR =>
    let a := memAddr i s
    let al := a &&& ~~~3#32
    let sh := 8 * (a &&& 3#32)
    let r := loadWord h al s
    retire (storeWord h al
      ((s.reg (rt i) <<< sh) ||| (r.1 &&& ((1#32 <<< sh) - 1))) r.2)
  | some .OP_SPECIAL | some .OP_COP1 | some .OP_SPECIAL2 | some .LWC1 | some .LDC1
  | some .SWC1 | some .SDC1 | some .J | some .JAL | none => (.err, s)

def execJump (i : Word) (s : State) : Ret × State :=
  let target := (s.pc &&& 0xF0000000#32) ||| (target26 i <<< 2)
  match opcode i with
  | some .J => (.ok, s.scheduleBranch target)
  | some .JAL => (.ok, (s.setReg RA (s.pc + 8)).scheduleBranch target)
  | _ => (.err, s)

def State.acc (s : State) : DWord := s.hi ++ s.lo

/-- The CLZ loop; the first argument counts the iterations `n < 32` still allows. -/
def clzLoop : ℕ → Word → Word → Word
  | 0, n, _ => n
  | k + 1, n, v => if v &&& 0x80000000#32 = 0 then clzLoop k (n + 1) (v <<< 1) else n

def cloLoop : ℕ → Word → Word → Word
  | 0, n, _ => n
  | k + 1, n, v => if v &&& 0x80000000#32 ≠ 0 then cloLoop k (n + 1) (v <<< 1) else n

def execSpecial2 (i : Word) (s : State) : Ret × State :=
  let a := s.reg (rs i)
  let b := s.reg (rt i)
  match special2 i with
  | some .MUL => retire (s.setReg (rd i) (a * b))
  | some .MADD => retire (s.setHiLo (s.acc + a.signExtend 64 * b.signExtend 64))
  | some .MADDU => retire (s.setHiLo (s.acc + a.setWidth 64 * b.setWidth 64))
  | some .MSUB => retire (s.setHiLo (s.acc - a.signExtend 64 * b.signExtend 64))
  | some .MSUBU => retire (s.setHiLo (s.acc - a.setWidth 64 * b.setWidth 64))
  | some .CLZ => retire (s.setReg (rd i) (clzLoop 32 0 a))
  | some .CLO => retire (s.setReg (rd i) (cloLoop 32 0 a))
  | none => (.err, s)

def execInst (h : Host) (i : Word) (s : State) : Ret × State :=
  if i = 0 then (.ok, s)
  else if opcode i = some .OP_SPECIAL ∧ special i = some .SYSCALL then
    let r := callSyscall h s
    (if r.1 then .stop else .ok, r.2)
  else if opcode i = some .OP_SPECIAL ∧ special i = some .BREAK then
    (.stop, s.setReg K0 1)
  else
    match opcode i with
    | some .OP_SPECIAL => execRegister i s
    | some .OP_SPECIAL2 => execSpecial2 i s
    | some .OP_COP1 => execCop1 h.fp i s
    | some .LWC1 | some .LDC1 | some .SWC1 | some .SDC1 => execCop1Ldst h i s
    | some .J | some .JAL => execJump i s
    | _ => execImmediate h i s

/-- The routes of `exec_inst`: what holds of every executor it can call holds of it. -/
theorem execInst_rule (h : Host) {i : Word} {s : State} {P : Ret × State → Prop}
    (hnop : i = 0 → P (.ok, s))
    (hsyscall : opcode i = some .OP_SPECIAL → special i = some .SYSCALL →
      P (if (callSyscall h s).1 then .stop else .ok, (callSyscall h s).2))
    (hbreak : opcode i = some .OP_SPECIAL → special i = some .BREAK → P (.stop, s.setReg K0 1))
    (hregister : opcode i = some .OP_SPECIAL → special i ≠ some .SYSCALL →
      special i ≠ some .BREAK → P (execRegister i s))
    (hspecial2 : opcode i = some .OP_SPECIAL2 → P (execSpecial2 i s))
    (hcop1 : opcode i = some .OP_COP1 → P (execCop1 h.fp i s))
    (hldst : opcode i = some .LWC1 ∨ opcode i = some .LDC1 ∨ opcode i = some .SWC1 ∨
      opcode i = some .SDC1 → P (execCop1Ldst h i s))
    (hjump : opcode i = some .J ∨ opcode i = some .JAL → P (execJump i s))
    (himm : (∀ o ∈ [Opcode.OP_SPECIAL, .OP_SPECIAL2, .OP_COP1, .LWC1, .LDC1, .SWC1, .SDC1, .J,
      .JAL], opcode i ≠ some o) → P (execImmediate h i s)) : P (execInst h i s) := by
  unfold execInst
  split_ifs with hz hs hb
  · exact hnop hz
  · exact hsyscall hs.1 hs.2
  · exact hbreak hb.1 hb.2
  · cases ho : opcode i with
    | none => exact himm (by simp [ho])
    | some o =>
      cases o with
      | OP_SPECIAL => exact hregister ho (fun hf => hs ⟨ho, hf⟩) fun hf => hb ⟨ho, hf⟩
      | OP_SPECIAL2 => exact hspecial2 ho
      | OP_COP1 => exact hcop1 ho
      | LWC1 | LDC1 | SWC1 | SDC1 => exact hldst (by simp [ho])
      | J | JAL => exact hjump (by simp [ho])
      | _ => exact himm (by rw [ho]; decide)

/-- Outside the SPECIAL group the opcode alone routes an instruction. -/
theorem execInst_of_opcode (h : Host) {i : Word} {o : Opcode} (ho : opcode i = some o)
    (hs : o ≠ .OP_SPECIAL) (s : State) :
    execInst h i s = match o with
      | .OP_SPECIAL2 => execSpecial2 i s
      | .OP_COP1 => execCop1 h.fp i s
      | .LWC1 | .LDC1 | .SWC1 | .SDC1 => execCop1Ldst h i s
      | .J | .JAL => execJump i s
      | _ => execImmediate h i s := by
  have hz : i ≠ 0 := by
    rintro rfl
    have hzero : opcode 0 = some .OP_SPECIAL := by decide
    exact hs (Option.some.inj (ho.symm.trans hzero))
  have hgroup : opcode i ≠ some .OP_SPECIAL := fun he => hs (Option.some.inj (ho.symm.trans he))
  have hneither (f : Special) : ¬ (opcode i = some .OP_SPECIAL ∧ special i = some f) :=
    fun hc => hgroup hc.1
  rw [execInst, if_neg hz, if_neg (hneither _), if_neg (hneither _)]
  cases o with
  | OP_SPECIAL => exact absurd rfl hs
  | _ => simp only [ho]

/-- In the SPECIAL group the function code does, SYSCALL, BREAK and the nop aside. -/
theorem execInst_register (h : Host) {i : Word} {f : Special} (h0 : i ≠ 0)
    (ho : opcode i = some .OP_SPECIAL) (hf : special i = some f) (hs : f ≠ .SYSCALL)
    (hb : f ≠ .BREAK) (s : State) : execInst h i s = execRegister i s := by
  have hs' : special i ≠ some .SYSCALL := by simp [hf, hs]
  have hb' : special i ≠ some .BREAK := by simp [hf, hb]
  simp only [execInst, if_neg h0, hs', hb', and_false, if_false, ho]

def stepInstruction (h : Host) (s : State) : Ret × State :=
  let instru := wordAt s.memory s.pc
  let take := s.branchPending
  let target := s.branchTarget
  let r := execInst h instru { s with branchPending := false }
  match r.1 with
  | .ok =>
    let s' := { r.2 with pc := r.2.pc + 4 }
    (.ok, if take then { s' with pc := target } else s')
  | ret => (ret, r.2)

/-- A step is the execution of the word at `pc` with the latch cleared, except for the
program counter it leaves. -/
theorem stepInstruction_frame (h : Host) (s : State) :
    let r := execInst h (wordAt s.memory s.pc) { s with branchPending := false }
    ∃ pc, stepInstruction h s = (r.1, { r.2 with pc := pc }) := by
  intro r
  rw [stepInstruction]
  rcases hr : r with ⟨_ | _ | _ | _, t⟩ <;> simp only [r] at hr <;> rw [hr]
  · dsimp only
    split
    · exact ⟨_, rfl⟩
    · exact ⟨_, rfl⟩
  all_goals exact ⟨t.pc, rfl⟩

/-- One turn of the loop of `execute`, which returns 1 on an error and 0 on a
clean stop. -/
def executeStep (h : Host) (s : State) : Outcome (ℕ × State) State :=
  match stepInstruction h s with
  | (.ok, s') => .next s'
  | (.err, s') => .done (1, s')
  | (.stop, s') => .done (0, s')
  | (.trap, _) => .crash

theorem executeStep_of_ok {h : Host} {s : State} (hok : (stepInstruction h s).1 = .ok) :
    executeStep h s = .next (stepInstruction h s).2 := by
  unfold executeStep
  rcases hs : stepInstruction h s with ⟨ret, t⟩
  rw [hs] at hok
  subst hok
  rfl

theorem executeStep_of_stop {h : Host} {s : State} (hstop : (stepInstruction h s).1 = .stop) :
    executeStep h s = .done (0, (stepInstruction h s).2) := by
  unfold executeStep
  rcases hs : stepInstruction h s with ⟨ret, t⟩
  rw [hs] at hstop
  subst hstop
  rfl

theorem executeStep_next {h : Host} {s s' : State} (hs : executeStep h s = .next s') :
    stepInstruction h s = (.ok, s') := by
  unfold executeStep at hs
  split at hs <;> simp_all

theorem executeStep_done {h : Host} {s : State} {r : ℕ × State}
    (hs : executeStep h s = .done r) : (stepInstruction h s).2 = r.2 := by
  unfold executeStep at hs
  split at hs <;> simp_all
  all_goals rw [← hs]

/-- `execute()`, run for at most `n` instructions. -/
def execute (h : Host) (n : ℕ) (s : State) : Option (ℕ × State) :=
  Run.run (executeStep h) n s

end MyMips
