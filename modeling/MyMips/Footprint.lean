import MyMips.RunOutcome
import MyMips.GuestMemory

namespace MyMips

/-- The parts of the state that may change. Neither the floating-point registers, nor
their condition flag, nor `pc` can be among them. -/
structure Footprint where
  regs : List Reg
  hiLo : Bool
  latch : Bool
  bytes : List Word
  device : Bool

namespace Footprint

structure Frames (f : Footprint) (s t : State) : Prop where
  reg : ∀ n, n ∉ f.regs → t.reg n = s.reg n
  hiLo : f.hiLo = false → t.hi = s.hi ∧ t.lo = s.lo
  latch : f.latch = false → t.branchPending = s.branchPending ∧ t.branchTarget = s.branchTarget
  memory : ∀ x, x ∉ f.bytes → t.memory x = s.memory x
  device : f.device = false →
    t.ready = s.ready ∧ t.lastKey = s.lastKey ∧ t.events = s.events
  fpr : t.fpr = s.fpr
  fpCond : t.fpCond = s.fpCond
  pc : t.pc = s.pc

namespace Frames
variable {f : Footprint} {s t u : State}

theorem refl (f : Footprint) (s : State) : f.Frames s s where
  reg _ _ := rfl
  hiLo _ := ⟨rfl, rfl⟩
  latch _ := ⟨rfl, rfl⟩
  memory _ _ := rfl
  device _ := ⟨rfl, rfl, rfl⟩
  fpr := rfl
  fpCond := rfl
  pc := rfl

theorem trans (hst : f.Frames s t) (htu : f.Frames t u) : f.Frames s u where
  reg n hn := (htu.reg n hn).trans (hst.reg n hn)
  hiLo hf := ⟨(htu.hiLo hf).1.trans (hst.hiLo hf).1, (htu.hiLo hf).2.trans (hst.hiLo hf).2⟩
  latch hf := ⟨(htu.latch hf).1.trans (hst.latch hf).1, (htu.latch hf).2.trans (hst.latch hf).2⟩
  memory x hx := (htu.memory x hx).trans (hst.memory x hx)
  device hf := by
    obtain ⟨hready, hkey, hevents⟩ := hst.device hf
    obtain ⟨hready', hkey', hevents'⟩ := htu.device hf
    exact ⟨hready'.trans hready, hkey'.trans hkey, hevents'.trans hevents⟩
  fpr := htu.fpr.trans hst.fpr
  fpCond := htu.fpCond.trans hst.fpCond
  pc := htu.pc.trans hst.pc

/-- Only the general registers differ, and only inside the footprint. -/
theorem of_reg {reg : Reg → Word} (hreg : ∀ n, n ∉ f.regs → reg n = s.reg n) :
    f.Frames s { s with reg := reg } :=
  { refl f s with reg := hreg }

theorem setReg (hs : f.Frames s t) {n : Reg} (hn : n ∈ f.regs) (v : Word) :
    f.Frames s (t.setReg n v) := by
  apply hs.trans
  apply of_reg
  intro m hm
  have hne : m ≠ n := fun he => hm (he ▸ hn)
  exact Function.update_of_ne hne _ _

theorem hiLo_of (hf : f.hiLo = true) (s : State) (hi lo : Word) :
    f.Frames s { s with hi := hi, lo := lo } :=
  { refl f s with hiLo := fun hno => absurd (hf.symm.trans hno) (by decide) }

theorem scheduleBranch (hs : f.Frames s t) (hf : f.latch = true) (target : Word) :
    f.Frames s (t.scheduleBranch target) := by
  apply hs.trans
  exact { refl f t with latch := fun hno => absurd (hf.symm.trans hno) (by decide) }

theorem branchIf (hs : f.Frames s t) (hf : f.latch = true) (c : Bool) (i : Word) :
    f.Frames s (branchIf c i t) := by
  cases c
  · exact hs
  · exact hs.scheduleBranch hf _

theorem poke (hs : f.Frames s t) {a : Word} (ha : a ∈ f.bytes) (b : Byte) :
    f.Frames s (t.poke a b) := by
  apply hs.trans
  refine { refl f t with memory := fun x hx => ?_ }
  have hne : x ≠ a := fun he => hx (he ▸ ha)
  exact Function.update_of_ne hne _ _

/-- The state of the device differs, which the footprint allows. -/
theorem device_of (hf : f.device = true) (s : State) (r : Bool) (k : Word) (e : List Event) :
    f.Frames s { s with ready := r, lastKey := k, events := e } :=
  { refl f s with device := fun hno => absurd (hf.symm.trans hno) (by decide) }

/-- The executors' clearing of `$0` is no change where `$0` is clear. -/
theorem retire (hs : f.Frames s t) (h0 : s.reg R0 = 0) : f.Frames s (t.setReg R0 0) := by
  refine { hs with reg := fun n hn => ?_ }
  rw [State.setReg_reg]
  split_ifs with hzero
  · rw [hzero, h0]
  · exact hs.reg n hn

/-- A word load reaches the device at the address of the input register only. -/
theorem loadWord (hs : f.Frames s t) (h : Host) {a : Word}
    (ha : a = GPU_INPUT → f.device = true) : f.Frames s (loadWord h a t).2 := by
  apply hs.trans
  by_cases hdev : a = GPU_INPUT
  · obtain ⟨k, e, hload⟩ := loadWord_frame h a t
    rw [hload]
    exact device_of (ha hdev) t t.ready k e
  · rw [loadWord_eq h a t hdev]
    exact refl f t

/-- A word store reaches the device at the address of the flush register, and its four
bytes everywhere else. -/
theorem storeWord (hs : f.Frames s t) (h : Host) {a : Word} (v : Word)
    (ha : a = GPU_FLUSH → f.device = true) (hbytes : ∀ k < 4, a + BitVec.ofNat 32 k ∈ f.bytes) :
    f.Frames s (storeWord h a v t) := by
  apply hs.trans
  by_cases hdev : a = GPU_FLUSH
  · have hflush : MyMips.storeWord h a v t = (deviceStoreWord h a t).2 := by
      simp only [MyMips.storeWord, deviceStoreWord, if_pos hdev]
    obtain ⟨r, k, e, hstore⟩ := deviceStoreWord_frame h a t
    rw [hflush, hstore]
    exact device_of (ha hdev) t r k e
  · have hram : deviceStoreWord h a t = (false, t) := if_neg hdev
    have ha0 : a ∈ f.bytes := by simpa using hbytes 0 (by decide)
    rw [MyMips.storeWord, hram]
    apply poke _ (hbytes 3 (by decide))
    apply poke _ (hbytes 2 (by decide))
    apply poke _ (hbytes 1 (by decide))
    exact (refl f t).poke ha0 _

end Frames

end Footprint

def destReg (i : Word) : Option Reg :=
  match opcode i with
  | some .OP_SPECIAL =>
    match special i with
    | some .MULT | some .MULTU | some .DIV | some .DIVU | some .MTHI | some .MTLO | some .JR
    | some .SYSCALL | some .BREAK | none => none
    | some _ => some (rd i)
  | some .OP_SPECIAL2 =>
    match special2 i with
    | some .MUL | some .CLZ | some .CLO => some (rd i)
    | _ => none
  | some .ADDI | some .ADDIU | some .ANDI | some .ORI | some .XORI | some .SLTI | some .SLTIU
  | some .LUI | some .LB | some .LBU | some .LH | some .LHU | some .LW | some .LWL
  | some .LWR => some (rt i)
  | some .JAL => some RA
  | some .OP_REGIMM =>
    if regimm i = some .BGEZAL ∨ regimm i = some .BLTZAL then some RA else none
  | _ => none

/-- The words that report an overflow or a break in `$k0`. -/
def writesK0 (i : Word) : Bool :=
  match opcode i with
  | some .OP_SPECIAL =>
    match special i with
    | some .ADD | some .SUB | some .BREAK => true
    | _ => false
  | some .ADDI => true
  | _ => false

def writesHiLo (i : Word) : Bool :=
  match opcode i with
  | some .OP_SPECIAL =>
    match special i with
    | some .MULT | some .MULTU | some .DIV | some .DIVU | some .MTHI | some .MTLO => true
    | _ => false
  | some .OP_SPECIAL2 =>
    match special2 i with
    | some .MADD | some .MADDU | some .MSUB | some .MSUBU => true
    | _ => false
  | _ => false

def transfersControl (i : Word) : Bool :=
  match opcode i with
  | some .OP_SPECIAL =>
    match special i with
    | some .JR | some .JALR => true
    | _ => false
  | some .J | some .JAL | some .BEQ | some .BNE | some .BGTZ | some .BLEZ
  | some .OP_REGIMM => true
  | _ => false

def bytesFrom (a : Word) (n : ℕ) : List Word := (List.range n).map fun k => a + BitVec.ofNat 32 k

/-- The bytes an integer store addresses; for SWL and SWR those of the aligned word. -/
def addressedBytes (i : Word) (s : State) : List Word :=
  match opcode i with
  | some .SB => bytesFrom (memAddr i s) 1
  | some .SH => bytesFrom (memAddr i s) 2
  | some .SW => bytesFrom (memAddr i s) 4
  | some .SWL | some .SWR => bytesFrom (memAddr i s &&& ~~~3#32) 4
  | _ => []

def reachesDevice (i : Word) (s : State) : Bool :=
  let a := memAddr i s
  let al := a &&& ~~~3#32
  match opcode i with
  | some .LW => a = GPU_INPUT
  | some .LWL | some .LWR => al = GPU_INPUT
  | some .SW => a = GPU_FLUSH
  | some .SWL | some .SWR => al = GPU_INPUT ∨ al = GPU_FLUSH
  | _ => false

def footprint (i : Word) (s : State) : Footprint where
  regs := (destReg i).toList ++ if writesK0 i then [K0] else []
  hiLo := writesHiLo i
  latch := transfersControl i
  bytes := addressedBytes i s
  device := reachesDevice i s

section words
variable {i : Word} {s : State} {n : Reg}

theorem mem_regs : n ∈ (footprint i s).regs ↔ destReg i = some n ∨ writesK0 i = true ∧ n = K0 := by
  cases hk : writesK0 i <;> simp [footprint, hk]

theorem mem_regs_of_dest (hn : destReg i = some n) : n ∈ (footprint i s).regs :=
  mem_regs.mpr (.inl hn)

theorem mem_regs_of_k0 (hk : writesK0 i = true) : K0 ∈ (footprint i s).regs :=
  mem_regs.mpr (.inr ⟨hk, rfl⟩)

theorem mem_bytesFrom (a : Word) {k m : ℕ} (hk : k < m) :
    a + BitVec.ofNat 32 k ∈ bytesFrom a m :=
  List.mem_map.mpr ⟨k, List.mem_range.mpr hk, rfl⟩

/-- The destination written, then `$0` cleared. -/
theorem frames_dest (h0 : s.reg R0 = 0) (hn : destReg i = some n) (v : Word) :
    (footprint i s).Frames s ((s.setReg n v).setReg R0 0) :=
  ((Footprint.Frames.refl _ s).setReg (mem_regs_of_dest hn) v).retire h0

/-- ADD, SUB and ADDI: the overflow flag in `$k0`, then the destination. -/
theorem frames_overflow (hk : writesK0 i = true) (hn : destReg i = some n) (c : Bool)
    (v : Word) : (footprint i s).Frames s
      (if c then s.setReg K0 1 else (s.setReg K0 0).setReg n v) := by
  have hkeep := Footprint.Frames.refl (footprint i s) s
  have hflag (w : Word) := hkeep.setReg (mem_regs_of_k0 hk) w
  cases c
  · exact (hflag 0).setReg (mem_regs_of_dest hn) v
  · exact hflag 1

theorem execRegister_footprint (h0 : s.reg R0 = 0) (ho : opcode i = some .OP_SPECIAL) :
    (footprint i s).Frames s (execRegister i s).2 := by
  have hkeep := Footprint.Frames.refl (footprint i s) s
  cases hf : special i with
  | none => simpa only [execRegister, hf] using hkeep
  | some f =>
    cases f with
    | SYSCALL | BREAK => simpa only [execRegister, hf] using hkeep
    | ADD | SUB =>
      simp only [execRegister, hf, retire_snd]
      apply Footprint.Frames.retire _ h0
      exact frames_overflow (by simp [writesK0, ho, hf]) (by simp [destReg, ho, hf]) _ _
    | MULT | MULTU | MTHI | MTLO =>
      simp only [execRegister, hf, retire_snd]
      apply Footprint.Frames.retire _ h0
      exact Footprint.Frames.hiLo_of (by simp [footprint, writesHiLo, ho, hf]) s _ _
    | DIV =>
      have hhilo : (footprint i s).hiLo = true := by simp [footprint, writesHiLo, ho, hf]
      cases hd : div i s with
      | none => simpa only [execRegister, hf, hd] using hkeep
      | some t =>
        obtain ⟨hi, lo, rfl⟩ := div_frame i s hd
        simp only [execRegister, hf, hd, retire_snd]
        exact (Footprint.Frames.hiLo_of hhilo s hi lo).retire h0
    | DIVU =>
      obtain ⟨hi, lo, hdivu⟩ := divu_frame i s
      simp only [execRegister, hf, retire_snd, hdivu]
      apply Footprint.Frames.retire _ h0
      exact Footprint.Frames.hiLo_of (by simp [footprint, writesHiLo, ho, hf]) s hi lo
    | MOVZ | MOVN =>
      -- A move that is not taken only clears `$0`.
      have hdest : destReg i = some (rd i) := by simp [destReg, ho, hf]
      simp only [execRegister, hf, retire_snd]
      split_ifs
      · exact frames_dest h0 hdest _
      · exact hkeep.retire h0
    | JR =>
      have hlatch : (footprint i s).latch = true := by simp [footprint, transfersControl, ho, hf]
      simp only [execRegister, hf, retire_snd]
      exact (hkeep.scheduleBranch hlatch _).retire h0
    | JALR =>
      have hlatch : (footprint i s).latch = true := by simp [footprint, transfersControl, ho, hf]
      have hdest : destReg i = some (rd i) := by simp [destReg, ho, hf]
      have hlink := hkeep.setReg (mem_regs_of_dest hdest) (s.pc + 8)
      simp only [execRegister, hf, retire_snd]
      exact (hlink.scheduleBranch hlatch _).retire h0
    | _ =>
      simp only [execRegister, hf, retire_snd]
      exact frames_dest h0 (by simp [destReg, ho, hf]) _

theorem execSpecial2_footprint (h0 : s.reg R0 = 0) (ho : opcode i = some .OP_SPECIAL2) :
    (footprint i s).Frames s (execSpecial2 i s).2 := by
  cases hf : special2 i with
  | none =>
    simp only [execSpecial2, hf]
    exact Footprint.Frames.refl _ s
  | some f =>
    cases f with
    | MUL | CLZ | CLO =>
      simp only [execSpecial2, hf, retire_snd]
      exact frames_dest h0 (by simp [destReg, ho, hf]) _
    | _ =>
      simp only [execSpecial2, hf, retire_snd]
      apply Footprint.Frames.retire _ h0
      exact Footprint.Frames.hiLo_of (by simp [footprint, writesHiLo, ho, hf]) s _ _

theorem execJump_footprint : (footprint i s).Frames s (execJump i s).2 := by
  have hkeep := Footprint.Frames.refl (footprint i s) s
  cases ho : opcode i with
  | none => simpa only [execJump, ho] using hkeep
  | some o =>
    cases o with
    | J =>
      simp only [execJump, ho]
      exact hkeep.scheduleBranch (by simp [footprint, transfersControl, ho]) _
    | JAL =>
      have hlink := hkeep.setReg (mem_regs_of_dest (n := RA) (by simp [destReg, ho])) (s.pc + 8)
      simp only [execJump, ho]
      exact hlink.scheduleBranch (by simp [footprint, transfersControl, ho]) _
    | _ => simpa only [execJump, ho] using hkeep

theorem execRegimm_footprint (ho : opcode i = some .OP_REGIMM) :
    (footprint i s).Frames s (execRegimm i s) := by
  have hkeep := Footprint.Frames.refl (footprint i s) s
  have hlatch : (footprint i s).latch = true := by simp [footprint, transfersControl, ho]
  simp only [execRegimm]
  apply Footprint.Frames.branchIf _ hlatch
  by_cases hlink : regimm i = some .BGEZAL ∨ regimm i = some .BLTZAL
  · have hdest : destReg i = some RA := by simp only [destReg, ho, if_pos hlink]
    rw [if_pos hlink]
    exact hkeep.setReg (mem_regs_of_dest hdest) _
  · rw [if_neg hlink]
    exact hkeep

theorem execImmediate_footprint (h : Host) (h0 : s.reg R0 = 0) :
    (footprint i s).Frames s (execImmediate h i s).2 := by
  have hkeep := Footprint.Frames.refl (footprint i s) s
  cases ho : opcode i with
  | none => simpa only [execImmediate, ho] using hkeep
  | some o =>
    cases o with
    | OP_SPECIAL | OP_COP1 | OP_SPECIAL2 | LWC1 | LDC1 | SWC1 | SDC1 | J | JAL =>
      simpa only [execImmediate, ho] using hkeep
    | ADDI =>
      simp only [execImmediate, ho, retire_snd]
      apply Footprint.Frames.retire _ h0
      exact frames_overflow (by simp [writesK0, ho]) (by simp [destReg, ho]) _ _
    | BEQ | BNE | BGTZ | BLEZ =>
      simp only [execImmediate, ho, retire_snd]
      apply Footprint.Frames.retire _ h0
      exact hkeep.branchIf (by simp [footprint, transfersControl, ho]) _ i
    | OP_REGIMM =>
      simp only [execImmediate, ho, retire_snd]
      exact (execRegimm_footprint ho).retire h0
    | LW | LWL | LWR =>
      have hdest : rt i ∈ (footprint i s).regs := mem_regs_of_dest (by simp [destReg, ho])
      simp only [execImmediate, ho, retire_snd]
      apply Footprint.Frames.retire _ h0
      apply Footprint.Frames.setReg _ hdest
      apply hkeep.loadWord h
      intro ha
      simp only [footprint, reachesDevice, ho, ha, decide_true]
    | SB =>
      have hbyte := mem_bytesFrom (memAddr i s) (k := 0) (m := 1) (by decide)
      simp only [execImmediate, ho, retire_snd, storeByte]
      apply Footprint.Frames.retire _ h0
      exact hkeep.poke (by simpa [footprint, addressedBytes, ho] using hbyte) _
    | SH =>
      have hbytes : (footprint i s).bytes = bytesFrom (memAddr i s) 2 := by
        simp only [footprint, addressedBytes, ho]
      have hlow := mem_bytesFrom (memAddr i s) (k := 0) (m := 2) (by decide)
      have hhigh := mem_bytesFrom (memAddr i s) (k := 1) (m := 2) (by decide)
      rw [BitVec.add_zero] at hlow
      simp only [execImmediate, ho, retire_snd, storeHalf]
      apply Footprint.Frames.retire _ h0
      exact (hkeep.poke (hbytes ▸ hlow) _).poke (hbytes ▸ hhigh) _
    | SW =>
      have hbytes : (footprint i s).bytes = bytesFrom (memAddr i s) 4 := by
        simp only [footprint, addressedBytes, ho]
      simp only [execImmediate, ho, retire_snd]
      apply Footprint.Frames.retire _ h0
      refine hkeep.storeWord h _ (fun ha => ?_) fun k hk => hbytes ▸ mem_bytesFrom _ hk
      simp only [footprint, reachesDevice, ho, ha, decide_true]
    | SWL | SWR =>
      have hbytes : (footprint i s).bytes = bytesFrom (memAddr i s &&& ~~~3#32) 4 := by
        simp only [footprint, addressedBytes, ho]
      have hdev (ha : memAddr i s &&& ~~~3#32 = GPU_INPUT ∨ memAddr i s &&& ~~~3#32 = GPU_FLUSH) :
          (footprint i s).device = true := by
        simp only [footprint, reachesDevice, ho]
        exact decide_eq_true ha
      -- The aligned word is read first, which can take a key from the device.
      have hread := hkeep.loadWord h fun ha => hdev (.inl ha)
      simp only [execImmediate, ho, retire_snd]
      apply Footprint.Frames.retire _ h0
      exact hread.storeWord h _ (fun ha => hdev (.inr ha)) fun k hk => hbytes ▸ mem_bytesFrom _ hk
    | _ =>
      simp only [execImmediate, ho, retire_snd]
      exact frames_dest h0 (by simp [destReg, ho]) _

end words

/-- The words of the integer unit: all but SYSCALL and the coprocessor opcodes. -/
def IntegerWord (i : Word) : Prop :=
  ¬ IsSpecial .SYSCALL i ∧
    opcode i ∉ [some .OP_COP1, some .LWC1, some .LDC1, some .SWC1, some .SDC1]

instance (i : Word) : Decidable (IntegerWord i) := by
  unfold IntegerWord
  infer_instance

/-- One instruction of the integer unit changes its footprint at most: one destination
register and `$k0` for the words that report in it, HI/LO, the latch, the addressed bytes,
and the device for a word access to one of its registers. -/
theorem execInst_footprint (h : Host) (i : Word) (s : State) (h0 : s.reg R0 = 0)
    (hi : IntegerWord i) : (footprint i s).Frames s (execInst h i s).2 := by
  obtain ⟨hno, hcop⟩ := hi
  apply execInst_rule h (P := fun r => (footprint i s).Frames s r.2)
  case hnop => exact fun _ => Footprint.Frames.refl _ s
  case hsyscall => exact fun ho hf => absurd ⟨ho, hf⟩ hno
  case hbreak =>
    intro ho hf
    have hk : writesK0 i = true := by simp [writesK0, ho, hf]
    exact (Footprint.Frames.refl _ s).setReg (mem_regs_of_k0 hk) 1
  case hregister => exact fun ho _ _ => execRegister_footprint h0 ho
  case hspecial2 => exact fun ho => execSpecial2_footprint h0 ho
  case hcop1 =>
    intro ho
    simp [ho] at hcop
  case hldst =>
    rintro (ho | ho | ho | ho) <;> simp [ho] at hcop
  case hjump => exact fun _ => execJump_footprint
  case himm => exact fun _ => execImmediate_footprint h h0

/-- `swl $t0, 1($t1)`. -/
theorem execInst_footprint_swl :
    let i := 0xA9280001#32
    let s := { resetState (fun _ => 0) 0 with reg := fun n => if n = 9 then 0x1000#32 else 0 }
    (footprint i s).regs = [] ∧
      (footprint i s).bytes = [0x1000#32, 0x1001#32, 0x1002#32, 0x1003#32] ∧
      (footprint i s).Frames s (execInst nullHost i s).2 := by
  refine ⟨by decide, by decide, ?_⟩
  exact execInst_footprint nullHost _ _ (by decide) (by decide)

def sdlHost : Host := { nullHost with haveSdl := true }

/-- `lw $t0, 0($t1)` from the input register takes the key that is waiting there. -/
theorem execInst_footprint_counterexample :
    ¬ ∀ (h : Host) (i : Word) (s : State), s.reg R0 = 0 → IntegerWord i →
      Footprint.Frames { footprint i s with device := false } s (execInst h i s).2 := by
  intro hall
  let s := { resetState (fun _ => 0) 0 with
    reg := fun n => if n = 9 then GPU_INPUT else 0
    lastKey := 0x77 }
  have hframes := hall sdlHost 0x8D280000#32 s (by decide) (by decide)
  have hkey : (execInst sdlHost 0x8D280000#32 s).2.lastKey = s.lastKey := (hframes.device rfl).2.1
  exact absurd hkey (by decide)

section failures
variable (h : Host) (u : FpUnit) {i : Word} {s : State}

theorem fpSingle_rejected (hf : fpAccepts .S (fpFunct i) = false) : fpSingle u i s = (.err, s) := by
  cases hp : fpFunct i with
  | none => simp only [fpSingle, hp]
  | some p => cases p <;> simp_all [fpAccepts, fpSingle]

theorem fpDouble_rejected (hf : fpAccepts .D (fpFunct i) = false) : fpDouble u i s = (.err, s) := by
  cases hp : fpFunct i with
  | none => simp only [fpDouble, hp]
  | some p => cases p <;> simp_all [fpAccepts, fpDouble]

theorem fpWord_rejected (hf : fpAccepts .W (fpFunct i) = false) : fpWord u i s = (.err, s) := by
  cases hp : fpFunct i with
  | none => simp only [fpWord, hp]
  | some p => cases p <;> simp_all [fpAccepts, fpWord]

theorem execCop1_rejected
    (hf : ((fmt i).elim true fun c => !fpAccepts c (fpFunct i)) = true) :
    execCop1 u i s = (.err, s) := by
  cases hc : fmt i with
  | none => simp only [execCop1, hc]
  | some c =>
    have hno : fpAccepts c (fpFunct i) = false := by simpa [hc] using hf
    cases c with
    | MFC1 | MTC1 | BC1 => simp [fpAccepts] at hno
    | S =>
      simp only [execCop1, hc]
      exact fpSingle_rejected u hno
    | D =>
      simp only [execCop1, hc]
      exact fpDouble_rejected u hno
    | W =>
      simp only [execCop1, hc]
      exact fpWord_rejected u hno

/-- Every decoder rejects before it has touched the state. -/
theorem execInst_rejected (hi : rejected i = true) : execInst h i s = (.err, s) := by
  have hnz : i ≠ 0 := by
    rintro rfl
    exact absurd hi (by decide)
  have hspecial (f : Special) : ¬ IsSpecial f i := by
    rintro ⟨ho, hf⟩
    simp [rejected, ho, hf] at hi
  rw [execInst, if_neg hnz, if_neg (hspecial .SYSCALL), if_neg (hspecial .BREAK)]
  cases ho : opcode i with
  | none => simp only [execImmediate, ho]
  | some o =>
    cases o with
    | OP_SPECIAL =>
      have hf : special i = none := by simpa [rejected, ho] using hi
      simp only [execRegister, hf]
    | OP_SPECIAL2 =>
      have hf : special2 i = none := by simpa [rejected, ho] using hi
      simp only [execSpecial2, hf]
    | OP_COP1 =>
      have hf : ((fmt i).elim true fun c => !fpAccepts c (fpFunct i)) = true := by
        simpa only [rejected, ho] using hi
      exact execCop1_rejected h.fp hf
    | _ => simp [rejected, ho] at hi

/-- A syscall that stops the program changes nothing but the history. -/
theorem callSyscall_stop (hstop : (callSyscall h s).1 = true) :
    ∃ e, (callSyscall h s).2 = { s with events := e } := by
  unfold callSyscall at hstop ⊢
  cases hn : Switch.select Syscall (s.reg V0) with
  | none => exact ⟨_, rfl⟩
  | some n =>
    cases n with
    | exit | exit2 => exact ⟨s.events, rfl⟩
    | _ => simp [hn] at hstop

/-- A clean stop changes `$k0` and the history at most. -/
theorem execInst_stop (hstop : (execInst h i s).1 = .stop) :
    ∃ v e, (execInst h i s).2 =
      { s with reg := Function.update s.reg K0 v, events := e } := by
  by_cases hsyscall : IsSpecial .SYSCALL i
  · have hexec := execInst_special h i s hsyscall (by decide)
    rw [if_pos rfl] at hexec
    have hret : (callSyscall h s).1 = true := by
      by_contra hno
      rw [hexec, if_neg hno] at hstop
      cases hstop
    obtain ⟨e, he⟩ := callSyscall_stop h hret
    refine ⟨s.reg K0, e, ?_⟩
    rw [hexec, he, Function.update_eq_self]
  · by_cases hbreak : IsSpecial .BREAK i
    · refine ⟨1, s.events, ?_⟩
      rw [execInst_special h i s hbreak (by decide)]
      rfl
    · -- No other word stops the program.
      rw [execInst_ret, retCode, if_neg hbreak, if_neg hsyscall] at hstop
      split_ifs at hstop

end failures

/-- Without a completed instruction there is nothing behind the executor. -/
theorem stepInstruction_incomplete (h : Host) {s : State} (hne : (stepInstruction h s).1 ≠ .ok) :
    stepInstruction h s = execInst h s.instr { s with branchPending := false } := by
  unfold stepInstruction State.instr at *
  dsimp only at *
  generalize execInst h (wordAt s.memory s.pc) { s with branchPending := false } = r at *
  rcases r with ⟨ret, t⟩
  cases ret with
  | ok => exact absurd rfl hne
  | err | stop | trap => rfl

/-- A decode error clears the branch latch and leaves the guest and the history as they
were; a clean stop leaves everything but `$k0`, the latch and the history. -/
theorem stepInstruction_failure (h : Host) (s : State) :
    ((stepInstruction h s).1 = .err →
      (stepInstruction h s).2 = { s with branchPending := false }) ∧
    ((stepInstruction h s).1 = .stop → ∃ v e, (stepInstruction h s).2 = { s with
      reg := Function.update s.reg K0 v
      branchPending := false
      events := e }) := by
  constructor
  · intro herr
    have hstep := stepInstruction_incomplete h (s := s) (by rw [herr]; decide)
    rw [hstep, execInst_err] at herr
    rw [hstep, execInst_rejected h herr]
  · intro hstop
    have hstep := stepInstruction_incomplete h (s := s) (by rw [hstop]; decide)
    rw [hstep] at hstop ⊢
    exact execInst_stop h hstop

/-- The word `0x0000003F` in a delay slot, then `break`. -/
theorem stepInstruction_failure_runs :
    let slot := { resetState (flatImage [0x0000003F#32]) 0 with branchPending := true }
    let stop := resetState (flatImage [0x0000000D#32]) 0
    (stepInstruction nullHost slot).2 = { slot with branchPending := false } ∧
      (stepInstruction nullHost stop).2.pc = stop.pc ∧
      (stepInstruction nullHost stop).2.memory = stop.memory := by
  intro slot stop
  refine ⟨(stepInstruction_failure nullHost slot).1 (by decide), ?_⟩
  obtain ⟨v, e, hstop⟩ := (stepInstruction_failure nullHost stop).2 (by decide)
  exact ⟨by rw [hstop], by rw [hstop]⟩

end MyMips
