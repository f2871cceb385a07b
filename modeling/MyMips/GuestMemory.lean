import MyMips.Lib.Bytes
import MyMips.ExecFrame

/-! Guest memory as a little-endian byte store with 32-bit addresses: what the loads
return after any sequence of stores. Word accesses go through the device registers
first, so the two device addresses are excluded for them, and for them only. -/
namespace MyMips

section accessors
variable (h : Host) (a v : Word) (s : State) (m : Memory)

theorem loadByte_eq : loadByte a s = (s.memory a).setWidth 32 := rfl

theorem loadHalf_eq : loadHalf a s = (s.memory (a + 1) ++ s.memory a).setWidth 32 := by
  unfold loadHalf
  apply BitVec.eq_of_getLsbD_eq
  intro i hi
  simp only [BitVec.getLsbD_or, BitVec.getLsbD_shiftLeft, BitVec.getLsbD_setWidth,
    BitVec.getLsbD_append]
  rcases Nat.lt_or_ge i 8 with hb | hb <;> grind

theorem ramWord_eq : ramWord m a = Bytes.load32 m a := by
  rw [ramWord, Bytes.load32, BitVec.add_zero]
  apply BitVec.eq_of_getLsbD_eq
  intro i hi
  simp only [BitVec.getLsbD_or, BitVec.getLsbD_shiftLeft, BitVec.getLsbD_setWidth,
    BitVec.getLsbD_append]
  have hbyte : i < 8 ∨ i < 16 ∧ 8 ≤ i ∨ i < 24 ∧ 16 ≤ i ∨ 24 ≤ i := by omega
  rcases hbyte with hb | hb | hb | hb <;> grind

theorem loadWord_eq (ha : a ≠ GPU_INPUT) : loadWord h a s = (Bytes.load32 s.memory a, s) := by
  have hdev : deviceLoadWord h a s = (none, s) := if_neg ha
  rw [loadWord, hdev]
  exact congrArg (·, s) (ramWord_eq a s.memory)

/-- A poke behind the bytes written so far is a longer write. -/
theorem poke_write (bs : List Byte) (b : Byte) (hlen : bs.length < 4) :
    ({ s with memory := Bytes.write m a bs }.poke (a + BitVec.ofNat 32 bs.length) b) =
      { s with memory := Bytes.write m a (bs ++ [b]) } := by
  rw [Bytes.write_append m a bs [b] (by simp; omega), Bytes.write_singleton]
  rfl

theorem storeByte_eq : storeByte a v s =
    { s with memory := Bytes.write s.memory a ((Bytes.le32 v).take 1) } := by
  have hone : (Bytes.le32 v).take 1 = [v.setWidth 8] := rfl
  rw [storeByte, State.poke, hone, Bytes.write_singleton]

theorem storeHalf_eq : storeHalf a v s =
    { s with memory := Bytes.write s.memory a ((Bytes.le32 v).take 2) } := by
  have hbyte := storeByte_eq a v s
  rw [storeByte] at hbyte
  rw [storeHalf, hbyte]
  exact poke_write a s s.memory _ ((v >>> 8).setWidth 8) (by simp)

theorem storeWord_eq (ha : a ≠ GPU_FLUSH) : storeWord h a v s =
    { s with memory := Bytes.write s.memory a (Bytes.le32 v) } := by
  have hdev : deviceStoreWord h a s = (false, s) := if_neg ha
  have hhalf := storeHalf_eq a v s
  rw [storeHalf] at hhalf
  rw [storeWord, hdev]
  dsimp only
  rw [hhalf]
  have h2 := poke_write a s s.memory ((Bytes.le32 v).take 2) ((v >>> 16).setWidth 8) (by simp)
  have h3 := poke_write a s s.memory ((Bytes.le32 v).take 3) ((v >>> 24).setWidth 8) (by simp)
  exact (congrArg (fun t => State.poke t (a + 3) _) h2).trans h3

end accessors

def isLoad (i : Word) : Bool :=
  match opcode i with
  | some .LB | some .LBU | some .LH | some .LHU | some .LW | some .LWC1 | some .LDC1 => true
  | _ => false

def isStore (i : Word) : Bool :=
  match opcode i with
  | some .SB | some .SH | some .SW | some .SWC1 | some .SDC1 => true
  | _ => false

def wordAccesses (i : Word) (s : State) : List Word :=
  match opcode i with
  | some .LW | some .LWC1 | some .SW | some .SWC1 => [memAddr i s]
  | some .LDC1 | some .SDC1 => [memAddr i s, memAddr i s + 4]
  | _ => []

def storeWidth (i : Word) : ℕ :=
  match opcode i with
  | some .SB => 1
  | some .SH => 2
  | some .SDC1 => 8
  | _ => 4

/-- The bytes a store puts at its effective address, lowest first. -/
def storeBytes (i : Word) (s : State) : List Byte :=
  match opcode i with
  | some .SB => (Bytes.le32 (s.reg (rt i))).take 1
  | some .SH => (Bytes.le32 (s.reg (rt i))).take 2
  | some .SW => Bytes.le32 (s.reg (rt i))
  | some .SWC1 => Bytes.le32 (s.getFpr (ft i))
  | some .SDC1 => Bytes.le32 (s.getFpr (ft i)) ++ Bytes.le32 (s.getFpr (ft i + 1))
  | _ => []

/-- What a load leaves when the bytes of memory are `b`. -/
def loaded (b : Memory) (i : Word) (s : State) : State :=
  let a := memAddr i s
  let toReg (v : Word) := (s.setReg (rt i) v).setReg R0 0
  match opcode i with
  | some .LB => toReg ((b a).signExtend 32)
  | some .LBU => toReg ((b a).setWidth 32)
  | some .LH => toReg ((b (a + 1) ++ b a).signExtend 32)
  | some .LHU => toReg ((b (a + 1) ++ b a).setWidth 32)
  | some .LW => toReg (Bytes.load32 b a)
  | some .LWC1 => s.setFpr (ft i) (Bytes.load32 b a)
  | some .LDC1 => (s.setFpr (ft i) (Bytes.load32 b a)).setFpr (ft i + 1) (Bytes.load32 b (a + 4))
  | _ => s

section instructions
variable (h : Host) {i : Word} {s : State}

theorem execInst_load (hi : isLoad i = true) (hdev : GPU_INPUT ∉ wordAccesses i s) :
    execInst h i s = (.ok, loaded s.memory i s) := by
  cases ho : opcode i with
  | none => simp [isLoad, ho] at hi
  | some o =>
    cases o with
    | LB =>
      have hbyte : ((s.memory (memAddr i s)).setWidth 32).setWidth 8 = s.memory (memAddr i s) := by
        simp
      rw [execInst_of_opcode h ho (by decide)]
      simp only [execImmediate, loaded, ho, loadByte_eq, hbyte]
      rfl
    | LBU =>
      rw [execInst_of_opcode h ho (by decide)]
      simp only [execImmediate, loaded, ho, loadByte_eq]
      rfl
    | LH =>
      have hhalf (v : BitVec 16) : (v.setWidth 32).setWidth 16 = v := by simp
      rw [execInst_of_opcode h ho (by decide)]
      simp only [execImmediate, loaded, ho, loadHalf_eq]
      rw [hhalf]
      rfl
    | LHU =>
      rw [execInst_of_opcode h ho (by decide)]
      simp only [execImmediate, loaded, ho, loadHalf_eq]
      rfl
    | LW =>
      have hne : memAddr i s ≠ GPU_INPUT := by
        simpa [wordAccesses, ho, eq_comm] using hdev
      rw [execInst_of_opcode h ho (by decide)]
      simp only [execImmediate, loaded, ho, loadWord_eq h _ s hne]
      rfl
    | LWC1 =>
      have hne : memAddr i s ≠ GPU_INPUT := by
        simpa [wordAccesses, ho, eq_comm] using hdev
      rw [execInst_of_opcode h ho (by decide)]
      simp only [execCop1Ldst, loaded, ho, loadWord_eq h _ s hne]
    | LDC1 =>
      obtain ⟨hne, hne'⟩ : memAddr i s ≠ GPU_INPUT ∧ memAddr i s + 4 ≠ GPU_INPUT := by
        simpa [wordAccesses, ho, eq_comm] using hdev
      rw [execInst_of_opcode h ho (by decide)]
      simp only [execCop1Ldst, loaded, ho, loadWord_eq h _ s hne, loadWord_eq h _ _ hne',
        State.setFpr_memory]
    | _ => simp [isLoad, ho] at hi

/-- A store writes its bytes and nothing else, except that the integer stores clear `$0`. -/
theorem execInst_store (hi : isStore i = true) (hdev : GPU_FLUSH ∉ wordAccesses i s) :
    ∃ reg, (reg = s.reg ∨ reg = Function.update s.reg R0 0) ∧
      execInst h i s = (.ok, { s with
        reg := reg
        memory := Bytes.write s.memory (memAddr i s) (storeBytes i s) }) := by
  cases ho : opcode i with
  | none => simp [isStore, ho] at hi
  | some o =>
    cases o with
    | SB =>
      refine ⟨_, .inr rfl, ?_⟩
      rw [execInst_of_opcode h ho (by decide)]
      simp only [execImmediate, storeBytes, ho, storeByte_eq]
      rfl
    | SH =>
      refine ⟨_, .inr rfl, ?_⟩
      rw [execInst_of_opcode h ho (by decide)]
      simp only [execImmediate, storeBytes, ho, storeHalf_eq]
      rfl
    | SW =>
      have hne : memAddr i s ≠ GPU_FLUSH := by
        simpa [wordAccesses, ho, eq_comm] using hdev
      refine ⟨_, .inr rfl, ?_⟩
      rw [execInst_of_opcode h ho (by decide)]
      simp only [execImmediate, storeBytes, ho, storeWord_eq h _ _ s hne]
      rfl
    | SWC1 =>
      have hne : memAddr i s ≠ GPU_FLUSH := by
        simpa [wordAccesses, ho, eq_comm] using hdev
      refine ⟨s.reg, .inl rfl, ?_⟩
      rw [execInst_of_opcode h ho (by decide)]
      simp only [execCop1Ldst, storeBytes, ho, storeWord_eq h _ _ s hne]
    | SDC1 =>
      obtain ⟨hne, hne'⟩ : memAddr i s ≠ GPU_FLUSH ∧ memAddr i s + 4 ≠ GPU_FLUSH := by
        simpa [wordAccesses, ho, eq_comm] using hdev
      refine ⟨s.reg, .inl rfl, ?_⟩
      rw [execInst_of_opcode h ho (by decide)]
      simp only [execCop1Ldst, storeBytes, ho, storeWord_eq h _ _ s hne,
        storeWord_eq h _ _ _ hne']
      rw [Bytes.write_append _ _ _ _ (by simp)]
      rfl
    | _ => simp [isStore, ho] at hi

theorem length_storeBytes (hi : isStore i = true) : (storeBytes i s).length = storeWidth i := by
  cases ho : opcode i with
  | none => simp [isStore, ho] at hi
  | some o => cases o <;> simp_all [isStore, storeBytes, storeWidth]

theorem execInst_store_memory (hi : isStore i = true) (hdev : GPU_FLUSH ∉ wordAccesses i s) :
    (execInst h i s).2.memory = Bytes.write s.memory (memAddr i s) (storeBytes i s) := by
  obtain ⟨reg, -, hexec⟩ := execInst_store h hi hdev
  rw [hexec]

/-- A register pair survives the way through memory. -/
theorem getd_ldc1_sdc1 {j : Word} {t : State} (hi : opcode i = some .SDC1)
    (hj : opcode j = some .LDC1) (hflush : GPU_FLUSH ∉ wordAccesses i s)
    (hinput : GPU_INPUT ∉ wordAccesses j t) (ht : t.memory = (execInst h i s).2.memory)
    (haddr : memAddr j t = memAddr i s) : getd (ft j) (execInst h j t).2 = getd (ft i) s := by
  have hft : ft j < 32 := (rt j).isLt
  have hpair : t.memory = Bytes.store32 (Bytes.store32 s.memory (memAddr i s) (s.getFpr (ft i)))
      (memAddr i s + 4) (s.getFpr (ft i + 1)) := by
    rw [ht, execInst_store_memory h (by simp [isStore, hi]) hflush]
    simp only [storeBytes, hi]
    exact Bytes.write_append _ _ _ _ (by simp)
  obtain ⟨hlow, hhigh⟩ := Bytes.load32_store32_pair s.memory (memAddr i s) (s.getFpr (ft i))
    (s.getFpr (ft i + 1)) (by omega)
  rw [execInst_load h (by simp [isLoad, hj]) hinput]
  simp only [loaded, hj, haddr, hpair]
  rw [getd, getFpr_setFpr_self, getFpr_setFpr _ _ (by omega) (by omega) (by omega),
    getFpr_setFpr_self]
  exact congrArg₂ (· ++ ·) hhigh hlow

end instructions

/-- Stores one after the other, with anything in between that leaves memory alone. The
log has the address and the bytes of each, the latest store first. -/
inductive StoreRun (h : Host) (s : State) : List (Word × List Byte) → State → Prop
  | start {t : State} : t.memory = s.memory → StoreRun h s [] t
  | store {log : List (Word × List Byte)} {t u : State} {i : Word} : StoreRun h s log t →
      isStore i = true → GPU_FLUSH ∉ wordAccesses i t →
      u.memory = (execInst h i t).2.memory →
      StoreRun h s ((memAddr i t, storeBytes i t) :: log) u

section runs
variable {h : Host} {s t u : State} {log log' : List (Word × List Byte)}

/-- After a run every byte of memory is the one most recently stored there. -/
theorem StoreRun.memory_eq (hrun : StoreRun h s log t) : t.memory = Bytes.recent log s.memory := by
  induction hrun with
  | start ht => exact ht
  | store _ hi hdev hu ih => rw [hu, execInst_store_memory h hi hdev, ih, Bytes.recent_cons]

theorem StoreRun.trans (hrun : StoreRun h s log t) (hrun' : StoreRun h t log' u) :
    StoreRun h s (log' ++ log) u := by
  induction hrun' with
  | start hu =>
    cases hrun with
    | start ht => exact .start (hu.trans ht)
    | store hrest hi hdev ht => exact .store hrest hi hdev (hu.trans ht)
  | store _ hi hdev hu ih => exact .store ih hi hdev hu

end runs

def keepsMemory (i : Word) : Bool :=
  match opcode i with
  | some .SB | some .SH | some .SW | some .SWL | some .SWR | some .SWC1 | some .SDC1 => false
  | some .OP_SPECIAL => special i != some .SYSCALL
  | _ => true

section steps
variable (h : Host) {i : Word} {s t : State} {n : ℕ}

theorem execImmediate_memory (hk : keepsMemory i = true) :
    (execImmediate h i s).2.memory = s.memory := by
  cases ho : opcode i with
  | none => simp only [execImmediate, ho]
  | some o =>
    cases o with
    | SB | SH | SW | SWL | SWR => simp [keepsMemory, ho] at hk
    | ADDI =>
      obtain ⟨reg, haddi⟩ := addi_frame i s
      simp [execImmediate, ho, haddi]
    | BEQ | BNE | BGTZ | BLEZ =>
      simp only [execImmediate, ho, retire_snd, State.setReg_memory]
      obtain ⟨p, t, hbranch⟩ := branchIf_frame i s _
      rw [hbranch]
    | OP_REGIMM =>
      simp only [execImmediate, ho, retire_snd, State.setReg_memory, execRegimm]
      obtain ⟨p, t, hbranch⟩ := branchIf_frame i _ _
      rw [hbranch]
      split_ifs <;> rfl
    | _ => simp [execImmediate, ho]

theorem execInst_memory (hk : keepsMemory i = true) : (execInst h i s).2.memory = s.memory := by
  apply execInst_rule h (P := fun r => r.2.memory = s.memory)
  case hnop => exact fun _ => rfl
  case hsyscall =>
    intro ho hf
    simp [keepsMemory, ho, hf] at hk
  case hbreak => exact fun _ _ => rfl
  case hregister =>
    intro _ _ _
    obtain ⟨reg, hi, lo, p, t, he⟩ := execRegister_frame i s
    simp only [he]
  case hspecial2 =>
    intro _
    obtain ⟨reg, hi, lo, he⟩ := execSpecial2_frame i s
    simp only [he]
  case hcop1 =>
    intro _
    obtain ⟨reg, f, c, p, t, he⟩ := execCop1_frame h.fp i s
    simp only [he]
  case hldst =>
    rintro (ho | ho | ho | ho)
    · simp [execCop1Ldst, ho]
    · simp [execCop1Ldst, ho]
    · simp [keepsMemory, ho] at hk
    · simp [keepsMemory, ho] at hk
  case hjump =>
    intro _
    obtain ⟨reg, p, t, he⟩ := execJump_frame i s
    simp only [he]
  case himm => exact fun _ => execImmediate_memory h hk

/-- The step at `s` is a store away from the flush register, or leaves memory alone. -/
def PlainStep (s : State) : Prop :=
  let i := wordAt s.memory s.pc
  keepsMemory i = true ∨ isStore i = true ∧ GPU_FLUSH ∉ wordAccesses i s

def storeEntry (i : Word) (s : State) : List (Word × List Byte) :=
  if isStore i then [(memAddr i s, storeBytes i s)] else []

/-- The stores among the next `n` instructions, the latest first. -/
def storeLog (h : Host) : ℕ → State → List (Word × List Byte)
  | 0, _ => []
  | n + 1, s => storeLog h n (stepInstruction h s).2 ++ storeEntry (wordAt s.memory s.pc) s

theorem storeRun_step (hstep : executeStep h s = .next t) (hplain : PlainStep s) :
    StoreRun h s (storeEntry (wordAt s.memory s.pc) s) t := by
  -- The latch is cleared before the instruction runs, and it has no part in memory.
  let s' : State := { s with branchPending := false }
  let i := wordAt s.memory s.pc
  have hmem : t.memory = (execInst h i s').2.memory := by
    obtain ⟨pc, hframe⟩ := stepInstruction_frame h s
    rw [executeStep_next hstep] at hframe
    exact congrArg (fun r => State.memory r.2) hframe
  have hstart : StoreRun h s [] s' := .start rfl
  rcases hplain with hk | ⟨hi, hdev⟩
  · have hno : isStore i = false := by
      change keepsMemory i = true at hk
      cases ho : opcode i with
      | none => simp [isStore, ho]
      | some o => cases o <;> simp_all [keepsMemory, isStore]
    rw [storeEntry, hno]
    exact .start (hmem.trans (execInst_memory h hk))
  · have hdev' : GPU_FLUSH ∉ wordAccesses i s' := hdev
    rw [storeEntry, if_pos hi]
    have hstore := StoreRun.store hstart hi hdev' hmem
    exact hstore

/-- A run of a program whose steps are all plain is a run of its stores. -/
theorem storeRun_steps (hrun : Run.Steps (executeStep h) n s t)
    (hplain : Run.Along (executeStep h) PlainStep n s) : StoreRun h s (storeLog h n s) t := by
  induction hrun with
  | refl s => exact .start rfl
  | @head n s u t hs _ ih =>
    have hhead := storeRun_step h hs (hplain 0 (by omega) s (.refl s))
    have htail := ih fun m hm v hv => hplain (m + 1) (by omega) v (.head hs hv)
    rw [storeLog, executeStep_next hs]
    exact hhead.trans htail

end steps

/-- Guest memory is a little-endian byte store. After any run of stores, over any
addresses, a load returns the bytes most recently stored at its addresses, composed and
extended as its mnemonic says. A store changes only the bytes it addresses, the
double-word pair copies registers, and a program whose steps are plain runs its stores. -/
theorem guest_memory_byte_store (h : Host) (s : State) :
    (∀ log t, StoreRun h s log t → ∀ i, isLoad i = true → GPU_INPUT ∉ wordAccesses i t →
      execInst h i t = (.ok, loaded (Bytes.recent log s.memory) i t)) ∧
    (∀ i, isStore i = true → GPU_FLUSH ∉ wordAccesses i s →
      (storeBytes i s).length = storeWidth i ∧
      ∀ x, storeWidth i ≤ (x - memAddr i s).toNat →
        (execInst h i s).2.memory x = s.memory x) ∧
    (∀ i j t, opcode i = some .SDC1 → opcode j = some .LDC1 →
      GPU_FLUSH ∉ wordAccesses i s → GPU_INPUT ∉ wordAccesses j t →
      t.memory = (execInst h i s).2.memory → memAddr j t = memAddr i s →
      getd (ft j) (execInst h j t).2 = getd (ft i) s) ∧
    (∀ n t, Run.Steps (executeStep h) n s t → Run.Along (executeStep h) PlainStep n s →
      StoreRun h s (storeLog h n s) t) := by
  refine ⟨?_, ?_, ?_, fun n t hrun hplain => storeRun_steps h hrun hplain⟩
  · intro log t hrun i hi hdev
    rw [← hrun.memory_eq]
    exact execInst_load h hi hdev
  · intro i hi hdev
    have hlen := length_storeBytes (s := s) hi
    refine ⟨hlen, fun x hx => ?_⟩
    rw [execInst_store_memory h hi hdev]
    exact Bytes.write_of_le _ _ _ _ (hlen ▸ hx)
  · intro i j t hi hj hflush hinput ht haddr
    exact getd_ldc1_sdc1 h hi hj hflush hinput ht haddr

/-- `sdc1 f0, -4(r0)` wraps around the top of memory; `ldc1 f2, -4(r0)` follows. -/
def wrapProgram : State :=
  { resetState (flatImage [0xF400FFFC#32, 0xD402FFFC#32]) 0 with
    fpr := fun n => if n = 0 then 0x11223344 else 0x55667788 }

theorem guest_memory_byte_store_wrap :
    (∃ t, Run.Steps (executeStep nullHost) 1 wrapProgram t ∧
      StoreRun nullHost wrapProgram (storeLog nullHost 1 wrapProgram) t ∧
      execInst nullHost 0x8C08FFFE#32 t = (.ok,
        loaded (Bytes.recent (storeLog nullHost 1 wrapProgram) wrapProgram.memory) 0x8C08FFFE#32 t)) ∧
    (execInst nullHost 0xF400FFFC#32 wrapProgram).2.memory 4 = wrapProgram.memory 4 ∧
    getd 2 (execInst nullHost 0xD402FFFC#32 (execInst nullHost 0xF400FFFC#32 wrapProgram).2).2 =
      getd 0 wrapProgram := by
  obtain ⟨hloads, hstores, hpair, hruns⟩ := guest_memory_byte_store nullHost wrapProgram
  have hstep : executeStep nullHost wrapProgram =
      .next (stepInstruction nullHost wrapProgram).2 := rfl
  have hplain : PlainStep wrapProgram := .inr (by decide)
  have hrun := hruns 1 _ (.head hstep (.refl _)) (Run.along_succ hstep hplain Run.along_zero)
  refine ⟨⟨_, .head hstep (.refl _), hrun, ?_⟩, ?_, ?_⟩
  · exact hloads _ _ hrun _ (by decide) (by decide)
  · exact (hstores 0xF400FFFC#32 (by decide) (by decide)).2 4 (by decide)
  · exact hpair 0xF400FFFC#32 0xD402FFFC#32 _ (by decide) (by decide) (by decide) (by decide) rfl
      (by decide)

end MyMips
