import MyMips.ZeroReg
import MyMips.Disasm
import Mathlib.Tactic.IntervalCases

/-! `test/c`: the start-up code (`crt.s`) and the system calls (`stdlib.s`) that a C program
is linked with, under the interpreter. A call of a library function is one operation. -/
namespace MyMips

/-- The symbols of a linked program: `jal` names `main` by 26 bits, its word address. -/
structure Symbols where
  main : BitVec 26
  function : Syscall → Word

def Symbols.mainAddress (sym : Symbols) : Word := sym.main.setWidth 32 <<< 2

/-- `crt.s`, with the delay slot the assembler fills in. -/
def crt (main : BitVec 26) : List Word :=
  [0x0C000000#32 ||| main.setWidth 32, 0#32, 0x3402000A#32, 0x0000000C#32]

/-- A function of `stdlib.s`: its number in `$v0`, the call, and the return to `$ra`. -/
def stdlib (f : Syscall) : List Word :=
  [0x34020000#32 ||| SwitchLabels.code f, 0x0000000C#32, 0x03E00008#32, 0#32]

def WordsAt (m : Memory) : Word → List Word → Prop
  | _, [] => True
  | a, w :: ws => wordAt m a = w ∧ WordsAt m (a + 4) ws

/-- The runtime is in memory: `crt.s` at address 0, each function at its symbol. -/
structure Linked (sym : Symbols) (m : Memory) : Prop where
  start : WordsAt m 0 (crt sym.main)
  function : ∀ f, WordsAt m (sym.function f) (stdlib f)

def libraryCall (h : Host) (f : Syscall) (s : State) : State :=
  { (callSyscall h (s.setReg V0 (SwitchLabels.code f))).2 with
    pc := s.reg RA
    branchTarget := s.reg RA }

def exits (f : Syscall) : Bool := f = .exit || f = .exit2

def called (sym : Symbols) (s : State) : Option Syscall :=
  if s.branchPending then none
  else (SwitchLabels.all (α := Syscall)).find? fun f => !exits f && sym.function f == s.pc

/-- The interpreter over the library: a call is one step. -/
def libraryStep (h : Host) (sym : Symbols) (s : State) : Outcome (ℕ × State) State :=
  match called sym s with
  | some f => .next (libraryCall h f s)
  | none => executeStep h s

section fields
variable (m : BitVec 26)

theorem op_jal : op (0x0C000000#32 ||| m.setWidth 32) = 0x03 := by
  have hop : ∀ i : Fin 6, (0x0C000000#32).getLsbD (26 + i) = (0x03#6).getLsbD i := by decide
  ext i hi
  simp only [op, BitVec.getElem_setWidth, BitVec.getLsbD_ushiftRight, BitVec.getLsbD_or,
    BitVec.getLsbD_setWidth]
  rw [BitVec.getLsbD_of_ge m (26 + i) (by omega), Bool.and_false, Bool.or_false]
  exact hop ⟨i, hi⟩

theorem opcode_jal : opcode (0x0C000000#32 ||| m.setWidth 32) = some .JAL := by
  rw [opcode, op_jal]
  decide

theorem target26_jal : target26 (0x0C000000#32 ||| m.setWidth 32) = m.setWidth 32 := by
  have hop : ∀ i : Fin 32, i.val < 26 → (0x0C000000#32).getLsbD i = false := by decide
  have hmask : ∀ i : Fin 32, (0x3FFFFFF#32).getLsbD i = decide (i.val < 26) := by decide
  ext i hi
  rw [← BitVec.getLsbD_eq_getElem, ← BitVec.getLsbD_eq_getElem, target26, BitVec.getLsbD_and,
    BitVec.getLsbD_or, hmask ⟨i, hi⟩, BitVec.getLsbD_setWidth]
  by_cases hlt : i < 26
  · rw [hop ⟨i, hi⟩ hlt]
    simp [hlt]
  · rw [BitVec.getLsbD_of_ge m i (by omega)]
    simp [hlt]

/-- What the start-up code disassembles to. -/
theorem crt_listing (sym : Symbols) : (crt sym.main).map (Disasm.disassemble · 64) =
    ["jal ".toList ++ Disasm.hex0x sym.mainAddress.toNat, "nop".toList,
      "ori r2, r0, 0xa".toList, "syscall".toList] := by
  have hop := opcode_jal sym.main
  have hne : 0x0C000000#32 ||| sym.main.setWidth 32 ≠ 0 := by
    intro hz
    rw [hz] at hop
    exact absurd hop (by decide)
  have hjal : Disasm.disassemble (0x0C000000#32 ||| sym.main.setWidth 32) 64 =
      "jal ".toList ++ Disasm.hex0x sym.mainAddress.toNat := by
    rw [Disasm.disassemble_64, Disasm.disasmText, if_neg hne, hop]
    simp only [Disasm.jump, target26_jal, Symbols.mainAddress]
    rfl
  rw [crt, List.map_cons, hjal]
  congr 1

/-- What each function of the library disassembles to. -/
theorem stdlib_listing (f : Syscall) : (stdlib f).map (Disasm.disassemble · 64) =
    ["ori r2, r0, ".toList ++ Disasm.hex0x (SwitchLabels.code f).toNat, "syscall".toList,
      "jr r31".toList, "nop".toList] := by
  cases f <;> decide

end fields

section calls
variable (h : Host) (s : State)

/-- A system call looks neither at the program counter nor at the latch. -/
theorem callSyscall_pc (pc : Word) : callSyscall h { s with pc := pc } =
    ((callSyscall h s).1, { (callSyscall h s).2 with pc := pc }) := by
  unfold callSyscall
  cases hn : Switch.select Syscall (s.reg V0) with
  | none => rfl
  | some n =>
    cases n with
    | readString =>
      simp only [readString, State.record]
      split <;> rfl
    | _ => rfl

theorem callSyscall_reg {n : Reg} (hn : n ≠ V0) : (callSyscall h s).2.reg n = s.reg n := by
  obtain ⟨v, m, e, he⟩ := callSyscall_frame h s
  rw [he]
  exact Function.update_of_ne hn _ _

theorem callSyscall_fst {f : Syscall} (hf : s.reg V0 = SwitchLabels.code f) :
    (callSyscall h s).1 = exits f := by
  rw [callSyscall, hf, Switch.select_code]
  cases f <;> rfl

end calls

section steps
variable {h : Host} {s t : State}

/-- An instruction that is in no delay slot. -/
theorem executeStep_plain (hp : s.branchPending = false)
    (hexec : execInst h (wordAt s.memory s.pc) s = (.ok, t)) :
    executeStep h s = .next { t with pc := s.pc + 4 } := by
  have hself : { s with branchPending := false } = s := by rw [← hp]
  have hpc := execInst_pc h (wordAt s.memory s.pc) s
  rw [hexec] at hpc
  have hstep : stepInstruction h s = (.ok, { t with pc := s.pc + 4 }) := by
    simp only [stepInstruction, hself, hexec, hp, Bool.false_eq_true, if_false]
    rw [← hpc]
  rw [executeStep, hstep]

/-- A jump with nothing in its delay slot. -/
theorem steps_jump {target : Word} (hp : s.branchPending = false)
    (hexec : execInst h (wordAt s.memory s.pc) s = (.ok, t.scheduleBranch target))
    (htp : t.branchPending = false) (hslot : wordAt t.memory (s.pc + 4) = 0) :
    Run.Steps (executeStep h) 2 s { t with pc := target, branchTarget := target } := by
  have hjump := executeStep_plain hp hexec
  have htaken : executeStep h { t.scheduleBranch target with pc := s.pc + 4 } =
      .next { t with pc := target, branchTarget := target } := by
    have hstep : stepInstruction h { t.scheduleBranch target with pc := s.pc + 4 } =
        (.ok, { t with pc := target, branchTarget := target }) := by
      simp only [stepInstruction, State.scheduleBranch, hslot, execInst, if_true, htp]
    rw [executeStep, hstep]
  exact .head hjump (.head htaken (.refl _))

theorem executeStep_stop (hp : s.branchPending = false)
    (hexec : execInst h (wordAt s.memory s.pc) s = (.stop, t)) :
    executeStep h s = .done (0, t) := by
  have hself : { s with branchPending := false } = s := by rw [← hp]
  have hstep : stepInstruction h s = (.stop, t) := by
    simp only [stepInstruction, hself, hexec]
  rw [executeStep, hstep]

variable (h s)

theorem execInst_number (h0 : s.reg 0 = 0) (f : Syscall) :
    execInst h (0x34020000#32 ||| SwitchLabels.code f) s =
      (.ok, s.setReg V0 (SwitchLabels.code f)) := by
  have hop : opcode (0x34020000#32 ||| SwitchLabels.code f) = some .ORI := by
    cases f <;> decide
  have hrs : rs (0x34020000#32 ||| SwitchLabels.code f) = 0 := by cases f <;> decide
  have hrt : rt (0x34020000#32 ||| SwitchLabels.code f) = V0 := by cases f <;> decide
  have himm : (imm16 (0x34020000#32 ||| SwitchLabels.code f)).setWidth 32 =
      SwitchLabels.code f := by cases f <;> decide
  have hzero : (s.setReg V0 (SwitchLabels.code f)).reg R0 = 0 :=
    (s.setReg_reg_of_ne V0 R0 _ (by decide)).trans h0
  have hload : s.reg 0 ||| SwitchLabels.code f = SwitchLabels.code f := by
    rw [h0]
    exact BitVec.zero_or
  rw [execInst_of_opcode h hop (by decide)]
  simp only [execImmediate, hop, hrs, hrt, himm, hload, retire, setReg_R0_self hzero]

theorem execInst_syscall : execInst h 0x0000000C#32 s =
    (if (callSyscall h s).1 then .stop else .ok, (callSyscall h s).2) := by
  have hgroup : opcode 0x0000000C#32 = some .OP_SPECIAL ∧
      special 0x0000000C#32 = some .SYSCALL := by decide
  rw [execInst, if_neg (by decide), if_pos hgroup]

theorem execInst_jr (h0 : s.reg 0 = 0) :
    execInst h 0x03E00008#32 s = (.ok, s.scheduleBranch (s.reg RA)) := by
  have hjr : special 0x03E00008#32 = some .JR := by decide
  have hrs : rs 0x03E00008#32 = RA := by decide
  have hzero : (s.scheduleBranch (s.reg RA)).reg R0 = 0 := h0
  rw [execInst_register h (by decide) (by decide) hjr (by decide) (by decide), execRegister, hjr]
  simp only [hrs, retire, setReg_R0_self hzero]

/-- `jal` at the foot of memory. -/
theorem execInst_jal (sym : Symbols) (hpc : s.pc = 0) :
    execInst h (0x0C000000#32 ||| sym.main.setWidth 32) s =
      (.ok, (s.setReg RA 8).scheduleBranch sym.mainAddress) := by
  have hop := opcode_jal sym.main
  rw [execInst_of_opcode h hop (by decide)]
  simp only [execJump, hop, hpc, target26_jal, Symbols.mainAddress, BitVec.ofNat_eq_ofNat,
    BitVec.zero_and, BitVec.zero_or, BitVec.zero_add]

end steps

section library
variable {h : Host} {sym : Symbols} {f : Syscall} {s : State}

theorem called_eq_some (hf : called sym s = some f) :
    s.branchPending = false ∧ exits f = false ∧ s.pc = sym.function f := by
  unfold called at hf
  split at hf
  case isTrue => cases hf
  case isFalse hp =>
    have hfind := List.find?_some hf
    simp only [Bool.and_eq_true, Bool.not_eq_true', beq_iff_eq] at hfind
    exact ⟨by simpa using hp, hfind.1, hfind.2.symm⟩

def numbered (f : Syscall) (s : State) : State :=
  { s.setReg V0 (SwitchLabels.code f) with pc := s.pc + 4 }

theorem callSyscall_numbered : callSyscall h (numbered f s) =
    (exits f, { (callSyscall h (s.setReg V0 (SwitchLabels.code f))).2 with pc := s.pc + 4 }) := by
  rw [numbered, callSyscall_pc, callSyscall_fst h _ (State.setReg_reg_self ..)]

theorem executeStep_numbered (h0 : s.reg 0 = 0) (hp : s.branchPending = false)
    (hword : wordAt s.memory s.pc = 0x34020000#32 ||| SwitchLabels.code f) :
    executeStep h s = .next (numbered f s) :=
  executeStep_plain hp (by rw [hword]; exact execInst_number h s h0 f)

/-- A function that does not return ends the program. -/
theorem returns_exit (h0 : s.reg 0 = 0) (hp : s.branchPending = false) (hf : exits f = true)
    (hnumber : wordAt s.memory s.pc = 0x34020000#32 ||| SwitchLabels.code f)
    (hcall : wordAt s.memory (s.pc + 4) = 0x0000000C#32) :
    Run.Returns (executeStep h) s (0, numbered f s) := by
  have hquiet : (callSyscall h (s.setReg V0 (SwitchLabels.code f))).2 =
      s.setReg V0 (SwitchLabels.code f) := by
    rw [callSyscall, State.setReg_reg_self, Switch.select_code]
    cases f <;> first | rfl | cases hf
  have hstop : executeStep h (numbered f s) = .done (0, numbered f s) := by
    apply executeStep_stop
    · exact hp
    · have hword : wordAt (numbered f s).memory (numbered f s).pc = 0x0000000C#32 := hcall
      rw [hword, execInst_syscall, callSyscall_numbered, hquiet, hf]
      rfl
  have hload := executeStep_numbered (h := h) h0 hp hnumber
  exact ⟨2, by rw [Run.run, hload]; simp only [Run.run, hstop]⟩

/-- A call of a function that returns is four instructions. -/
theorem steps_libraryCall (h0 : s.reg 0 = 0) (hp : s.branchPending = false)
    (hf : exits f = false) (hpc : s.pc = sym.function f)
    (hlinked : Run.Always (executeStep h) (fun u => Linked sym u.memory) s) :
    Run.Steps (executeStep h) 4 s (libraryCall h f s) := by
  have hheld : WordsAt s.memory s.pc (stdlib f) := by
    rw [hpc]
    exact hlinked.now.function f
  obtain ⟨hnumber, hcall, -⟩ := hheld
  have hload := executeStep_numbered (h := h) h0 hp hnumber
  generalize ht : (callSyscall h (s.setReg V0 (SwitchLabels.code f))).2 = t
  have hra : t.reg RA = s.reg RA := by
    rw [← ht, callSyscall_reg _ _ (by decide), State.setReg_reg_of_ne _ _ _ _ (by decide)]
  have htp : t.branchPending = false := by
    obtain ⟨v, m, e, hframe⟩ := callSyscall_frame h (s.setReg V0 (SwitchLabels.code f))
    rw [← ht, hframe]
    exact hp
  have ht0 : t.reg 0 = 0 := by
    rw [← ht, callSyscall_reg _ _ (by decide), State.setReg_reg_of_ne _ _ _ _ (by decide), h0]
  have hsyscall : executeStep h (numbered f s) = .next { t with pc := s.pc + 4 + 4 } := by
    have hword : wordAt (numbered f s).memory (numbered f s).pc = 0x0000000C#32 := hcall
    refine executeStep_plain (s := numbered f s) (t := { t with pc := s.pc + 4 }) hp ?_
    rw [hword, execInst_syscall, callSyscall_numbered, hf, ht]
    rfl
  -- The call may have written memory, but not the return.
  have hkept : WordsAt t.memory s.pc (stdlib f) := by
    rw [hpc]
    exact ((hlinked.next hload).next hsyscall).now.function f
  obtain ⟨-, -, hjr, hnop, -⟩ := hkept
  have hreturn : Run.Steps (executeStep h) 2 { t with pc := s.pc + 4 + 4 }
      (libraryCall h f s) := by
    rw [libraryCall, ht]
    refine steps_jump (s := { t with pc := s.pc + 4 + 4 }) (t := { t with pc := s.pc + 4 + 4 })
      htp ?_ htp hnop
    dsimp only
    rw [hjr, ← hra]
    exact execInst_jr _ _ ht0
  exact .head hload (.head hsyscall hreturn)

theorem reg_zero_of_steps {n : ℕ} {t : State} (hrun : Run.Steps (executeStep h) n s t)
    (h0 : s.reg 0 = 0) : t.reg 0 = 0 := by
  apply hrun.invariant (I := fun u => u.reg 0 = 0) _ h0
  intro u v hu hstep
  have hv := stepInstruction_reg_zero h u hu
  rwa [executeStep_next hstep] at hv

/-- The library machine is in step with the interpreter while the runtime is intact. -/
theorem libraryStep_matches : Run.Matches (libraryStep h sym) (executeStep h) fun t s =>
    t = s ∧ s.reg 0 = 0 ∧ Run.Always (executeStep h) (fun u => Linked sym u.memory) s := by
  rintro t s ⟨rfl, h0, hlinked⟩
  cases hcalled : called sym t with
  | some f =>
    obtain ⟨hp, hf, hpc⟩ := called_eq_some hcalled
    have hsteps := steps_libraryCall h0 hp hf hpc hlinked
    have hintact : Run.Always (executeStep h) (fun u => Linked sym u.memory) (libraryCall h f t) :=
      fun n u hu => hlinked (4 + n) u (hsteps.trans hu)
    rw [libraryStep, hcalled]
    exact ⟨4, _, by omega, hsteps, rfl, reg_zero_of_steps hsteps h0, hintact⟩
  | none =>
    rw [libraryStep, hcalled]
    dsimp only
    cases hstep : executeStep h t with
    | next u =>
      have hone : Run.Steps (executeStep h) 1 t u := .head hstep (.refl u)
      exact ⟨1, u, by omega, hone, rfl, reg_zero_of_steps hone h0, hlinked.next hstep⟩
    | done r => rfl
    | crash => rfl

/-- `crt.s` calls `main` with the return address 8. -/
theorem steps_crt (hp : s.branchPending = false) (hpc : s.pc = 0) (hl : Linked sym s.memory) :
    Run.Steps (executeStep h) 2 s
      { s.setReg RA 8 with pc := sym.mainAddress, branchTarget := sym.mainAddress } := by
  obtain ⟨hjal, hnop, -⟩ := hl.start
  apply steps_jump (t := s.setReg RA 8) hp
  · rw [hpc, hjal]
    exact execInst_jal h s sym hpc
  · exact hp
  · rw [hpc]
    exact hnop

end library

/-- A C program linked with the runtime: its calls of the library may be taken as single
operations, each the system call it makes; `main` is entered with the return address 8; and
the program ends with 0 where `main` returns and where it calls `exit` or `exit2`. -/
theorem runtime_program (h : Host) (sym : Symbols) (s : State) (h0 : s.reg 0 = 0)
    (hp : s.branchPending = false) (hpc : s.pc = 0)
    (hlinked : Run.Always (executeStep h) (fun u => Linked sym u.memory) s) :
    (∀ r, Run.Returns (libraryStep h sym) s r ↔ Run.Returns (executeStep h) s r) ∧
    Run.Steps (executeStep h) 2 s
      { s.setReg RA 8 with pc := sym.mainAddress, branchTarget := sym.mainAddress } ∧
    ∀ n t, Run.Steps (libraryStep h sym) n s t → t.branchPending = false →
      (t.pc = 8 → Run.Returns (executeStep h) s (0, numbered .exit t)) ∧
      ∀ f, exits f = true → t.pc = sym.function f →
        Run.Returns (executeStep h) s (0, numbered f t) := by
  have hR : s = s ∧ s.reg 0 = 0 ∧
      Run.Always (executeStep h) (fun u => Linked sym u.memory) s := ⟨rfl, h0, hlinked⟩
  refine ⟨libraryStep_matches.returns_iff hR, steps_crt hp hpc hlinked.now, ?_⟩
  intro n t hrun htp
  obtain ⟨k, _, hk, rfl, ht0, hintact⟩ := libraryStep_matches.reached hR hrun
  have hend {r : ℕ × State} (hr : Run.Returns (executeStep h) t r) :
      Run.Returns (executeStep h) s r := by
    obtain ⟨m, hm⟩ := hr
    exact ⟨k + m, (Run.run_add_of_steps hk m).trans hm⟩
  constructor
  · intro hmain
    obtain ⟨-, -, hnumber, hcall, -⟩ := hintact.now.start
    apply hend
    apply returns_exit ht0 htp rfl
    · rw [hmain]
      exact hnumber
    · rw [hmain]
      exact hcall
  · intro f hf hexit
    obtain ⟨hnumber, hcall, -⟩ := hintact.now.function f
    apply hend
    apply returns_exit ht0 htp hf
    · rw [hexit]
      exact hnumber
    · rw [hexit]
      exact hcall

/-- The layout of `test/c`: five words for each function, `main` at 0x100. -/
def demoSymbols : Symbols where
  main := 0x40
  function f := 0x10 + 20 * BitVec.ofNat 32 ((SwitchLabels.all (α := Syscall)).idxOf f)

/-- The runtime in front of a `main` that prints 7: `j print_int; addiu $a0, $0, 7`. -/
def demoImage : Memory := flatImage (crt demoSymbols.main ++
  (SwitchLabels.all (α := Syscall)).flatMap (fun f => stdlib f ++ [0]) ++
  [0x08000004#32, 0x24040007#32])

instance decidableWordsAt (m : Memory) : ∀ a ws, Decidable (WordsAt m a ws)
  | _, [] => isTrue trivial
  | a, w :: ws =>
    have := decidableWordsAt m (a + 4) ws
    inferInstanceAs (Decidable (wordAt m a = w ∧ WordsAt m (a + 4) ws))

theorem linked_demoImage : Linked demoSymbols demoImage where
  start := by decide +kernel
  function f := by cases f <;> decide +kernel

def demoState (k : ℕ) : State :=
  (fun s => (stepInstruction nullHost s).2)^[k] (resetState demoImage 0)

theorem demoState_succ (k : ℕ) :
    demoState (k + 1) = (stepInstruction nullHost (demoState k)).2 :=
  Function.iterate_succ_apply' _ k _

theorem executeStep_demoState {k : ℕ} (hk : k < 9) :
    executeStep nullHost (demoState k) = .next (demoState (k + 1)) := by
  have hok : (stepInstruction nullHost (demoState k)).1 = .ok := by
    interval_cases k <;> decide +kernel
  rw [executeStep_of_ok hok, ← demoState_succ]

theorem demoState_memory {k : ℕ} (hk : k < 10) : (demoState k).memory = demoImage := by
  interval_cases k <;> rfl

theorem steps_demoState {k : ℕ} (hk : k ≤ 9) :
    Run.Steps (executeStep nullHost) k (resetState demoImage 0) (demoState k) := by
  induction k with
  | zero => exact .refl _
  | succ k ih => exact (ih (by omega)).tail (executeStep_demoState (by omega))

/-- Through the library `print_int` is one step, and `main` is done five steps in. -/
theorem runtime_program_print :
    ∃ t, Run.Returns (libraryStep nullHost demoSymbols) (resetState demoImage 0)
        (0, numbered .exit t) ∧
      Run.Returns (executeStep nullHost) (resetState demoImage 0) (0, numbered .exit t) ∧
      t.events = [.printInt 7] := by
  have hstop : executeStep nullHost (demoState 9) = .done (0, demoState 10) := by
    have hret : (stepInstruction nullHost (demoState 9)).1 = .stop := by decide +kernel
    rw [executeStep_of_stop hret, ← demoState_succ]
  -- The run ends behind its ninth step, and every state before has the image in memory.
  have hlinked : Run.Always (executeStep nullHost) (fun u => Linked demoSymbols u.memory)
      (resetState demoImage 0) := by
    intro n u hu
    have hn : n < 10 := by
      by_contra hlate
      have hrest := hu.drop (steps_demoState (Nat.le_refl 9)) (by omega)
      obtain ⟨hzero, -⟩ := hrest.eq_zero (by simp [hstop])
      omega
    obtain rfl := hu.unique (steps_demoState (by omega))
    rw [demoState_memory hn]
    exact linked_demoImage
  obtain ⟨hreturns, -, hends⟩ := runtime_program nullHost demoSymbols (resetState demoImage 0)
    rfl rfl rfl hlinked
  have hcall : libraryStep nullHost demoSymbols (demoState 4) =
      .next (libraryCall nullHost .printInt (demoState 4)) := by
    have hcalled : called demoSymbols (demoState 4) = some .printInt := by decide +kernel
    rw [libraryStep, hcalled]
  have hfirst {k : ℕ} (hk : k < 4) :
      libraryStep nullHost demoSymbols (demoState k) = .next (demoState (k + 1)) := by
    have hnone : called demoSymbols (demoState k) = none := by
      interval_cases k <;> decide +kernel
    rw [libraryStep, hnone]
    exact executeStep_demoState (by omega)
  have hlibrary : Run.Steps (libraryStep nullHost demoSymbols) 5 (resetState demoImage 0)
      (libraryCall nullHost .printInt (demoState 4)) :=
    .head (hfirst (k := 0) (by omega)) (.head (hfirst (by omega)) (.head (hfirst (by omega))
      (.head (hfirst (by omega)) (.head hcall (.refl _)))))
  obtain ⟨hmain, -⟩ := hends 5 _ hlibrary (by decide +kernel)
  have hreturn := hmain (by decide +kernel)
  exact ⟨_, (hreturns _).mpr hreturn, hreturn, by decide +kernel⟩

end MyMips
