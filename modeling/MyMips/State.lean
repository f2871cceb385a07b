import MyMips.Decode
import Mathlib.Logic.Function.Basic

namespace MyMips

abbrev DWord := BitVec 64
abbrev Memory := Word → Byte

def MEM_SIZE : ℕ := 0x100000000
def GPU_W : ℕ := 160
def GPU_H : ℕ := 120
def GPU_FB : Word := 0x0F000000
def GPU_FLUSH : Word := 0x0F0F0000
def GPU_INPUT : Word := 0x0F0F0004

/-- Return code of the executors: `ok` is 0 (continue), `err` is 1 (decode error),
`stop` is 2 (clean stop). `trap` is no return at all: the host kills the process
in the middle of the call (the signal an x86 `idiv` overflow raises). -/
inductive Ret
  | ok | err | stop | trap
  deriving DecidableEq, Repr

/-- One interaction of the program with the host. Guest buffers are recorded as
the host sees them: a byte offset from `glob->memory` and a length. -/
inductive Event
  | printInt (value : Int)
  | printString (start : ℕ) (text : Option (List Byte))
  | readInt
  | readString (start len : ℕ)
  | printChar (c : Byte)
  | readChar
  | openFile (start : ℕ) (path : Option (List Byte)) (forWriting : Bool)
  | readFile (fd : Word) (start len : ℕ)
  | writeFile (fd : Word) (start len : ℕ) (data : List Byte)
  | closeFile (fd : Word)
  | unknownSyscall (number : Word)
  | gpuFlush
  | gpuFrame (pixels : List Byte)
  | gpuInput
  deriving DecidableEq

inductive SdlEvent
  | quit
  | keydown (sym : Word)
  | other
  deriving DecidableEq

structure FpUnit where
  addS : Word → Word → Word
  subS : Word → Word → Word
  mulS : Word → Word → Word
  divS : Word → Word → Word
  sqrtS : Word → Word
  absS : Word → Word
  negS : Word → Word
  cvtDS : Word → DWord
  cvtWS : Word → Word
  eqS : Word → Word → Bool
  ltS : Word → Word → Bool
  leS : Word → Word → Bool
  addD : DWord → DWord → DWord
  subD : DWord → DWord → DWord
  mulD : DWord → DWord → DWord
  divD : DWord → DWord → DWord
  sqrtD : DWord → DWord
  absD : DWord → DWord
  negD : DWord → DWord
  cvtSD : DWord → Word
  cvtWD : DWord → Word
  eqD : DWord → DWord → Bool
  ltD : DWord → DWord → Bool
  leD : DWord → DWord → Bool
  cvtSW : Word → Word
  cvtDW : Word → DWord

/-- What the calls of `gpu_init` answer: whether `SDL_Init` succeeds, and whether a window, a
renderer and a texture come back. Each call is made whatever the ones before it returned. -/
structure SdlObjects where
  init : Bool
  window : Bool
  renderer : Bool
  texture : Bool

/-- Everything the emulator relies on outside its own source: the build flag, the
floating-point unit, and what the host answers to each request. An answer may
depend on the whole history of interactions (the request itself comes first),
so a host stands for any sequence of syscall and device results. -/
structure Host where
  haveSdl : Bool
  fp : FpUnit
  /-- The value `scanf("%d")` stores; 0 when the conversion fails. -/
  scanInt : List Event → Word
  /-- The byte `scanf("%c")` stores; 0 at end of input. -/
  scanChar : List Event → Byte
  /-- `read(STDIN_FILENO, ...)`: `none` is -1, otherwise the bytes delivered. -/
  readStdin : List Event → Option (List Byte)
  /-- `open`: the returned descriptor or -1. -/
  openFile : List Event → Word
  /-- `read`: the returned count or -1, and the bytes delivered. -/
  readFile : List Event → Word × List Byte
  /-- `write`: the returned count or -1. -/
  writeFile : List Event → Word
  sdlInit : List Event → SdlObjects
  /-- The events the `SDL_PollEvent` loop of one flush delivers. -/
  sdlPoll : List Event → List SdlEvent

/-- The guest-visible part of `struct global`, the branch latch of `cpu.c`, the
device state of `device.c`, and the interactions so far (latest first). -/
@[ext]
structure State where
  reg : Reg → Word
  hi : Word
  lo : Word
  fpr : Reg → Word
  fpCond : Word
  memory : Memory
  pc : Word
  branchPending : Bool
  branchTarget : Word
  ready : Bool
  lastKey : Word
  events : List Event

namespace State

/-- `glob->reg[n] = v`, the write to `$0` included. -/
def setReg (s : State) (n : Reg) (v : Word) : State :=
  { s with reg := Function.update s.reg n v }

def record (s : State) (e : Event) : State := { s with events := e :: s.events }

def scheduleBranch (s : State) (target : Word) : State :=
  { s with branchPending := true, branchTarget := target }

variable (s : State) (n m : Reg) (v : Word) (e : Event)

@[simp] theorem setReg_reg_self : (s.setReg n v).reg n = v := by simp [setReg]
@[simp] theorem setReg_reg_of_ne (h : m ≠ n) : (s.setReg n v).reg m = s.reg m := by
  simp [setReg, h]
theorem setReg_reg : (s.setReg n v).reg m = if m = n then v else s.reg m := by
  simp [setReg, Function.update_apply]
@[simp] theorem setReg_hi : (s.setReg n v).hi = s.hi := rfl
@[simp] theorem setReg_lo : (s.setReg n v).lo = s.lo := rfl
@[simp] theorem setReg_fpr : (s.setReg n v).fpr = s.fpr := rfl
@[simp] theorem setReg_fpCond : (s.setReg n v).fpCond = s.fpCond := rfl
@[simp] theorem setReg_memory : (s.setReg n v).memory = s.memory := rfl
@[simp] theorem setReg_pc : (s.setReg n v).pc = s.pc := rfl
@[simp] theorem setReg_branchPending : (s.setReg n v).branchPending = s.branchPending := rfl
@[simp] theorem setReg_branchTarget : (s.setReg n v).branchTarget = s.branchTarget := rfl
@[simp] theorem setReg_ready : (s.setReg n v).ready = s.ready := rfl
@[simp] theorem setReg_lastKey : (s.setReg n v).lastKey = s.lastKey := rfl
@[simp] theorem setReg_events : (s.setReg n v).events = s.events := rfl

end State

/-- `((uint32_t *)glob->memory)[pc / 4]` on the little-endian host: the aligned
word that contains the byte `pc`. -/
def wordAt (m : Memory) (pc : Word) : Word :=
  let a := pc &&& ~~~3#32
  m (a + 3) ++ m (a + 2) ++ m (a + 1) ++ m a

theorem toNat_lt_memSize (a : Word) : a.toNat < MEM_SIZE := a.isLt

theorem toNat_ofNat_of_lt {x : ℕ} (hx : x < MEM_SIZE) : (BitVec.ofNat 32 x).toNat = x := by
  rw [BitVec.toNat_ofNat]
  exact Nat.mod_eq_of_lt hx

def flatImage (ws : List Word) : Memory := fun a =>
  match ws[a.toNat / 4]? with
  | some w => (w >>> (8 * (a.toNat % 4))).setWidth 8
  | none => 0

def resetState (memory : Memory) (entry : Word) : State where
  reg := Function.update (fun _ => 0) SP (BitVec.ofNat 32 (MEM_SIZE - 4))
  hi := 0
  lo := 0
  fpr := fun _ => 0
  fpCond := 0
  memory := memory
  pc := entry
  branchPending := false
  branchTarget := 0
  ready := false
  lastKey := 0
  events := []

def nullHost : Host where
  haveSdl := false
  fp :=
    { addS := fun _ _ => 0, subS := fun _ _ => 0, mulS := fun _ _ => 0, divS := fun _ _ => 0
      sqrtS := fun _ => 0, absS := fun _ => 0, negS := fun _ => 0, cvtDS := fun _ => 0
      cvtWS := fun _ => 0, eqS := fun _ _ => false, ltS := fun _ _ => false
      leS := fun _ _ => false, addD := fun _ _ => 0, subD := fun _ _ => 0
      mulD := fun _ _ => 0, divD := fun _ _ => 0, sqrtD := fun _ => 0, absD := fun _ => 0
      negD := fun _ => 0, cvtSD := fun _ => 0, cvtWD := fun _ => 0
      eqD := fun _ _ => false, ltD := fun _ _ => false, leD := fun _ _ => false
      cvtSW := fun _ => 0, cvtDW := fun _ => 0 }
  scanInt := fun _ => 0
  scanChar := fun _ => 0
  readStdin := fun _ => some []
  openFile := fun _ => 0xFFFFFFFF#32
  readFile := fun _ => (0, [])
  writeFile := fun _ => 0
  sdlInit := fun _ => ⟨false, false, false, false⟩
  sdlPoll := fun _ => []

end MyMips
