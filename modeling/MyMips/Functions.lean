import MyMips.State
import Mathlib.Tactic.SplitIfs

namespace MyMips

def add (i : Word) (s : State) : State :=
  let a := s.reg (rs i)
  let b := s.reg (rt i)
  if BitVec.saddOverflow a b then s.setReg K0 1
  else (s.setReg K0 0).setReg (rd i) (a + b)

def sub (i : Word) (s : State) : State :=
  let a := s.reg (rs i)
  let b := s.reg (rt i)
  if BitVec.ssubOverflow a b then s.setReg K0 1
  else (s.setReg K0 0).setReg (rd i) (a - b)

def addi (i : Word) (s : State) : State :=
  let a := s.reg (rs i)
  if BitVec.saddOverflow a (simm i) then s.setReg K0 1
  else (s.setReg K0 0).setReg (rt i) (a + simm i)

def State.setHiLo (s : State) (res : DWord) : State :=
  { s with lo := res.setWidth 32, hi := (res >>> 32).setWidth 32 }

def mult (i : Word) (s : State) : State :=
  s.setHiLo ((s.reg (rs i)).signExtend 64 * (s.reg (rt i)).signExtend 64)

def multu (i : Word) (s : State) : State :=
  s.setHiLo ((s.reg (rs i)).setWidth 64 * (s.reg (rt i)).setWidth 64)

/-- `none` is the trapping host division: the quotient of the most negative
number by -1 does not fit. -/
def div (i : Word) (s : State) : Option State :=
  let a := s.reg (rs i)
  let b := s.reg (rt i)
  if b = 0 then some s
  else if a = 0x80000000#32 ∧ b = 0xFFFFFFFF#32 then none
  else some { s with lo := a.sdiv b, hi := a.srem b }

def divu (i : Word) (s : State) : State :=
  let a := s.reg (rs i)
  let b := s.reg (rt i)
  if b = 0 then s else { s with lo := a / b, hi := a % b }

def framePixels (m : Memory) : List Byte :=
  (List.range (GPU_W * 4 * GPU_H)).map fun k => m (GPU_FB + BitVec.ofNat 32 k)

def pumpEvents (lastKey : Word) (events : List SdlEvent) : Word :=
  events.foldl (fun key e => match e with
    | .quit => 0x71#32
    | .keydown sym => sym &&& 0xFF#32
    | .other => key) lastKey

/-- A failure may leave a window open that nothing is drawn in. -/
def gpuInit (a : SdlObjects) : Bool := a.init && a.window && a.renderer && a.texture

def gpuFlush (h : Host) (s : State) : State :=
  let s := s.record .gpuFlush
  if s.ready || gpuInit (h.sdlInit s.events) then
    let s := { s with ready := true }.record (.gpuFrame (framePixels s.memory))
    { s with lastKey := pumpEvents s.lastKey (h.sdlPoll s.events) }
  else s

/-- The first component says whether the address was a device register. -/
def deviceStoreWord (h : Host) (addr : Word) (s : State) : Bool × State :=
  if addr = GPU_FLUSH then
    (true, if h.haveSdl then gpuFlush h s else s.record .gpuFlush)
  else (false, s)

/-- `some` is the value of a device register; a key is reported once. -/
def deviceLoadWord (h : Host) (addr : Word) (s : State) : Option Word × State :=
  if addr = GPU_INPUT then
    if h.haveSdl then (some s.lastKey, { s with lastKey := 0 }.record .gpuInput)
    else (some 0, s.record .gpuInput)
  else (none, s)

/-- A frame flush touches the device state only. -/
theorem gpuFlush_frame (h : Host) (s : State) :
    ∃ r k e, gpuFlush h s = { s with ready := r, lastKey := k, events := e } := by
  simp only [gpuFlush]
  split
  · exact ⟨_, _, _, rfl⟩
  · exact ⟨s.ready, s.lastKey, _, rfl⟩

theorem deviceStoreWord_frame (h : Host) (addr : Word) (s : State) :
    ∃ r k e, (deviceStoreWord h addr s).2 = { s with ready := r, lastKey := k, events := e } := by
  unfold deviceStoreWord
  split_ifs
  · exact gpuFlush_frame h s
  · exact ⟨s.ready, s.lastKey, _, rfl⟩
  · exact ⟨s.ready, s.lastKey, s.events, rfl⟩

theorem deviceLoadWord_frame (h : Host) (addr : Word) (s : State) :
    ∃ k e, (deviceLoadWord h addr s).2 = { s with lastKey := k, events := e } := by
  unfold deviceLoadWord
  split_ifs
  · exact ⟨_, _, rfl⟩
  · exact ⟨s.lastKey, _, rfl⟩
  · exact ⟨s.lastKey, s.events, rfl⟩

def loadByte (address : Word) (s : State) : Word :=
  (s.memory address).setWidth 32

def loadHalf (address : Word) (s : State) : Word :=
  (s.memory address).setWidth 32 ||| (s.memory (address + 1)).setWidth 32 <<< 8

/-- The bytes of a word access that no device register takes. -/
def ramWord (m : Memory) (address : Word) : Word :=
  (m address).setWidth 32 ||| (m (address + 1)).setWidth 32 <<< 8
    ||| (m (address + 2)).setWidth 32 <<< 16 ||| (m (address + 3)).setWidth 32 <<< 24

def loadWord (h : Host) (address : Word) (s : State) : Word × State :=
  match deviceLoadWord h address s with
  | (some dev, s') => (dev, s')
  | (none, s') => (ramWord s'.memory address, s')

def State.poke (s : State) (address : Word) (b : Byte) : State :=
  { s with memory := Function.update s.memory address b }

def storeByte (address value : Word) (s : State) : State :=
  s.poke address (value.setWidth 8)

def storeHalf (address value : Word) (s : State) : State :=
  (s.poke address (value.setWidth 8)).poke (address + 1) ((value >>> 8).setWidth 8)

def storeWord (h : Host) (address value : Word) (s : State) : State :=
  match deviceStoreWord h address s with
  | (true, s') => s'
  | (false, s') =>
    (((s'.poke address (value.setWidth 8)).poke (address + 1) ((value >>> 8).setWidth 8)).poke
      (address + 2) ((value >>> 16).setWidth 8)).poke (address + 3) ((value >>> 24).setWidth 8)

section
variable (h : Host) (a v : Word) (s : State)

/-- A word load changes the device state only. -/
theorem loadWord_frame : ∃ k e, (loadWord h a s).2 = { s with lastKey := k, events := e } := by
  obtain ⟨k, e, he⟩ := deviceLoadWord_frame h a s
  refine ⟨k, e, ?_⟩
  unfold loadWord
  split <;> simp_all

/-- A word store changes memory and the device state only. -/
theorem storeWord_frame : ∃ m r k e, storeWord h a v s =
    { s with memory := m, ready := r, lastKey := k, events := e } := by
  obtain ⟨r, k, e, he⟩ := deviceStoreWord_frame h a s
  unfold storeWord
  cases hd : deviceStoreWord h a s with
  | mk handled s' =>
    rw [hd] at he
    simp only at he
    subst he
    cases handled
    · exact ⟨_, r, k, e, rfl⟩
    · exact ⟨s.memory, r, k, e, rfl⟩

@[simp] theorem loadWord_reg : (loadWord h a s).2.reg = s.reg := by
  obtain ⟨k, e, he⟩ := loadWord_frame h a s; rw [he]
@[simp] theorem loadWord_fpr : (loadWord h a s).2.fpr = s.fpr := by
  obtain ⟨k, e, he⟩ := loadWord_frame h a s; rw [he]
@[simp] theorem loadWord_fpCond : (loadWord h a s).2.fpCond = s.fpCond := by
  obtain ⟨k, e, he⟩ := loadWord_frame h a s; rw [he]
@[simp] theorem loadWord_memory : (loadWord h a s).2.memory = s.memory := by
  obtain ⟨k, e, he⟩ := loadWord_frame h a s; rw [he]
@[simp] theorem loadWord_branchPending :
    (loadWord h a s).2.branchPending = s.branchPending := by
  obtain ⟨k, e, he⟩ := loadWord_frame h a s; rw [he]
@[simp] theorem loadWord_branchTarget :
    (loadWord h a s).2.branchTarget = s.branchTarget := by
  obtain ⟨k, e, he⟩ := loadWord_frame h a s; rw [he]

@[simp] theorem storeWord_branchPending :
    (storeWord h a v s).branchPending = s.branchPending := by
  obtain ⟨m, r, k, e, he⟩ := storeWord_frame h a v s; rw [he]
@[simp] theorem storeWord_branchTarget :
    (storeWord h a v s).branchTarget = s.branchTarget := by
  obtain ⟨m, r, k, e, he⟩ := storeWord_frame h a v s; rw [he]

end

end MyMips
