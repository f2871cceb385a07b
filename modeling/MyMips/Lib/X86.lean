import MyMips.Lib.Bytes
import MyMips.Lib.Run
import Mathlib.Logic.Function.Basic
import Mathlib.Tactic.SplitIfs

/-! The x86-64 instructions a small code generator needs: 32-bit moves and arithmetic
on registers and memory, `setcc`, `cmovcc`, shifts, `push`, `pop`, `movabs`, `ret`.
Encodings outside this subset do not decode. -/
namespace X86

abbrev Byte := BitVec 8
abbrev Gpr := BitVec 4

def rax : Gpr := 0
def rcx : Gpr := 1
def rdx : Gpr := 2
def rsp : Gpr := 4
def r15 : Gpr := 15

/-- The status flags the conditions read; `none` is an undefined one. -/
structure Flags where
  zf : Option Bool
  sf : Option Bool
  cf : Option Bool
  of : Option Bool

structure Machine where
  gpr : Gpr → BitVec 64
  flags : Flags
  mem : Bytes.Store 64
  /-- The bytes from the instruction pointer on. -/
  code : List Byte

inductive Exit
  | fell (m : Machine)
  | returned (addr : BitVec 64) (m : Machine)

inductive Alu
  | add | or | and | sub | xor | cmp
  deriving DecidableEq

inductive Shift
  | shl | shr | sar
  deriving DecidableEq

inductive Cond
  | b | l | e | ne
  deriving DecidableEq

inductive Operand
  | reg (r : Gpr)
  | mem (base : Gpr) (disp : BitVec 64)

inductive Instr
  | mov (dst : Gpr) (src : Operand)
  | movTo (dst : Operand) (src : Gpr)
  | movImm (dst : Operand) (imm : BitVec 32)
  | alu (op : Alu) (dst : Gpr) (src : Operand)
  | aluImm (op : Alu) (imm : BitVec 32)
  | not (dst : Operand)
  | test (a : Operand) (b : Gpr)
  | set (c : Cond) (dst : Gpr)
  | movzx (dst src : Gpr)
  | cmov (c : Cond) (dst : Gpr) (src : Operand)
  /-- `none` counts by `cl`. -/
  | shift (op : Shift) (dst : Operand) (count : Option Byte)
  | push (r : Gpr)
  | pop (r : Gpr)
  | movabs (dst : Gpr) (imm : BitVec 64)
  | ret

def imm32 (b0 b1 b2 b3 : Byte) : BitVec 32 := b3 ++ b2 ++ b1 ++ b0

structure Rex where
  present : Bool
  w : Bool
  r : Bool
  b : Bool

def Rex.none : Rex := ⟨false, false, false, false⟩

def Rex.ofByte (b : Byte) : Rex := ⟨true, b.getLsbD 3, b.getLsbD 2, b.getLsbD 0⟩

def gprOf (ext : Bool) (bits : BitVec 3) : Gpr := BitVec.ofBool ext ++ bits

/-- The ModRM byte and its displacement: the `reg` bits, the operand, and the rest.
SIB and RIP-relative forms are outside the subset. -/
def modRM (rex : Rex) : List Byte → Option (BitVec 3 × Operand × List Byte)
  | [] => none
  | modrm :: code =>
    let md : BitVec 2 := (modrm >>> 6).setWidth 2
    let reg : BitVec 3 := (modrm >>> 3).setWidth 3
    let rm : BitVec 3 := modrm.setWidth 3
    let base := gprOf rex.b rm
    if md = 3 then some (reg, .reg base, code)
    else if rm = 4 then none
    else if md = 0 then if rm = 5 then none else some (reg, .mem base 0, code)
    else if md = 1 then
      match code with
      | d :: code => some (reg, .mem base (d.signExtend 64), code)
      | [] => none
    else
      match code with
      | b0 :: b1 :: b2 :: b3 :: code =>
        some (reg, .mem base ((imm32 b0 b1 b2 b3).signExtend 64), code)
      | _ => none

/-- The low-byte registers that need no REX prefix to be named as such. -/
def byteReg (rex : Rex) (bits : BitVec 3) : Option Gpr :=
  if bits < 4 ∨ rex.present then some (gprOf rex.b bits) else none

def condOf (b : BitVec 4) : Option Cond :=
  if b = 0x2 then some .b else if b = 0x4 then some .e else if b = 0x5 then some .ne
  else if b = 0xC then some .l else none

def decode0F (rex : Rex) : List Byte → Option (Instr × List Byte)
  | [] => none
  | b :: code =>
    if b >>> 4 = 0x4 then do
      let c ← condOf (b.setWidth 4)
      let (reg, rm, code) ← modRM rex code
      some (.cmov c (gprOf rex.r reg) rm, code)
    else if b >>> 4 = 0x9 then do
      let c ← condOf (b.setWidth 4)
      match ← modRM rex code with
      | (_, .reg r, code) => do
        let r ← byteReg rex (r.setWidth 3)
        some (.set c r, code)
      | _ => none
    else if b = 0xB6 then do
      match ← modRM rex code with
      | (reg, .reg r, code) => do
        let r ← byteReg rex (r.setWidth 3)
        some (.movzx (gprOf rex.r reg) r, code)
      | _ => none
    else none

def aluOf (b : BitVec 3) : Option Alu :=
  if b = 0 then some .add else if b = 1 then some .or else if b = 4 then some .and
  else if b = 5 then some .sub else if b = 6 then some .xor else if b = 7 then some .cmp
  else none

def shiftOf (reg : BitVec 3) : Option Shift :=
  if reg = 4 then some .shl else if reg = 5 then some .shr else if reg = 7 then some .sar
  else none

def decode32 (rex : Rex) (b : Byte) (code : List Byte) : Option (Instr × List Byte) :=
  if b = 0x0F then decode0F rex code
  else if b &&& 0xC7 = 0x03 then do
    let op ← aluOf ((b >>> 3).setWidth 3)
    let (reg, rm, code) ← modRM rex code
    some (.alu op (gprOf rex.r reg) rm, code)
  else if b &&& 0xC7 = 0x05 then do
    let op ← aluOf ((b >>> 3).setWidth 3)
    match code with
    | b0 :: b1 :: b2 :: b3 :: code => some (.aluImm op (imm32 b0 b1 b2 b3), code)
    | _ => none
  else if b = 0x85 then do
    let (reg, rm, code) ← modRM rex code
    some (.test rm (gprOf rex.r reg), code)
  else if b = 0x89 then do
    let (reg, rm, code) ← modRM rex code
    some (.movTo rm (gprOf rex.r reg), code)
  else if b = 0x8B then do
    let (reg, rm, code) ← modRM rex code
    some (.mov (gprOf rex.r reg) rm, code)
  else if b = 0xC1 then do
    let (reg, rm, code) ← modRM rex code
    let op ← shiftOf reg
    match code with
    | n :: code => some (.shift op rm (some n), code)
    | [] => none
  else if b = 0xC7 then do
    match ← modRM rex code with
    | (reg, rm, b0 :: b1 :: b2 :: b3 :: code) =>
      if reg = 0 then some (.movImm rm (imm32 b0 b1 b2 b3), code) else none
    | _ => none
  else if b = 0xD3 then do
    let (reg, rm, code) ← modRM rex code
    let op ← shiftOf reg
    some (.shift op rm none, code)
  else if b = 0xF7 then do
    let (reg, rm, code) ← modRM rex code
    if reg = 2 then some (.not rm, code) else none
  else none

/-- An instruction after its REX prefix. With REX.W only `movabs` is in the subset. -/
def decodeRex (rex : Rex) : List Byte → Option (Instr × List Byte)
  | [] => none
  | b :: code =>
    if b &&& 0xF8 = 0xB8 ∧ rex.w then
      match code with
      | b0 :: b1 :: b2 :: b3 :: b4 :: b5 :: b6 :: b7 :: code =>
        some (.movabs (gprOf rex.b (b.setWidth 3)) (imm32 b4 b5 b6 b7 ++ imm32 b0 b1 b2 b3), code)
      | _ => none
    else if rex.w then none
    else if b &&& 0xF8 = 0x50 then some (.push (gprOf rex.b (b.setWidth 3)), code)
    else if b &&& 0xF8 = 0x58 then some (.pop (gprOf rex.b (b.setWidth 3)), code)
    else if b = 0xC3 then some (.ret, code)
    else decode32 rex b code

def decode : List Byte → Option (Instr × List Byte)
  | [] => none
  | b :: code =>
    if b >>> 4 = 0x4 then decodeRex (Rex.ofByte b) code else decodeRex Rex.none (b :: code)

namespace Machine

def goto (m : Machine) (code : List Byte) : Machine := { m with code := code }

def setReg (m : Machine) (r : Gpr) (v : BitVec 64) : Machine :=
  { m with gpr := Function.update m.gpr r v }

/-- A 32-bit result clears the upper half of its register. -/
def setReg32 (m : Machine) (r : Gpr) (v : BitVec 32) : Machine := m.setReg r (v.setWidth 64)

def reg32 (m : Machine) (r : Gpr) : BitVec 32 := (m.gpr r).setWidth 32

def setFlags (m : Machine) (f : Flags) : Machine := { m with flags := f }

def setMem (m : Machine) (mem : Bytes.Store 64) : Machine := { m with mem := mem }

def read (m : Machine) : Operand → BitVec 32
  | .reg r => m.reg32 r
  | .mem base disp => Bytes.load32 m.mem (m.gpr base + disp)

def write (m : Machine) (v : BitVec 32) : Operand → Machine
  | .reg r => m.setReg32 r v
  | .mem base disp => m.setMem (Bytes.store32 m.mem (m.gpr base + disp) v)

end Machine

def logicFlags (v : BitVec 32) : Flags := ⟨some (v == 0), some v.msb, some false, some false⟩

def addFlags (a b : BitVec 32) : Flags :=
  ⟨some (a + b == 0), some (a + b).msb, some (decide (2 ^ 32 ≤ a.toNat + b.toNat)),
    some (BitVec.saddOverflow a b)⟩

def subFlags (a b : BitVec 32) : Flags :=
  ⟨some (a - b == 0), some (a - b).msb, some (a.ult b), some (BitVec.ssubOverflow a b)⟩

/-- The result an operation writes (`cmp` writes none) and its flags. -/
def Alu.eval (a b : BitVec 32) : Alu → Option (BitVec 32) × Flags
  | .add => (some (a + b), addFlags a b)
  | .or => (some (a ||| b), logicFlags (a ||| b))
  | .and => (some (a &&& b), logicFlags (a &&& b))
  | .sub => (some (a - b), subFlags a b)
  | .xor => (some (a ^^^ b), logicFlags (a ^^^ b))
  | .cmp => (none, subFlags a b)

/-- Result, last bit shifted out, and the overflow flag of a shift by one. -/
def Shift.eval (v : BitVec 32) (n : ℕ) : Shift → BitVec 32 × Bool × Bool
  | .shl => (v <<< n, v.getLsbD (32 - n), v.msb != v.getLsbD 30)
  | .shr => (v >>> n, v.getLsbD (n - 1), v.msb)
  | .sar => (v.sshiftRight n, v.getLsbD (n - 1), false)

/-- A count of zero leaves the flags alone. -/
def Shift.flags (op : Shift) (v : BitVec 32) (n : ℕ) (old : Flags) : Flags :=
  if n = 0 then old
  else
    let r := op.eval v n
    ⟨some (r.1 == 0), some r.1.msb, some r.2.1, if n = 1 then some r.2.2 else none⟩

/-- Whether a condition holds; `none` when it reads an undefined flag. -/
def Cond.eval (f : Flags) : Cond → Option Bool
  | .b => f.cf
  | .e => f.zf
  | .ne => f.zf.map (!·)
  | .l => do
    let s ← f.sf
    let o ← f.of
    some (s != o)

namespace Machine

def alu (m : Machine) (op : Alu) (dst : Gpr) (b : BitVec 32) : Machine :=
  let r := op.eval (m.reg32 dst) b
  match r.1 with
  | some v => (m.setReg32 dst v).setFlags r.2
  | none => m.setFlags r.2

def shiftCount (m : Machine) : Option Byte → ℕ
  | some n => (n &&& 0x1F#8).toNat
  | none => ((m.gpr rcx).setWidth 8 &&& 0x1F#8).toNat

def shift (m : Machine) (op : Shift) (dst : Operand) (n : ℕ) : Machine :=
  (m.write (op.eval (m.read dst) n).1 dst).setFlags (op.flags (m.read dst) n m.flags)

end Machine

def exec (m : Machine) : Instr → Outcome Exit Machine
  | .mov dst src => .next (m.setReg32 dst (m.read src))
  | .movTo dst src => .next (m.write (m.reg32 src) dst)
  | .movImm dst imm => .next (m.write imm dst)
  | .alu op dst src => .next (m.alu op dst (m.read src))
  | .aluImm op imm => .next (m.alu op rax imm)
  | .not dst => .next (m.write (~~~(m.read dst)) dst)
  | .test a b => .next (m.setFlags (logicFlags (m.read a &&& m.reg32 b)))
  | .set c dst =>
    match c.eval m.flags with
    | some t => .next (m.setReg dst ((m.gpr dst &&& ~~~0xFF#64) ||| if t then 1 else 0))
    | none => .crash
  | .movzx dst src => .next (m.setReg32 dst (((m.gpr src).setWidth 8).setWidth 32))
  | .cmov c dst src =>
    match c.eval m.flags with
    | some t => .next (m.setReg32 dst (if t then m.read src else m.reg32 dst))
    | none => .crash
  | .shift op dst count => .next (m.shift op dst (m.shiftCount count))
  | .push r =>
    .next ((m.setReg rsp (m.gpr rsp - 8)).setMem
      (Bytes.store64 m.mem (m.gpr rsp - 8) (m.gpr r)))
  | .pop r =>
    .next ((m.setReg rsp (m.gpr rsp + 8)).setReg r (Bytes.load64 m.mem (m.gpr rsp)))
  | .movabs dst imm => .next (m.setReg dst imm)
  | .ret =>
    .done (.returned (Bytes.load64 m.mem (m.gpr rsp)) (m.setReg rsp (m.gpr rsp + 8)))

def step (m : Machine) : Outcome Exit Machine :=
  match m.code with
  | [] => .done (.fell m)
  | b :: code =>
    match decode (b :: code) with
    | some (i, rest) => exec (m.goto rest) i
    | none => .crash

section
variable (m : Machine) (r r' : Gpr) (v : BitVec 64) (v32 : BitVec 32) (f : Flags)
  (k k' : List Byte)

@[simp] theorem goto_gpr : (m.goto k).gpr = m.gpr := rfl
@[simp] theorem goto_mem : (m.goto k).mem = m.mem := rfl
@[simp] theorem goto_flags : (m.goto k).flags = m.flags := rfl
@[simp] theorem goto_code : (m.goto k).code = k := rfl
@[simp] theorem goto_goto : (m.goto k).goto k' = m.goto k' := rfl
@[simp] theorem setMem_gpr (mem : Bytes.Store 64) : (m.setMem mem).gpr = m.gpr := rfl
@[simp] theorem setMem_mem (mem : Bytes.Store 64) : (m.setMem mem).mem = mem := rfl
@[simp] theorem setReg_mem : (m.setReg r v).mem = m.mem := rfl
@[simp] theorem setReg_flags : (m.setReg r v).flags = m.flags := rfl
@[simp] theorem setReg_gpr_self : (m.setReg r v).gpr r = v := by simp [Machine.setReg]
theorem setReg_gpr_of_ne (h : r' ≠ r) : (m.setReg r v).gpr r' = m.gpr r' := by
  simp [Machine.setReg, h]
@[simp] theorem setReg32_mem : (m.setReg32 r v32).mem = m.mem := rfl
@[simp] theorem setReg32_flags : (m.setReg32 r v32).flags = m.flags := rfl
@[simp] theorem setReg32_reg32_self : (m.setReg32 r v32).reg32 r = v32 := by
  simp [Machine.setReg32, Machine.reg32]
theorem setReg32_gpr_of_ne (h : r' ≠ r) : (m.setReg32 r v32).gpr r' = m.gpr r' :=
  setReg_gpr_of_ne m r r' _ h
theorem setReg32_reg32_of_ne (h : r' ≠ r) : (m.setReg32 r v32).reg32 r' = m.reg32 r' := by
  rw [Machine.reg32, setReg32_gpr_of_ne m r r' v32 h, Machine.reg32]
@[simp] theorem setFlags_mem : (m.setFlags f).mem = m.mem := rfl
@[simp] theorem setFlags_gpr : (m.setFlags f).gpr = m.gpr := rfl
@[simp] theorem setFlags_reg32 : (m.setFlags f).reg32 r = m.reg32 r := rfl
@[simp] theorem setFlags_flags : (m.setFlags f).flags = f := rfl

theorem alu_flags (op : Alu) (b : BitVec 32) :
    (m.alu op r b).flags = (op.eval (m.reg32 r) b).2 := by
  cases op <;> rfl

theorem alu_reg32 {op : Alu} {b : BitVec 32} (h : (op.eval (m.reg32 r) b).1 = some v32) :
    (m.alu op r b).reg32 r = v32 := by
  simp only [Machine.alu, h, setFlags_reg32, setReg32_reg32_self]

theorem alu_mem (op : Alu) (b : BitVec 32) : (m.alu op r b).mem = m.mem := by
  cases op <;> rfl

theorem alu_gpr_of_ne (op : Alu) (b : BitVec 32) (h : r' ≠ r) :
    (m.alu op r b).gpr r' = m.gpr r' := by
  cases op with
  | cmp => rfl
  | _ => exact setReg32_gpr_of_ne m r r' _ h

/-- A step from code whose first instruction is known. -/
theorem step_of_decode {code rest : List Byte} {i : Instr}
    (h : decode code = some (i, rest)) : step (m.goto code) = exec (m.goto rest) i := by
  cases code with
  | nil => exact absurd h (by simp [decode])
  | cons b code =>
    rw [step]
    simp only [goto_code, h, goto_goto]

end

/-- The code `c` takes `m` to `m'` and falls through, whatever code follows it, in at
most as many steps as it has bytes. -/
def Runs (c : List Byte) (m m' : Machine) : Prop :=
  ∀ k, ∃ n, n ≤ c.length ∧ Run.Steps step n (m.goto (c ++ k)) (m'.goto k)

theorem Runs.nil (m : Machine) : Runs [] m m := fun _ => ⟨0, le_refl 0, .refl _⟩

theorem Runs.append {c c' : List Byte} {m m' m'' : Machine} (h : Runs c m m')
    (h' : Runs c' m' m'') : Runs (c ++ c') m m'' := by
  intro k
  obtain ⟨n, hle, hn⟩ := h (c' ++ k)
  obtain ⟨n', hle', hn'⟩ := h' k
  rw [List.append_assoc, List.length_append]
  exact ⟨n + n', by omega, hn.trans hn'⟩

/-- One instruction that does not leave the code. -/
theorem runs_instr {c : List Byte} {i : Instr} {m m' : Machine}
    (hdec : ∀ k, decode (c ++ k) = some (i, k))
    (hexec : ∀ k, exec (m.goto k) i = .next (m'.goto k)) : Runs c m m' := by
  intro k
  have hpos : 0 < c.length := by
    apply List.length_pos_iff.mpr
    rintro rfl
    exact absurd (hdec []) (by simp [decode])
  have hstep : step (m.goto (c ++ k)) = .next (m'.goto k) := by
    rw [step_of_decode m (hdec k), hexec]
  exact ⟨1, hpos, .head hstep (.refl _)⟩

def Machine.call (m : Machine) (addr : BitVec 64) (code : List Byte) : Machine :=
  ((m.setReg rsp (m.gpr rsp - 8)).setMem
    (Bytes.store64 m.mem (m.gpr rsp - 8) addr)).goto code

/-- The conditions after a comparison are the orders on its operands. -/
theorem eval_b_sub (a b : BitVec 32) : Cond.eval (subFlags a b) .b = some (a.ult b) := rfl

theorem eval_l_sub (a b : BitVec 32) : Cond.eval (subFlags a b) .l = some (a.slt b) := by
  have hslt : ((a - b).msb != BitVec.ssubOverflow a b) = a.slt b := by
    have ha := a.toInt_lt
    have ha' := a.le_toInt
    have hb := b.toInt_lt
    have hb' := b.le_toInt
    -- The sign flag is wrong exactly where the difference left the signed range.
    have hmod : (a.toInt - b.toInt).bmod (2 ^ 32) =
        if 2 ^ 31 ≤ a.toInt - b.toInt then a.toInt - b.toInt - 2 ^ 32
        else if a.toInt - b.toInt < -2 ^ 31 then a.toInt - b.toInt + 2 ^ 32
        else a.toInt - b.toInt := by
      rw [Int.bmod_def]
      split_ifs <;> omega
    simp only [BitVec.msb_eq_toInt, BitVec.slt_eq_decide, BitVec.ssubOverflow, BitVec.toInt_sub,
      hmod]
    split_ifs <;> grind
  exact congrArg some hslt

theorem eval_e_logic (v : BitVec 32) : Cond.eval (logicFlags v) .e = some (v == 0) := rfl

theorem eval_ne_logic (v : BitVec 32) : Cond.eval (logicFlags v) .ne = some (v != 0) := rfl

/-- `setcc` and the zero extension of its byte leave the condition as 0 or 1. -/
theorem set_movzx (x : BitVec 64) (t : Bool) :
    (((x &&& ~~~0xFF#64) ||| if t then 1 else 0).setWidth 8).setWidth 32 =
      (if t then 1 else 0 : BitVec 32) := by
  have hclear : (x &&& ~~~0xFF#64).setWidth 8 = 0#8 := by
    rw [BitVec.setWidth_and]
    exact BitVec.and_zero
  rw [BitVec.setWidth_or, hclear]
  cases t <;> decide

/-- The decoding `y` is the decoding `x`, with `k` behind the bytes that are left. -/
def Extends (k : List Byte) (x y : Option (Instr × List Byte)) : Prop :=
  ∀ i r, x = some (i, r) → y = some (i, r ++ k)

section append
variable {α : Type} {rex : Rex} (k : List Byte)

theorem extends_none (y : Option (Instr × List Byte)) : Extends k none y := nofun

theorem extends_some (i : Instr) (c : List Byte) : Extends k (some (i, c)) (some (i, c ++ k)) := by
  rintro _ _ ⟨⟩
  rfl

theorem Extends.ite {p : Prop} [Decidable p] {x y x' y' : Option (Instr × List Byte)}
    (h : Extends k x x') (h' : Extends k y y') :
    Extends k (if p then x else y) (if p then x' else y') := by
  by_cases hp : p
  · rw [if_pos hp, if_pos hp]
    exact h
  · rw [if_neg hp, if_neg hp]
    exact h'

theorem Extends.bind {o : Option α} {f g : α → Option (Instr × List Byte)}
    (h : ∀ a, Extends k (f a) (g a)) : Extends k (o >>= f) (o >>= g) := by
  cases o with
  | none => exact extends_none k _
  | some a => exact h a

theorem modRM_append {c r : List Byte} {reg : BitVec 3} {rm : Operand}
    (h : modRM rex c = some (reg, rm, r)) : modRM rex (c ++ k) = some (reg, rm, r ++ k) := by
  cases c with
  | nil => simp [modRM] at h
  | cons b c =>
    rw [List.cons_append]
    simp only [modRM] at h ⊢
    split_ifs at h ⊢
    · grind
    · grind
    · cases c with
      | nil => simp at h
      | cons d c => grind
    · rcases c with _ | ⟨b0, _ | ⟨b1, _ | ⟨b2, _ | ⟨b3, c⟩⟩⟩⟩ <;> grind

theorem Extends.bind_modRM {c : List Byte}
    {f : BitVec 3 × Operand × List Byte → Option (Instr × List Byte)}
    (h : ∀ reg rm c, Extends k (f (reg, rm, c)) (f (reg, rm, c ++ k))) :
    Extends k (modRM rex c >>= f) (modRM rex (c ++ k) >>= f) := by
  cases hrm : modRM rex c with
  | none => exact extends_none k _
  | some x =>
    obtain ⟨reg, rm, c'⟩ := x
    rw [modRM_append k hrm]
    exact h reg rm c'

theorem decode0F_append (c : List Byte) : Extends k (decode0F rex c) (decode0F rex (c ++ k)) := by
  cases c with
  | nil => exact extends_none k _
  | cons b c =>
    apply Extends.ite
    · exact .bind k fun c => .bind_modRM k fun reg rm c => extends_some k _ c
    apply Extends.ite
    · refine .bind k fun c => .bind_modRM k fun reg rm c => ?_
      cases rm with
      | reg r => exact .bind k fun r => extends_some k _ c
      | mem base disp => exact extends_none k _
    apply Extends.ite
    · refine .bind_modRM k fun reg rm c => ?_
      cases rm with
      | reg r => exact .bind k fun r => extends_some k _ c
      | mem base disp => exact extends_none k _
    · exact extends_none k _

theorem decode32_append (b : Byte) (c : List Byte) :
    Extends k (decode32 rex b c) (decode32 rex b (c ++ k)) := by
  unfold decode32
  apply Extends.ite
  · exact decode0F_append k c
  apply Extends.ite
  · exact .bind k fun op => .bind_modRM k fun reg rm c => extends_some k _ c
  apply Extends.ite
  · refine .bind k fun op => ?_
    rcases c with _ | ⟨b0, _ | ⟨b1, _ | ⟨b2, _ | ⟨b3, c⟩⟩⟩⟩
    case cons.cons.cons.cons => exact extends_some k _ c
    all_goals exact extends_none k _
  apply Extends.ite
  · exact .bind_modRM k fun reg rm c => extends_some k _ c
  apply Extends.ite
  · exact .bind_modRM k fun reg rm c => extends_some k _ c
  apply Extends.ite
  · exact .bind_modRM k fun reg rm c => extends_some k _ c
  apply Extends.ite
  · refine .bind_modRM k fun reg rm c => .bind k fun op => ?_
    cases c with
    | nil => exact extends_none k _
    | cons n c => exact extends_some k _ c
  apply Extends.ite
  · refine .bind_modRM k fun reg rm c => ?_
    rcases c with _ | ⟨b0, _ | ⟨b1, _ | ⟨b2, _ | ⟨b3, c⟩⟩⟩⟩
    case cons.cons.cons.cons => exact .ite k (extends_some k _ c) (extends_none k _)
    all_goals exact extends_none k _
  apply Extends.ite
  · exact .bind_modRM k fun reg rm c => .bind k fun op => extends_some k _ c
  apply Extends.ite
  · exact .bind_modRM k fun reg rm c => .ite k (extends_some k _ c) (extends_none k _)
  · exact extends_none k _

theorem decodeRex_append (c : List Byte) :
    Extends k (decodeRex rex c) (decodeRex rex (c ++ k)) := by
  cases c with
  | nil => exact extends_none k _
  | cons b c =>
    apply Extends.ite
    · rcases c with _ | ⟨b0, _ | ⟨b1, _ | ⟨b2, _ | ⟨b3, _ | ⟨b4, _ | ⟨b5, _ | ⟨b6, _ | ⟨b7, c⟩⟩⟩⟩⟩⟩⟩⟩
      case cons.cons.cons.cons.cons.cons.cons.cons => exact extends_some k _ c
      all_goals exact extends_none k _
    apply Extends.ite
    · exact extends_none k _
    apply Extends.ite
    · exact extends_some k _ c
    apply Extends.ite
    · exact extends_some k _ c
    apply Extends.ite
    · exact extends_some k _ c
    · exact decode32_append k b c

theorem decode_append (c : List Byte) : Extends k (decode c) (decode (c ++ k)) := by
  cases c with
  | nil => exact extends_none k _
  | cons b c => exact .ite k (decodeRex_append k c) (decodeRex_append k (b :: c))

end append

section beyond
variable {m m' : Machine} {i : Instr} {addr : BitVec 64} {n : ℕ}

/-- An instruction does not look at the code behind it. -/
theorem exec_goto_next (h : exec m i = .next m') (c : List Byte) :
    exec (m.goto c) i = .next (m'.goto c) := by
  cases i with
  | set c dst | cmov c dst src =>
    simp only [exec, goto_flags] at h ⊢
    cases hc : c.eval m.flags with
    | none => simp [hc] at h
    | some t =>
      rw [hc] at h
      obtain rfl := Outcome.next.inj h
      rfl
  | ret => exact absurd h nofun
  | alu op dst src | aluImm op imm =>
    obtain rfl := Outcome.next.inj h
    cases op <;> rfl
  | movTo dst src | movImm dst imm | not dst | shift op dst count => 
    obtain rfl := Outcome.next.inj h
    cases dst <;> rfl
  | _ =>
    obtain rfl := Outcome.next.inj h
    rfl

theorem exec_goto_done (h : exec m i = .done (.returned addr m')) (c : List Byte) :
    exec (m.goto c) i = .done (.returned addr (m'.goto c)) := by
  cases i with
  | ret =>
    cases h
    rfl
  | set c dst | cmov c dst src =>
    simp only [exec] at h
    split at h <;> exact absurd h nofun
  | _ => exact absurd h nofun

/-- Execution keeps the code at the instruction pointer: there are no jumps. -/
theorem exec_next_code (h : exec m i = .next m') : m'.code = m.code := by
  have hsame := exec_goto_next h m.code
  have hm : m' = m'.goto m.code := Outcome.next.inj (h.symm.trans hsame)
  rw [hm, goto_code]

theorem exec_done_code (h : exec m i = .done (.returned addr m')) : m'.code = m.code := by
  have hsame := exec_goto_done h m.code
  have hm := (Exit.returned.inj (Outcome.done.inj (h.symm.trans hsame))).2
  rw [hm, goto_code]

/-- What a step does it does with more code behind. -/
theorem step_append_next (h : step m = .next m') (k : List Byte) :
    step (m.goto (m.code ++ k)) = .next (m'.goto (m'.code ++ k)) := by
  rw [step] at h
  cases hcode : m.code with
  | nil => simp [hcode] at h
  | cons b c =>
    simp only [hcode] at h
    rcases hdec : decode (b :: c) with _ | ⟨i, r⟩
    · simp [hdec] at h
    · simp only [hdec] at h
      have hkeep : m'.code = r := exec_next_code h
      rw [step_of_decode m (decode_append k _ i r hdec), hkeep]
      exact exec_goto_next h (r ++ k)

theorem step_append_done (h : step m = .done (.returned addr m')) (k : List Byte) :
    step (m.goto (m.code ++ k)) = .done (.returned addr (m'.goto (m'.code ++ k))) := by
  rw [step] at h
  cases hcode : m.code with
  | nil => simp [hcode] at h
  | cons b c =>
    simp only [hcode] at h
    rcases hdec : decode (b :: c) with _ | ⟨i, r⟩
    · simp [hdec] at h
    · simp only [hdec] at h
      have hkeep : m'.code = r := exec_done_code h
      rw [step_of_decode m (decode_append k _ i r hdec), hkeep]
      exact exec_goto_done h (r ++ k)

/-- Code that returns does so with more code behind it, and leaves that alone. -/
theorem run_append (h : Run.run step n m = some (.returned addr m')) (k : List Byte) :
    Run.run step n (m.goto (m.code ++ k)) = some (.returned addr (m'.goto (m'.code ++ k))) := by
  induction n generalizing m with
  | zero => cases h
  | succ n ih =>
    rw [Run.run] at h ⊢
    cases hs : step m with
    | next m1 =>
      rw [hs] at h
      rw [step_append_next hs k]
      exact ih h
    | done r =>
      rw [hs] at h
      obtain rfl := Option.some.inj h
      rw [step_append_done hs k]
    | crash =>
      rw [hs] at h
      cases h

/-- Code that returns with nothing left of it does not return when it is cut short. -/
theorem not_returned_of_cut {c k : List Byte} {a a' : BitVec 64} {m'' : Machine} {n' : ℕ}
    (h : Run.run step n (m.goto (c ++ k)) = some (.returned a m')) (hend : m'.code = [])
    (hk : k ≠ []) : Run.run step n' (m.goto c) ≠ some (.returned a' m'') := by
  intro hcut
  have hwhole := run_append hcut k
  have hsame := Run.run_unique h hwhole
  have hcode := congrArg Machine.code (Exit.returned.inj hsame).2
  rw [hend, goto_code] at hcode
  exact hk (List.append_eq_nil_iff.mp hcode.symm).2

end beyond
end X86
