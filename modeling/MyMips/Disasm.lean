import MyMips.Decode
import MyMips.Lib.Text
import Mathlib.Tactic.SplitIfs
import Mathlib.Order.Basic

/-! `disasm.c`: the disassembler shared by the trace and the debugger. Every path
ends in one `snprintf`, whose truncation is applied in `disassemble`. -/
namespace MyMips.Disasm
open Text

def r (n : Reg) : List Char := 'r' :: dec n.toNat
def f (n : Reg) : List Char := 'f' :: dec n.toNat

def comma : List Char := ", ".toList

def hex0x (n : ℕ) : List Char := '0' :: 'x' :: hex n

def immS (i : Word) : List Char := int (imm16 i).toInt
def immX (i : Word) : List Char := hex0x (imm16 i).toNat

def r3 (m : List Char) (i : Word) : List Char :=
  m ++ ' ' :: (r (rd i) ++ comma ++ r (rs i) ++ comma ++ r (rt i))

def rshift (m : List Char) (i : Word) : List Char :=
  m ++ ' ' :: (r (rd i) ++ comma ++ r (rt i) ++ comma ++ dec (shamt i).toNat)

def rshiftv (m : List Char) (i : Word) : List Char :=
  m ++ ' ' :: (r (rd i) ++ comma ++ r (rt i) ++ comma ++ r (rs i))

def r1 (m : List Char) (a : Reg) : List Char := m ++ ' ' :: r a
def r2 (m : List Char) (a b : Reg) : List Char := m ++ ' ' :: (r a ++ comma ++ r b)

def unknown (m : List Char) (v : ℕ) : List Char :=
  "unknown ".toList ++ (m ++ ' ' :: hex0x v)

def disasmSpecial (i : Word) : List Char :=
  match special i with
  | some .ADD => r3 "add".toList i
  | some .ADDU => r3 "addu".toList i
  | some .SUB => r3 "sub".toList i
  | some .SUBU => r3 "subu".toList i
  | some .AND => r3 "and".toList i
  | some .OR => r3 "or".toList i
  | some .XOR => r3 "xor".toList i
  | some .NOR => r3 "nor".toList i
  | some .SLT => r3 "slt".toList i
  | some .SLTU => r3 "sltu".toList i
  | some .MOVZ => r3 "movz".toList i
  | some .MOVN => r3 "movn".toList i
  | some .SLL => rshift "sll".toList i
  | some .SRL => rshift "srl".toList i
  | some .SRA => rshift "sra".toList i
  | some .SLLV => rshiftv "sllv".toList i
  | some .SRLV => rshiftv "srlv".toList i
  | some .SRAV => rshiftv "srav".toList i
  | some .MULT => r2 "mult".toList (rs i) (rt i)
  | some .MULTU => r2 "multu".toList (rs i) (rt i)
  | some .DIV => r2 "div".toList (rs i) (rt i)
  | some .DIVU => r2 "divu".toList (rs i) (rt i)
  | some .MFHI => r1 "mfhi".toList (rd i)
  | some .MFLO => r1 "mflo".toList (rd i)
  | some .MTHI => r1 "mthi".toList (rs i)
  | some .MTLO => r1 "mtlo".toList (rs i)
  | some .JR => r1 "jr".toList (rs i)
  | some .JALR => r2 "jalr".toList (rd i) (rs i)
  | some .SYSCALL => "syscall".toList
  | some .BREAK => "break".toList
  | none => unknown "special".toList (funct i).toNat

def disasmSpecial2 (i : Word) : List Char :=
  match special2 i with
  | some .MUL => r3 "mul".toList i
  | some .MADD => r2 "madd".toList (rs i) (rt i)
  | some .MADDU => r2 "maddu".toList (rs i) (rt i)
  | some .MSUB => r2 "msub".toList (rs i) (rt i)
  | some .MSUBU => r2 "msubu".toList (rs i) (rt i)
  | some .CLZ => r2 "clz".toList (rd i) (rs i)
  | some .CLO => r2 "clo".toList (rd i) (rs i)
  | none => unknown "special2".toList (funct i).toNat

def rOff (m : List Char) (i : Word) : List Char :=
  m ++ ' ' :: (r (rs i) ++ comma ++ immS i)

def disasmRegimm (i : Word) : List Char :=
  match regimm i with
  | some .BLTZ => rOff "bltz".toList i
  | some .BGEZ => rOff "bgez".toList i
  | some .BLTZAL => rOff "bltzal".toList i
  | some .BGEZAL => rOff "bgezal".toList i
  | none => unknown "regimm".toList (rt i).toNat

def i3s (m : List Char) (i : Word) : List Char :=
  m ++ ' ' :: (r (rt i) ++ comma ++ r (rs i) ++ comma ++ immS i)

def i3x (m : List Char) (i : Word) : List Char :=
  m ++ ' ' :: (r (rt i) ++ comma ++ r (rs i) ++ comma ++ immX i)

def b3s (m : List Char) (i : Word) : List Char :=
  m ++ ' ' :: (r (rs i) ++ comma ++ r (rt i) ++ comma ++ immS i)

def offBase (i : Word) : List Char := immS i ++ '(' :: (r (rs i) ++ [')'])

def mem (m : List Char) (i : Word) : List Char :=
  m ++ ' ' :: (r (rt i) ++ comma ++ offBase i)

def disasmImmediate (i : Word) : List Char :=
  match opcode i with
  | some .ADDI => i3s "addi".toList i
  | some .ADDIU => i3s "addiu".toList i
  | some .SLTI => i3s "slti".toList i
  | some .SLTIU => i3s "sltiu".toList i
  | some .ANDI => i3x "andi".toList i
  | some .ORI => i3x "ori".toList i
  | some .XORI => i3x "xori".toList i
  | some .LUI => "lui".toList ++ ' ' :: (r (rt i) ++ comma ++ immX i)
  | some .BEQ => b3s "beq".toList i
  | some .BNE => b3s "bne".toList i
  | some .BGTZ => rOff "bgtz".toList i
  | some .BLEZ => rOff "blez".toList i
  | some .LB => mem "lb".toList i
  | some .LBU => mem "lbu".toList i
  | some .LH => mem "lh".toList i
  | some .LHU => mem "lhu".toList i
  | some .LW => mem "lw".toList i
  | some .LWL => mem "lwl".toList i
  | some .LWR => mem "lwr".toList i
  | some .SB => mem "sb".toList i
  | some .SH => mem "sh".toList i
  | some .SW => mem "sw".toList i
  | some .SWL => mem "swl".toList i
  | some .SWR => mem "swr".toList i
  | some .OP_SPECIAL | some .OP_REGIMM | some .OP_COP1 | some .OP_SPECIAL2 | some .LWC1
  | some .LDC1 | some .SWC1 | some .SDC1 | some .J | some .JAL | none =>
    unknown "opcode".toList (op i).toNat

def fmtSuffix : Option Fmt → Char
  | some .S => 's'
  | some .D => 'd'
  | some .W => 'w'
  | _ => '?'

def f3 (m : List Char) (c : Char) (i : Word) : List Char :=
  m ++ '.' :: c :: ' ' :: (f (shamt i) ++ comma ++ f (rd i) ++ comma ++ f (rt i))

def f2 (m : List Char) (c : Char) (a b : Reg) : List Char :=
  m ++ '.' :: c :: ' ' :: (f a ++ comma ++ f b)

def disasmFp (s : Char) (i : Word) : List Char :=
  match fpFunct i with
  | some .add => f3 "add".toList s i
  | some .sub => f3 "sub".toList s i
  | some .mul => f3 "mul".toList s i
  | some .div => f3 "div".toList s i
  | some .sqrt => f2 "sqrt".toList s (shamt i) (rd i)
  | some .abs => f2 "abs".toList s (shamt i) (rd i)
  | some .mov => f2 "mov".toList s (shamt i) (rd i)
  | some .neg => f2 "neg".toList s (shamt i) (rd i)
  | some .cvtS => f2 "cvt.s".toList s (shamt i) (rd i)
  | some .cvtD => f2 "cvt.d".toList s (shamt i) (rd i)
  | some .cvtW => f2 "cvt.w".toList s (shamt i) (rd i)
  | some .cEq => f2 "c.eq".toList s (rd i) (rt i)
  | some .cLt => f2 "c.lt".toList s (rd i) (rt i)
  | some .cLe => f2 "c.le".toList s (rd i) (rt i)
  | none => "cop1 ".toList ++ hex0x (funct i).toNat

def disasmCop1 (i : Word) : List Char :=
  match fmt i with
  | some .MFC1 => "mfc1".toList ++ ' ' :: (r (rt i) ++ comma ++ f (rd i))
  | some .MTC1 => "mtc1".toList ++ ' ' :: (r (rt i) ++ comma ++ f (rd i))
  | some .BC1 =>
    "bc1".toList ++ (if (i >>> 16) &&& 1 = 1 then 't' else 'f') :: ' ' :: immS i
  | format => disasmFp (fmtSuffix format) i

def fmem (m : List Char) (i : Word) : List Char :=
  m ++ ' ' :: (f (rt i) ++ comma ++ offBase i)

def jump (m : List Char) (i : Word) : List Char :=
  m ++ ' ' :: hex0x (target26 i <<< 2).toNat

def disasmText (instr : Word) : List Char :=
  if instr = 0 then "nop".toList
  else
    match opcode instr with
    | some .OP_SPECIAL => disasmSpecial instr
    | some .OP_SPECIAL2 => disasmSpecial2 instr
    | some .OP_REGIMM => disasmRegimm instr
    | some .OP_COP1 => disasmCop1 instr
    | some .LWC1 => fmem "lwc1".toList instr
    | some .LDC1 => fmem "ldc1".toList instr
    | some .SWC1 => fmem "swc1".toList instr
    | some .SDC1 => fmem "sdc1".toList instr
    | some .J => jump "j".toList instr
    | some .JAL => jump "jal".toList instr
    | _ => disasmImmediate instr

def disassemble (instr : Word) (n : ℕ) : List Char := snprintf n (disasmText instr)

theorem length_r (n : Reg) : (r n).length ≤ 3 := by
  have h := length_dec_le (n := n.toNat) (k := 2) (by decide) (by omega)
  rw [r, List.length_cons]
  omega

theorem length_f (n : Reg) : (f n).length ≤ 3 := by
  have h := length_dec_le (n := n.toNat) (k := 2) (by decide) (by omega)
  rw [f, List.length_cons]
  omega

theorem length_comma : comma.length = 2 := by decide

theorem length_shamt (i : Word) : (dec (shamt i).toNat).length ≤ 2 :=
  length_dec_le (by decide) (by omega)

theorem length_immS (i : Word) : (immS i).length ≤ 6 := by
  have hlo := BitVec.le_toInt (imm16 i)
  have hhi := BitVec.toInt_lt (x := imm16 i)
  exact length_int_le (by decide) (by omega)

theorem length_hex0x {n k : ℕ} (hk : 0 < k) (hn : n < 16 ^ k) : (hex0x n).length ≤ k + 2 := by
  have h := length_hex_le hk hn
  simpa [hex0x] using h

theorem length_immX (i : Word) : (immX i).length ≤ 6 :=
  length_hex0x (k := 4) (by decide) (by omega)

theorem length_unknown (m : List Char) (v : ℕ) (hv : v < 64) :
    (unknown m v).length ≤ m.length + 13 := by
  have h := length_hex0x (n := v) (k := 2) (by decide) (by omega)
  have e : (unknown m v).length = 8 + (m ++ ' ' :: hex0x v).length := by
    unfold unknown
    rw [List.length_append]
    rfl
  rw [e, List.length_append, List.length_cons]
  omega

theorem length_offBase (i : Word) : (offBase i).length ≤ 11 := by
  have h1 := length_immS i
  have h2 := length_r (rs i)
  simp only [offBase, List.length_append, List.length_cons, List.length_nil]
  omega

section
variable (m : List Char) (i : Word)

theorem length_r3 : (r3 m i).length ≤ m.length + 14 := by
  have h1 := length_r (rd i)
  have h2 := length_r (rs i)
  have h3 := length_r (rt i)
  simp only [r3, List.length_append, List.length_cons, length_comma]
  omega

theorem length_rshift : (rshift m i).length ≤ m.length + 13 := by
  have h1 := length_r (rd i)
  have h2 := length_r (rt i)
  have h3 := length_shamt i
  simp only [rshift, List.length_append, List.length_cons, length_comma]
  omega

theorem length_rshiftv : (rshiftv m i).length ≤ m.length + 14 := by
  have h1 := length_r (rd i)
  have h2 := length_r (rs i)
  have h3 := length_r (rt i)
  simp only [rshiftv, List.length_append, List.length_cons, length_comma]
  omega

theorem length_r1 (a : Reg) : (r1 m a).length ≤ m.length + 4 := by
  have h1 := length_r a
  simp only [r1, List.length_append, List.length_cons]
  omega

theorem length_r2 (a b : Reg) : (r2 m a b).length ≤ m.length + 9 := by
  have h1 := length_r a
  have h2 := length_r b
  simp only [r2, List.length_append, List.length_cons, length_comma]
  omega

theorem length_rOff : (rOff m i).length ≤ m.length + 12 := by
  have h1 := length_r (rs i)
  have h2 := length_immS i
  simp only [rOff, List.length_append, List.length_cons, length_comma]
  omega

theorem length_i3s : (i3s m i).length ≤ m.length + 17 := by
  have h1 := length_r (rt i)
  have h2 := length_r (rs i)
  have h3 := length_immS i
  simp only [i3s, List.length_append, List.length_cons, length_comma]
  omega

theorem length_i3x : (i3x m i).length ≤ m.length + 17 := by
  have h1 := length_r (rt i)
  have h2 := length_r (rs i)
  have h3 := length_immX i
  simp only [i3x, List.length_append, List.length_cons, length_comma]
  omega

theorem length_b3s : (b3s m i).length ≤ m.length + 17 := by
  have h1 := length_r (rt i)
  have h2 := length_r (rs i)
  have h3 := length_immS i
  simp only [b3s, List.length_append, List.length_cons, length_comma]
  omega

theorem length_mem : (mem m i).length ≤ m.length + 17 := by
  have h1 := length_r (rt i)
  have h2 := length_offBase i
  simp only [mem, List.length_append, List.length_cons, length_comma]
  omega

theorem length_fmem : (fmem m i).length ≤ m.length + 17 := by
  have h1 := length_f (rt i)
  have h2 := length_offBase i
  simp only [fmem, List.length_append, List.length_cons, length_comma]
  omega

theorem length_f3 (c : Char) : (f3 m c i).length ≤ m.length + 16 := by
  have h1 := length_f (shamt i)
  have h2 := length_f (rd i)
  have h3 := length_f (rt i)
  simp only [f3, List.length_append, List.length_cons, length_comma]
  omega

theorem length_f2 (c : Char) (a b : Reg) : (f2 m c a b).length ≤ m.length + 11 := by
  have h1 := length_f a
  have h2 := length_f b
  simp only [f2, List.length_append, List.length_cons, length_comma]
  omega

theorem length_jump : (jump m i).length ≤ m.length + 11 := by
  have h := length_hex0x (n := (target26 i <<< 2).toNat) (k := 8) (by decide) (by omega)
  simp only [jump, List.length_append, List.length_cons]
  omega

end

theorem disasmSpecial_fits (i : Word) : (disasmSpecial i).length < 64 := by
  -- Three registers make the longest line; no mnemonic of the family has over 8 letters.
  have r3fits (m : List Char) (hm : m.length ≤ 8) : (r3 m i).length < 64 :=
    (length_r3 m i).trans_lt (by omega)
  have r2fits (m : List Char) (a b : Reg) (hm : m.length ≤ 8) : (r2 m a b).length < 64 :=
    (length_r2 m a b).trans_lt (by omega)
  have r1fits (m : List Char) (a : Reg) (hm : m.length ≤ 8) : (r1 m a).length < 64 :=
    (length_r1 m a).trans_lt (by omega)
  cases hf : special i with
  | none =>
    simp only [disasmSpecial, hf]
    exact (length_unknown _ _ (by omega)).trans_lt (by decide)
  | some c =>
    cases c with
    | SLL | SRL | SRA =>
      simp only [disasmSpecial, hf]
      exact (length_rshift _ i).trans_lt (by decide)
    | SLLV | SRLV | SRAV =>
      simp only [disasmSpecial, hf]
      exact (length_rshiftv _ i).trans_lt (by decide)
    | MULT | MULTU | DIV | DIVU | JALR =>
      simp only [disasmSpecial, hf]
      exact r2fits _ _ _ (by decide)
    | MFHI | MFLO | MTHI | MTLO | JR =>
      simp only [disasmSpecial, hf]
      exact r1fits _ _ (by decide)
    | SYSCALL | BREAK => simp only [disasmSpecial, hf]; decide
    | _ =>
      simp only [disasmSpecial, hf]
      exact r3fits _ (by decide)

theorem disasmSpecial2_fits (i : Word) : (disasmSpecial2 i).length < 64 := by
  cases hf : special2 i with
  | none =>
    simp only [disasmSpecial2, hf]
    exact (length_unknown _ _ (by omega)).trans_lt (by decide)
  | some c =>
    cases c with
    | MUL =>
      simp only [disasmSpecial2, hf]
      exact (length_r3 _ i).trans_lt (by decide)
    | _ =>
      simp only [disasmSpecial2, hf]
      exact (length_r2 _ _ _).trans_lt (by decide)

theorem disasmRegimm_fits (i : Word) : (disasmRegimm i).length < 64 := by
  cases hf : regimm i with
  | none =>
    simp only [disasmRegimm, hf]
    exact (length_unknown _ _ (by omega)).trans_lt (by decide)
  | some c =>
    cases c <;> simp only [disasmRegimm, hf] <;>
      exact (length_rOff _ i).trans_lt (by decide)

theorem disasmImmediate_fits (i : Word) : (disasmImmediate i).length < 64 := by
  have hunknown : (unknown "opcode".toList (op i).toNat).length < 64 :=
    (length_unknown _ _ (by omega)).trans_lt (by decide)
  cases ho : opcode i with
  | none => simpa only [disasmImmediate, ho] using hunknown
  | some o =>
    cases o with
    | ADDI | ADDIU | SLTI | SLTIU =>
      simp only [disasmImmediate, ho]
      exact (length_i3s _ i).trans_lt (by decide)
    | ANDI | ORI | XORI =>
      simp only [disasmImmediate, ho]
      exact (length_i3x _ i).trans_lt (by decide)
    | LUI =>
      have h1 := length_r (rt i)
      have h2 := length_immX i
      have h3 : "lui".toList.length = 3 := by decide
      simp only [disasmImmediate, ho, List.length_append, List.length_cons, length_comma, h3]
      omega
    | BEQ | BNE =>
      simp only [disasmImmediate, ho]
      exact (length_b3s _ i).trans_lt (by decide)
    | BGTZ | BLEZ =>
      simp only [disasmImmediate, ho]
      exact (length_rOff _ i).trans_lt (by decide)
    | OP_SPECIAL | OP_REGIMM | OP_COP1 | OP_SPECIAL2 | LWC1 | LDC1 | SWC1 | SDC1 | J | JAL =>
      simpa only [disasmImmediate, ho] using hunknown
    | _ =>
      simp only [disasmImmediate, ho]
      exact (length_mem _ i).trans_lt (by decide)

theorem disasmFp_fits (s : Char) (i : Word) : (disasmFp s i).length < 64 := by
  cases hf : fpFunct i with
  | none =>
    have h := length_hex0x (n := (funct i).toNat) (k := 2) (by decide) (by omega)
    have h5 : "cop1 ".toList.length = 5 := by decide
    simp only [disasmFp, hf, List.length_append, h5]
    omega
  | some c =>
    cases c with
    | add | sub | mul | div =>
      simp only [disasmFp, hf]
      exact (length_f3 _ i s).trans_lt (by decide)
    | _ =>
      simp only [disasmFp, hf]
      exact (length_f2 _ s _ _).trans_lt (by decide)

theorem disasmCop1_fits (i : Word) : (disasmCop1 i).length < 64 := by
  have hmove (m : List Char) (hm : m.length = 4) :
      (m ++ ' ' :: (r (rt i) ++ comma ++ f (rd i))).length < 64 := by
    have h1 := length_r (rt i)
    have h2 := length_f (rd i)
    simp only [List.length_append, List.length_cons, length_comma]
    omega
  cases hc : fmt i with
  | none => simpa only [disasmCop1, hc] using disasmFp_fits _ i
  | some c =>
    cases c with
    | MFC1 => simpa only [disasmCop1, hc] using hmove "mfc1".toList (by decide)
    | MTC1 => simpa only [disasmCop1, hc] using hmove "mtc1".toList (by decide)
    | BC1 =>
      have h1 := length_immS i
      have h3 : "bc1".toList.length = 3 := by decide
      simp only [disasmCop1, hc, List.length_append, List.length_cons, h3]
      omega
    | S | D | W => simpa only [disasmCop1, hc] using disasmFp_fits _ i

theorem disasmText_fits (i : Word) : (disasmText i).length < 64 := by
  unfold disasmText
  split_ifs with h0
  · decide
  · cases ho : opcode i with
    | none => exact disasmImmediate_fits i
    | some o =>
      cases o with
      | OP_SPECIAL => exact disasmSpecial_fits i
      | OP_SPECIAL2 => exact disasmSpecial2_fits i
      | OP_REGIMM => exact disasmRegimm_fits i
      | OP_COP1 => exact disasmCop1_fits i
      | LWC1 | LDC1 | SWC1 | SDC1 => exact (length_fmem _ i).trans_lt (by decide)
      | J | JAL => exact (length_jump _ i).trans_lt (by decide)
      | _ => exact disasmImmediate_fits i

/-- The callers' buffers of 64 bytes hold every text. -/
theorem disassemble_64 (i : Word) : disassemble i 64 = disasmText i :=
  snprintf_of_fits (disasmText_fits i)

end MyMips.Disasm
