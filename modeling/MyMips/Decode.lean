import MyMips.Lib.Switch

namespace MyMips

abbrev Byte := BitVec 8
abbrev Word := BitVec 32

abbrev Reg := BitVec 5

def op (i : Word) : BitVec 6 := (i >>> 26).setWidth 6
def rs (i : Word) : Reg := (i >>> 21).setWidth 5
def rt (i : Word) : Reg := (i >>> 16).setWidth 5
def rd (i : Word) : Reg := (i >>> 11).setWidth 5
def shamt (i : Word) : BitVec 5 := (i >>> 6).setWidth 5
def funct (i : Word) : BitVec 6 := i.setWidth 6
def imm16 (i : Word) : BitVec 16 := i.setWidth 16
def target26 (i : Word) : Word := i &&& 0x3FFFFFF#32

def simm (i : Word) : Word := (imm16 i).signExtend 32

def R0 : Reg := 0
def V0 : Reg := 2
def A0 : Reg := 4
def A1 : Reg := 5
def A2 : Reg := 6
def K0 : Reg := 26
def SP : Reg := 29
def RA : Reg := 31

inductive Opcode
  | OP_SPECIAL | OP_REGIMM | OP_COP1 | OP_SPECIAL2
  | LWC1 | LDC1 | SWC1 | SDC1
  | J | JAL | BEQ | BNE | BLEZ | BGTZ
  | ADDI | ADDIU | SLTI | SLTIU | ANDI | ORI | XORI | LUI
  | LB | LH | LWL | LW | LBU | LHU | LWR
  | SB | SH | SWL | SW | SWR
  deriving DecidableEq, Repr

instance : SwitchLabels Opcode 6 where
  code
    | .OP_SPECIAL => 0x00 | .OP_REGIMM => 0x01 | .OP_COP1 => 0x11 | .OP_SPECIAL2 => 0x1c
    | .LWC1 => 0x31 | .LDC1 => 0x35 | .SWC1 => 0x39 | .SDC1 => 0x3d
    | .J => 0x2 | .JAL => 0x3 | .BEQ => 0x4 | .BNE => 0x5 | .BLEZ => 0x6 | .BGTZ => 0x7
    | .ADDI => 0x8 | .ADDIU => 0x9 | .SLTI => 0xa | .SLTIU => 0xb
    | .ANDI => 0xc | .ORI => 0xd | .XORI => 0xe | .LUI => 0xf
    | .LB => 0x20 | .LH => 0x21 | .LWL => 0x22 | .LW => 0x23
    | .LBU => 0x24 | .LHU => 0x25 | .LWR => 0x26
    | .SB => 0x28 | .SH => 0x29 | .SWL => 0x2a | .SW => 0x2b | .SWR => 0x2e
  all := [.OP_SPECIAL, .OP_REGIMM, .OP_COP1, .OP_SPECIAL2, .LWC1, .LDC1, .SWC1, .SDC1,
    .J, .JAL, .BEQ, .BNE, .BLEZ, .BGTZ, .ADDI, .ADDIU, .SLTI, .SLTIU, .ANDI, .ORI, .XORI,
    .LUI, .LB, .LH, .LWL, .LW, .LBU, .LHU, .LWR, .SB, .SH, .SWL, .SW, .SWR]
  mem_all := by intro a; cases a <;> decide
  codes_nodup := by decide

inductive Special
  | SLL | SRL | SRA | SLLV | SRLV | SRAV | JR | JALR | MOVZ | MOVN | SYSCALL | BREAK
  | MFHI | MTHI | MFLO | MTLO | MULT | MULTU | DIV | DIVU
  | ADD | ADDU | SUB | SUBU | AND | OR | XOR | NOR | SLT | SLTU
  deriving DecidableEq, Repr

instance : SwitchLabels Special 6 where
  code
    | .SLL => 0x0 | .SRL => 0x2 | .SRA => 0x3 | .SLLV => 0x4 | .SRLV => 0x6 | .SRAV => 0x7
    | .JR => 0x8 | .JALR => 0x9 | .MOVZ => 0xa | .MOVN => 0xb
    | .SYSCALL => 0xc | .BREAK => 0xd
    | .MFHI => 0x10 | .MTHI => 0x11 | .MFLO => 0x12 | .MTLO => 0x13
    | .MULT => 0x18 | .MULTU => 0x19 | .DIV => 0x1a | .DIVU => 0x1b
    | .ADD => 0x20 | .ADDU => 0x21 | .SUB => 0x22 | .SUBU => 0x23
    | .AND => 0x24 | .OR => 0x25 | .XOR => 0x26 | .NOR => 0x27
    | .SLT => 0x2a | .SLTU => 0x2b
  all := [.SLL, .SRL, .SRA, .SLLV, .SRLV, .SRAV, .JR, .JALR, .MOVZ, .MOVN, .SYSCALL, .BREAK,
    .MFHI, .MTHI, .MFLO, .MTLO, .MULT, .MULTU, .DIV, .DIVU,
    .ADD, .ADDU, .SUB, .SUBU, .AND, .OR, .XOR, .NOR, .SLT, .SLTU]
  mem_all := by intro a; cases a <;> decide
  codes_nodup := by decide

inductive Special2
  | MADD | MADDU | MUL | MSUB | MSUBU | CLZ | CLO
  deriving DecidableEq, Repr

instance : SwitchLabels Special2 6 where
  code
    | .MADD => 0x0 | .MADDU => 0x1 | .MUL => 0x2 | .MSUB => 0x4 | .MSUBU => 0x5
    | .CLZ => 0x20 | .CLO => 0x21
  all := [.MADD, .MADDU, .MUL, .MSUB, .MSUBU, .CLZ, .CLO]
  mem_all := by intro a; cases a <;> decide
  codes_nodup := by decide

inductive Regimm
  | BLTZ | BGEZ | BLTZAL | BGEZAL
  deriving DecidableEq, Repr

instance : SwitchLabels Regimm 5 where
  code
    | .BLTZ => 0x0 | .BGEZ => 0x1 | .BLTZAL => 0x10 | .BGEZAL => 0x11
  all := [.BLTZ, .BGEZ, .BLTZAL, .BGEZAL]
  mem_all := by intro a; cases a <;> decide
  codes_nodup := by decide

inductive Fmt
  | MFC1 | MTC1 | BC1 | S | D | W
  deriving DecidableEq, Repr

instance : SwitchLabels Fmt 5 where
  code
    | .MFC1 => 0x00 | .MTC1 => 0x04 | .BC1 => 0x08 | .S => 0x10 | .D => 0x11 | .W => 0x14
  all := [.MFC1, .MTC1, .BC1, .S, .D, .W]
  mem_all := by intro a; cases a <;> decide
  codes_nodup := by decide

/-- COP1 function codes. `fpu.c` and `disasm.c` write them as numbers; the names
are those of the comments there. -/
inductive FpFunct
  | add | sub | mul | div | sqrt | abs | mov | neg | cvtS | cvtD | cvtW | cEq | cLt | cLe
  deriving DecidableEq, Repr

instance : SwitchLabels FpFunct 6 where
  code
    | .add => 0x00 | .sub => 0x01 | .mul => 0x02 | .div => 0x03
    | .sqrt => 0x04 | .abs => 0x05 | .mov => 0x06 | .neg => 0x07
    | .cvtS => 0x20 | .cvtD => 0x21 | .cvtW => 0x24
    | .cEq => 0x32 | .cLt => 0x3c | .cLe => 0x3e
  all := [.add, .sub, .mul, .div, .sqrt, .abs, .mov, .neg, .cvtS, .cvtD, .cvtW,
    .cEq, .cLt, .cLe]
  mem_all := by intro a; cases a <;> decide
  codes_nodup := by decide

abbrev opcode (i : Word) : Option Opcode := Switch.select Opcode (op i)
abbrev special (i : Word) : Option Special := Switch.select Special (funct i)
abbrev special2 (i : Word) : Option Special2 := Switch.select Special2 (funct i)
abbrev regimm (i : Word) : Option Regimm := Switch.select Regimm (rt i)
abbrev fmt (i : Word) : Option Fmt := Switch.select Fmt (rs i)
abbrev fpFunct (i : Word) : Option FpFunct := Switch.select FpFunct (funct i)

end MyMips
