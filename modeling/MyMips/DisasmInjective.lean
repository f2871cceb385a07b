import MyMips.DecodeDomain

/-! The disassembly of a decodable word determines what the executor does with it.
The first word of the text determines the case label of every switch involved,
the rest determines the fields that case reads. -/
namespace MyMips.Disasm
open Text

def operandChar (c : Char) : Bool := c != ',' && c != '(' && c != ')' && c != ' '

theorem operandChar_of_numeral (c : Char) (hc : numeral c = true) : operandChar c = true := by
  have hall : "-0123456789abcdef".toList.all operandChar = true := by decide
  exact List.all_eq_true.mp hall c (of_decide_eq_true hc)

theorem token_of_numeral {α : Type} {g : α → List Char} (hg : Token numeral g) :
    Token operandChar g :=
  ⟨hg.injective, fun a c hc => operandChar_of_numeral c (hg.chars a c hc)⟩

theorem token_cons {α : Type} {g : α → List Char} (hg : Token operandChar g) (c : Char)
    (hc : operandChar c = true) : Token operandChar (fun a => c :: g a) := by
  refine ⟨fun a b hab => hg.injective (List.cons.inj hab).2, ?_⟩
  intro a d hd
  rcases List.mem_cons.mp hd with rfl | hd
  · exact hc
  · exact hg.chars a d hd

theorem token_field {k : ℕ} : Token operandChar (fun n : BitVec k => dec n.toNat) :=
  token_of_numeral (token_dec.comp fun _ _ h => BitVec.eq_of_toNat_eq h)

theorem token_r : Token operandChar r := token_cons token_field 'r' (by decide)
theorem token_f : Token operandChar f := token_cons token_field 'f' (by decide)

theorem token_signed : Token operandChar (fun n : BitVec 16 => int n.toInt) :=
  token_of_numeral (token_int.comp fun _ _ h => BitVec.eq_of_toInt_eq h)

theorem token_hex0x {k : ℕ} : Token operandChar (fun n : BitVec k => hex0x n.toNat) :=
  token_cons (token_cons (token_of_numeral
    (token_hex.comp fun _ _ h => BitVec.eq_of_toNat_eq h)) 'x' (by decide)) '0' (by decide)

section
variable {α : Type} {g : α → List Char} {a b : α} {xs ys : List Char}

theorem comma_inj (hg : Token operandChar g)
    (h : g a ++ (comma ++ xs) = g b ++ (comma ++ ys)) : a = b ∧ xs = ys := by
  have hstop (zs : List Char) : Stops operandChar (comma ++ zs) := (stops_cons _ _ _).mpr rfl
  obtain ⟨hab, hxy⟩ := hg.append_inj (hstop xs) (hstop ys) h
  exact ⟨hab, List.append_cancel_left hxy⟩

theorem offBase_inj {i j : Word} (h : offBase i = offBase j) :
    imm16 i = imm16 j ∧ rs i = rs j := by
  obtain ⟨himm, hrest⟩ := token_signed.append_inj ((stops_cons _ _ _).mpr rfl)
    ((stops_cons _ _ _).mpr rfl) h
  obtain ⟨hrs, _⟩ := token_r.append_inj ((stops_cons _ _ _).mpr rfl)
    ((stops_cons _ _ _).mpr rfl) (List.cons.inj hrest).2
  exact ⟨himm, hrs⟩

end

section
variable {m : List Char} {i j : Word}

/-- Strip the mnemonic and the blank after it. -/
theorem operands_eq {xs ys : List Char} (h : m ++ ' ' :: xs = m ++ ' ' :: ys) : xs = ys :=
  (List.cons.inj (List.append_cancel_left h)).2

theorem r3_inj (h : r3 m i = r3 m j) : rd i = rd j ∧ rs i = rs j ∧ rt i = rt j := by
  have h1 := operands_eq h
  simp only [List.append_assoc] at h1
  obtain ⟨hd, h2⟩ := comma_inj token_r h1
  obtain ⟨hs, h3⟩ := comma_inj token_r h2
  exact ⟨hd, hs, token_r.injective h3⟩

theorem rshift_inj (h : rshift m i = rshift m j) :
    rd i = rd j ∧ rt i = rt j ∧ shamt i = shamt j := by
  have h1 := operands_eq h
  simp only [List.append_assoc] at h1
  obtain ⟨hd, h2⟩ := comma_inj token_r h1
  obtain ⟨ht, h3⟩ := comma_inj token_r h2
  exact ⟨hd, ht, token_field.injective h3⟩

theorem rshiftv_inj (h : rshiftv m i = rshiftv m j) :
    rd i = rd j ∧ rt i = rt j ∧ rs i = rs j := by
  have h1 := operands_eq h
  simp only [List.append_assoc] at h1
  obtain ⟨hd, h2⟩ := comma_inj token_r h1
  obtain ⟨ht, h3⟩ := comma_inj token_r h2
  exact ⟨hd, ht, token_r.injective h3⟩

theorem r1_inj {a b : Reg} (h : r1 m a = r1 m b) : a = b :=
  token_r.injective (operands_eq h)

theorem r2_inj {a b c d : Reg} (h : r2 m a b = r2 m c d) : a = c ∧ b = d := by
  have h1 := operands_eq h
  simp only [List.append_assoc] at h1
  obtain ⟨hac, h2⟩ := comma_inj token_r h1
  exact ⟨hac, token_r.injective h2⟩

theorem rOff_inj (h : rOff m i = rOff m j) : rs i = rs j ∧ imm16 i = imm16 j := by
  have h1 := operands_eq h
  simp only [List.append_assoc] at h1
  obtain ⟨hs, h2⟩ := comma_inj token_r h1
  exact ⟨hs, token_signed.injective h2⟩

theorem i3s_inj (h : i3s m i = i3s m j) :
    rt i = rt j ∧ rs i = rs j ∧ imm16 i = imm16 j := by
  have h1 := operands_eq h
  simp only [List.append_assoc] at h1
  obtain ⟨ht, h2⟩ := comma_inj token_r h1
  obtain ⟨hs, h3⟩ := comma_inj token_r h2
  exact ⟨ht, hs, token_signed.injective h3⟩

theorem i3x_inj (h : i3x m i = i3x m j) :
    rt i = rt j ∧ rs i = rs j ∧ imm16 i = imm16 j := by
  have h1 := operands_eq h
  simp only [List.append_assoc] at h1
  obtain ⟨ht, h2⟩ := comma_inj token_r h1
  obtain ⟨hs, h3⟩ := comma_inj token_r h2
  exact ⟨ht, hs, token_hex0x.injective h3⟩

theorem b3s_inj (h : b3s m i = b3s m j) :
    rt i = rt j ∧ rs i = rs j ∧ imm16 i = imm16 j := by
  have h1 := operands_eq h
  simp only [List.append_assoc] at h1
  obtain ⟨hs, h2⟩ := comma_inj token_r h1
  obtain ⟨ht, h3⟩ := comma_inj token_r h2
  exact ⟨ht, hs, token_signed.injective h3⟩

theorem lui_inj (h : m ++ ' ' :: (r (rt i) ++ comma ++ immX i) =
    m ++ ' ' :: (r (rt j) ++ comma ++ immX j)) : rt i = rt j ∧ imm16 i = imm16 j := by
  have h1 := operands_eq h
  simp only [List.append_assoc] at h1
  obtain ⟨ht, h2⟩ := comma_inj token_r h1
  exact ⟨ht, token_hex0x.injective h2⟩

theorem mem_inj (h : mem m i = mem m j) : rt i = rt j ∧ rs i = rs j ∧ imm16 i = imm16 j := by
  have h1 := operands_eq h
  simp only [List.append_assoc] at h1
  obtain ⟨ht, h2⟩ := comma_inj token_r h1
  obtain ⟨himm, hs⟩ := offBase_inj h2
  exact ⟨ht, hs, himm⟩

theorem fmem_inj (h : fmem m i = fmem m j) : rt i = rt j ∧ rs i = rs j ∧ imm16 i = imm16 j := by
  have h1 := operands_eq h
  simp only [List.append_assoc] at h1
  obtain ⟨ht, h2⟩ := comma_inj token_f h1
  obtain ⟨himm, hs⟩ := offBase_inj h2
  exact ⟨ht, hs, himm⟩

theorem move_inj (h : m ++ ' ' :: (r (rt i) ++ comma ++ f (rd i)) =
    m ++ ' ' :: (r (rt j) ++ comma ++ f (rd j))) : rt i = rt j ∧ rd i = rd j := by
  have h1 := operands_eq h
  simp only [List.append_assoc] at h1
  obtain ⟨ht, h2⟩ := comma_inj token_r h1
  exact ⟨ht, token_f.injective h2⟩

theorem f3_inj {c : Char} (h : f3 m c i = f3 m c j) :
    shamt i = shamt j ∧ rd i = rd j ∧ rt i = rt j := by
  have h1 := (List.cons.inj (List.cons.inj (List.cons.inj (List.append_cancel_left h)).2).2).2
  simp only [List.append_assoc] at h1
  obtain ⟨hd, h2⟩ := comma_inj token_f h1
  obtain ⟨hs, h3⟩ := comma_inj token_f h2
  exact ⟨hd, hs, token_f.injective h3⟩

theorem f2_inj {c : Char} {x y z w : Reg} (h : f2 m c x y = f2 m c z w) : x = z ∧ y = w := by
  have h1 := (List.cons.inj (List.cons.inj (List.cons.inj (List.append_cancel_left h)).2).2).2
  simp only [List.append_assoc] at h1
  obtain ⟨hxz, h2⟩ := comma_inj token_f h1
  exact ⟨hxz, token_f.injective h2⟩

theorem jump_inj (h : jump m i = jump m j) : target26 i = target26 j := by
  have h1 : target26 i <<< 2 = target26 j <<< 2 := token_hex0x.injective (operands_eq h)
  -- The two bits the shift pushes out are zero.
  have hback (w : Word) : (target26 w <<< 2) >>> 2 = target26 w := by
    have hlt : (target26 w).toNat ≤ 0x3FFFFFF := by
      simpa [target26] using Nat.and_le_right (n := w.toNat) (m := 0x3FFFFFF)
    apply BitVec.eq_of_toNat_eq
    simp only [BitVec.toNat_ushiftRight, BitVec.toNat_shiftLeft, Nat.shiftLeft_eq,
      Nat.shiftRight_eq_div_pow]
    omega
  rw [← hback i, h1, hback j]

end

inductive Suffix
  | single | double | word | unknown
  deriving DecidableEq

def Suffix.char : Suffix → Char
  | .single => 's' | .double => 'd' | .word => 'w' | .unknown => '?'

/-- The case labels a printed word went through. -/
inductive Insn
  | nop
  | special (c : Special)
  | special2 (c : Special2)
  | regimm (c : Regimm)
  | immediate (o : Opcode)
  | mfc1
  | mtc1
  | bc1 (taken : Bool)
  | fp (s : Suffix) (c : FpFunct)
  | cop1
  deriving DecidableEq

def suffix (i : Word) : Suffix :=
  match fmt i with
  | some .S => .single
  | some .D => .double
  | some .W => .word
  | _ => .unknown

def cop1Insn (i : Word) : Insn :=
  match fmt i with
  | some .MFC1 => .mfc1
  | some .MTC1 => .mtc1
  | some .BC1 => .bc1 ((i >>> 16) &&& 1 = 1)
  | _ => (fpFunct i).elim .cop1 (.fp (suffix i))

def insn (i : Word) : Option Insn :=
  if i = 0 then some .nop
  else
    match opcode i with
    | none => none
    | some .OP_SPECIAL => (special i).map .special
    | some .OP_SPECIAL2 => (special2 i).map .special2
    | some .OP_REGIMM => (regimm i).map .regimm
    | some .OP_COP1 => some (cop1Insn i)
    | some o => some (.immediate o)

def specialName : Special → List Char
  | .ADD => "add".toList | .ADDU => "addu".toList | .SUB => "sub".toList
  | .SUBU => "subu".toList | .AND => "and".toList | .OR => "or".toList | .XOR => "xor".toList
  | .NOR => "nor".toList | .SLT => "slt".toList | .SLTU => "sltu".toList
  | .MOVZ => "movz".toList | .MOVN => "movn".toList | .SLL => "sll".toList
  | .SRL => "srl".toList | .SRA => "sra".toList | .SLLV => "sllv".toList
  | .SRLV => "srlv".toList | .SRAV => "srav".toList | .MULT => "mult".toList
  | .MULTU => "multu".toList | .DIV => "div".toList | .DIVU => "divu".toList
  | .MFHI => "mfhi".toList | .MFLO => "mflo".toList | .MTHI => "mthi".toList
  | .MTLO => "mtlo".toList | .JR => "jr".toList | .JALR => "jalr".toList
  | .SYSCALL => "syscall".toList | .BREAK => "break".toList

def special2Name : Special2 → List Char
  | .MUL => "mul".toList | .MADD => "madd".toList | .MADDU => "maddu".toList
  | .MSUB => "msub".toList | .MSUBU => "msubu".toList | .CLZ => "clz".toList
  | .CLO => "clo".toList

def regimmName : Regimm → List Char
  | .BLTZ => "bltz".toList | .BGEZ => "bgez".toList | .BLTZAL => "bltzal".toList
  | .BGEZAL => "bgezal".toList

def opcodeName : Opcode → List Char
  | .LWC1 => "lwc1".toList | .LDC1 => "ldc1".toList | .SWC1 => "swc1".toList
  | .SDC1 => "sdc1".toList | .J => "j".toList | .JAL => "jal".toList
  | .BEQ => "beq".toList | .BNE => "bne".toList | .BLEZ => "blez".toList
  | .BGTZ => "bgtz".toList | .ADDI => "addi".toList | .ADDIU => "addiu".toList
  | .SLTI => "slti".toList | .SLTIU => "sltiu".toList | .ANDI => "andi".toList
  | .ORI => "ori".toList | .XORI => "xori".toList | .LUI => "lui".toList
  | .LB => "lb".toList | .LH => "lh".toList | .LWL => "lwl".toList | .LW => "lw".toList
  | .LBU => "lbu".toList | .LHU => "lhu".toList | .LWR => "lwr".toList | .SB => "sb".toList
  | .SH => "sh".toList | .SWL => "swl".toList | .SW => "sw".toList | .SWR => "swr".toList
  | .OP_SPECIAL => "special".toList | .OP_SPECIAL2 => "special2".toList
  | .OP_REGIMM => "regimm".toList | .OP_COP1 => "cop1?".toList

def fpName : FpFunct → List Char
  | .add => "add".toList | .sub => "sub".toList | .mul => "mul".toList | .div => "div".toList
  | .sqrt => "sqrt".toList | .abs => "abs".toList | .mov => "mov".toList
  | .neg => "neg".toList | .cvtS => "cvt.s".toList | .cvtD => "cvt.d".toList
  | .cvtW => "cvt.w".toList | .cEq => "c.eq".toList | .cLt => "c.lt".toList
  | .cLe => "c.le".toList

def Insn.name : Insn → List Char
  | .nop => "nop".toList
  | .special c => specialName c
  | .special2 c => special2Name c
  | .regimm c => regimmName c
  | .immediate o => opcodeName o
  | .mfc1 => "mfc1".toList
  | .mtc1 => "mtc1".toList
  | .bc1 taken => "bc1".toList ++ [if taken then 't' else 'f']
  | .fp s c => fpName c ++ ['.', s.char]
  | .cop1 => "cop1".toList

theorem Insn.name_bc1 (taken : Bool) :
    (Insn.bc1 taken).name = "bc1".toList ++ [if taken then 't' else 'f'] := rfl

def Insn.all : List Insn :=
  [.nop, .mfc1, .mtc1, .bc1 true, .bc1 false, .cop1] ++
    (SwitchLabels.all.map .special ++ SwitchLabels.all.map .special2 ++
      SwitchLabels.all.map .regimm ++ SwitchLabels.all.map .immediate) ++
    [Suffix.single, .double, .word, .unknown].flatMap fun s => SwitchLabels.all.map (.fp s)

theorem Insn.mem_all (k : Insn) : k ∈ Insn.all := by
  cases k with
  | nop | mfc1 | mtc1 | cop1 => decide
  | bc1 taken => cases taken <;> decide
  | special c => simp [Insn.all, SwitchLabels.mem_all]
  | special2 c => simp [Insn.all, SwitchLabels.mem_all]
  | regimm c => simp [Insn.all, SwitchLabels.mem_all]
  | immediate o => simp [Insn.all, SwitchLabels.mem_all]
  | fp s c => cases s <;> simp [Insn.all, SwitchLabels.mem_all]

/-- A text as one number, so that comparing two names is one comparison. -/
def pack (t : List Char) : ℕ := t.foldl (fun n c => 256 * n + c.toNat) 0

/-- No number of the list occurs twice or has its bit in the mask. -/
def distinctBits : List ℕ → ℕ → Bool
  | [], _ => true
  | n :: ns, mask => !mask.testBit n && distinctBits ns (mask ||| 1 <<< n)

theorem nodup_of_distinctBits {ns : List ℕ} {mask : ℕ} (h : distinctBits ns mask = true) :
    ns.Nodup ∧ ∀ n ∈ ns, mask.testBit n = false := by
  induction ns generalizing mask with
  | nil => simp
  | cons n ns ih =>
    simp only [distinctBits, Bool.and_eq_true, Bool.not_eq_true'] at h
    obtain ⟨hnodup, hfree⟩ := ih h.2
    -- The mask of the rest has the bit of `n` too, so the rest stays clear of it.
    have hrest : ∀ m ∈ ns, mask.testBit m = false ∧ n ≠ m := by
      intro m hm
      have hor := hfree m hm
      rw [Nat.one_shiftLeft, Nat.testBit_or, Nat.testBit_two_pow, Bool.or_eq_false_iff] at hor
      exact ⟨hor.1, by simpa using hor.2⟩
    constructor
    · apply List.nodup_cons.mpr
      exact ⟨fun hm => (hrest n hm).2 rfl, hnodup⟩
    · intro m hm
      rcases List.mem_cons.mp hm with rfl | hm
      · exact h.1
      · exact (hrest m hm).1

-- One pass over the mnemonics; the modulus is the least that keeps them apart.
theorem Insn.names_nodup : (Insn.all.map fun k => pack k.name % 1566).Nodup := by
  have hbits : distinctBits (Insn.all.map fun k => pack k.name % 1566) 0 = true := by
    decide +kernel
  exact (nodup_of_distinctBits hbits).1

/-- No two instructions share a mnemonic. -/
theorem Insn.name_injective : Function.Injective Insn.name := by
  intro a b hab
  apply List.inj_on_of_nodup_map Insn.names_nodup a.mem_all b.mem_all
  rw [hab]

theorem firstWord_suffix {m rest : List Char} {s : Suffix} (hm : ' ' ∉ m) :
    firstWord (m ++ '.' :: s.char :: ' ' :: rest) = m ++ ['.', s.char] := by
  have hsplit : m ++ '.' :: s.char :: ' ' :: rest = (m ++ ['.', s.char]) ++ ' ' :: rest := by simp
  have hs : s.char ≠ ' ' := by cases s <;> decide
  rw [hsplit, firstWord_append (by simp [hm, hs.symm])]

theorem fmtSuffix_eq (i : Word) : fmtSuffix (fmt i) = (suffix i).char := by
  cases hc : fmt i with
  | none => simp [suffix, hc, fmtSuffix, Suffix.char]
  | some c => cases c <;> simp [suffix, hc, fmtSuffix, Suffix.char]

theorem firstWord_disasmFp (s : Suffix) (i : Word) :
    firstWord (disasmFp s.char i) = ((fpFunct i).elim Insn.cop1 (.fp s)).name := by
  cases hf : fpFunct i with
  | none =>
    simp only [disasmFp, hf]
    exact firstWord_append (m := "cop1".toList) (by decide)
  | some c => cases c <;> simp only [disasmFp, hf] <;> exact firstWord_suffix (by decide)

theorem disasmCop1_arith {i : Word} (h1 : fmt i ≠ some .MFC1) (h2 : fmt i ≠ some .MTC1)
    (h3 : fmt i ≠ some .BC1) :
    disasmCop1 i = disasmFp (suffix i).char i ∧
      cop1Insn i = (fpFunct i).elim .cop1 (.fp (suffix i)) := by
  rw [← fmtSuffix_eq]
  cases hc : fmt i with
  | none => simp only [disasmCop1, cop1Insn, hc, and_self]
  | some c =>
    cases c with
    | MFC1 => exact absurd hc h1
    | MTC1 => exact absurd hc h2
    | BC1 => exact absurd hc h3
    | S | D | W => simp only [disasmCop1, cop1Insn, hc, and_self]

theorem firstWord_disasmCop1 (i : Word) : firstWord (disasmCop1 i) = (cop1Insn i).name := by
  by_cases h1 : fmt i = some .MFC1
  · simp only [disasmCop1, cop1Insn, h1]
    exact firstWord_append (by decide)
  by_cases h2 : fmt i = some .MTC1
  · simp only [disasmCop1, cop1Insn, h2]
    exact firstWord_append (by decide)
  by_cases h3 : fmt i = some .BC1
  · simp only [disasmCop1, cop1Insn, h3, Insn.name_bc1, decide_eq_true_eq]
    split
    · exact firstWord_append (m := "bc1t".toList) (by decide)
    · exact firstWord_append (m := "bc1f".toList) (by decide)
  obtain ⟨ht, hk⟩ := disasmCop1_arith h1 h2 h3
  rw [ht, hk, firstWord_disasmFp]

/-- The first word of a text is the mnemonic of the labels the word went through. -/
theorem firstWord_disasmText {i : Word} {k : Insn} (hk : insn i = some k) :
    firstWord (disasmText i) = k.name := by
  -- Both sides branch on the same labels, and under each the mnemonic is a literal.
  unfold insn at hk
  unfold disasmText
  split_ifs at hk ⊢ with h0
  · cases hk
    decide
  · cases ho : opcode i with
    | none => simp [ho] at hk
    | some o =>
      simp only [ho] at hk
      cases o with
      | OP_SPECIAL =>
        obtain ⟨c, hc, rfl⟩ := Option.map_eq_some_iff.mp hk
        cases c with
        | SYSCALL | BREAK => simp only [disasmSpecial, hc]; decide
        | _ => simp only [disasmSpecial, hc]; exact firstWord_append (by decide)
      | OP_SPECIAL2 =>
        obtain ⟨c, hc, rfl⟩ := Option.map_eq_some_iff.mp hk
        cases c <;> simp only [disasmSpecial2, hc] <;> exact firstWord_append (by decide)
      | OP_REGIMM =>
        obtain ⟨c, hc, rfl⟩ := Option.map_eq_some_iff.mp hk
        cases c <;> simp only [disasmRegimm, hc] <;> exact firstWord_append (by decide)
      | OP_COP1 =>
        cases hk
        exact firstWord_disasmCop1 i
      | LWC1 | LDC1 | SWC1 | SDC1 | J | JAL =>
        cases hk
        exact firstWord_append (by decide)
      | _ =>
        cases hk
        simp only [disasmImmediate, ho]
        exact firstWord_append (by decide)

/-- A word without labels is printed as unknown. -/
theorem unknown_of_insn_none {i : Word} (hk : insn i = none) :
    "unknown ".toList <+: disasmText i := by
  unfold insn at hk
  unfold disasmText
  split_ifs at hk ⊢ with h0
  cases ho : opcode i with
  | none =>
    simp only [disasmImmediate, ho]
    exact List.prefix_append _ _
  | some o =>
    simp only [ho] at hk
    cases o with
    | OP_SPECIAL =>
      simp only [disasmSpecial, Option.map_eq_none_iff.mp hk]
      exact List.prefix_append _ _
    | OP_SPECIAL2 =>
      simp only [disasmSpecial2, Option.map_eq_none_iff.mp hk]
      exact List.prefix_append _ _
    | OP_REGIMM =>
      simp only [disasmRegimm, Option.map_eq_none_iff.mp hk]
      exact List.prefix_append _ _
    | _ => simp at hk

def specialFields (c : Special) (i : Word) : List (BitVec 5) :=
  match c with
  | .SLL | .SRL | .SRA => [rd i, rt i, shamt i]
  | .MULT | .MULTU | .DIV | .DIVU => [rs i, rt i]
  | .MFHI | .MFLO => [rd i]
  | .MTHI | .MTLO | .JR => [rs i]
  | .JALR => [rd i, rs i]
  | .SYSCALL | .BREAK => []
  | _ => [rd i, rs i, rt i]

theorem special_fields_eq {v w : Word} {c : Special} (hv : special v = some c)
    (hw : special w = some c) (h : disasmSpecial v = disasmSpecial w) :
    specialFields c v = specialFields c w := by
  -- The mnemonics agree, so the texts differ in the operands alone.
  cases c with
  | SYSCALL | BREAK => rfl
  | SLL | SRL | SRA =>
    simp only [disasmSpecial, hv, hw] at h
    obtain ⟨h1, h2, h3⟩ := rshift_inj h
    simp only [specialFields, h1, h2, h3]
  | SLLV | SRLV | SRAV =>
    simp only [disasmSpecial, hv, hw] at h
    obtain ⟨h1, h2, h3⟩ := rshiftv_inj h
    simp only [specialFields, h1, h2, h3]
  | MULT | MULTU | DIV | DIVU | JALR =>
    simp only [disasmSpecial, hv, hw] at h
    obtain ⟨h1, h2⟩ := r2_inj h
    simp only [specialFields, h1, h2]
  | MFHI | MFLO | MTHI | MTLO | JR =>
    simp only [disasmSpecial, hv, hw] at h
    simp only [specialFields, r1_inj h]
  | _ =>
    simp only [disasmSpecial, hv, hw] at h
    obtain ⟨h1, h2, h3⟩ := r3_inj h
    simp only [specialFields, h1, h2, h3]

theorem execRegister_congr {v w : Word} {c : Special} (hv : special v = some c)
    (hw : special w = some c) (h : specialFields c v = specialFields c w) (s : State) :
    execRegister v s = execRegister w s := by
  cases c with
  | SYSCALL | BREAK => simp only [execRegister, hv, hw]
  | MULT | MULTU | DIV | DIVU | JALR =>
    simp only [specialFields, List.cons.injEq, and_true] at h
    simp only [execRegister, hv, hw, mult, multu, div, divu, h.1, h.2]
  | MFHI | MFLO | MTHI | MTLO | JR =>
    simp only [specialFields, List.cons.injEq, and_true] at h
    simp only [execRegister, hv, hw, h]
  | _ =>
    simp only [specialFields, List.cons.injEq, and_true] at h
    obtain ⟨h1, h2, h3⟩ := h
    simp only [execRegister, hv, hw, add, sub, h1, h2, h3]

def special2Fields (c : Special2) (i : Word) : List Reg :=
  match c with
  | .MUL => [rd i, rs i, rt i]
  | .CLZ | .CLO => [rd i, rs i]
  | _ => [rs i, rt i]

theorem special2_fields_eq {v w : Word} {c : Special2} (hv : special2 v = some c)
    (hw : special2 w = some c) (h : disasmSpecial2 v = disasmSpecial2 w) :
    special2Fields c v = special2Fields c w := by
  cases c with
  | MUL =>
    simp only [disasmSpecial2, hv, hw] at h
    obtain ⟨h1, h2, h3⟩ := r3_inj h
    simp only [special2Fields, h1, h2, h3]
  | _ =>
    simp only [disasmSpecial2, hv, hw] at h
    obtain ⟨h1, h2⟩ := r2_inj h
    simp only [special2Fields, h1, h2]

theorem execSpecial2_congr {v w : Word} {c : Special2} (hv : special2 v = some c)
    (hw : special2 w = some c) (h : special2Fields c v = special2Fields c w) (s : State) :
    execSpecial2 v s = execSpecial2 w s := by
  cases c with
  | MUL =>
    simp only [special2Fields, List.cons.injEq, and_true] at h
    obtain ⟨h1, h2, h3⟩ := h
    simp only [execSpecial2, hv, hw, h1, h2, h3]
  | _ =>
    simp only [special2Fields, List.cons.injEq, and_true] at h
    simp only [execSpecial2, hv, hw, h.1, h.2]

def immediateFields (o : Opcode) (i : Word) : List Reg × BitVec 16 :=
  match o with
  | .LUI => ([rt i], imm16 i)
  | .BGTZ | .BLEZ => ([rs i], imm16 i)
  | _ => ([rt i, rs i], imm16 i)

theorem immediate_fields_eq {v w : Word} {o : Opcode} (hv : opcode v = some o)
    (hw : opcode w = some o) (ho : o ∉ [.OP_SPECIAL, .OP_SPECIAL2, .OP_REGIMM, .OP_COP1, .LWC1,
      .LDC1, .SWC1, .SDC1, .J, .JAL])
    (h : disasmImmediate v = disasmImmediate w) :
    immediateFields o v = immediateFields o w := by
  cases o with
  | OP_SPECIAL | OP_SPECIAL2 | OP_REGIMM | OP_COP1 | LWC1 | LDC1 | SWC1 | SDC1 | J | JAL =>
    exact absurd (by decide) ho
  | LUI =>
    simp only [disasmImmediate, hv, hw] at h
    obtain ⟨h1, h2⟩ := lui_inj h
    simp only [immediateFields, h1, h2]
  | BGTZ | BLEZ =>
    simp only [disasmImmediate, hv, hw] at h
    obtain ⟨h1, h2⟩ := rOff_inj h
    simp only [immediateFields, h1, h2]
  | BEQ | BNE =>
    simp only [disasmImmediate, hv, hw] at h
    obtain ⟨h1, h2, h3⟩ := b3s_inj h
    simp only [immediateFields, h1, h2, h3]
  | ADDI | ADDIU | SLTI | SLTIU =>
    simp only [disasmImmediate, hv, hw] at h
    obtain ⟨h1, h2, h3⟩ := i3s_inj h
    simp only [immediateFields, h1, h2, h3]
  | ANDI | ORI | XORI =>
    simp only [disasmImmediate, hv, hw] at h
    obtain ⟨h1, h2, h3⟩ := i3x_inj h
    simp only [immediateFields, h1, h2, h3]
  | _ =>
    simp only [disasmImmediate, hv, hw] at h
    obtain ⟨h1, h2, h3⟩ := mem_inj h
    simp only [immediateFields, h1, h2, h3]

section
variable {v w : Word} (s : State)

theorem branchIf_congr (himm : imm16 v = imm16 w) (c : Bool) : branchIf c v s = branchIf c w s := by
  simp only [branchIf, branchDest, simm, himm]

theorem memAddr_congr (hrs : rs v = rs w) (himm : imm16 v = imm16 w) :
    memAddr v s = memAddr w s := by
  simp only [memAddr, simm, hrs, himm]

theorem execImmediate_congr (h : Host) {o : Opcode} (hv : opcode v = some o)
    (hw : opcode w = some o) (hr : o ≠ .OP_REGIMM)
    (hf : immediateFields o v = immediateFields o w) :
    execImmediate h v s = execImmediate h w s := by
  -- Under every label the immediate is the last of the fields.
  have himm : imm16 v = imm16 w := by
    cases o <;> exact congrArg Prod.snd hf
  have hsimm : simm v = simm w := by rw [simm, simm, himm]
  cases o with
  | OP_REGIMM => exact absurd rfl hr
  | OP_SPECIAL | OP_SPECIAL2 | OP_COP1 | LWC1 | LDC1 | SWC1 | SDC1 | J | JAL =>
    simp only [execImmediate, hv, hw]
  | LUI =>
    simp only [immediateFields, Prod.mk.injEq, List.cons.injEq, and_true] at hf
    simp only [execImmediate, hv, hw, hf.1, himm]
  | BGTZ | BLEZ =>
    simp only [immediateFields, Prod.mk.injEq, List.cons.injEq, and_true] at hf
    simp only [execImmediate, hv, hw, hf.1, branchIf_congr s himm]
  | BEQ | BNE =>
    simp only [immediateFields, Prod.mk.injEq, List.cons.injEq, and_true] at hf
    simp only [execImmediate, hv, hw, hf.1.1, hf.1.2, branchIf_congr s himm]
  | ADDI =>
    simp only [immediateFields, Prod.mk.injEq, List.cons.injEq, and_true] at hf
    simp only [execImmediate, hv, hw, addi]
    rw [hf.1.1, hf.1.2, hsimm]
  | ADDIU | SLTI | SLTIU | ANDI | ORI | XORI =>
    simp only [immediateFields, Prod.mk.injEq, List.cons.injEq, and_true] at hf
    simp only [execImmediate, hv, hw, hsimm, hf.1.1, hf.1.2, himm]
  | _ =>
    simp only [immediateFields, Prod.mk.injEq, List.cons.injEq, and_true] at hf
    simp only [execImmediate, hv, hw, hf.1.1, memAddr_congr s hf.1.2 himm]

theorem execRegimm_congr (hr : regimm v = regimm w) (hrs : rs v = rs w)
    (himm : imm16 v = imm16 w) : execRegimm v s = execRegimm w s := by
  simp only [execRegimm, hr, hrs, branchIf_congr _ himm]

theorem execCop1Ldst_congr (h : Host) (ho : opcode v = opcode w) (hrt : rt v = rt w)
    (hrs : rs v = rs w) (himm : imm16 v = imm16 w) :
    execCop1Ldst h v s = execCop1Ldst h w s := by
  simp only [execCop1Ldst, ho, ft, hrt, memAddr_congr s hrs himm]

theorem execJump_congr (ho : opcode v = opcode w) (ht : target26 v = target26 w) :
    execJump v s = execJump w s := by
  simp only [execJump, ho, ht]

end

def fpFields (c : FpFunct) (i : Word) : List Reg :=
  match c with
  | .add | .sub | .mul | .div => [shamt i, rd i, rt i]
  | .cEq | .cLt | .cLe => [rd i, rt i]
  | _ => [shamt i, rd i]

theorem fp_fields_eq {v w : Word} {c : FpFunct} {s : Char} (hv : fpFunct v = some c)
    (hw : fpFunct w = some c) (h : disasmFp s v = disasmFp s w) :
    fpFields c v = fpFields c w := by
  cases c with
  | add | sub | mul | div =>
    simp only [disasmFp, hv, hw] at h
    obtain ⟨h1, h2, h3⟩ := f3_inj h
    simp only [fpFields, h1, h2, h3]
  | _ =>
    simp only [disasmFp, hv, hw] at h
    obtain ⟨h1, h2⟩ := f2_inj h
    simp only [fpFields, h1, h2]

section
variable {v w : Word} {c : FpFunct} (u : FpUnit) (s : State)

theorem fpSingle_congr (hv : fpFunct v = some c) (hw : fpFunct w = some c)
    (h : fpFields c v = fpFields c w) : fpSingle u v s = fpSingle u w s := by
  cases c with
  | add | sub | mul | div =>
    simp only [fpFields, List.cons.injEq, and_true] at h
    obtain ⟨h1, h2, h3⟩ := h
    simp only [fpSingle, hv, hw, fd, fs, ft, h1, h2, h3]
  | _ =>
    simp only [fpFields, List.cons.injEq, and_true] at h
    simp only [fpSingle, hv, hw, fd, fs, ft, h.1, h.2]

theorem fpDouble_congr (hv : fpFunct v = some c) (hw : fpFunct w = some c)
    (h : fpFields c v = fpFields c w) : fpDouble u v s = fpDouble u w s := by
  cases c with
  | add | sub | mul | div =>
    simp only [fpFields, List.cons.injEq, and_true] at h
    obtain ⟨h1, h2, h3⟩ := h
    simp only [fpDouble, hv, hw, fd, fs, ft, h1, h2, h3]
  | _ =>
    simp only [fpFields, List.cons.injEq, and_true] at h
    simp only [fpDouble, hv, hw, fd, fs, ft, h.1, h.2]

theorem fpWord_congr (hv : fpFunct v = some c) (hw : fpFunct w = some c)
    (h : fpFields c v = fpFields c w) : fpWord u v s = fpWord u w s := by
  cases c with
  | cvtS | cvtD =>
    simp only [fpFields, List.cons.injEq, and_true] at h
    simp only [fpWord, hv, hw, fd, fs, h.1, h.2]
  | _ => simp only [fpWord, hv, hw]

end

/-- The flag sense of `bc1f`/`bc1t` is one bit. -/
theorem bc1Sense_cases (i : Word) : bc1Sense i = 0 ∨ bc1Sense i = 1 := by
  have h : (bc1Sense i).toNat < 2 := by
    simp only [bc1Sense, BitVec.toNat_and]
    exact Nat.lt_of_le_of_lt Nat.and_le_right (by decide)
  have hsplit : (bc1Sense i).toNat = 0 ∨ (bc1Sense i).toNat = 1 := by omega
  rcases hsplit with h | h
  · exact .inl (BitVec.eq_of_toNat_eq h)
  · exact .inr (BitVec.eq_of_toNat_eq h)

/-- The formats that are no arithmetic: moves and branches. -/
def isMove (i : Word) : Prop :=
  fmt i = some .MFC1 ∨ fmt i = some .MTC1 ∨ fmt i = some .BC1

/-- What equal labels say about two COP1 words. -/
theorem cop1Insn_eq {v w : Word} (hk : cop1Insn v = cop1Insn w) :
    (fmt v = some .MFC1 ∧ fmt w = some .MFC1) ∨ (fmt v = some .MTC1 ∧ fmt w = some .MTC1) ∨
    (fmt v = some .BC1 ∧ fmt w = some .BC1 ∧ (bc1Sense v = 1 ↔ bc1Sense w = 1)) ∨
    (¬ isMove v ∧ ¬ isMove w ∧ fpFunct v = fpFunct w ∧
      (fpFunct v = none ∨ suffix v = suffix w)) := by
  have harith (i : Word) : (isMove i ∧ (cop1Insn i = .mfc1 ∨ cop1Insn i = .mtc1 ∨
      ∃ t, cop1Insn i = .bc1 t)) ∨
      (¬ isMove i ∧ cop1Insn i = (fpFunct i).elim .cop1 (.fp (suffix i))) := by
    cases hc : fmt i with
    | none => simp [isMove, cop1Insn, hc]
    | some c => cases c <;> simp [isMove, cop1Insn, hc]
  rcases harith v with ⟨hv, hlabel⟩ | ⟨hv, hv'⟩ <;> rcases harith w with ⟨hw, hlabel'⟩ | ⟨hw, hw'⟩
  · rcases hv with hv | hv | hv <;> rcases hw with hw | hw | hw <;>
      simp_all [cop1Insn, bc1Sense]
  · rw [hw'] at hk
    rcases hlabel with hl | hl | ⟨t, hl⟩ <;> rw [hl] at hk <;> cases hf : fpFunct w <;> simp [hf] at hk
  · rw [hv'] at hk
    rcases hlabel' with hl | hl | ⟨t, hl⟩ <;> rw [hl] at hk <;> cases hf : fpFunct v <;> simp [hf] at hk
  · refine .inr (.inr (.inr ⟨hv, hw, ?_⟩))
    rw [hv', hw'] at hk
    cases hfv : fpFunct v <;> cases hfw : fpFunct w <;> simp_all

theorem execCop1_arith {i : Word} (hi : ¬ isMove i) (u : FpUnit) (s : State) :
    execCop1 u i s = match suffix i with
      | .single => fpSingle u i s
      | .double => fpDouble u i s
      | .word => fpWord u i s
      | .unknown => (.err, s) := by
  cases hc : fmt i with
  | none => simp only [execCop1, suffix, hc]
  | some c =>
    cases c with
    | MFC1 => exact absurd (.inl hc) hi
    | MTC1 => exact absurd (.inr (.inl hc)) hi
    | BC1 => exact absurd (.inr (.inr hc)) hi
    | S | D | W => simp only [execCop1, suffix, hc]

theorem disasmCop1_eq_disasmFp {i : Word} (hi : ¬ isMove i) :
    disasmCop1 i = disasmFp (suffix i).char i :=
  (disasmCop1_arith (fun h => hi (.inl h)) (fun h => hi (.inr (.inl h)))
    (fun h => hi (.inr (.inr h)))).1

/-- COP1 words with the same text are executed alike. -/
theorem execCop1_congr {v w : Word} (hk : cop1Insn v = cop1Insn w)
    (h : disasmCop1 v = disasmCop1 w) (u : FpUnit) (s : State) :
    execCop1 u v s = execCop1 u w s := by
  rcases cop1Insn_eq hk with ⟨hv, hw⟩ | ⟨hv, hw⟩ | ⟨hv, hw, hsense⟩ | ⟨hv, hw, hf, hs⟩
  · simp only [disasmCop1, hv, hw] at h
    obtain ⟨h1, h2⟩ := move_inj h
    simp only [execCop1, hv, hw, h1, h2]
  · simp only [disasmCop1, hv, hw] at h
    obtain ⟨h1, h2⟩ := move_inj h
    simp only [execCop1, hv, hw, fs, h1, h2]
  · have hb : bc1Sense v = bc1Sense w := by
      rcases bc1Sense_cases v with hv | hv <;> rcases bc1Sense_cases w with hw | hw <;>
        simp_all
    have himm : imm16 v = imm16 w := by
      simp only [disasmCop1, hv, hw] at h
      exact token_signed.injective
        (List.cons.inj (List.cons.inj (List.append_cancel_left h)).2).2
    simp only [execCop1, hv, hw, hb, branchDest, simm, himm]
  · rw [disasmCop1_eq_disasmFp hv, disasmCop1_eq_disasmFp hw] at h
    rw [execCop1_arith hv, execCop1_arith hw]
    cases hc : fpFunct v with
    | none =>
      -- An unknown function is rejected under every format, and the state is kept.
      have hreject (i : Word) (hi : fpFunct i = none) : (match suffix i with
          | .single => fpSingle u i s
          | .double => fpDouble u i s
          | .word => fpWord u i s
          | .unknown => (Ret.err, s)) = (.err, s) := by
        cases suffix i <;> simp only [fpSingle, fpDouble, fpWord, hi]
      rw [hreject v hc, hreject w (hf.symm.trans hc)]
    | some c =>
      have hsuffix : suffix v = suffix w := hs.resolve_left (by simp [hc])
      rw [hsuffix] at h ⊢
      have hcw : fpFunct w = some c := hf.symm.trans hc
      have hfields := fp_fields_eq hc hcw h
      rw [fpSingle_congr u s hc hcw hfields, fpDouble_congr u s hc hcw hfields,
        fpWord_congr u s hc hcw hfields]

def Insn.opcode : Insn → Opcode
  | .nop | .special _ => .OP_SPECIAL
  | .special2 _ => .OP_SPECIAL2
  | .regimm _ => .OP_REGIMM
  | .immediate o => o
  | _ => .OP_COP1

theorem cop1Insn_opcode (i : Word) : (cop1Insn i).opcode = .OP_COP1 := by
  unfold cop1Insn
  split
  · rfl
  · rfl
  · rfl
  · cases fpFunct i <;> rfl

theorem insn_opcode {i : Word} {k : Insn} (hk : insn i = some k) (h0 : i ≠ 0) :
    MyMips.opcode i = some k.opcode ∧ k ≠ .nop := by
  unfold insn at hk
  rw [if_neg h0] at hk
  cases ho : MyMips.opcode i with
  | none => simp [ho] at hk
  | some o =>
    simp only [ho] at hk
    cases o with
    | OP_SPECIAL | OP_SPECIAL2 | OP_REGIMM =>
      obtain ⟨c, _, rfl⟩ := Option.map_eq_some_iff.mp hk
      exact ⟨rfl, by simp⟩
    | OP_COP1 =>
      cases hk
      refine ⟨by rw [cop1Insn_opcode], ?_⟩
      intro hn
      have hc := cop1Insn_opcode i
      rw [hn] at hc
      exact absurd hc (by decide)
    | _ =>
      cases hk
      exact ⟨rfl, by simp⟩

/-- Only the nop itself goes through the label of the nop. -/
theorem insn_nop_iff {i : Word} {k : Insn} (hk : insn i = some k) : k = .nop ↔ i = 0 := by
  constructor
  · intro hn
    by_contra h0
    exact (insn_opcode hk h0).2 hn
  · rintro rfl
    simpa [insn] using hk.symm

/-- Words with the same text go through the same labels. -/
theorem insn_of_text {v w : Word} (htext : disasmText v = disasmText w)
    (hknown : ¬ "unknown ".toList <+: disasmText v) : ∃ k, insn v = some k ∧ insn w = some k := by
  have hlabel (i : Word) (hi : ¬ "unknown ".toList <+: disasmText i) : ∃ k, insn i = some k :=
    Option.ne_none_iff_exists'.mp fun hn => hi (unknown_of_insn_none hn)
  obtain ⟨k, hkv⟩ := hlabel v hknown
  obtain ⟨k', hkw⟩ := hlabel w (htext ▸ hknown)
  -- Equal texts have equal first words, which name the labels.
  have hkk : k = k' := by
    apply Insn.name_injective
    rw [← firstWord_disasmText hkv, ← firstWord_disasmText hkw, htext]
  exact ⟨k, hkv, hkk ▸ hkw⟩

theorem same_label {C : Type} {f : C → Insn} (hf : Function.Injective f) {x y : Option C}
    {k : Insn} (hx : x.map f = some k) (hy : y.map f = some k) : ∃ c, x = some c ∧ y = some c := by
  obtain ⟨c, rfl, rfl⟩ := Option.map_eq_some_iff.mp hx
  obtain ⟨c', rfl, hcc⟩ := Option.map_eq_some_iff.mp hy
  exact ⟨c, rfl, congrArg some (hf hcc)⟩

/-- Two words that are printed as the same text, other than an unknown one, are
executed alike in every state. -/
theorem disasm_determines_exec (h : Host) (v w : Word)
    (htext : disassemble v 64 = disassemble w 64)
    (hknown : ¬ "unknown ".toList <+: disassemble v 64) (s : State) :
    execInst h v s = execInst h w s := by
  rw [disassemble_64, disassemble_64] at htext
  rw [disassemble_64] at hknown
  obtain ⟨k, hkv, hkw⟩ := insn_of_text htext hknown
  -- The nop has a label of its own and comes before the opcode.
  by_cases hv0 : v = 0
  · have hw0 : w = 0 := (insn_nop_iff hkw).mp ((insn_nop_iff hkv).mpr hv0)
    rw [hv0, hw0]
  have hw0 : w ≠ 0 := fun hw0 => hv0 ((insn_nop_iff hkv).mp ((insn_nop_iff hkw).mpr hw0))
  obtain ⟨hov, _⟩ := insn_opcode hkv hv0
  obtain ⟨how, _⟩ := insn_opcode hkw hw0
  simp only [insn, if_neg hv0, hov] at hkv
  simp only [insn, if_neg hw0, how] at hkw
  simp only [disasmText, if_neg hv0, if_neg hw0, hov, how] at htext
  generalize k.opcode = o at *
  simp only [execInst, if_neg hv0, if_neg hw0, hov, how]
  cases o with
  | OP_SPECIAL =>
    obtain ⟨c, hcv, hcw⟩ := same_label (fun _ _ hc => Insn.special.inj hc) hkv hkw
    have hfields := special_fields_eq hcv hcw htext
    simp only [hcv, hcw, execRegister_congr hcv hcw hfields]
  | OP_SPECIAL2 =>
    obtain ⟨c, hcv, hcw⟩ := same_label (fun _ _ hc => Insn.special2.inj hc) hkv hkw
    have hfields := special2_fields_eq hcv hcw htext
    simp [execSpecial2_congr hcv hcw hfields]
  | OP_REGIMM =>
    obtain ⟨c, hcv, hcw⟩ := same_label (fun _ _ hc => Insn.regimm.inj hc) hkv hkw
    have hfields : rs v = rs w ∧ imm16 v = imm16 w := by
      cases c <;> simp only [disasmRegimm, hcv, hcw] at htext <;> exact rOff_inj htext
    simp [execImmediate, hov, how,
      execRegimm_congr s (hcv.trans hcw.symm) hfields.1 hfields.2]
  | OP_COP1 =>
    have hkk : cop1Insn v = cop1Insn w := by
      simp only [Option.some.injEq] at hkv hkw
      rw [hkv, hkw]
    simp [execCop1_congr hkk htext]
  | LWC1 | LDC1 | SWC1 | SDC1 =>
    obtain ⟨h1, h2, h3⟩ := fmem_inj htext
    simp [execCop1Ldst_congr s h (hov.trans how.symm) h1 h2 h3]
  | J | JAL => simp [execJump_congr s (hov.trans how.symm) (jump_inj htext)]
  | _ =>
    have hfields := immediate_fields_eq hov how (by decide) htext
    simp [execImmediate_congr s h hov how (by decide) hfields]

/-- Two encodings of `sll r1, r2, 3` that differ in the unused rs field. -/
theorem disasm_determines_exec_sll :
    execInst nullHost 0x000208C0#32 (resetState (fun _ => 0) 0) =
      execInst nullHost 0x002208C0#32 (resetState (fun _ => 0) 0) :=
  disasm_determines_exec nullHost _ _ (by decide) (by decide) _

end MyMips.Disasm
