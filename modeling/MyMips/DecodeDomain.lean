import MyMips.Cpu
import MyMips.Disasm

namespace MyMips
open Disasm

def firstWord (t : List Char) : List Char := t.takeWhile (· != ' ')

/-- The forms an undecodable word is printed in: `unknown ...`, `cop1 0x...`, or a
mnemonic that ends in the unknown format suffix. -/
def undecodable (t : List Char) : Bool :=
  "unknown ".toList.isPrefixOf t || "cop1 0x".toList.isPrefixOf t ||
    (firstWord t).getLast? == some '?'

def fpAccepts : Fmt → Option FpFunct → Bool
  | .S, some .cvtS => false
  | .D, some .cvtD => false
  | .S, o | .D, o => o.isSome
  | .W, some .cvtS | .W, some .cvtD => true
  | .W, _ => false
  | _, _ => true

def rejected (i : Word) : Bool :=
  match opcode i with
  | none => true
  | some .OP_SPECIAL => (special i).isNone
  | some .OP_SPECIAL2 => (special2 i).isNone
  | some .OP_COP1 => (fmt i).elim true fun c => !fpAccepts c (fpFunct i)
  | some _ => false

def unnamed (i : Word) : Bool :=
  match opcode i with
  | none => true
  | some .OP_SPECIAL => (special i).isNone
  | some .OP_SPECIAL2 => (special2 i).isNone
  | some .OP_REGIMM => (regimm i).isNone
  | some .OP_COP1 =>
    match fmt i with
    | none => true
    | some .MFC1 | some .MTC1 | some .BC1 => false
    | some .S | some .D | some .W => (fpFunct i).isNone
  | some _ => false

section executor
variable (h : Host) (u : FpUnit) (i : Word) (s : State)

theorem execRegister_err (hs : special i ≠ some .SYSCALL) (hb : special i ≠ some .BREAK) :
    (execRegister i s).1 = .err ↔ (special i).isNone = true := by
  cases hf : special i with
  | none => simp [execRegister, hf]
  | some f =>
    cases f with
    | SYSCALL => exact absurd hf hs
    | BREAK => exact absurd hf hb
    | DIV => cases hd : div i s <;> simp [execRegister, hf, hd]
    | _ => simp [execRegister, hf]

theorem execSpecial2_err : (execSpecial2 i s).1 = .err ↔ (special2 i).isNone = true := by
  cases hf : special2 i with
  | none => simp [execSpecial2, hf]
  | some f => cases f <;> simp [execSpecial2, hf]

theorem execCop1_err :
    (execCop1 u i s).1 = .err ↔ ((fmt i).elim true fun c => !fpAccepts c (fpFunct i)) = true := by
  cases hc : fmt i with
  | none => simp [execCop1, hc]
  | some c =>
    cases hf : fpFunct i with
    | none => cases c <;> simp [execCop1, hc, hf, fpAccepts, fpSingle, fpDouble, fpWord]
    | some f =>
      cases c with
      | MFC1 | MTC1 | BC1 => simp [execCop1, hc, fpAccepts]
      | S => cases f <;> simp [execCop1, hc, hf, fpAccepts, fpSingle]
      | D => cases f <;> simp [execCop1, hc, hf, fpAccepts, fpDouble]
      | W => cases f <;> simp [execCop1, hc, hf, fpAccepts, fpWord]

/-- The return code 1 depends on the word alone. -/
theorem execInst_err : (execInst h i s).1 = .err ↔ rejected i = true := by
  apply execInst_rule h (P := fun r => r.1 = .err ↔ rejected i = true)
  case hnop =>
    rintro rfl
    have hzero : rejected 0 = false := by decide
    rw [hzero]
    simp
  case hsyscall =>
    intro ho hf
    cases hr : (callSyscall h s).1 <;> simp [rejected, ho, hf]
  case hbreak =>
    intro ho hf
    simp [rejected, ho, hf]
  case hregister =>
    intro ho hs hb
    simpa only [rejected, ho] using execRegister_err i s hs hb
  case hspecial2 =>
    intro ho
    simpa only [rejected, ho] using execSpecial2_err i s
  case hcop1 =>
    intro ho
    simpa only [rejected, ho] using execCop1_err h.fp i s
  case hldst =>
    rintro (ho | ho | ho | ho) <;> simp [rejected, execCop1Ldst, ho]
  case hjump =>
    rintro (ho | ho) <;> simp [rejected, execJump, ho]
  case himm =>
    intro hno
    cases ho : opcode i with
    | none => simp [rejected, execImmediate, ho]
    | some o =>
      cases o with
      | OP_SPECIAL | OP_SPECIAL2 | OP_COP1 | LWC1 | LDC1 | SWC1 | SDC1 | J | JAL =>
        exact absurd ho (hno _ (by decide))
      | _ => simp [rejected, execImmediate, ho]

end executor

section disassembler

theorem firstWord_append {m rest : List Char} (hm : ' ' ∉ m) :
    firstWord (m ++ ' ' :: rest) = m := by
  refine Text.takeWhile_append_of_stops ?_ (by simp)
  intro c hc
  have hne : c ≠ ' ' := fun h => hm (h ▸ hc)
  simpa using hne

/-- A mnemonic of its own, followed by a blank, is not an undecodable form. -/
theorem undecodable_named {m rest : List Char} (hm : ' ' ∉ m) (hu : m ≠ "unknown".toList)
    (hc : m ≠ "cop1".toList) (hq : m.getLast? ≠ some '?') :
    undecodable (m ++ ' ' :: rest) = false := by
  have hprefix (w tail : List Char) (hw : ' ' ∉ w) (hmw : m ≠ w) :
      (w ++ ' ' :: tail).isPrefixOf (m ++ ' ' :: rest) = false := by
    rw [Bool.eq_false_iff]
    intro h
    obtain ⟨t, ht⟩ := List.isPrefixOf_iff_prefix.mp h
    have hf := congrArg firstWord ht
    rw [firstWord_append hm, List.append_assoc, List.cons_append, firstWord_append hw] at hf
    exact hmw hf.symm
  have h1 := hprefix "unknown".toList [] (by decide) hu
  have h2 := hprefix "cop1".toList "0x".toList (by decide) hc
  simp only [undecodable, firstWord_append hm, Bool.or_eq_false_iff, beq_eq_false_iff_ne]
  exact ⟨⟨h1, h2⟩, hq⟩

theorem undecodable_unknown (m : List Char) (v : ℕ) : undecodable (unknown m v) = true := by
  have h : "unknown ".toList.isPrefixOf (unknown m v) = true :=
    List.isPrefixOf_iff_prefix.mpr (List.prefix_append _ _)
  simp only [undecodable, h, Bool.true_or]

theorem disasmSpecial_undecodable (i : Word) :
    undecodable (disasmSpecial i) = (special i).isNone := by
  cases hf : special i with
  | none => simp only [disasmSpecial, hf, undecodable_unknown, Option.isNone_none]
  | some f =>
    cases f with
    | SYSCALL | BREAK => simp only [disasmSpecial, hf]; decide
    | _ =>
      simp only [disasmSpecial, hf]
      exact undecodable_named (by decide) (by decide) (by decide) (by decide)

theorem disasmSpecial2_undecodable (i : Word) :
    undecodable (disasmSpecial2 i) = (special2 i).isNone := by
  cases hf : special2 i with
  | none => simp only [disasmSpecial2, hf, undecodable_unknown, Option.isNone_none]
  | some f =>
    cases f <;> simp only [disasmSpecial2, hf] <;>
      exact undecodable_named (by decide) (by decide) (by decide) (by decide)

theorem disasmRegimm_undecodable (i : Word) :
    undecodable (disasmRegimm i) = (regimm i).isNone := by
  cases hf : regimm i with
  | none => simp only [disasmRegimm, hf, undecodable_unknown, Option.isNone_none]
  | some f =>
    cases f <;> simp only [disasmRegimm, hf] <;>
      exact undecodable_named (by decide) (by decide) (by decide) (by decide)

theorem disasmImmediate_undecodable (i : Word) (o : Opcode) (ho : opcode i = some o)
    (hz : o ∉ [.OP_SPECIAL, .OP_REGIMM, .OP_COP1, .OP_SPECIAL2, .LWC1, .LDC1, .SWC1, .SDC1,
      .J, .JAL]) : undecodable (disasmImmediate i) = false := by
  cases o with
  | OP_SPECIAL | OP_REGIMM | OP_COP1 | OP_SPECIAL2 | LWC1 | LDC1 | SWC1 | SDC1 | J | JAL =>
    exact absurd (by decide) hz
  | _ =>
    simp only [disasmImmediate, ho]
    exact undecodable_named (by decide) (by decide) (by decide) (by decide)

/-- A COP1 mnemonic is undecodable exactly with the unknown format suffix. -/
theorem undecodable_suffix {m rest : List Char} {c : Char} (hm : ' ' ∉ m) (hc : c ≠ ' ') :
    undecodable (m ++ '.' :: c :: ' ' :: rest) = (c == '?') := by
  have hsplit : m ++ '.' :: c :: ' ' :: rest = (m ++ ['.', c]) ++ ' ' :: rest := by simp
  have hblank : ' ' ∉ m ++ ['.', c] := by simp [hm, hc.symm]
  have hlast : (m ++ ['.', c]).getLast? = some c := by simp
  by_cases hq : c = '?'
  · subst hq
    simp only [undecodable, hsplit, firstWord_append hblank, hlast, beq_self_eq_true, Bool.or_true]
  · have hdot (w : List Char) (hw : '.' ∉ w) : m ++ ['.', c] ≠ w := by
      rintro rfl
      simp at hw
    rw [hsplit, undecodable_named hblank (hdot _ (by decide)) (hdot _ (by decide))
      (by simpa [hlast] using hq)]
    simp [hq]

theorem undecodable_cop1 (v : ℕ) : undecodable ("cop1 ".toList ++ hex0x v) = true := by
  have h : "cop1 0x".toList.isPrefixOf ("cop1 ".toList ++ hex0x v) = true :=
    List.isPrefixOf_iff_prefix.mpr (List.prefix_append "cop1 0x".toList (Text.hex v))
  simp only [undecodable, h, Bool.or_true, Bool.true_or]

theorem disasmFp_undecodable (s : Char) (hs : s ≠ ' ') (i : Word) :
    undecodable (disasmFp s i) = (s == '?' || (fpFunct i).isNone) := by
  cases hp : fpFunct i with
  | none => simp only [disasmFp, hp, undecodable_cop1, Option.isNone_none, Bool.or_true]
  | some p =>
    rw [Option.isNone_some, Bool.or_false]
    cases p <;> simp only [disasmFp, hp] <;> exact undecodable_suffix (by decide) hs

theorem disasmCop1_undecodable (i : Word) (ho : opcode i = some .OP_COP1) :
    undecodable (disasmCop1 i) = unnamed i := by
  cases hc : fmt i with
  | none =>
    simp only [disasmCop1, unnamed, ho, hc, disasmFp_undecodable (fmtSuffix none) (by decide)]
    rfl
  | some c =>
    cases c with
    | MFC1 | MTC1 =>
      simp only [disasmCop1, unnamed, ho, hc]
      exact undecodable_named (by decide) (by decide) (by decide) (by decide)
    | BC1 =>
      simp only [disasmCop1, unnamed, ho, hc]
      split
      · exact undecodable_named (m := "bc1t".toList) (by decide) (by decide) (by decide) (by decide)
      · exact undecodable_named (m := "bc1f".toList) (by decide) (by decide) (by decide) (by decide)
    | S =>
      simp only [disasmCop1, unnamed, ho, hc]
      exact (disasmFp_undecodable 's' (by decide) i).trans rfl
    | D =>
      simp only [disasmCop1, unnamed, ho, hc]
      exact (disasmFp_undecodable 'd' (by decide) i).trans rfl
    | W =>
      simp only [disasmCop1, unnamed, ho, hc]
      exact (disasmFp_undecodable 'w' (by decide) i).trans rfl

/-- The texts of the undecodable forms are those of the words without a mnemonic. -/
theorem disasmText_undecodable (i : Word) : undecodable (disasmText i) = unnamed i := by
  unfold disasmText
  split_ifs with h0
  · subst h0
    decide
  · cases ho : opcode i with
    | none => simp only [disasmImmediate, ho, undecodable_unknown, unnamed]
    | some o =>
      cases o with
      | OP_SPECIAL => simpa only [unnamed, ho] using disasmSpecial_undecodable i
      | OP_SPECIAL2 => simpa only [unnamed, ho] using disasmSpecial2_undecodable i
      | OP_REGIMM => simpa only [unnamed, ho] using disasmRegimm_undecodable i
      | OP_COP1 => exact disasmCop1_undecodable i ho
      | LWC1 | LDC1 | SWC1 | SDC1 | J | JAL =>
        simp only [unnamed, ho]
        exact undecodable_named (by decide) (by decide) (by decide) (by decide)
      | _ =>
        simp only [unnamed, ho]
        exact disasmImmediate_undecodable i _ ho (by decide)

end disassembler

/-- The words on which disassembler and executor part: the REGIMM selectors that
the executor runs as `bltz`, and the function codes that are named for every COP1
format but implemented for some of them. -/
def decodersAgree (i : Word) : Bool :=
  match opcode i with
  | some .OP_REGIMM => (regimm i).isSome
  | some .OP_COP1 =>
    match fmt i with
    | some .S => fpFunct i != some .cvtS
    | some .D => fpFunct i != some .cvtD
    | some .W => fpFunct i == none || fpFunct i == some .cvtS || fpFunct i == some .cvtD
    | _ => true
  | _ => true

theorem unnamed_eq_rejected (i : Word) : unnamed i = rejected i ↔ decodersAgree i = true := by
  cases ho : opcode i with
  | none => simp [unnamed, rejected, decodersAgree, ho]
  | some o =>
    cases o with
    | OP_REGIMM => cases hr : regimm i <;> simp [unnamed, rejected, decodersAgree, ho, hr]
    | OP_COP1 =>
      cases hc : fmt i with
      | none => simp [unnamed, rejected, decodersAgree, ho, hc]
      | some c =>
        cases hf : fpFunct i with
        | none => cases c <;> simp [unnamed, rejected, decodersAgree, fpAccepts, ho, hc, hf]
        | some f =>
          cases c with
          | MFC1 | MTC1 | BC1 => simp [unnamed, rejected, decodersAgree, fpAccepts, ho, hc]
          | S | D | W =>
            cases f <;> simp [unnamed, rejected, decodersAgree, fpAccepts, ho, hc, hf]
    | _ => simp [unnamed, rejected, decodersAgree, ho]

/-- The disassembler prints an undecodable form exactly where the executor reports
a decode error, if and only if the word is not one of those on which the two
decoders part. -/
theorem disasm_domain_iff (h : Host) (i : Word) (s : State) :
    (undecodable (disassemble i 64) = true ↔ (execInst h i s).1 = .err) ↔
      decodersAgree i = true := by
  rw [disassemble_64, disasmText_undecodable, execInst_err, ← unnamed_eq_rejected]
  exact Bool.eq_iff_iff.symm

/-- `bltz`'s unused selector 2 is executed but printed as unknown. -/
theorem disasm_domain_counterexample :
    ¬ ∀ (h : Host) (i : Word) (s : State),
      undecodable (disassemble i 64) = true ↔ (execInst h i s).1 = .err := by
  intro hall
  have hi := hall nullHost 0x04020000#32 (resetState (fun _ => 0) 0)
  rw [disassemble_64, disasmText_undecodable, execInst_err] at hi
  exact absurd hi (by decide)

end MyMips
