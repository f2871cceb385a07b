import MyMips.Cpu
import MyMips.Disasm

namespace MyMips

abbrev Line := List Char

def hex08 (v : Word) : Line := '0' :: 'x' :: Text.hexPad 8 v.toNat

def logInstr (pc instru : Word) (filename : Line) (line : ℕ) : Line :=
  "[my_mips] Executing pc = ".toList ++ hex08 pc ++ ": ".toList ++ hex08 instru ++
    ": ".toList ++ Disasm.disassemble instru 64 ++ " (".toList ++ filename ++
    ':' :: Text.dec line ++ ")\n".toList

/-- `exec_inst` with the flag `glob->log` and the lines on stderr. -/
def execInstLog (h : Host) (log : Bool) (i : Word) (s : State) (err : List Line) :
    (Ret × State) × List Line :=
  (execInst h i s, if log then err ++ [logInstr s.pc i "cpu.c".toList 291] else err)

def stepInstructionLog (h : Host) (log : Bool) (s : State) (err : List Line) :
    (Ret × State) × List Line :=
  let instru := wordAt s.memory s.pc
  let take := s.branchPending
  let target := s.branchTarget
  let r := execInstLog h log instru { s with branchPending := false } err
  match r.1.1 with
  | .ok =>
    let s' := { r.1.2 with pc := r.1.2.pc + 4 }
    ((.ok, if take then { s' with pc := target } else s'), r.2)
  | ret => ((ret, r.1.2), r.2)

def logNote (log : Bool) (s : State) : List Line :=
  if log then [logInstr s.pc (wordAt s.memory s.pc) "cpu.c".toList 291] else []

theorem logNote_false (s : State) : logNote false s = [] := rfl

/-- The log does not change the step. -/
theorem stepInstructionLog_eq (h : Host) (log : Bool) (s : State) (err : List Line) :
    stepInstructionLog h log s err = (stepInstruction h s, err ++ logNote log s) := by
  have herr : (if log then err ++ [logInstr s.pc (wordAt s.memory s.pc) "cpu.c".toList 291]
      else err) = err ++ logNote log s := by
    rw [logNote]
    cases log with
    | true => rfl
    | false => exact (List.append_nil err).symm
  simp only [stepInstructionLog, execInstLog, herr, stepInstruction]
  rcases execInst h (wordAt s.memory s.pc) { s with branchPending := false } with
    ⟨_ | _ | _ | _, t⟩ <;> rfl

end MyMips
