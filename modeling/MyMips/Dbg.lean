import MyMips.InstrLog
import MyMips.Lib.Strto

/-! `dbg.c`: the integrated debugger, with `strtou32` of `utils.c`. A command that loops
takes a bound on its iterations and yields `none` beyond it, and `none` where the host
kills the process in the middle of an instruction. -/
namespace MyMips

def MAX_BREAKPOINTS : ℕ := 128

/-- The guest with `file_size` and the flag `log`, the file-scope variables of `dbg.c`, and
the lines on stdout and stderr so far. -/
structure Dbg where
  guest : State
  fileSize : ℕ
  log : Bool
  breakpoints : List Word
  halted : Bool
  output : List Line
  stderr : List Line

def instrLine (m : Memory) (pc : Word) : Line :=
  let instr := wordAt m pc
  hex08 pc ++ ": ".toList ++ hex08 instr ++ ": ".toList ++ Disasm.disassemble instr 64

namespace Dbg

def print (d : Dbg) (lines : List Line) : Dbg := { d with output := d.output ++ lines }

section
variable (d : Dbg) (lines : List Line)

@[simp] theorem print_guest : (d.print lines).guest = d.guest := rfl
@[simp] theorem print_fileSize : (d.print lines).fileSize = d.fileSize := rfl
@[simp] theorem print_breakpoints : (d.print lines).breakpoints = d.breakpoints := rfl
@[simp] theorem print_halted : (d.print lines).halted = d.halted := rfl

end

end Dbg

def registerText (s : State) (i : ℕ) : Line :=
  'r' :: Text.dec i ++ List.replicate (2 - (Text.dec i).length) ' ' ++ " = ".toList ++
    hex08 (s.reg (BitVec.ofNat 5 i))

def printRegisters (d : Dbg) : Dbg :=
  let s := d.guest
  let row (k : ℕ) : Line := "   ".toList.intercalate
    [registerText s (4 * k), registerText s (4 * k + 1), registerText s (4 * k + 2),
      registerText s (4 * k + 3)]
  d.print (("pc = ".toList ++ hex08 s.pc ++ "   hi = ".toList ++ hex08 s.hi ++
    "   lo = ".toList ++ hex08 s.lo) :: (List.range 8).map row)

def traceInstr (d : Dbg) : Dbg :=
  d.print ["Executing pc = ".toList ++ instrLine d.guest.memory d.guest.pc]

def bpContains (addr : Word) (d : Dbg) : Bool := d.breakpoints.any (· == addr)

def bpAdd (addr : Word) (d : Dbg) : Dbg :=
  if bpContains addr d then d
  else if MAX_BREAKPOINTS ≤ d.breakpoints.length then d.print ["Too many breakpoints".toList]
  else { d with breakpoints := d.breakpoints ++ [addr] }.print
    ["Breakpoint set at ".toList ++ hex08 addr]

/-- The last entry takes the place of the first one that is `addr`. -/
def bpDelete (addr : Word) (d : Dbg) : Dbg :=
  match d.breakpoints.findIdx? (· == addr) with
  | some i =>
    let last := d.breakpoints.getLastD 0
    { d with breakpoints := (d.breakpoints.set i last).dropLast }.print
      ["Breakpoint removed at ".toList ++ hex08 addr]
  | none => d.print ["No breakpoint at ".toList ++ hex08 addr]

def bpList (d : Dbg) : Dbg :=
  if d.breakpoints = [] then d.print ["No breakpoints".toList]
  else d.print (d.breakpoints.map fun addr => "  ".toList ++ hex08 addr)

def doStep (h : Host) (d : Dbg) : Option (Ret × Dbg) :=
  if d.halted then some (.ok, d.print ["Program has finished.".toList])
  else
    let d := traceInstr d
    let r := stepInstructionLog h d.log d.guest d.stderr
    let d := { d with stderr := r.2 }
    match r.1 with
    | (.ok, s) => some (.ok, { d with guest := s })
    | (.err, s) =>
      some (.err, { d with guest := s, halted := true }.print ["Error during execution".toList])
    | (.stop, s) =>
      some (.stop, { d with guest := s, halted := true }.print ["Program exited.".toList])
    | (.trap, _) => none

def announce (d : Dbg) : Dbg :=
  { traceInstr d with stderr := d.stderr ++ logNote d.log d.guest }

@[simp] theorem announce_guest (d : Dbg) : (announce d).guest = d.guest := rfl

theorem doStep_eq (h : Host) {d : Dbg} (hd : d.halted = false) :
    doStep h d =
      match stepInstruction h d.guest with
      | (.ok, s) => some (.ok, { announce d with guest := s })
      | (.err, s) => some (.err,
          { announce d with guest := s, halted := true }.print ["Error during execution".toList])
      | (.stop, s) => some (.stop,
          { announce d with guest := s, halted := true }.print ["Program exited.".toList])
      | (.trap, _) => none := by
  rw [doStep, if_neg (by simp [hd])]
  dsimp only
  rw [stepInstructionLog_eq]
  rfl

def stepLoop (h : Host) : ℕ → Dbg → Option Dbg
  | 0, d => some d
  | n + 1, d =>
    if d.halted then some d
    else
      match doStep h d with
      | some (_, d') => stepLoop h n d'
      | none => none

def continueStep (h : Host) (d : Dbg) : Outcome Dbg Dbg :=
  match doStep h d with
  | some (.ok, d') =>
    if bpContains d'.guest.pc d' then
      .done (d'.print ["Breakpoint at ".toList ++ hex08 d'.guest.pc])
    else .next d'
  | some (_, d') => .done d'
  | none => .crash

def doContinue (h : Host) (fuel : ℕ) (d : Dbg) : Option Dbg :=
  if d.halted then some (d.print ["Program has finished.".toList])
  else Run.run (continueStep h) fuel d

/-- One turn of the loop of `print_code`; `pc` is a 32-bit counter. -/
def codeStep (d : Dbg) (r : Word × List Line) : Outcome (List Line) (Word × List Line) :=
  if r.1.toNat < d.fileSize then
    .next (r.1 + 4, r.2 ++ [instrLine d.guest.memory r.1])
  else .done r.2

def printCode (fuel : ℕ) (d : Dbg) : Option Dbg :=
  (Run.run (codeStep d) fuel (0, [])).map d.print

def printWord (addr : Word) (d : Dbg) : Dbg := d.print [instrLine d.guest.memory addr]

def dumpMemory (addr : Word) (count : ℕ) (d : Dbg) : Dbg :=
  d.print ((List.range count).map fun i =>
    let a := addr + BitVec.ofNat 32 (4 * i)
    hex08 a ++ ": ".toList ++ hex08 (wordAt d.guest.memory a))

def helpDebug (d : Dbg) : Dbg := d.print
  ["Commands:".toList,
    "  step [n]        execute n instructions (default 1)".toList,
    "  continue        run until a breakpoint or the end".toList,
    "  break <addr>    set a breakpoint (hex address)".toList,
    "  delete <addr>   remove a breakpoint".toList,
    "  breakpoints     list breakpoints".toList,
    "  registers       print the registers".toList,
    "  print <addr>    disassemble the instruction at addr".toList,
    "  memory <addr> [n]  dump n memory words (default 1)".toList,
    "  code            disassemble the whole program".toList,
    "  help            show this help".toList,
    "  exit            quit the debugger".toList]

def startsWord (line word : Line) : Bool :=
  word.isPrefixOf line && (line.drop word.length).head?.all (· == ' ')

def isCmd (line a : Line) (b : Option Line) : Bool :=
  startsWord line a || b.any (startsWord line)

def cmdArg (line : Line) : Option Line :=
  match (line.dropWhile (· != ' ')).dropWhile (· == ' ') with
  | [] => none
  | a => some a

/-- The error codes `strtou32` reports; `ok` is 0. -/
inductive Status
  | ok | ERANGE | ECANCELED | ENOTSUP
  deriving DecidableEq

def UINT32_MAX : ℕ := 2 ^ 32 - 1

def strtou32 (nptr : Line) (base : ℕ) : Word × Status :=
  let im := Strto.strtoumax base nptr
  let rstatus : Status :=
    if im.erange then .ERANGE
    else if im.rest.length = nptr.length then .ECANCELED
    else if im.rest ≠ [] then .ENOTSUP
    else .ok
  if UINT32_MAX < im.value then
    (BitVec.ofNat 32 UINT32_MAX, if rstatus = .ok then .ERANGE else rstatus)
  else (BitVec.ofNat 32 im.value, rstatus)

/-- The address argument, or the message of its absence or malformation. The token is
cut off after 31 characters. -/
def parseAddr (line : Line) : Except Line Word :=
  match cmdArg line with
  | none => .error "Missing address".toList
  | some a =>
    let tok := (a.take 31).takeWhile (· != ' ')
    match strtou32 tok 16 with
    | (addr, .ok) => .ok addr
    | (_, _) => .error "Bad address".toList

def withAddr (line : Line) (d : Dbg) (run : Word → Dbg → Dbg) : Dbg :=
  match parseAddr line with
  | .ok addr => run addr d
  | .error message => d.print [message]

def stepCount (line : Line) : ℕ :=
  match cmdArg line with
  | some a => (Strto.strtol a).toNat
  | none => 1

/-- The number of words a `memory` line asks for: the second token after the command. -/
def wordCount (line : Line) : ℕ :=
  let count := match ((cmdArg line).getD []).dropWhile (· != ' ') with
    | _ :: rest => Strto.strtoul rest
    | [] => 1
  if count = 0 then 1 else count

/-- Execute one command line; the first component is `*quit`. -/
def runCommand (h : Host) (fuel : ℕ) (line : Line) (d : Dbg) : Option (Bool × Dbg) :=
  if isCmd line "step".toList (some "s".toList) then
    (stepLoop h (stepCount line) d).map (false, ·)
  else if isCmd line "continue".toList (some "c".toList) then
    (doContinue h fuel d).map (false, ·)
  else if isCmd line "break".toList (some "b".toList) then
    some (false, withAddr line d bpAdd)
  else if isCmd line "delete".toList (some "d".toList) then
    some (false, withAddr line d bpDelete)
  else if isCmd line "breakpoints".toList none then some (false, bpList d)
  else if isCmd line "registers".toList (some "regs".toList) then some (false, printRegisters d)
  else if isCmd line "print".toList (some "p".toList) then
    some (false, withAddr line d printWord)
  else if isCmd line "memory".toList (some "m".toList) then
    some (false, withAddr line d fun addr => dumpMemory addr (wordCount line))
  else if isCmd line "code".toList none then (printCode fuel d).map (false, ·)
  else if isCmd line "help".toList (some "h".toList) then some (false, helpDebug d)
  else if isCmd line "exit".toList (some "quit".toList) || isCmd line "q".toList none then
    some (true, d)
  else some (false, d.print ["Unknown command: ".toList ++ line ++ " (try 'help')".toList])

/-- The loop of `debug`: it ends at the end of input, at an empty line and on `exit`.
A command sees its line as a C string, up to the first NUL. -/
def debug (h : Host) (fuel : ℕ) : List Line → Dbg → Option Dbg
  | [], d => some d
  | line :: lines, d =>
    if line = [] then some d
    else
      match runCommand h fuel (line.takeWhile (· != Char.ofNat 0)) d with
      | some (false, d') => debug h fuel lines d'
      | some (true, d') => some d'
      | none => none

end MyMips
