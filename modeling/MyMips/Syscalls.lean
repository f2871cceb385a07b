import MyMips.Functions

/-! `syscalls.c`. Host pointers are `glob->memory` plus an unbounded byte offset:
they do not wrap at the end of the mapping, as guest addresses do. -/
namespace MyMips

inductive Syscall
  | printInt | printString | readInt | readString | exit | printChar | readChar
  | openFile | readFile | writeFile | closeFile | exit2
  deriving DecidableEq, Repr

instance : SwitchLabels Syscall 32 where
  code
    | .printInt => 1 | .printString => 4 | .readInt => 5 | .readString => 8 | .exit => 10
    | .printChar => 11 | .readChar => 12 | .openFile => 13 | .readFile => 14
    | .writeFile => 15 | .closeFile => 16 | .exit2 => 17
  all := [.printInt, .printString, .readInt, .readString, .exit, .printChar, .readChar,
    .openFile, .readFile, .writeFile, .closeFile, .exit2]
  mem_all := by intro a; cases a <;> decide
  codes_nodup := by decide

/-- The C string at byte offset `a`, scanned over at most `n` bytes; `none` when
they hold no NUL. -/
def cString (m : Memory) : ℕ → ℕ → Option (List Byte)
  | 0, _ => none
  | n + 1, a =>
    let c := m (BitVec.ofNat 32 a)
    if c = 0 then some [] else (cString m n (a + 1)).map (c :: ·)

def guestString (m : Memory) (a : ℕ) : Option (List Byte) := cString m (MEM_SIZE - a) a

/-- Copy `bytes` to the offsets from `start` on; what falls behind the mapping is
not guest memory. -/
def copyIn (m : Memory) (start : ℕ) (bytes : List Byte) : Memory := fun x =>
  if start ≤ x.toNat then (bytes[x.toNat - start]?).getD (m x) else m x

def copyOut (m : Memory) (start len : ℕ) : List Byte :=
  (List.range (min len (MEM_SIZE - start))).map fun k => m (BitVec.ofNat 32 (start + k))

/-- `strncpy(_, buf, n)` for a buffer whose bytes after `buf` are zero. -/
def strncpy (buf : List Byte) (n : ℕ) : List Byte :=
  let t := buf.takeWhile (· ≠ 0)
  t ++ List.replicate (n - t.length) 0

def printInt (s : State) : State := s.record (.printInt (s.reg A0).toInt)

def printString (s : State) : State :=
  let a := (s.reg A0).toNat
  s.record (.printString a (guestString s.memory a))

def readInt (h : Host) (s : State) : State :=
  let s := s.record .readInt
  s.setReg V0 (h.scanInt s.events)

def readString (h : Host) (s : State) : State :=
  let start := (s.reg A0).toNat
  let len := (s.reg A1).toNat
  let s := s.record (.readString start len)
  match h.readStdin s.events with
  | none => s
  | some bytes => { s with memory := copyIn s.memory start (strncpy (bytes.take len) len) }

def printChar (s : State) : State := s.record (.printChar ((s.reg A0).setWidth 8))

/-- `char` is signed: the byte is sign-extended into `$v0`. -/
def readChar (h : Host) (s : State) : State :=
  let s := s.record .readChar
  s.setReg V0 ((h.scanChar s.events).signExtend 32)

def openFile (h : Host) (s : State) : State :=
  let start := (s.reg A0).toNat
  let s := s.record (.openFile start (guestString s.memory start) (s.reg A1 != 0))
  s.setReg V0 (h.openFile s.events)

def readFile (h : Host) (s : State) : State :=
  let start := (s.reg A1).toNat
  let len := (s.reg A2).toNat
  let s := s.record (.readFile (s.reg A0) start len)
  let answer := h.readFile s.events
  { s with memory := copyIn s.memory start (answer.2.take len) }.setReg V0 answer.1

def writeFile (h : Host) (s : State) : State :=
  let start := (s.reg A1).toNat
  let len := (s.reg A2).toNat
  let s := s.record (.writeFile (s.reg A0) start len (copyOut s.memory start len))
  s.setReg V0 (h.writeFile s.events)

def closeFile (s : State) : State := s.record (.closeFile (s.reg A0))

/-- The first component is the C return value: `true` stops the program. -/
def callSyscall (h : Host) (s : State) : Bool × State :=
  match Switch.select Syscall (s.reg V0) with
  | some .printInt => (false, printInt s)
  | some .printString => (false, printString s)
  | some .readInt => (false, readInt h s)
  | some .readString => (false, readString h s)
  | some .exit => (true, s)
  | some .printChar => (false, printChar s)
  | some .readChar => (false, readChar h s)
  | some .openFile => (false, openFile h s)
  | some .readFile => (false, readFile h s)
  | some .writeFile => (false, writeFile h s)
  | some .closeFile => (false, closeFile s)
  | some .exit2 => (true, s)
  | none => (true, s.record (.unknownSyscall (s.reg V0)))

/-- A syscall writes no register but `$v0`, and otherwise only memory. -/
theorem callSyscall_frame (h : Host) (s : State) :
    ∃ v m e, (callSyscall h s).2 =
      { s with reg := Function.update s.reg V0 v, memory := m, events := e } := by
  have hv : Function.update s.reg V0 (s.reg V0) = s.reg := Function.update_eq_self _ _
  -- Most calls write no register: `$v0` is framed by its own value.
  have hkeep (m : Memory) (e : List Event) : ∃ v m' e', { s with memory := m, events := e } =
      { s with reg := Function.update s.reg V0 v, memory := m', events := e' } :=
    ⟨s.reg V0, m, e, by rw [hv]⟩
  unfold callSyscall
  cases Switch.select Syscall (s.reg V0) with
  | none => exact hkeep s.memory _
  | some n =>
    cases n with
    | readInt => exact ⟨_, s.memory, _, rfl⟩
    | readChar => exact ⟨_, s.memory, _, rfl⟩
    | openFile => exact ⟨_, s.memory, _, rfl⟩
    | readFile => exact ⟨_, _, _, rfl⟩
    | writeFile => exact ⟨_, s.memory, _, rfl⟩
    | readString =>
      simp only [readString]
      split
      · exact hkeep s.memory _
      · exact hkeep _ _
    | printInt => exact hkeep s.memory _
    | printString => exact hkeep s.memory _
    | printChar => exact hkeep s.memory _
    | closeFile => exact hkeep s.memory _
    | exit => exact hkeep s.memory s.events
    | exit2 => exact hkeep s.memory s.events

end MyMips
