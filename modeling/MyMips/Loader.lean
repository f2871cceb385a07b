import MyMips.Syscalls

namespace MyMips.Loader

def EI_CLASS : Fin 16 := 4
def EI_DATA : Fin 16 := 5
def EI_VERSION : Fin 16 := 6
def EI_OSABI : Fin 16 := 7
def ELFCLASS32 : Byte := 1
def ELFDATA2LSB : Byte := 1
def ELFOSABI_SYSV : Byte := 0
def EV_CURRENT : ℕ := 1
def ET_EXEC : BitVec 16 := 2
def EM_MIPS : BitVec 16 := 8
def PT_LOAD : Word := 1

abbrev Record := ℕ → Byte

def Record.half (b : Record) (k : ℕ) : BitVec 16 := b (k + 1) ++ b k
def Record.word (b : Record) (k : ℕ) : Word := b (k + 3) ++ b (k + 2) ++ b (k + 1) ++ b k

section
variable {b b' : Record} {n k : ℕ} (h : ∀ k < n, b k = b' k)
include h

theorem Record.half_congr (hk : k + 1 < n) : b.half k = b'.half k := by
  rw [Record.half, Record.half, h (k + 1) hk, h k (by omega)]

theorem Record.word_congr (hk : k + 3 < n) : b.word k = b'.word k := by
  rw [Record.word, Record.word, h (k + 3) hk, h (k + 2) (by omega), h (k + 1) (by omega),
    h k (by omega)]

end

structure Ehdr where
  ident : Fin 16 → Byte
  type : BitVec 16
  machine : BitVec 16
  version : Word
  entry : Word
  phoff : Word
  phentsize : BitVec 16
  phnum : BitVec 16

def EHDR_SIZE : ℕ := 52

def Ehdr.parse (b : Record) : Ehdr where
  ident := fun k => b k
  type := b.half 16
  machine := b.half 18
  version := b.word 20
  entry := b.word 24
  phoff := b.word 28
  phentsize := b.half 42
  phnum := b.half 44

/-- The `int` product `e_phnum * e_phentsize` as the `size_t` that `pread` gets: from 2^31 on
it is negative. -/
def Ehdr.tableCount (e : Ehdr) : ℕ :=
  ((BitVec.ofNat 32 (e.phnum.toNat * e.phentsize.toNat)).signExtend 64).toNat

/-- The product of two halfwords fits 32 bits without a sign. -/
theorem Ehdr.toNat_product (e : Ehdr) :
    (BitVec.ofNat 32 (e.phnum.toNat * e.phentsize.toNat)).toNat =
      e.phnum.toNat * e.phentsize.toNat := by
  have hnum : e.phnum.toNat ≤ 65535 := Nat.le_of_lt_succ e.phnum.isLt
  have hsize : e.phentsize.toNat ≤ 65535 := Nat.le_of_lt_succ e.phentsize.isLt
  have hproduct : e.phnum.toNat * e.phentsize.toNat ≤ 65535 * 65535 := Nat.mul_le_mul hnum hsize
  rw [BitVec.toNat_ofNat]
  exact Nat.mod_eq_of_lt (by omega)

theorem Ehdr.tableCount_eq {e : Ehdr} (h : e.phnum.toNat * e.phentsize.toNat < 0x80000000) :
    e.tableCount = e.phnum.toNat * e.phentsize.toNat := by
  have hmsb : (BitVec.ofNat 32 (e.phnum.toNat * e.phentsize.toNat)).msb = false := by
    rw [BitVec.msb_eq_false_iff_two_mul_lt, e.toNat_product]
    omega
  rw [Ehdr.tableCount, BitVec.signExtend_eq_setWidth_of_msb_false hmsb, BitVec.toNat_setWidth,
    e.toNat_product]
  exact Nat.mod_eq_of_lt (by omega)

theorem Ehdr.le_tableCount {e : Ehdr} (h : 0x80000000 ≤ e.phnum.toNat * e.phentsize.toNat) :
    0x8000000000000000 ≤ e.tableCount := by
  have hmsb : (BitVec.ofNat 32 (e.phnum.toNat * e.phentsize.toNat)).msb = true := by
    rw [BitVec.msb_eq_true_iff_two_mul_ge, e.toNat_product]
    omega
  rw [Ehdr.tableCount, BitVec.toNat_signExtend, hmsb, if_pos rfl, BitVec.toNat_setWidth,
    e.toNat_product]
  omega

theorem Ehdr.parse_congr {b b' : Record} (h : ∀ k < EHDR_SIZE, b k = b' k) :
    Ehdr.parse b = Ehdr.parse b' := by
  have hident : (fun k : Fin 16 => b k) = fun k : Fin 16 => b' k := by
    funext k
    exact h k (k.isLt.trans (by decide))
  have hhalf (k : ℕ) (hk : k + 1 < EHDR_SIZE) := Record.half_congr h hk
  have hword (k : ℕ) (hk : k + 3 < EHDR_SIZE) := Record.word_congr h hk
  simp only [Ehdr.parse, hident, hhalf 16 (by decide), hhalf 18 (by decide),
    hword 20 (by decide), hword 24 (by decide), hword 28 (by decide), hhalf 42 (by decide),
    hhalf 44 (by decide)]

structure Phdr where
  type : Word
  offset : Word
  vaddr : Word
  filesz : Word
  memsz : Word
  deriving DecidableEq

def PHDR_SIZE : ℕ := 32

def Phdr.parse (b : Record) : Phdr where
  type := b.word 0
  offset := b.word 4
  vaddr := b.word 8
  filesz := b.word 16
  memsz := b.word 20

theorem Phdr.parse_congr {b b' : Record} (h : ∀ k < PHDR_SIZE, b k = b' k) :
    Phdr.parse b = Phdr.parse b' := by
  have hword (k : ℕ) (hk : k + 3 < PHDR_SIZE) := Record.word_congr h hk
  simp only [Phdr.parse, hword 0 (by decide), hword 4 (by decide), hword 8 (by decide),
    hword 16 (by decide), hword 20 (by decide)]

def checkHeader (e : Ehdr) : Bool :=
  [e.ident 0, e.ident 1, e.ident 2, e.ident 3] == [0x7F, 0x45, 0x4C, 0x46] &&
  e.ident EI_CLASS == ELFCLASS32 &&
  e.ident EI_DATA == ELFDATA2LSB &&
  e.ident EI_VERSION == BitVec.ofNat 8 EV_CURRENT &&
  e.ident EI_OSABI == ELFOSABI_SYSV &&
  e.type == ET_EXEC &&
  e.machine == EM_MIPS &&
  e.version == BitVec.ofNat 32 EV_CURRENT &&
  e.phoff == 0x34#32

/-- An open file and what the host answers while the program is loaded. -/
structure Disk where
  content : List Byte
  /-- `pread(fd, _, count, offset)`, and the first `read` at offset 0: the arguments are
  offset and count, `none` is -1, otherwise the bytes delivered. -/
  pread : ℕ → ℕ → Option (List Byte)
  /-- Whether the `mmap` of the size of the file succeeds. -/
  mmapFile : Bool
  /-- Whether the `mmap` of `MEM_SIZE` bytes succeeds. -/
  mmapMemory : Bool
  /-- The heap behind the program header table. -/
  heap : Record

inductive DirEntry
  | missing
  | notRegular
  | regular (d : Disk) (readable : Bool)

/-- `none` is -1. -/
def openFile (f : DirEntry) : Option Disk :=
  match f with
  | .missing | .notRegular => none
  | .regular d readable =>
    if MEM_SIZE ≤ d.content.length then none
    else if readable then some d else none

def record (bytes : List Byte) : Record := fun k => bytes.getD k 0

/-- The table of `calloc(e_phnum, e_phentsize)` after `bytes` have been read into it. -/
def prgTable (d : Disk) (size : ℕ) (bytes : List Byte) : Record := fun k =>
  if k < size then record bytes k else d.heap k

structure Opened where
  disk : Disk
  elf : Option (Ehdr × Record)

/-- `none` is -1. -/
def binaryOrElf (f : DirEntry) : Option Opened :=
  match openFile f with
  | none => none
  | some d =>
    if !d.mmapFile then none
    else match d.pread 0 EHDR_SIZE with
      | none => none
      | some header =>
        if header.length ≠ EHDR_SIZE then none
        else
          let e := Ehdr.parse (record header)
          if checkHeader e then
            match d.pread e.phoff.toNat e.tableCount with
            | none => none
            -- The product of `calloc` does not overflow.
            | some bytes =>
              some ⟨d, some (e, prgTable d (e.phnum.toNat * e.phentsize.toNat) bytes)⟩
          else some ⟨d, none⟩

def prgHeaders (e : Ehdr) (tbl : Record) : List Phdr :=
  (List.range e.phnum.toNat).map fun i => Phdr.parse fun k => tbl (PHDR_SIZE * i + k)

/-- The sum is 64 bits wide: at most 65535 sizes of 32 bits fit. -/
def getProgramSize (hs : List Phdr) : ℕ :=
  hs.foldl (fun size ph => if ph.type = PT_LOAD then size + ph.memsz.toNat else size) 0

def copySegments (d : Disk) : List Phdr → Memory → Option Memory
  | [], m => some m
  | ph :: hs, m =>
    if ph.type ≠ PT_LOAD then copySegments d hs m
    else if MEM_SIZE < ph.vaddr.toNat + ph.filesz.toNat then none
    else match d.pread ph.offset.toNat ph.filesz.toNat with
      | none => none
      | some bytes => copySegments d hs (copyIn m ph.vaddr.toNat bytes)

structure Image where
  memory : Memory
  pc : Word
  codeSize : ℕ

/-- `none` is 0. -/
def mapElf (d : Disk) (e : Ehdr) (tbl : Record) : Option Image :=
  let hs := prgHeaders e tbl
  let size := getProgramSize hs
  if MEM_SIZE ≤ size then none
  else if !d.mmapMemory then none
  else match copySegments d hs fun _ => 0 with
    | none => none
    | some m => some ⟨m, e.entry, size⟩

def loadElf (f : DirEntry) : Option Image :=
  match binaryOrElf f with
  | some ⟨d, some (e, tbl)⟩ => mapElf d e tbl
  | _ => none

end MyMips.Loader
