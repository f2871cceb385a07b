import MyMips.ElfImage

/-! `init_global` of `utils.c`: the fresh `struct global`, the option loop, and the flat
and ELF branches behind `binary_or_elf`. The struct comes from `malloc`, so its fields
hold anything until they are set. -/
namespace MyMips.Loader

structure Mode where
  debug : Bool
  log : Bool
  jit : Bool
  deriving DecidableEq

structure Global where
  reg : Reg → Word
  hi : Word
  lo : Word
  fpr : Reg → Word
  fpCond : Word
  /-- What `glob->memory` points to. -/
  memory : Memory
  pc : Word
  fileSize : ℕ
  codeSize : ℕ
  mode : Mode
  elf : Word
  elfHeader : Ehdr
  /-- What `glob->prg_header` points to; `none` when reading it faults. -/
  prgHeader : Option Record

/-- An argument vector with its last element, the path of the program. -/
structure Argv where
  options : List (List Char)
  path : List Char

def Argv.all (argv : Argv) : List (List Char) := argv.options ++ [argv.path]

/-- The files and the other answers of the host; those of an open file are in its `Disk`. -/
structure Env where
  files : List Char → DirEntry
  /-- Whether `malloc` succeeds. -/
  malloc : Bool
  /-- Whether the `mmap` of `MEM_SIZE` bytes succeeds when no file is open. -/
  mmapMemory : Bool
  /-- Whether the `mmap` of an open descriptor succeeds. -/
  mmapFd : Bool
  close : Bool
  munmap : Bool

/-- What `init_global` does: it returns 0, or 1 and the struct, or reads through a wild
pointer. -/
inductive InitResult
  | fails
  | returns (g : Global)
  | crash

def InitResult.ofOption : Option Global → InitResult
  | none => .fails
  | some g => .returns g

/-- One turn of the option loop. The second half of its condition,
`argv[i][1] != '-' || argv[i][1] != ' '`, is always true. -/
def scanArg (m : Mode) : List Char → Mode
  | '-' :: 'd' :: _ => { m with debug := true }
  | '-' :: 'j' :: _ => { m with jit := true }
  | '-' :: 'l' :: _ => { m with log := true }
  | _ => m

/-- The flags after the option loop, which looks at the path too. -/
def Argv.mode (argv : Argv) : Mode := argv.all.foldl scanArg ⟨false, false, false⟩

/-- The fields `binary_or_elf` sets on its way; the first component is the descriptor,
`none` is -1. -/
def openProgram (f : DirEntry) (g : Global) : Option Disk × Global :=
  let g := match openFile f with
    | none => g
    | some d => { g with fileSize := d.content.length }
  match binaryOrElf f with
  | none => (none, g)
  | some ⟨d, none⟩ => (some d, { g with elf := 0 })
  | some ⟨d, some (e, tbl)⟩ =>
    (some d, { g with
      elf := 1
      elfHeader := e
      prgHeader := some tbl })

def badFd (env : Env) : Disk where
  content := []
  pread := fun _ _ => none
  mmapFile := false
  mmapMemory := env.mmapMemory
  heap := fun _ => 0

/-- `map_elf` on the header and the table of the struct. An empty table is not read. -/
def mapElfGlobal (env : Env) (fd : Option Disk) (g : Global) : InitResult :=
  let tbl := if g.elfHeader.phnum = 0 then some fun _ => 0 else g.prgHeader
  match tbl with
  | none => .crash
  | some tbl => .ofOption <| (mapElf (fd.getD (badFd env)) g.elfHeader tbl).map fun img =>
    { g with
      memory := img.memory
      pc := img.pc
      codeSize := img.codeSize }

/-- `none` is 0. -/
def initMemory (env : Env) (fd : Option Disk) (fileSize : ℕ) : Option Memory :=
  match fd with
  | none => none
  | some d =>
    if !env.mmapFd then none
    else if !env.close then none
    else if !d.mmapMemory then none
    else if !env.munmap then none
    else some (copyIn (fun _ => 0) 0 (d.content.take fileSize))

def loadProgram (env : Env) (fd : Option Disk) (g : Global) : InitResult :=
  if g.elf ≠ 0 then mapElfGlobal env fd g
  else .ofOption <| (initMemory env fd g.fileSize).map fun m => { g with memory := m }

def resetGlobal (argv : Argv) (garbage : Global) : Global := { garbage with
  reg := fun _ => 0
  fpr := fun _ => 0
  hi := 0
  lo := 0
  fpCond := 0
  mode := argv.mode
  pc := 0 }

def InitResult.withStack : InitResult → InitResult
  | .returns g =>
    .returns { g with reg := Function.update g.reg SP (BitVec.ofNat 32 (MEM_SIZE - 4)) }
  | r => r

def initGlobal (env : Env) (argv : Argv) (garbage : Global) : InitResult :=
  if !env.malloc then .fails
  else
    let p := openProgram (env.files argv.path) (resetGlobal argv garbage)
    (loadProgram env p.1 p.2).withStack

def Global.state (g : Global) : State where
  reg := g.reg
  hi := g.hi
  lo := g.lo
  fpr := g.fpr
  fpCond := g.fpCond
  memory := g.memory
  pc := g.pc
  branchPending := false
  branchTarget := 0
  ready := false
  lastKey := 0
  events := []

namespace InitResult

/-- The C return value; `none` when there is none. -/
def code : InitResult → Option ℕ
  | .fails => some 0
  | .returns _ => some 1
  | .crash => none

def start : InitResult → Option (State × Mode × Bool)
  | .returns g => some (g.state, g.mode, g.elf != 0)
  | _ => none

/-- The same return value, and on success the same machine and the same flags. -/
def Same (r r' : InitResult) : Prop := r.code = r'.code ∧ r.start = r'.start

end InitResult

def Opened.load (env : Env) (o : Opened) : Option (Memory × Word) :=
  match o.elf with
  | some (e, tbl) => (mapElf o.disk e tbl).map fun img => (img.memory, img.pc)
  | none => (initMemory env (some o.disk) o.disk.content.length).map fun m => (m, 0)

def Opened.result (env : Env) (argv : Argv) (o : Opened) : Option (State × Mode × Bool) :=
  (o.load env).map fun p => (resetState p.1 p.2, argv.mode, o.elf.isSome)

section opened
variable {env : Env} {argv : Argv} {o : Opened}

theorem openFile_of_opened {f : DirEntry} (ho : binaryOrElf f = some o) :
    openFile f = some o.disk := by
  unfold binaryOrElf at ho
  cases hf : openFile f with
  | none => simp [hf] at ho
  | some d =>
    simp only [hf] at ho
    split_ifs at ho
    split at ho
    · cases ho
    · split_ifs at ho
      · split at ho
        · cases ho
        · cases ho
          rfl
      · cases ho
        rfl

theorem openProgram_flat {f : DirEntry} {d : Disk} (ho : binaryOrElf f = some ⟨d, none⟩)
    (g : Global) : openProgram f g =
      (some d, { g with
        fileSize := d.content.length
        elf := 0 }) := by
  simp only [openProgram, openFile_of_opened ho, ho]

theorem openProgram_elf {f : DirEntry} {d : Disk} {e : Ehdr} {tbl : Record}
    (ho : binaryOrElf f = some ⟨d, some (e, tbl)⟩) (g : Global) : openProgram f g =
      (some d, { g with
        fileSize := d.content.length
        elf := 1
        elfHeader := e
        prgHeader := some tbl }) := by
  simp only [openProgram, openFile_of_opened ho, ho]

/-- Without rows the table is not read, and nothing is taken from it. -/
theorem mapElf_no_rows (d : Disk) {e : Ehdr} (hz : e.phnum = 0) (tbl tbl' : Record) :
    mapElf d e tbl = mapElf d e tbl' := by
  simp only [mapElf, prgHeaders, hz]
  rfl

theorem mapElfGlobal_table {g : Global} {tbl : Record} (ht : g.prgHeader = some tbl)
    (d : Disk) : mapElfGlobal env (some d) g =
      .ofOption ((mapElf d g.elfHeader tbl).map fun img => { g with
        memory := img.memory
        pc := img.pc
        codeSize := img.codeSize }) := by
  unfold mapElfGlobal
  by_cases hz : g.elfHeader.phnum = 0
  · simp only [if_pos hz, Option.getD_some]
    rw [mapElf_no_rows d hz _ tbl]
  · simp only [if_neg hz, ht, Option.getD_some]

theorem loadProgram_fileSize {fd : Option Disk} {g g' : Global}
    (hload : loadProgram env fd g = .returns g') : g'.fileSize = g.fileSize := by
  unfold loadProgram at hload
  split_ifs at hload with helf
  · unfold mapElfGlobal at hload
    dsimp only at hload
    cases htbl : (if g.elfHeader.phnum = 0 then some fun _ => 0 else g.prgHeader) with
    | none =>
      rw [htbl] at hload
      cases hload
    | some tbl =>
      simp only [htbl] at hload
      cases himg : mapElf (fd.getD (badFd env)) g.elfHeader tbl with
      | none =>
        rw [himg] at hload
        cases hload
      | some img =>
        rw [himg] at hload
        cases hload
        rfl
  · cases hmem : initMemory env fd g.fileSize with
    | none =>
      rw [hmem] at hload
      cases hload
    | some m =>
      rw [hmem] at hload
      cases hload
      rfl

/-- The size an opened program is run with is the size of its file. -/
theorem initGlobal_fileSize {garbage g : Global}
    (ho : binaryOrElf (env.files argv.path) = some o)
    (hrun : initGlobal env argv garbage = .returns g) :
    g.fileSize = o.disk.content.length := by
  -- The size is set when the file is opened and by nothing after that.
  have hopen (g0 : Global) : (openProgram (env.files argv.path) g0).2.fileSize =
      o.disk.content.length := by
    rcases o with ⟨d, _ | ⟨e, tbl⟩⟩
    · rw [openProgram_flat ho]
    · rw [openProgram_elf ho]
  unfold initGlobal at hrun
  split_ifs at hrun with hm
  dsimp only at hrun
  cases hload : loadProgram env (openProgram (env.files argv.path) (resetGlobal argv garbage)).1
      (openProgram (env.files argv.path) (resetGlobal argv garbage)).2 with
  | fails =>
    rw [hload] at hrun
    cases hrun
  | crash =>
    rw [hload] at hrun
    cases hrun
  | returns g' =>
    rw [hload] at hrun
    cases hrun
    calc g'.fileSize
        = (openProgram (env.files argv.path) (resetGlobal argv garbage)).2.fileSize :=
          loadProgram_fileSize hload
      _ = o.disk.content.length := hopen _

/-- An opened program is loaded into a reset machine whatever the struct held. -/
theorem initGlobal_of_opened (hm : env.malloc = true)
    (ho : binaryOrElf (env.files argv.path) = some o) (garbage : Global) :
    (initGlobal env argv garbage).code = some ((o.load env).elim 0 fun _ => 1) ∧
      (initGlobal env argv garbage).start = o.result env argv := by
  rcases o with ⟨d, _ | ⟨e, tbl⟩⟩
  · simp only [initGlobal, hm, Bool.not_true, Bool.false_eq_true, if_false, openProgram_flat ho,
      loadProgram, ne_eq, not_true_eq_false, Opened.result, Opened.load]
    cases initMemory env (some d) d.content.length with
    | none => exact ⟨rfl, rfl⟩
    | some m => exact ⟨rfl, rfl⟩
  · have helf : (1 : Word) ≠ 0 := by decide
    simp only [initGlobal, hm, Bool.not_true, Bool.false_eq_true, if_false, openProgram_elf ho,
      loadProgram, if_pos helf, Opened.result, Opened.load]
    rw [mapElfGlobal_table rfl]
    cases mapElf d e tbl with
    | none => exact ⟨rfl, rfl⟩
    | some img => exact ⟨rfl, rfl⟩

end opened

/-- The file at the path opens: it is regular, readable, smaller than the memory, can be
mapped, has a whole header, and its program header table can be read if it is ELF. -/
def Opens : DirEntry → Prop
  | .missing | .notRegular => False
  | .regular d readable =>
    readable = true ∧ d.content.length < MEM_SIZE ∧ d.mmapFile = true ∧
      ∃ header, d.pread 0 EHDR_SIZE = some header ∧ header.length = EHDR_SIZE ∧
        let e := Ehdr.parse (record header)
        (checkHeader e = true →
          (d.pread e.phoff.toNat e.tableCount).isSome)

theorem binaryOrElf_isSome (f : DirEntry) : (binaryOrElf f).isSome ↔ Opens f := by
  cases f with
  | missing | notRegular => simp [binaryOrElf, openFile, Opens]
  | regular d readable =>
    unfold binaryOrElf openFile Opens
    dsimp only
    by_cases hlen : MEM_SIZE ≤ d.content.length
    · simp [hlen]
    cases readable
    · simp [hlen]
    cases hmap : d.mmapFile
    · simp [hlen, hmap]
    cases hread : d.pread 0 EHDR_SIZE with
    | none => simp [hlen, hmap, hread]
    | some header =>
      by_cases hsize : header.length = EHDR_SIZE
      · cases hcheck : checkHeader (Ehdr.parse (record header)) with
        | false =>
          simp [hlen, hmap, hread, hsize, hcheck]
          omega
        | true =>
          cases htable : d.pread (Ehdr.parse (record header)).phoff.toNat
              (Ehdr.parse (record header)).tableCount with
          | none => simp [hlen, hmap, hread, hsize, hcheck, htable]
          | some bytes =>
            simp [hlen, hmap, hread, hsize, hcheck, htable]
            omega
      · simp [hlen, hmap, hread, hsize]

section garbage
variable {env : Env} {argv : Argv}

theorem openProgram_fails {f : DirEntry} (ho : binaryOrElf f = none) (g : Global) :
    ∃ n, openProgram f g = (none, { g with fileSize := n }) := by
  unfold openProgram
  rw [ho]
  cases openFile f with
  | none => exact ⟨g.fileSize, rfl⟩
  | some d => exact ⟨d.content.length, rfl⟩

/-- Without an open file the branch is taken on a field nobody has set. -/
theorem initGlobal_of_not_opened (hm : env.malloc = true)
    (ho : binaryOrElf (env.files argv.path) = none) (g : Global) :
    (g.elf = 0 → initGlobal env argv g = .fails) ∧
    (g.elf ≠ 0 → ∃ n, initGlobal env argv g =
      (mapElfGlobal env none { resetGlobal argv g with fileSize := n }).withStack) := by
  obtain ⟨n, hopen⟩ := openProgram_fails ho (resetGlobal argv g)
  constructor
  · intro helf
    have hreset : (resetGlobal argv g).elf = 0 := helf
    simp only [initGlobal, hm, hopen, loadProgram, hreset]
    rfl
  · intro helf
    have hreset : (resetGlobal argv g).elf ≠ 0 := helf
    refine ⟨n, ?_⟩
    simp only [initGlobal, hm, hopen, loadProgram, if_pos hreset]
    rfl

def blank : Global where
  reg := fun _ => 0
  hi := 0
  lo := 0
  fpr := fun _ => 0
  fpCond := 0
  memory := fun _ => 0
  pc := 0
  fileSize := 0
  codeSize := 0
  mode := ⟨false, false, false⟩
  elf := 0
  elfHeader := Ehdr.parse fun _ => 0
  prgHeader := none

/-- The same with a nonzero `elf` field, and `phnum` rows behind a wild pointer. -/
def stale (phnum : BitVec 16) : Global := { blank with
  elf := 1
  elfHeader := { blank.elfHeader with phnum := phnum } }

variable (env argv) in
/-- A stale `elf` field turns the failure into an empty program or a wild read. -/
theorem initGlobal_stale (hm : env.malloc = true)
    (ho : binaryOrElf (env.files argv.path) = none) :
    (initGlobal env argv blank).code = some 0 ∧
    (initGlobal env argv (stale 1)).code = none ∧
    (env.mmapMemory = true → (initGlobal env argv (stale 0)).code = some 1) := by
  have hstale (phnum : BitVec 16) : (stale phnum).elf ≠ 0 := by
    change (1 : Word) ≠ 0
    decide
  refine ⟨?_, ?_, ?_⟩
  · rw [(initGlobal_of_not_opened hm ho blank).1 rfl]
    rfl
  · obtain ⟨n, hrun⟩ := (initGlobal_of_not_opened hm ho (stale 1)).2 (hstale 1)
    rw [hrun]
    rfl
  · intro hmap
    obtain ⟨n, hrun⟩ := (initGlobal_of_not_opened hm ho (stale 0)).2 (hstale 0)
    rw [hrun]
    simp only [mapElfGlobal, mapElf, resetGlobal, Option.getD_none, badFd, hmap]
    rfl

end garbage

/-- The initialisation comes to the same for all contents of the fresh struct exactly when
there is no struct or the file opens. -/
theorem initGlobal_same_iff (env : Env) (argv : Argv) :
    (∀ g g', InitResult.Same (initGlobal env argv g) (initGlobal env argv g')) ↔
      env.malloc = false ∨ Opens (env.files argv.path) := by
  constructor
  · intro hsame
    -- Two structs that differ in `elf` alone come to different results.
    by_contra hno
    obtain ⟨hm, hopens⟩ := not_or.mp hno
    have hm' : env.malloc = true := by simpa using hm
    have ho : binaryOrElf (env.files argv.path) = none := by
      rw [← Option.not_isSome_iff_eq_none, binaryOrElf_isSome]
      exact hopens
    obtain ⟨hfails, hcrash, -⟩ := initGlobal_stale env argv hm' ho
    have hcode := (hsame blank (stale 1)).1
    rw [hfails, hcrash] at hcode
    cases hcode
  · rintro (hm | hopens) g g'
    · simp only [initGlobal, hm]
      exact ⟨rfl, rfl⟩
    · cases hm : env.malloc with
      | false =>
        simp only [initGlobal, hm]
        exact ⟨rfl, rfl⟩
      | true =>
        obtain ⟨o, ho⟩ := Option.isSome_iff_exists.mp ((binaryOrElf_isSome _).mpr hopens)
        obtain ⟨hcode, hstart⟩ := initGlobal_of_opened hm ho g
        obtain ⟨hcode', hstart'⟩ := initGlobal_of_opened hm ho g'
        -- Either run is a function of the opened program.
        constructor
        · rw [hcode, hcode']
        · rw [hstart, hstart']

def hostWith (f : DirEntry) : Env where
  files := fun _ => f
  malloc := true
  mmapMemory := true
  mmapFd := true
  close := true
  munmap := true

/-- A missing file: `init_global` returns 0 or 1. -/
theorem initGlobal_same_counterexample :
    ¬ ∀ (env : Env) (argv : Argv) (g g' : Global),
      InitResult.Same (initGlobal env argv g) (initGlobal env argv g') := by
  intro hall
  have hcode := (hall (hostWith .missing) ⟨[], "missing.bin".toList⟩ blank (stale 0)).1
  obtain ⟨hfails, -, hreturns⟩ := initGlobal_stale (hostWith .missing)
    ⟨[], "missing.bin".toList⟩ rfl rfl
  rw [hfails, hreturns rfl] at hcode
  exact absurd hcode (by decide)

def Disk.IsElf (d : Disk) : Prop := EHDR_SIZE ≤ d.content.length ∧ checkHeader d.ehdr = true

def flatMemory (content : List Byte) : Memory := fun x => record content x.toNat

structure Env.Succeeds (env : Env) (d : Disk) : Prop where
  disk : d.Succeeds
  malloc : env.malloc = true
  mmapFd : env.mmapFd = true
  close : env.close = true
  munmap : env.munmap = true

def LoadsFlat (env : Env) (argv : Argv) (d : Disk) : Prop :=
  ∀ garbage, ∃ g, initGlobal env argv garbage = .returns g ∧
    g.state = resetState (flatMemory d.content) 0

section flat
variable {env : Env} {argv : Argv} {d : Disk}

/-- A file that ends inside the ELF header is rejected, whatever it is. -/
theorem binaryOrElf_short (hd : d.Succeeds) (hshort : d.content.length < EHDR_SIZE) :
    binaryOrElf (.regular d true) = none := by
  have hread : d.pread 0 EHDR_SIZE = some d.content := by
    rw [hd.pread, List.drop_zero, List.take_of_length_le hshort.le]
  have hlen : ¬ MEM_SIZE ≤ d.content.length := not_le.mpr (hshort.trans (by decide))
  simp only [binaryOrElf, openFile, if_neg hlen, if_true, hd.mmapFile, hread]
  simp [hshort.ne]

theorem binaryOrElf_flat (hd : d.Succeeds) (hlt : d.content.length < MEM_SIZE)
    (hheader : EHDR_SIZE ≤ d.content.length) (hflat : ¬ d.IsElf) :
    binaryOrElf (.regular d true) = some ⟨d, none⟩ := by
  have hcheck : checkHeader d.ehdr = false := by
    rw [← Bool.not_eq_true]
    exact fun hc => hflat ⟨hheader, hc⟩
  have hlen := length_header hheader
  simp only [binaryOrElf, openFile, if_neg (not_le.mpr hlt), if_true, hd.mmapFile, hd.pread, hlen,
    parse_header, hcheck]
  simp

theorem copyIn_content (content : List Byte) :
    copyIn (fun _ => 0) 0 content = flatMemory content := by
  funext x
  simp only [copyIn, Nat.zero_le, if_true, Nat.sub_zero, flatMemory, record,
    List.getD_eq_getElem?_getD]

variable (env argv) in
theorem loadsFlat_of_le (hfile : env.files argv.path = .regular d true) (hhost : env.Succeeds d)
    (hlt : d.content.length < MEM_SIZE) (hflat : ¬ d.IsElf)
    (hheader : EHDR_SIZE ≤ d.content.length) : LoadsFlat env argv d := by
  intro garbage
  have ho := binaryOrElf_flat hhost.disk hlt hheader hflat
  rw [← hfile] at ho
  have hmem : initMemory env (some d) d.content.length = some (flatMemory d.content) := by
    rw [← copyIn_content]
    simp only [initMemory, hhost.mmapFd, hhost.close, hhost.disk.mmapMemory, hhost.munmap,
      List.take_length]
    simp
  obtain ⟨-, hstart⟩ := initGlobal_of_opened hhost.malloc ho garbage
  simp only [Opened.result, Opened.load, hmem, Option.map_some] at hstart
  cases hrun : initGlobal env argv garbage with
  | fails => simp [hrun, InitResult.start] at hstart
  | crash => simp [hrun, InitResult.start] at hstart
  | returns g =>
    rw [hrun, InitResult.start, Option.some.injEq] at hstart
    exact ⟨g, rfl, congrArg Prod.fst hstart⟩

variable (env argv) in
theorem not_loadsFlat_of_short (hfile : env.files argv.path = .regular d true)
    (hhost : env.Succeeds d) (hshort : d.content.length < EHDR_SIZE) :
    ¬ LoadsFlat env argv d := by
  intro hloads
  have ho := binaryOrElf_short hhost.disk hshort
  rw [← hfile] at ho
  have hfails := (initGlobal_of_not_opened hhost.malloc ho blank).1 rfl
  obtain ⟨g, hrun, -⟩ := hloads blank
  rw [hfails] at hrun
  cases hrun

end flat

/-- A file below `MEM_SIZE` bytes that is not ELF is loaded as a flat binary exactly when
it is not shorter than an ELF header. -/
theorem initGlobal_flat_iff (env : Env) (argv : Argv) (d : Disk)
    (hfile : env.files argv.path = .regular d true) (hhost : env.Succeeds d)
    (hlt : d.content.length < MEM_SIZE) (hflat : ¬ d.IsElf) :
    LoadsFlat env argv d ↔ EHDR_SIZE ≤ d.content.length := by
  constructor
  · intro hloads
    by_contra hshort
    exact not_loadsFlat_of_short env argv hfile hhost (not_le.mp hshort) hloads
  · exact loadsFlat_of_le env argv hfile hhost hlt hflat

theorem hostWith_succeeds {d : Disk} (f : DirEntry) (hd : d.Succeeds) : (hostWith f).Succeeds d :=
  ⟨hd, rfl, rfl, rfl, rfl⟩

/-- Twelve times `addiu $v0, $v0, 1`, then `break`. -/
def thirteenWords : List Byte :=
  (List.replicate 12 0x24420001#32 ++ [0x0000000D#32]).flatMap Bytes.le32

theorem not_isElf_words : ¬ (diskOf thirteenWords).IsElf := by
  rintro ⟨-, hcheck⟩
  exact absurd hcheck (by decide +kernel)

theorem initGlobal_flat_words :
    LoadsFlat (hostWith (.regular (diskOf thirteenWords) true)) ⟨[], []⟩
      (diskOf thirteenWords) := by
  have hhost := hostWith_succeeds (.regular (diskOf thirteenWords) true)
    (diskOf_succeeds thirteenWords)
  apply (initGlobal_flat_iff _ _ _ rfl hhost (by decide) not_isElf_words).mpr
  decide

/-- `li $v0, 10` and `syscall` are too short for one. -/
theorem initGlobal_flat_counterexample :
    ¬ ∀ (env : Env) (argv : Argv) (d : Disk), env.files argv.path = .regular d true →
      env.Succeeds d → 0 < d.content.length → d.content.length < MEM_SIZE → ¬ d.IsElf →
      LoadsFlat env argv d := by
  intro hall
  let d : Disk := diskOf ([0x2402000A#32, 0x0000000C#32].flatMap Bytes.le32)
  have hhost := hostWith_succeeds (.regular d true) (diskOf_succeeds _ : d.Succeeds)
  have hloads := hall _ ⟨[], []⟩ d rfl hhost (by decide) (by decide) fun helf =>
    absurd helf.1 (by decide)
  exact not_loadsFlat_of_short _ ⟨[], []⟩ rfl hhost (by decide) hloads

end MyMips.Loader
