import MyMips.InitGlobal

namespace MyMips.Loader

/-- What `read` and `pread` promise: the bytes delivered are those of the file from the
offset on, maybe fewer than asked for. -/
def Disk.Delivers (d : Disk) : Prop :=
  ∀ off n bytes, d.pread off n = some bytes → bytes <+: (d.content.drop off).take n

def Disk.table (d : Disk) : Record :=
  prgTable d (d.ehdr.phnum.toNat * d.ehdr.phentsize.toNat)
    ((d.pread d.ehdr.phoff.toNat d.ehdr.tableCount).getD [])

/-- The program headers `map_elf` indexes in it, 32 bytes apart. -/
def Disk.rows (d : Disk) : List Phdr := prgHeaders d.ehdr d.table

/-- The byte of the file that the last entry of its table to back `x` has there. -/
def Disk.entryByte (d : Disk) (x : Word) : Option Byte :=
  Overlay.top (d.loads.map (fileSegment d)) x

/-- The byte delivered for the last `PT_LOAD` row with one at `x`. -/
def Disk.rowByte (d : Disk) (x : Word) : Option Byte := Overlay.top (layers d d.rows) x

/-- The test on a program header and the size of the file that `map_elf` lacks. -/
def Phdr.fits (ph : Phdr) (size : ℕ) : Bool :=
  decide (ph.offset.toNat + ph.filesz.toNat ≤ size) &&
    decide (ph.filesz.toNat ≤ ph.memsz.toNat) &&
    decide (ph.vaddr.toNat + ph.memsz.toNat ≤ MEM_SIZE)

def Disk.fits (d : Disk) : Bool :=
  decide (d.ehdr.phoff.toNat + d.ehdr.phnum.toNat * d.ehdr.phentsize.toNat ≤ d.content.length) &&
    d.loads.all fun ph => ph.fits d.content.length

/-- Nothing gets lost on the way to the rows: an entry is as large as the structure, and no
`pread` of the table or of a segment stops before the end of the file. -/
structure Disk.Plain (d : Disk) : Prop where
  entsize : d.ehdr.phentsize.toNat = PHDR_SIZE
  table : d.pread d.ehdr.phoff.toNat d.ehdr.tableCount =
    some ((d.content.drop d.ehdr.phoff.toNat).take d.ehdr.tableCount)
  segments : ∀ ph ∈ d.loads, d.pread ph.offset.toNat ph.filesz.toNat =
    some ((d.content.drop ph.offset.toNat).take ph.filesz.toNat)

/-- The rows come to the bytes of the entries over a zero memory. -/
def Disk.Agrees (d : Disk) (rowByte : Word → Option Byte) : Prop :=
  ∀ ph ∈ d.loads, ∀ x, ph.Backs x → d.entryByte x = some ((rowByte x).getD 0)

section condition
variable {d : Disk}

theorem Disk.Plain.rows_eq (hp : d.Plain) : d.rows = d.phdrs := by
  have htable : d.table = prgTable d (d.ehdr.phnum.toNat * d.ehdr.phentsize.toNat)
      ((d.content.drop d.ehdr.phoff.toNat).take
        (d.ehdr.phnum.toNat * d.ehdr.phentsize.toNat)) := by
    rw [Disk.table, hp.table, Option.getD_some, Ehdr.tableCount_of_entsize hp.entsize]
  rw [Disk.rows, htable]
  exact prgHeaders_table hp.entsize

end condition

section accepts
variable {d : Disk} {readable : Bool} (hread : d.Delivers)
  (hheader : EHDR_SIZE ≤ d.content.length) (hcheck : checkHeader d.ehdr = true)

include hread hheader in
/-- A header that is read whole is the header of the file. -/
theorem parse_of_read {header : List Byte} (hpread : d.pread 0 EHDR_SIZE = some header)
    (hsize : header.length = EHDR_SIZE) : Ehdr.parse (record header) = d.ehdr := by
  have hlen := length_header hheader
  have hwhole : header = (d.content.drop 0).take EHDR_SIZE :=
    (hread _ _ _ hpread).eq_of_length (hsize.trans hlen.symm)
  rw [hwhole]
  exact parse_header

include hread hheader hcheck in
theorem binaryOrElf_elf (hopens : Opens (.regular d readable)) :
    binaryOrElf (.regular d readable) = some ⟨d, some (d.ehdr, d.table)⟩ := by
  obtain ⟨rfl, hsmall, hmap, header, hpread, hsize, htable⟩ := hopens
  have hparse := parse_of_read hread hheader hpread hsize
  simp only [hparse] at htable
  obtain ⟨bytes, hbytes⟩ := Option.isSome_iff_exists.mp (htable hcheck)
  simp only [binaryOrElf, openFile, if_neg (not_le.mpr hsmall), if_true, hmap, Bool.not_true,
    Bool.false_eq_true, if_false, hpread, hsize, ne_eq, not_true_eq_false, hparse, hcheck, hbytes,
    Disk.table, Option.getD_some]

include hread hheader hcheck in
/-- A host that refuses a negative count does not read a table of 2^31 bytes or more. -/
theorem not_opens_of_overflow
    (hrefuses : ∀ off n, 0x8000000000000000 ≤ n → d.pread off n = none)
    (hsize : 0x80000000 ≤ d.ehdr.phnum.toNat * d.ehdr.phentsize.toNat) :
    ¬ Opens (.regular d readable) := by
  rintro ⟨-, -, -, header, hpread, hlen, htable⟩
  have hparse := parse_of_read hread hheader hpread hlen
  simp only [hparse] at htable
  have hsome := htable hcheck
  rw [hrefuses _ _ (Ehdr.le_tableCount hsize)] at hsome
  cases hsome

include hread hheader hcheck in
/-- `init_global` succeeds on the opened files whose rows `map_elf` accepts, and has put
them over a zero memory. -/
theorem initGlobal_elf (env : Env) (argv : Argv) (hm : env.malloc = true)
    (hfile : env.files argv.path = .regular d readable)
    (hopens : Opens (.regular d readable)) (garbage : Global) :
    ((∃ g, initGlobal env argv garbage = .returns g) ↔ Accepts d d.rows) ∧
      ∀ g, initGlobal env argv garbage = .returns g →
        g.memory = Overlay.paint (fun _ => 0) (layers d d.rows) := by
  have ho := binaryOrElf_elf hread hheader hcheck hopens
  rw [← hfile] at ho
  obtain ⟨hcode, hstart⟩ := initGlobal_of_opened hm ho garbage
  -- The file opens, so what is left to compare is what `map_elf` does.
  have haccepts : Accepts d d.rows ↔ (mapElf d d.ehdr d.table).isSome := by
    rw [Option.isSome_iff_exists]
    constructor
    · intro ha
      exact ⟨_, mapElf_eq_some.mpr ⟨ha, rfl⟩⟩
    · rintro ⟨img, himg⟩
      exact (mapElf_eq_some.mp himg).1
  rw [haccepts]
  simp only [Opened.result, Opened.load] at hcode hstart
  cases himg : mapElf d d.ehdr d.table with
  | none =>
    rw [himg] at hcode
    have hno (g : Global) : initGlobal env argv garbage ≠ .returns g := by
      intro hrun
      rw [hrun] at hcode
      cases hcode
    refine ⟨⟨fun hexists => ?_, fun hsome => by cases hsome⟩, fun g hrun => absurd hrun (hno g)⟩
    obtain ⟨g, hrun⟩ := hexists
    exact absurd hrun (hno g)
  | some img =>
    rw [himg] at hcode hstart
    obtain ⟨-, hpainted⟩ := mapElf_eq_some.mp himg
    cases hrun : initGlobal env argv garbage with
    | fails =>
      rw [hrun] at hcode
      cases hcode
    | crash =>
      rw [hrun] at hcode
      cases hcode
    | returns g =>
      refine ⟨⟨fun _ => rfl, fun _ => ⟨g, rfl⟩⟩, fun g' hg => ?_⟩
      cases hg
      rw [hrun, InitResult.start, Option.map_some, Option.map_some, Option.some.injEq] at hstart
      have hstate := congrArg Prod.fst hstart
      have hmemory : g.memory = img.memory := congrArg State.memory hstate
      rw [hmemory, hpainted]
      rfl

end accepts

section notOpened
variable {env : Env} {argv : Argv} {garbage g : Global}

end notOpened

section condition
variable {d : Disk} {readable : Bool} (hread : d.Delivers)
  (hheader : EHDR_SIZE ≤ d.content.length) (hcheck : checkHeader d.ehdr = true)

end condition

section succeeds
variable {d : Disk} (hd : d.Succeeds)
include hd

theorem Disk.Succeeds.delivers : d.Delivers := by
  intro off n bytes hbytes
  rw [hd.pread, Option.some.injEq] at hbytes
  exact hbytes ▸ List.prefix_refl _

theorem Disk.Succeeds.plain (hent : d.ehdr.phentsize.toNat = PHDR_SIZE) : d.Plain :=
  ⟨hent, hd.pread _ _, fun _ _ => hd.pread _ _⟩

theorem Disk.Succeeds.opens (hsmall : d.content.length < MEM_SIZE)
    (hheader : EHDR_SIZE ≤ d.content.length) : Opens (.regular d true) := by
  refine ⟨rfl, hsmall, hd.mmapFile, _, hd.pread 0 EHDR_SIZE, length_header hheader, fun _ => ?_⟩
  rw [hd.pread]
  rfl

end succeeds

end MyMips.Loader
