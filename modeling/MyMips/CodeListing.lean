import MyMips.MalformedElf
import MyMips.MemoryView

namespace MyMips

section loop
variable {d : Dbg} {k : ℕ}

def wordAddrs (k : ℕ) : List Word := (List.range k).map fun j => BitVec.ofNat 32 (4 * j)

def listing (m : Memory) (k : ℕ) : List Line := (wordAddrs k).map (instrLine m)

theorem wordAddrs_succ (k : ℕ) : wordAddrs (k + 1) = wordAddrs k ++ [BitVec.ofNat 32 (4 * k)] := by
  rw [wordAddrs, List.range_succ, List.map_append]
  rfl

theorem toNat_four_mul (hk : 4 * k < 2 ^ 32) : (BitVec.ofNat 32 (4 * k)).toNat = 4 * k :=
  toNat_ofNat_of_lt hk

theorem wordAddrs_pairwise (hk : 4 * k ≤ 2 ^ 32) : (wordAddrs k).Pairwise (· < ·) := by
  rw [wordAddrs, List.pairwise_map]
  apply List.pairwise_lt_range.imp_of_mem
  intro i j hi hj hij
  have hik := List.mem_range.mp hi
  have hjk := List.mem_range.mp hj
  rw [BitVec.lt_def, toNat_four_mul (by omega), toNat_four_mul (by omega)]
  omega

/-- They are the aligned addresses among the first `4 * k`. -/
theorem mem_wordAddrs (hk : 4 * k ≤ 2 ^ 32) {x : Word} :
    x ∈ wordAddrs k ↔ x.toNat % 4 = 0 ∧ x.toNat < 4 * k := by
  rw [wordAddrs, List.mem_map]
  constructor
  · rintro ⟨j, hj, rfl⟩
    have hjk := List.mem_range.mp hj
    rw [toNat_four_mul (by omega)]
    omega
  · rintro ⟨halign, hlt⟩
    refine ⟨x.toNat / 4, List.mem_range.mpr (by omega), ?_⟩
    have hdiv : 4 * (x.toNat / 4) = x.toNat := by omega
    rw [hdiv, BitVec.ofNat_toNat, BitVec.setWidth_eq]

theorem instrLine_injective (m : Memory) : Function.Injective (instrLine m) := by
  intro a b hab
  rw [instrLine_eq, instrLine_eq] at hab
  exact (wordLine_inj hab).1

/-- Below the size of the file every turn lists one more word. -/
theorem steps_codeStep (hsize : d.fileSize ≤ 2 ^ 32) (hk : 4 * k < d.fileSize + 4) :
    Run.Steps (codeStep d) k (0, [])
      (BitVec.ofNat 32 (4 * k), listing d.guest.memory k) := by
  induction k with
  | zero => exact .refl _
  | succ k ih =>
    have hlt : 4 * k < d.fileSize := by omega
    have hpc := toNat_four_mul (k := k) (by omega)
    have hnext : BitVec.ofNat 32 (4 * k) + 4 = BitVec.ofNat 32 (4 * (k + 1)) := by
      rw [Nat.mul_add, BitVec.ofNat_add]
      rfl
    have hstep : codeStep d (BitVec.ofNat 32 (4 * k), listing d.guest.memory k) =
        .next (BitVec.ofNat 32 (4 * (k + 1)), listing d.guest.memory (k + 1)) := by
      rw [codeStep, if_pos (hpc.symm ▸ hlt), hnext, listing, listing, wordAddrs_succ,
        List.map_append]
      rfl
    exact (ih (by omega)).tail hstep

/-- The number of words in the file, the last one counted when the file ends inside it. -/
def Dbg.words (d : Dbg) : ℕ := (d.fileSize + 3) / 4

/-- The counter that gets past the end of the file ends the loop. -/
theorem printCode_eq_some (hsize : d.fileSize ≤ 2 ^ 32 - 4) :
    printCode (d.words + 1) d = some (d.print (listing d.guest.memory d.words)) := by
  have hfour : d.fileSize ≤ 4 * d.words ∧ 4 * d.words < d.fileSize + 4 := by
    rw [Dbg.words]
    omega
  have hsteps := steps_codeStep (d := d) (k := d.words) (by omega) hfour.2
  have hdone : codeStep d (BitVec.ofNat 32 (4 * d.words), listing d.guest.memory d.words) =
      .done (listing d.guest.memory d.words) := by
    rw [codeStep, if_neg]
    rw [toNat_four_mul (by omega)]
    omega
  rw [printCode, Run.run_add_of_steps hsteps, Run.run, hdone]
  rfl

/-- A counter that is a multiple of four is at most 2^32 - 4, and 0 comes after that. -/
theorem printCode_eq_none (hsize : 2 ^ 32 - 4 < d.fileSize) (fuel : ℕ) :
    printCode fuel d = none := by
  have hturn (r : Word × List Line) (hr : r.1.toNat % 4 = 0) :
      ∃ r', codeStep d r = .next r' ∧ r'.1.toNat % 4 = 0 := by
    have hlt := r.1.isLt
    refine ⟨_, if_pos (by omega), ?_⟩
    have hfour : (4 : Word).toNat = 4 := rfl
    dsimp only
    rw [BitVec.toNat_add, hfour]
    omega
  have hnever := Run.run_eq_none hturn (s := ((0 : Word), ([] : List Line))) rfl fuel
  rw [printCode, hnever]
  rfl

/-- The command ends, and its lines are those of distinct addresses in increasing order,
with one for every word that has a loaded byte. -/
def ListsProgram (d : Dbg) (loaded : Word → Prop) : Prop :=
  ∃ (fuel : ℕ) (d' : Dbg) (addrs : List Word), printCode fuel d = some d' ∧
    d'.output = d.output ++ addrs.map (instrLine d.guest.memory) ∧
    addrs.Pairwise (· < ·) ∧ ∀ x, loaded x → x &&& ~~~3#32 ∈ addrs

/-- The listing is complete as far as the size of the file goes. -/
theorem listsProgram_of_lt {loaded : Word → Prop} (hsize : d.fileSize ≤ 2 ^ 32 - 4)
    (hin : ∀ x, loaded x → (x &&& ~~~3#32).toNat < d.fileSize) : ListsProgram d loaded := by
  have hfour : d.fileSize ≤ 4 * d.words ∧ 4 * d.words ≤ 2 ^ 32 := by
    rw [Dbg.words]
    omega
  refine ⟨d.words + 1, _, wordAddrs d.words, printCode_eq_some hsize, rfl,
    wordAddrs_pairwise hfour.2, ?_⟩
  intro x hx
  apply (mem_wordAddrs hfour.2).mpr
  exact ⟨align_mod_four x, (hin x hx).trans_le hfour.1⟩

/-- What is listed is below the size of the file, and the loop must have ended. -/
theorem lt_of_listsProgram {loaded : Word → Prop} (hlists : ListsProgram d loaded) :
    d.fileSize ≤ 2 ^ 32 - 4 ∧ ∀ x, loaded x → (x &&& ~~~3#32).toNat < d.fileSize := by
  obtain ⟨fuel, d', addrs, hprint, hout, -, hin⟩ := hlists
  have hsize : d.fileSize ≤ 2 ^ 32 - 4 := by
    by_contra hgt
    rw [printCode_eq_none (not_le.mp hgt)] at hprint
    cases hprint
  refine ⟨hsize, fun x hx => ?_⟩
  have haddrs : addrs = wordAddrs d.words := by
    obtain ⟨lines, hlines, rfl⟩ := Option.map_eq_some_iff.mp hprint
    obtain ⟨lines', hlines', heq⟩ := Option.map_eq_some_iff.mp (printCode_eq_some hsize)
    -- The lines are those of the complete listing, and a line names its address.
    rw [Run.run_unique hlines hlines', heq] at hout
    have hmap := List.append_cancel_left hout
    exact (List.map_injective_iff.mpr (instrLine_injective _) hmap).symm
  have hmem := haddrs ▸ hin x hx
  have hbound : 4 * d.words ≤ 2 ^ 32 := by
    rw [Dbg.words]
    omega
  obtain ⟨halign, hlt⟩ := (mem_wordAddrs hbound).mp hmem
  rw [Dbg.words] at hlt
  omega

end loop

namespace Loader

/-- `x` is one of the addresses the loader copies a byte of the file to. -/
def Opened.Loaded (o : Opened) (x : Word) : Prop :=
  match o.elf with
  | none => x.toNat < o.disk.content.length
  | some (e, tbl) => ∃ ph ∈ prgHeaders e tbl, ph.type = PT_LOAD ∧
      ∃ bytes, o.disk.pread ph.offset.toNat ph.filesz.toNat = some bytes ∧
        ph.vaddr.toNat ≤ x.toNat ∧ x.toNat < ph.vaddr.toNat + bytes.length

/-- Every word of a flat binary begins inside the file. -/
theorem align_lt_of_flat {o : Opened} {x : Word} (ho : o.elf = none) (hx : o.Loaded x) :
    (x &&& ~~~3#32).toNat < o.disk.content.length := by
  have hle : (x &&& ~~~3#32).toNat ≤ x.toNat := by
    rw [BitVec.toNat_and]
    exact Nat.and_le_left
  have hlt : x.toNat < o.disk.content.length := by
    rw [Opened.Loaded, ho] at hx
    exact hx
  exact hle.trans_lt hlt

def Global.debugger (g : Global) : Dbg where
  guest := g.state
  fileSize := g.fileSize
  log := g.mode.log
  breakpoints := []
  halted := false
  output := []
  stderr := []

/-- At any time in the debugger the `code` command lists the whole program exactly when the
file is at most 2^32 - 4 bytes long and every loaded word begins at an address below the
size of the file. -/
theorem listsProgram_iff (env : Env) (argv : Argv) (garbage g : Global) (o : Opened) (d : Dbg)
    (ho : binaryOrElf (env.files argv.path) = some o)
    (hrun : initGlobal env argv garbage = .returns g) (hd : d.fileSize = g.fileSize) :
    ListsProgram d o.Loaded ↔ o.disk.content.length ≤ 2 ^ 32 - 4 ∧
      ∀ x, o.Loaded x → (x &&& ~~~3#32).toNat < o.disk.content.length := by
  have hsize : d.fileSize = o.disk.content.length := by
    calc d.fileSize = g.fileSize := hd
      _ = o.disk.content.length := initGlobal_fileSize ho hrun
  rw [← hsize]
  constructor
  · exact lt_of_listsProgram
  · rintro ⟨hle, hin⟩
    exact listsProgram_of_lt hle hin

theorem listsProgram_words :
    let d := diskOf thirteenWords
    ∃ g, initGlobal (hostWith (.regular d true)) ⟨[], []⟩ blank = .returns g ∧
      ListsProgram g.debugger (Opened.mk d none).Loaded := by
  intro d
  have hdisk : d.Succeeds := diskOf_succeeds _
  have ho := binaryOrElf_flat hdisk (by decide) (by decide) not_isElf_words
  obtain ⟨g, hrun, -⟩ := loadsFlat_of_le (hostWith (.regular d true)) ⟨[], []⟩ rfl
    (hostWith_succeeds _ hdisk) (by decide) not_isElf_words (by decide) blank
  refine ⟨g, hrun, (listsProgram_iff _ _ _ g ⟨d, none⟩ g.debugger ho hrun rfl).mpr ?_⟩
  exact ⟨by decide, fun x hx => align_lt_of_flat rfl hx⟩

/-- A file of 156 bytes whose code goes to 0x1000. -/
theorem listsProgram_counterexample :
    ¬ ∀ (env : Env) (argv : Argv) (garbage g : Global) (o : Opened),
      binaryOrElf (env.files argv.path) = some o →
      initGlobal env argv garbage = .returns g → ListsProgram g.debugger o.Loaded := by
  intro hall
  let d := tinyElf [noteSegment, codeSegment, dataSegment]
  have hd : d.Succeeds := diskOf_succeeds d.content
  have hl := loadable_tiny
  have hopens := hd.opens hl.small hl.header
  let o : Opened := ⟨d, some (d.ehdr, d.table)⟩
  have ho : binaryOrElf (.regular d true) = some o :=
    binaryOrElf_elf hd.delivers hl.header hl.accepted hopens
  have haccepts : Accepts d d.rows := by
    rw [(hd.plain hl.entsize).rows_eq]
    exact accepts_phdrs hd hl
  have hinit := initGlobal_elf hd.delivers hl.header hl.accepted (hostWith (.regular d true))
    ⟨[], []⟩ rfl rfl hopens blank
  obtain ⟨g, hrun⟩ := hinit.1.mpr haccepts
  have hlists := hall (hostWith (.regular d true)) ⟨[], []⟩ blank g o ho hrun
  have hcode : codeSegment ∈ prgHeaders d.ehdr d.table := by decide +kernel
  have hbyte : (0x1000 : Word).toNat < codeSegment.vaddr.toNat +
      ((d.content.drop codeSegment.offset.toNat).take codeSegment.filesz.toNat).length := by
    decide +kernel
  have hlt := (lt_of_listsProgram hlists).2 0x1000
    ⟨codeSegment, hcode, rfl, _, hd.pread _ _, le_rfl, hbyte⟩
  have hsize : g.fileSize = o.disk.content.length := by
    apply initGlobal_fileSize _ hrun
    exact ho
  change (0x1000 &&& ~~~3#32 : Word).toNat < g.fileSize at hlt
  rw [hsize] at hlt
  exact absurd hlt (by decide +kernel)

end Loader

end MyMips
