import MyMips.Lib.Overlay
import MyMips.Lib.Bytes
import MyMips.Loader
import Mathlib.Tactic.Ring

namespace MyMips.Loader

/-- The host delivers what it is asked for, as far as the file goes. -/
structure Disk.Succeeds (d : Disk) : Prop where
  mmapFile : d.mmapFile = true
  mmapMemory : d.mmapMemory = true
  pread : ∀ off n, d.pread off n = some ((d.content.drop off).take n)

def Disk.ehdr (d : Disk) : Ehdr := Ehdr.parse (record d.content)

/-- The program headers of the file, `e_phentsize` bytes apart. -/
def Disk.phdrs (d : Disk) : List Phdr :=
  (List.range d.ehdr.phnum.toNat).map fun i => Phdr.parse fun k =>
    record d.content (d.ehdr.phoff.toNat + i * d.ehdr.phentsize.toNat + k)

def Disk.loads (d : Disk) : List Phdr := d.phdrs.filter fun ph => ph.type = PT_LOAD

/-- `x` is one of the addresses the segment takes from the file. -/
def Phdr.Backs (ph : Phdr) (x : Word) : Prop :=
  ph.vaddr.toNat ≤ x.toNat ∧ x.toNat < ph.vaddr.toNat + ph.filesz.toNat

instance (ph : Phdr) (x : Word) : Decidable (ph.Backs x) := inferInstanceAs (Decidable (_ ∧ _))

def Phdr.Disjoint (p q : Phdr) : Prop :=
  p.memsz.toNat = 0 ∨ q.memsz.toNat = 0 ∨ p.vaddr.toNat + p.memsz.toNat ≤ q.vaddr.toNat ∨
    q.vaddr.toNat + q.memsz.toNat ≤ p.vaddr.toNat

instance : DecidableRel Phdr.Disjoint := fun _ _ =>
  inferInstanceAs (Decidable (_ ∨ _ ∨ _ ∨ _))

/-- An accepted file whose tables and segments are where it says. -/
structure Loadable (d : Disk) : Prop where
  small : d.content.length < MEM_SIZE
  header : EHDR_SIZE ≤ d.content.length
  accepted : checkHeader d.ehdr = true
  entsize : d.ehdr.phentsize.toNat = PHDR_SIZE
  table : d.ehdr.phoff.toNat + d.ehdr.phnum.toNat * PHDR_SIZE ≤ d.content.length
  inFile : ∀ ph ∈ d.loads, ph.offset.toNat + ph.filesz.toNat ≤ d.content.length
  filesz_le : ∀ ph ∈ d.loads, ph.filesz.toNat ≤ ph.memsz.toNat
  inMemory : ∀ ph ∈ d.loads, ph.vaddr.toNat + ph.memsz.toNat ≤ MEM_SIZE
  disjoint : d.loads.Pairwise Phdr.Disjoint
  total : (d.loads.map fun ph => ph.memsz.toNat).sum < MEM_SIZE

def segment (d : Disk) (ph : Phdr) : Word → Option Byte := fun x =>
  if ph.Backs x then some (record d.content (ph.offset.toNat + (x.toNat - ph.vaddr.toNat)))
  else none

section segments
variable {d : Disk} {ph : Phdr} {x : Word}

theorem segment_of_backs (hx : ph.Backs x) : segment d ph x =
    some (record d.content (ph.offset.toNat + (x.toNat - ph.vaddr.toNat))) := if_pos hx

theorem segment_of_not_backs (hx : ¬ ph.Backs x) : segment d ph x = none := if_neg hx

theorem getProgramSize_eq (hs : List Phdr) : getProgramSize hs =
    ((hs.filter fun ph => ph.type = PT_LOAD).map fun ph => ph.memsz.toNat).sum := by
  have hloop (n : ℕ) : hs.foldl (fun size ph =>
      if ph.type = PT_LOAD then size + ph.memsz.toNat else size) n =
        n + ((hs.filter fun ph => ph.type = PT_LOAD).map fun ph => ph.memsz.toNat).sum := by
    induction hs generalizing n with
    | nil => rfl
    | cons ph hs ih =>
      by_cases ht : ph.type = PT_LOAD
      · simp [ht, ih, Nat.add_assoc]
      · simp [ht, ih]
  rw [getProgramSize, hloop, Nat.zero_add]

def fileSegment (d : Disk) (ph : Phdr) : Word → Option Byte := fun x =>
  if ph.Backs x then d.content[ph.offset.toNat + (x.toNat - ph.vaddr.toNat)]? else none

def delivered (d : Disk) (ph : Phdr) : Word → Option Byte := fun x =>
  if ph.vaddr.toNat ≤ x.toNat then
    ((d.pread ph.offset.toNat ph.filesz.toNat).getD [])[x.toNat - ph.vaddr.toNat]?
  else none

def layers (d : Disk) (hs : List Phdr) : List (Word → Option Byte) :=
  (hs.filter fun ph => ph.type = PT_LOAD).map (delivered d)

/-- One `pread` of the copy loop puts one layer on the memory. -/
theorem copyIn_delivered (m : Memory) {bytes : List Byte}
    (hread : d.pread ph.offset.toNat ph.filesz.toNat = some bytes) :
    copyIn m ph.vaddr.toNat bytes = Overlay.put m (delivered d ph) := by
  funext x
  rw [copyIn, Overlay.put, delivered, hread, Option.getD_some]
  split_ifs
  · rfl
  · rfl

/-- A host that delivers what it is asked for delivers a segment as far as the file goes. -/
theorem delivered_eq_fileSegment (hread : d.pread ph.offset.toNat ph.filesz.toNat =
    some ((d.content.drop ph.offset.toNat).take ph.filesz.toNat)) :
    delivered d ph = fileSegment d ph := by
  funext x
  rw [delivered, hread, Option.getD_some, fileSegment]
  by_cases hx : ph.Backs x
  · obtain ⟨hle, hlast⟩ := id hx
    have hk : x.toNat - ph.vaddr.toNat < ph.filesz.toNat := by omega
    rw [if_pos hx, if_pos hle, List.getElem?_take_of_lt hk, List.getElem?_drop]
  · rw [if_neg hx]
    split_ifs with hle
    · -- Behind the segment the byte asked for is not among those read.
      have hout : ph.filesz.toNat ≤ x.toNat - ph.vaddr.toNat := by
        by_contra hlt
        exact hx ⟨hle, by omega⟩
      exact List.getElem?_eq_none ((List.length_take_le _ _).trans hout)
    · rfl

theorem fileSegment_eq (hin : ph.offset.toNat + ph.filesz.toNat ≤ d.content.length) :
    fileSegment d ph = segment d ph := by
  funext x
  by_cases hx : ph.Backs x
  · obtain ⟨hle, hlast⟩ := id hx
    have hlt : ph.offset.toNat + (x.toNat - ph.vaddr.toNat) < d.content.length := by omega
    rw [fileSegment, if_pos hx, segment_of_backs hx, record, List.getD_eq_getElem?_getD,
      List.getElem?_eq_getElem hlt]
    rfl
  · rw [fileSegment, if_neg hx, segment_of_not_backs hx]

def Copies (d : Disk) (ph : Phdr) : Prop :=
  ph.vaddr.toNat + ph.filesz.toNat ≤ MEM_SIZE ∧ (d.pread ph.offset.toNat ph.filesz.toNat).isSome

instance : Decidable (Copies d ph) := inferInstanceAs (Decidable (_ ∧ _))

theorem copySegments_skip {hs : List Phdr} (ht : ph.type ≠ PT_LOAD) (m : Memory) :
    copySegments d (ph :: hs) m = copySegments d hs m := by
  rw [copySegments, if_pos ht]

theorem copySegments_load {hs : List Phdr} (ht : ph.type = PT_LOAD) (hph : Copies d ph)
    (m : Memory) :
    copySegments d (ph :: hs) m = copySegments d hs (Overlay.put m (delivered d ph)) := by
  obtain ⟨hbound, hsome⟩ := hph
  obtain ⟨bytes, hread⟩ := Option.isSome_iff_exists.mp hsome
  simp only [copySegments, ht, ne_eq, not_true_eq_false, if_false, if_neg (not_lt.mpr hbound),
    hread, copyIn_delivered m hread]

theorem copySegments_stop {hs : List Phdr} (ht : ph.type = PT_LOAD) (hph : ¬ Copies d ph)
    (m : Memory) : copySegments d (ph :: hs) m = none := by
  by_cases hbound : MEM_SIZE < ph.vaddr.toNat + ph.filesz.toNat
  · simp only [copySegments, ht, ne_eq, not_true_eq_false, if_false, if_pos hbound]
  · cases hread : d.pread ph.offset.toNat ph.filesz.toNat with
    | none => simp only [copySegments, ht, ne_eq, not_true_eq_false, if_false, if_neg hbound, hread]
    | some bytes => exact absurd ⟨not_lt.mp hbound, by rw [hread]; rfl⟩ hph

/-- The loop succeeds when every `PT_LOAD` row is copied, and has then put them over the
memory in the order of the table. -/
theorem copySegments_eq_some {hs : List Phdr} {m m' : Memory} :
    copySegments d hs m = some m' ↔
      (∀ ph ∈ hs, ph.type = PT_LOAD → Copies d ph) ∧ m' = Overlay.paint m (layers d hs) := by
  induction hs generalizing m with
  | nil =>
    rw [copySegments, Option.some.injEq]
    constructor
    · rintro rfl
      exact ⟨fun ph hph => absurd hph List.not_mem_nil, rfl⟩
    · rintro ⟨-, rfl⟩
      rfl
  | cons ph hs ih =>
    rw [List.forall_mem_cons]
    by_cases ht : ph.type = PT_LOAD
    · by_cases hph : Copies d ph
      · have hlayers : layers d (ph :: hs) = delivered d ph :: layers d hs := by
          simp [layers, ht]
        rw [copySegments_load ht hph, ih, hlayers]
        exact and_congr_left' (iff_and_self.mpr fun _ _ => hph)
      · rw [copySegments_stop ht hph]
        constructor
        · intro hm
          cases hm
        · rintro ⟨⟨hcopies, -⟩, -⟩
          exact absurd (hcopies ht) hph
    · have hlayers : layers d (ph :: hs) = layers d hs := by
        simp [layers, ht]
      rw [copySegments_skip ht, ih, hlayers]
      exact and_congr_left' (iff_and_self.mpr fun _ hload => absurd hload ht)

/-- What `map_elf` compares on the rows of its table before it reports success. -/
structure Accepts (d : Disk) (hs : List Phdr) : Prop where
  size : getProgramSize hs < MEM_SIZE
  mmapMemory : d.mmapMemory = true
  segments : ∀ ph ∈ hs, ph.type = PT_LOAD → Copies d ph

theorem mapElf_eq_some {e : Ehdr} {tbl : Record} {img : Image} : mapElf d e tbl = some img ↔
    Accepts d (prgHeaders e tbl) ∧
      img = ⟨Overlay.paint (fun _ => 0) (layers d (prgHeaders e tbl)), e.entry,
        getProgramSize (prgHeaders e tbl)⟩ := by
  constructor
  · intro himg
    simp only [mapElf] at himg
    split_ifs at himg with hsize hmap
    cases hloop : copySegments d (prgHeaders e tbl) fun _ => 0 with
    | none =>
      rw [hloop] at himg
      cases himg
    | some m =>
      rw [hloop] at himg
      cases himg
      obtain ⟨hall, rfl⟩ := copySegments_eq_some.mp hloop
      exact ⟨⟨not_le.mp hsize, by simpa using hmap, hall⟩, rfl⟩
  · rintro ⟨ha, rfl⟩
    have hloop : copySegments d (prgHeaders e tbl) (fun _ => 0) =
        some (Overlay.paint (fun _ => 0) (layers d (prgHeaders e tbl))) :=
      copySegments_eq_some.mpr ⟨ha.segments, rfl⟩
    simp only [mapElf, if_neg (not_le.mpr ha.size), ha.mmapMemory, Bool.not_true,
      Bool.false_eq_true, if_false, hloop]

/-- Disjoint address ranges are disjoint layers. -/
theorem segment_apart {p q : Phdr} (h : p.Disjoint q) (hp : p.filesz.toNat ≤ p.memsz.toNat)
    (hq : q.filesz.toNat ≤ q.memsz.toNat) : Overlay.Apart (segment d p) (segment d q) := by
  intro x
  by_contra hboth
  have hpx : p.Backs x := by
    by_contra hn
    exact hboth (.inl (segment_of_not_backs hn))
  have hqx : q.Backs x := by
    by_contra hn
    exact hboth (.inr (segment_of_not_backs hn))
  obtain ⟨hp1, hp2⟩ := hpx
  obtain ⟨hq1, hq2⟩ := hqx
  unfold Phdr.Disjoint at h
  omega

end segments

section loadable
variable {d : Disk} (hd : d.Succeeds) (hl : Loadable d)

theorem record_take {k n : ℕ} (off : ℕ) (hk : k < n) :
    record ((d.content.drop off).take n) k = record d.content (off + k) := by
  simp only [record, List.getD_eq_getElem?_getD, List.getElem?_take_of_lt hk, List.getElem?_drop]

theorem length_header (hheader : EHDR_SIZE ≤ d.content.length) :
    ((d.content.drop 0).take EHDR_SIZE).length = EHDR_SIZE := by
  rw [List.drop_zero, List.length_take]
  exact min_eq_left hheader

/-- The header that is read is the header of the file. -/
theorem parse_header : Ehdr.parse (record ((d.content.drop 0).take EHDR_SIZE)) = d.ehdr := by
  apply Ehdr.parse_congr
  intro k hk
  rw [record_take 0 hk, Nat.zero_add]

/-- The table that is read holds the program headers of the file, if its entries have the
size of the structure. -/
theorem prgHeaders_table (hent : d.ehdr.phentsize.toNat = PHDR_SIZE) :
    let size := d.ehdr.phnum.toNat * d.ehdr.phentsize.toNat
    prgHeaders d.ehdr (prgTable d size ((d.content.drop d.ehdr.phoff.toNat).take size)) =
      d.phdrs := by
  intro size
  apply List.map_congr_left
  intro i hi
  have hlt := List.mem_range.mp hi
  apply Phdr.parse_congr
  intro k hk
  have hin : PHDR_SIZE * i + k < size := by
    have hrow : (i + 1) * PHDR_SIZE ≤ d.ehdr.phnum.toNat * PHDR_SIZE :=
      Nat.mul_le_mul_right _ hlt
    simp only [size, hent]
    calc PHDR_SIZE * i + k < PHDR_SIZE * i + PHDR_SIZE := by omega
      _ = (i + 1) * PHDR_SIZE := by ring
      _ ≤ _ := hrow
  rw [prgTable, if_pos hin, record_take _ hin, hent]
  congr 1
  ring

theorem Ehdr.tableCount_of_entsize {e : Ehdr} (hent : e.phentsize.toNat = PHDR_SIZE) :
    e.tableCount = e.phnum.toNat * e.phentsize.toNat := by
  apply Ehdr.tableCount_eq
  have hnum := e.phnum.isLt
  rw [hent, PHDR_SIZE]
  omega

def Disk.image (d : Disk) : Image where
  memory := Overlay.paint (fun _ => 0) (d.loads.map (segment d))
  pc := d.ehdr.entry
  codeSize := (d.loads.map fun ph => ph.memsz.toNat).sum

include hd hl in
theorem accepts_phdrs : Accepts d d.phdrs := by
  refine ⟨?_, hd.mmapMemory, ?_⟩
  · rw [getProgramSize_eq]
    exact hl.total
  · intro ph hph ht
    have hload : ph ∈ d.loads := List.mem_filter.mpr ⟨hph, by simp [ht]⟩
    -- The loop compares `vaddr + filesz`, and `filesz` is at most `memsz`.
    have hfile := hl.filesz_le ph hload
    have hmem := hl.inMemory ph hload
    exact ⟨by omega, by rw [hd.pread]; rfl⟩

include hd hl in
theorem loadElf_eq : loadElf (.regular d true) = some d.image := by
  have hsmall : ¬ MEM_SIZE ≤ d.content.length := not_le.mpr hl.small
  have hlen := length_header hl.header
  have hlayers : layers d d.phdrs = d.loads.map (segment d) := by
    apply List.map_congr_left
    intro ph hph
    rw [delivered_eq_fileSegment (hd.pread _ _), fileSegment_eq (hl.inFile ph hph)]
  have htable := prgHeaders_table hl.entsize
  simp only at htable
  have himg : mapElf d d.ehdr (prgTable d (d.ehdr.phnum.toNat * d.ehdr.phentsize.toNat)
      ((d.content.drop d.ehdr.phoff.toNat).take
        (d.ehdr.phnum.toNat * d.ehdr.phentsize.toNat))) = some d.image := by
    apply mapElf_eq_some.mpr
    rw [htable, hlayers, getProgramSize_eq]
    exact ⟨accepts_phdrs hd hl, rfl⟩
  simp only [loadElf, binaryOrElf, openFile, if_neg hsmall, if_true, hd.mmapFile, Bool.not_true,
    Bool.false_eq_true, if_false, hd.pread, hlen, ne_eq, not_true_eq_false, parse_header,
    hl.accepted, Ehdr.tableCount_of_entsize hl.entsize, himg]

include hl in
theorem apart_segments : (d.loads.map (segment d)).Pairwise Overlay.Apart := by
  rw [List.pairwise_map]
  apply hl.disjoint.imp_of_mem
  intro p q hp hq hpq
  exact segment_apart hpq (hl.filesz_le p hp) (hl.filesz_le q hq)

end loadable

/-- Two files with the same entry point, the same segments in some order and the same
bytes in them. -/
structure SameSegments (d d' : Disk) : Prop where
  entry : d'.ehdr.entry = d.ehdr.entry
  loads : d'.loads.Perm d.loads
  bytes : ∀ ph ∈ d.loads, ∀ k < ph.filesz.toNat,
    record d'.content (ph.offset.toNat + k) = record d.content (ph.offset.toNat + k)

theorem SameSegments.image_eq {d d' : Disk} (h : SameSegments d d') (hl : Loadable d') :
    d'.image = d.image := by
  have hsegment : d.loads.map (segment d') = d.loads.map (segment d) := by
    apply List.map_congr_left
    intro ph hph
    funext x
    by_cases hx : ph.Backs x
    · have hk : x.toNat - ph.vaddr.toNat < ph.filesz.toNat := by
        obtain ⟨hle, hlast⟩ := hx
        omega
      rw [segment_of_backs hx, segment_of_backs hx, h.bytes ph hph _ hk]
    · rw [segment_of_not_backs hx, segment_of_not_backs hx]
  have hmemory : Overlay.paint (fun _ => 0) (d'.loads.map (segment d')) =
      Overlay.paint (fun _ => 0) (d.loads.map (segment d)) := by
    rw [← hsegment]
    exact Overlay.paint_perm (h.loads.map _) (apart_segments hl)
  have hsize := (h.loads.map fun ph => ph.memsz.toNat).sum_nat
  simp only [Disk.image, hmemory, hsize, h.entry]

/-- A loadable file is loaded: its entry point is `pc`, each segment holds its bytes
of the file, every other byte is zero, and another file with the same segments, in
whatever order and among whatever other headers, gives the same image. -/
theorem elf_image (d : Disk) (hd : d.Succeeds) (hl : Loadable d) :
    ∃ img, loadElf (.regular d true) = some img ∧ img.pc = d.ehdr.entry ∧
      (∀ ph ∈ d.loads, ∀ x, ph.Backs x → img.memory x =
        record d.content (ph.offset.toNat + (x.toNat - ph.vaddr.toNat))) ∧
      (∀ x, (∀ ph ∈ d.loads, ¬ ph.Backs x) → img.memory x = 0) ∧
      ∀ d' : Disk, d'.Succeeds → Loadable d' → SameSegments d d' →
        loadElf (.regular d' true) = some img := by
  refine ⟨d.image, loadElf_eq hd hl, rfl, ?_, ?_, ?_⟩
  · intro ph hph x hx
    exact Overlay.paint_of_mem (apart_segments hl) (List.mem_map_of_mem hph)
      (segment_of_backs hx)
  · intro x hx
    apply Overlay.paint_of_none
    intro f hf
    obtain ⟨ph, hph, rfl⟩ := List.mem_map.mp hf
    exact segment_of_not_backs (hx ph hph)
  · intro d' hd' hl' hsame
    rw [loadElf_eq hd' hl', hsame.image_eq hl']

def diskOf (content : List Byte) : Disk where
  content := content
  pread := fun off n => some ((content.drop off).take n)
  mmapFile := true
  mmapMemory := true
  heap := fun _ => 0

theorem diskOf_succeeds (content : List Byte) : (diskOf content).Succeeds :=
  ⟨rfl, rfl, fun _ _ => rfl⟩

def Phdr.bytes (ph : Phdr) : List Byte :=
  [ph.type, ph.offset, ph.vaddr, 0, ph.filesz, ph.memsz, 0, 0].flatMap Bytes.le32

/-- An executable with entry point 0x1000 and three program headers, followed by
eight bytes. -/
def tinyElf (phdrs : List Phdr) : Disk := diskOf <|
  [0x7F, 0x45, 0x4C, 0x46, 1, 1, 1, 0] ++ List.replicate 8 0 ++ [2, 0, 8, 0] ++
    [1#32, 0x1000#32, 0x34#32].flatMap Bytes.le32 ++ List.replicate 10 0 ++ [32, 0, 3, 0] ++
    List.replicate 6 0 ++ phdrs.flatMap Phdr.bytes ++ [1, 2, 3, 4, 5, 6, 7, 8]

def codeSegment : Phdr := ⟨PT_LOAD, 148, 0x1000, 4, 8⟩
def dataSegment : Phdr := ⟨PT_LOAD, 152, 0, 4, 4⟩
def noteSegment : Phdr := ⟨4, 0, 0, 0x20, 0x20⟩

theorem loadable_tiny : Loadable (tinyElf [noteSegment, codeSegment, dataSegment]) := by
  constructor <;> decide +kernel

/-- Code, data and a note in two orders. -/
theorem elf_image_tiny : ∃ img,
    loadElf (.regular (tinyElf [noteSegment, codeSegment, dataSegment]) true) = some img ∧
      img.pc = 0x1000 ∧ img.memory 0x1003 = 4 ∧ img.memory 0x1004 = 0 ∧
      loadElf (.regular (tinyElf [dataSegment, noteSegment, codeSegment]) true) = some img := by
  have hsucc (phdrs : List Phdr) : (tinyElf phdrs).Succeeds := diskOf_succeeds _
  have hload' : Loadable (tinyElf [dataSegment, noteSegment, codeSegment]) := by
    constructor <;> decide +kernel
  have hsame : SameSegments (tinyElf [noteSegment, codeSegment, dataSegment])
      (tinyElf [dataSegment, noteSegment, codeSegment]) := by
    constructor <;> decide +kernel
  obtain ⟨img, himg, hpc, hbytes, hzero, horder⟩ := elf_image _ (hsucc _) loadable_tiny
  refine ⟨img, himg, ?_, ?_, ?_, horder _ (hsucc _) hload' hsame⟩
  · rw [hpc]
    decide +kernel
  · rw [hbytes codeSegment (by decide +kernel) 0x1003 (by decide)]
    decide +kernel
  · exact hzero 0x1004 (by decide +kernel)

end MyMips.Loader
