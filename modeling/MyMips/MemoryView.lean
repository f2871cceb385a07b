import MyMips.Dbg
import MyMips.Unaligned

namespace MyMips

section lines

theorem length_hex08 (v : Word) : (hex08 v).length = 10 := by
  have hpad : (Text.hexPad 8 v.toNat).length = 8 := Text.length_hexPad (by decide) v.isLt
  simp only [hex08, List.length_cons, hpad]

theorem hex08_injective : Function.Injective hex08 := by
  intro v u hvu
  obtain ⟨-, hprefix⟩ := List.cons.inj hvu
  obtain ⟨-, hpad⟩ := List.cons.inj hprefix
  exact BitVec.eq_of_toNat_eq (Text.hexPad_injective (by decide) v.isLt u.isLt hpad)

def memoryLine (a w : Word) : Line := hex08 a ++ ": ".toList ++ hex08 w

def wordLine (a w : Word) : Line :=
  hex08 a ++ ": ".toList ++ hex08 w ++ ": ".toList ++ Disasm.disassemble w 64

theorem instrLine_eq (m : Memory) (a : Word) : instrLine m a = wordLine a (wordAt m a) := rfl

theorem memoryLine_injective (a : Word) : Function.Injective (memoryLine a) := by
  intro v u hvu
  exact hex08_injective (List.append_cancel_left hvu)

/-- A line of a word begins with its address, and goes on with the word. -/
theorem wordLine_inj {a b v u : Word} (heq : wordLine a v = wordLine b u) : a = b ∧ v = u := by
  have hlen (x y : Word) : (hex08 x).length = (hex08 y).length := by
    rw [length_hex08, length_hex08]
  simp only [wordLine, List.append_assoc] at heq
  obtain ⟨haddr, hrest⟩ := List.append_inj heq (hlen a b)
  obtain ⟨hword, -⟩ := List.append_inj (List.append_cancel_left hrest) (hlen v u)
  exact ⟨hex08_injective haddr, hex08_injective hword⟩

end lines

section readers
variable {m : Memory} {a : Word}

theorem wordAt_eq (m : Memory) (a : Word) : wordAt m a = Bytes.load32 m (a &&& ~~~3#32) := by
  rw [wordAt, Bytes.load32, BitVec.add_zero]
  rfl

theorem wordAt_of_aligned (ha : a.toNat % 4 = 0) : wordAt m a = Bytes.load32 m a := by
  have halign := align_add a
  rw [ha, BitVec.add_zero] at halign
  rw [wordAt_eq, halign]

def probe (a : Word) : Memory := fun x => if x = a &&& ~~~3#32 then 1 else 0

/-- Off the alignment the lowest byte `word_at` shows is not the one at `a`. -/
theorem wordAt_probe (ha : a.toNat % 4 ≠ 0) : wordAt (probe a) a ≠ Bytes.load32 (probe a) a := by
  intro heq
  have hne : a ≠ a &&& ~~~3#32 := by
    intro hself
    apply ha
    rw [hself]
    exact align_mod_four a
  have hlow := congrArg (Bytes.byte · 0) heq
  simp only [wordAt_eq, Bytes.byte_load32 _ _ (show 0 < 4 by decide), BitVec.add_zero, probe,
    if_true, if_neg hne] at hlow
  exact absurd hlow (by decide)

theorem toNat_add_four_mul (a : Word) (k : ℕ) :
    (a + BitVec.ofNat 32 (4 * k)).toNat % 4 = a.toNat % 4 := by
  rw [BitVec.toNat_add, BitVec.toNat_ofNat]
  omega

end readers

/-- The instruction stores `bs` from address `a` on, away from the device registers. -/
inductive Stores (i : Word) (s : State) : Word → List Byte → Prop
  | whole : isStore i = true → GPU_FLUSH ∉ wordAccesses i s →
      Stores i s (memAddr i s) (storeBytes i s)
  | left : opcode i = some .SWL → PlainWord (memAddr i s) → Stores i s
      (memAddr i s &&& ~~~3#32) ((Bytes.le32 (s.reg (rt i))).drop (3 - (memAddr i s).toNat % 4))
  | right : opcode i = some .SWR → PlainWord (memAddr i s) → Stores i s
      (memAddr i s) ((Bytes.le32 (s.reg (rt i))).take (4 - (memAddr i s).toNat % 4))

/-- Stores of any kind one after the other, with anything in between that leaves memory
alone. The log has the address and the bytes of each, the latest store first. -/
inductive GuestStores (h : Host) (s : State) : List (Word × List Byte) → State → Prop
  | start {t : State} : t.memory = s.memory → GuestStores h s [] t
  | store {log : List (Word × List Byte)} {t u : State} {i a : Word} {bs : List Byte} :
      GuestStores h s log t → Stores i t a bs → u.memory = (execInst h i t).2.memory →
      GuestStores h s ((a, bs) :: log) u

section stores
variable {h : Host} {s t : State} {i a : Word} {bs : List Byte} {log : List (Word × List Byte)}

theorem Stores.memory_eq (hstore : Stores i s a bs) :
    (execInst h i s).2.memory = Bytes.write s.memory a bs := by
  cases hstore with
  | whole hi hdev => exact execInst_store_memory h hi hdev
  | left ho ha =>
    have hwrite := Bytes.storeLeft_eq_write (m := s.memory) (s.reg (rt i)) (by decide)
      (align_mod (memAddr i s))
    rw [align_add] at hwrite
    rw [execInst_swl h ho ha, retire_snd, State.setReg_memory]
    exact hwrite
  | right ho ha =>
    rw [execInst_swr h ho ha, retire_snd, State.setReg_memory]
    exact Bytes.storeRight_eq_write _ _

/-- After the stores every byte of memory is the one most recently stored there. -/
theorem GuestStores.memory_eq (hrun : GuestStores h s log t) :
    t.memory = Bytes.recent log s.memory := by
  induction hrun with
  | start ht => exact ht
  | store _ hstore hu ih => rw [hu, hstore.memory_eq, ih, Bytes.recent_cons]

end stores

/-- The `k`-th line of `memory a n` has the word an LW from its address returns. -/
def ShowsLoads (a : Word) (n : ℕ) : Prop :=
  ∀ (h : Host) (d : Dbg), ∀ k < n,
    let b := a + BitVec.ofNat 32 (4 * k)
    b ≠ GPU_INPUT → (dumpMemory a n d).output[d.output.length + k]? =
      some (memoryLine b (loadWord h b d.guest).1)

/-- After any stores `memory a n` shows what has been stored. -/
def ShowsStores (a : Word) (n : ℕ) : Prop :=
  ∀ h s log d, GuestStores h s log d.guest →
    (dumpMemory a n d).output = d.output ++ (List.range n).map fun k =>
      let b := a + BitVec.ofNat 32 (4 * k)
      memoryLine b (Bytes.load32 (Bytes.recent log s.memory) b)

/-- `print a` shows the word an LW returns, and after any stores what has been stored. -/
def PrintsWord (a : Word) : Prop :=
  (∀ (h : Host) (d : Dbg), a ≠ GPU_INPUT →
    (printWord a d).output = d.output ++ [wordLine a (loadWord h a d.guest).1]) ∧
  ∀ h s log d, GuestStores h s log d.guest →
    (printWord a d).output = d.output ++ [wordLine a (Bytes.load32 (Bytes.recent log s.memory) a)]

section commands
variable {a : Word} {n k : ℕ} {d : Dbg}

theorem dumpMemory_output (a : Word) (n : ℕ) (d : Dbg) : (dumpMemory a n d).output =
    d.output ++ (List.range n).map fun k =>
      let b := a + BitVec.ofNat 32 (4 * k)
      memoryLine b (wordAt d.guest.memory b) := rfl

theorem printWord_output (a : Word) (d : Dbg) :
    (printWord a d).output = d.output ++ [wordLine a (wordAt d.guest.memory a)] := rfl

theorem dumpMemory_getElem? (hk : k < n) :
    let b := a + BitVec.ofNat 32 (4 * k)
    (dumpMemory a n d).output[d.output.length + k]? =
      some (memoryLine b (wordAt d.guest.memory b)) := by
  intro b
  rw [dumpMemory_output, List.getElem?_append_right (Nat.le_add_right _ _), Nat.add_sub_cancel_left,
    List.getElem?_map, List.getElem?_range hk]
  rfl

def viewer (m : Memory) : Dbg where
  guest := resetState m 0
  fileSize := 0
  log := false
  breakpoints := []
  halted := false
  output := []
  stderr := []

theorem showsLoads_of_aligned (ha : a.toNat % 4 = 0) : ShowsLoads a n := by
  intro h d k hk b hb
  have hb4 : b.toNat % 4 = 0 := by
    calc b.toNat % 4 = a.toNat % 4 := toNat_add_four_mul a k
      _ = 0 := ha
  rw [dumpMemory_getElem? hk, wordAt_of_aligned hb4, loadWord_eq h b d.guest hb]

theorem showsStores_of_aligned (ha : a.toNat % 4 = 0) : ShowsStores a n := by
  intro h s log d hrun
  rw [dumpMemory_output]
  apply congrArg (d.output ++ ·)
  apply List.map_congr_left
  intro k _
  have hb4 := (toNat_add_four_mul a k).trans ha
  simp only [wordAt_of_aligned hb4, hrun.memory_eq]

theorem printsWord_of_aligned (ha : a.toNat % 4 = 0) : PrintsWord a := by
  constructor
  · intro h d hdev
    rw [printWord_output, wordAt_of_aligned ha, loadWord_eq h a d.guest hdev]
  · intro h s log d hrun
    rw [printWord_output, wordAt_of_aligned ha, hrun.memory_eq]

/-- The first line of a dump off the alignment has the word of another address. -/
theorem not_showsLoads (ha : a.toNat % 4 ≠ 0) (hn : n ≠ 0) : ¬ ShowsLoads a n := by
  intro hshows
  have hdev : a ≠ GPU_INPUT := by
    rintro rfl
    exact ha (by decide)
  have hline := hshows nullHost (viewer (probe a)) 0 (Nat.pos_of_ne_zero hn)
  rw [dumpMemory_getElem? (Nat.pos_of_ne_zero hn)] at hline
  simp only [Nat.mul_zero, BitVec.add_zero] at hline
  have hword := memoryLine_injective a (Option.some.inj (hline hdev))
  rw [loadWord_eq nullHost a _ hdev] at hword
  exact wordAt_probe ha hword

theorem not_showsStores (ha : a.toNat % 4 ≠ 0) (hn : n ≠ 0) : ¬ ShowsStores a n := by
  intro hshows
  have hlines := hshows nullHost _ [] (viewer (probe a)) (.start rfl)
  have hline := dumpMemory_getElem? (a := a) (d := viewer (probe a)) (Nat.pos_of_ne_zero hn)
  rw [hlines, List.getElem?_append_right (Nat.le_add_right _ _), Nat.add_sub_cancel_left,
    List.getElem?_map, List.getElem?_range (Nat.pos_of_ne_zero hn)] at hline
  simp only [Nat.mul_zero, BitVec.add_zero, Option.map_some] at hline
  exact wordAt_probe ha (memoryLine_injective a (Option.some.inj hline)).symm

theorem not_printsWord (ha : a.toNat % 4 ≠ 0) : ¬ PrintsWord a := by
  rintro ⟨-, hstores⟩
  have hline := hstores nullHost _ [] (viewer (probe a)) (.start rfl)
  rw [printWord_output] at hline
  have hword := List.singleton_inj.mp (List.append_cancel_left hline)
  exact wordAt_probe ha (wordLine_inj hword).2

end commands

/-- The debugger's view of memory agrees with the program's at the aligned addresses and
at no others. -/
theorem memoryView_iff (a : Word) (n : ℕ) :
    (ShowsLoads a n ↔ n = 0 ∨ a.toNat % 4 = 0) ∧
      (ShowsStores a n ↔ n = 0 ∨ a.toNat % 4 = 0) ∧ (PrintsWord a ↔ a.toNat % 4 = 0) := by
  refine ⟨⟨?_, ?_⟩, ⟨?_, ?_⟩, ?_, printsWord_of_aligned⟩
  · intro hshows
    by_contra hno
    obtain ⟨hn, ha⟩ := not_or.mp hno
    exact not_showsLoads ha hn hshows
  · rintro (rfl | ha)
    · exact fun h d k hk => absurd hk (Nat.not_lt_zero k)
    · exact showsLoads_of_aligned ha
  · intro hshows
    by_contra hno
    obtain ⟨hn, ha⟩ := not_or.mp hno
    exact not_showsStores ha hn hshows
  · rintro (rfl | ha)
    · intro h s log d _
      rw [dumpMemory_output, List.range_zero]
      rfl
    · exact showsStores_of_aligned ha
  · intro hprints
    by_contra ha
    exact not_printsWord ha hprints

/-- With a one stored at address 0, `memory 1` shows it as the word at address 1. -/
theorem memoryView_counterexample :
    ¬ ∀ (a : Word) (n : ℕ), ShowsLoads a n ∧ ShowsStores a n ∧ PrintsWord a := by
  intro hall
  obtain ⟨hloads, -, -⟩ := hall 1 1
  exact not_showsLoads (by decide) (by decide) hloads

end MyMips
