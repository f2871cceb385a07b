import MyMips.Footprint
import MyMips.NativeRun
import MyMips.Unaligned

/-! The pending key of the SDL build. A word load of the input register takes it away;
the load is hidden in every instruction that reads a word, the partial stores included. -/
namespace MyMips

def keyOf : SdlEvent → Option Word
  | .quit => some 0x71#32
  | .keydown sym => some (sym &&& 0xFF#32)
  | .other => none

def lastKeyOf (events : List SdlEvent) : Option Word := (events.filterMap keyOf).getLast?

def polled (h : Host) (s : State) : List SdlEvent :=
  let s := s.record .gpuFlush
  if s.ready || gpuInit (h.sdlInit s.events) then
    h.sdlPoll (Event.gpuFrame (framePixels s.memory) :: s.events)
  else []

section device
variable (h : Host) (a v : Word) (s : State)

theorem pumpEvents_eq (k : Word) (events : List SdlEvent) :
    pumpEvents k events = (lastKeyOf events).getD k := by
  induction events using List.reverseRecOn with
  | nil => rfl
  | append_singleton events e ih =>
    have hsnoc : pumpEvents k (events ++ [e]) = (keyOf e).getD (pumpEvents k events) := by
      rw [pumpEvents, List.foldl_append]
      cases e <;> rfl
    rw [hsnoc, ih, lastKeyOf, lastKeyOf, List.filterMap_append]
    cases hkey : keyOf e with
    | none => simp [hkey]
    | some k' => simp [hkey]

theorem gpuFlush_lastKey :
    (gpuFlush h s).lastKey = (lastKeyOf (polled h s)).getD s.lastKey := by
  unfold gpuFlush polled
  dsimp only
  split
  · rw [pumpEvents_eq]
    rfl
  · rfl

theorem keyOf_lt {e : SdlEvent} {k : Word} (h : keyOf e = some k) : k.toNat < 256 := by
  cases e with
  | quit =>
    obtain rfl := Option.some.inj h
    decide
  | keydown sym =>
    obtain rfl := Option.some.inj h
    rw [BitVec.toNat_and]
    exact Nat.lt_of_le_of_lt Nat.and_le_right (by decide)
  | other => simp [keyOf] at h

theorem lastKeyOf_lt {events : List SdlEvent} {k : Word} (h : lastKeyOf events = some k) :
    k.toNat < 256 := by
  obtain ⟨e, _, hkey⟩ := List.mem_filterMap.mp (List.mem_of_getLast? h)
  exact keyOf_lt hkey

variable {h} (hsdl : h.haveSdl = true)
include hsdl

theorem loadWord_input :
    loadWord h GPU_INPUT s = (s.lastKey, { s with lastKey := 0 }.record .gpuInput) := by
  rw [loadWord, deviceLoadWord, if_pos rfl, if_pos hsdl]

theorem loadWord_lastKey :
    (loadWord h a s).2.lastKey = if a = GPU_INPUT then 0 else s.lastKey := by
  split_ifs with ha
  · rw [ha, loadWord_input s hsdl]
    rfl
  · rw [loadWord_eq h a s ha]

theorem storeWord_lastKey : (storeWord h a v s).lastKey =
    if a = GPU_FLUSH then (lastKeyOf (polled h s)).getD s.lastKey else s.lastKey := by
  split_ifs with ha
  · rw [← gpuFlush_lastKey]
    simp only [storeWord, deviceStoreWord, if_pos ha, if_pos hsdl]
  · rw [storeWord_eq h a v s ha]

end device

def loadedWords (i : Word) (s : State) : List Word :=
  match opcode i with
  | some .LW | some .LWC1 => [memAddr i s]
  | some .LDC1 => [memAddr i s, memAddr i s + 4]
  | some .LWL | some .LWR | some .SWL | some .SWR => [memAddr i s &&& ~~~3#32]
  | _ => []

def storedWords (i : Word) (s : State) : List Word :=
  match opcode i with
  | some .SW | some .SWC1 => [memAddr i s]
  | some .SDC1 => [memAddr i s, memAddr i s + 4]
  | some .SWL | some .SWR => [memAddr i s &&& ~~~3#32]
  | _ => []

/-- The state in which an instruction that stores to the flush register does so: the
second word of SDC1 is stored after the first. -/
def flushing (h : Host) (i : Word) (s : State) : State :=
  if opcode i = some .SDC1 ∧ memAddr i s ≠ GPU_FLUSH then
    storeWord h (memAddr i s) (s.getFpr (ft i)) s
  else s

section instructions
variable {h : Host} {i : Word} {s : State}

theorem execInst_lastKey_of_other (h0 : s.reg R0 = 0) (hl : loadedWords i s = [])
    (hs : storedWords i s = []) : (execInst h i s).2.lastKey = s.lastKey := by
  apply execInst_rule h (P := fun r => r.2.lastKey = s.lastKey)
  case hnop => exact fun _ => rfl
  case hsyscall =>
    intro _ _
    obtain ⟨v, m, e, he⟩ := callSyscall_frame h s
    simp only [he]
  case hbreak => exact fun _ _ => rfl
  case hregister =>
    intro _ _ _
    obtain ⟨reg, hi, lo, p, t, he⟩ := execRegister_frame i s
    simp only [he]
  case hspecial2 =>
    intro _
    obtain ⟨reg, hi, lo, he⟩ := execSpecial2_frame i s
    simp only [he]
  case hcop1 =>
    intro _
    obtain ⟨reg, f, c, p, t, he⟩ := execCop1_frame h.fp i s
    simp only [he]
  case hldst =>
    intro ho
    exfalso
    rcases ho with ho | ho | ho | ho
    · simp [loadedWords, ho] at hl
    · simp [loadedWords, ho] at hl
    · simp [storedWords, ho] at hs
    · simp [storedWords, ho] at hs
  case hjump =>
    intro _
    obtain ⟨reg, p, t, he⟩ := execJump_frame i s
    simp only [he]
  case himm =>
    intro _
    -- Of the immediates only the word accesses are left out by the two lists.
    have hdevice : (footprint i s).device = false := by
      simp only [footprint, reachesDevice]
      cases ho : opcode i with
      | none => rfl
      | some o =>
        cases o with
        | LW | LWL | LWR => simp [loadedWords, ho] at hl
        | SW | SWL | SWR => simp [storedWords, ho] at hs
        | _ => rfl
    exact ((execImmediate_footprint h h0).device hdevice).2.1

theorem add_four_ne (a : Word) : a + 4 ≠ a := by
  intro ha
  have hnat := congrArg BitVec.toNat ha
  have hfour : (4 : Word).toNat = 4 := rfl
  rw [BitVec.toNat_add, hfour] at hnat
  omega

/-- The key after an instruction: taken by a word load of the input register, replaced
by the last one a flush delivers, and otherwise as before. -/
theorem execInst_lastKey (hsdl : h.haveSdl = true) (h0 : s.reg R0 = 0) :
    (execInst h i s).2.lastKey =
      if GPU_INPUT ∈ loadedWords i s then 0
      else if GPU_FLUSH ∈ storedWords i s then
        (lastKeyOf (polled h (flushing h i s))).getD s.lastKey
      else s.lastKey := by
  have hother (hl : loadedWords i s = []) (hs : storedWords i s = []) :
      (execInst h i s).2.lastKey = if GPU_INPUT ∈ loadedWords i s then 0
        else if GPU_FLUSH ∈ storedWords i s then
          (lastKeyOf (polled h (flushing h i s))).getD s.lastKey
        else s.lastKey := by
    rw [execInst_lastKey_of_other h0 hl hs, hl, hs]
    simp
  cases ho : opcode i with
  | none => exact hother (by simp [loadedWords, ho]) (by simp [storedWords, ho])
  | some o =>
    cases o with
    | LW | LWL | LWR =>
      rw [execInst_of_opcode h ho (by decide)]
      simp only [execImmediate, ho, retire_snd, State.setReg_lastKey, loadedWords, storedWords,
        loadWord_lastKey _ s hsdl, List.mem_singleton, List.not_mem_nil, if_false]
      simp only [eq_comm]
    | LWC1 =>
      rw [execInst_of_opcode h ho (by decide)]
      simp only [execCop1Ldst, ho, State.setFpr_lastKey, loadedWords, storedWords,
        loadWord_lastKey _ s hsdl, List.mem_singleton, List.not_mem_nil, if_false]
      simp only [eq_comm]
    | LDC1 =>
      rw [execInst_of_opcode h ho (by decide)]
      simp only [execCop1Ldst, ho, State.setFpr_lastKey, loadedWords, storedWords,
        loadWord_lastKey _ _ hsdl, List.mem_cons, List.not_mem_nil, or_false, if_false]
      simp only [@eq_comm _ GPU_INPUT]
      -- Taken by the first word or by the second one.
      by_cases ha : memAddr i s = GPU_INPUT
      · rw [if_pos ha, if_pos (Or.inl ha), ite_self]
      · simp only [ha, if_false, false_or]
    | SW =>
      have hnow : flushing h i s = s := if_neg (by simp [ho])
      rw [execInst_of_opcode h ho (by decide), hnow]
      simp only [execImmediate, ho, retire_snd, State.setReg_lastKey, loadedWords, storedWords,
        storeWord_lastKey _ _ s hsdl, List.mem_singleton, List.not_mem_nil, if_false]
      simp only [eq_comm]
    | SWL | SWR =>
      have hnow : flushing h i s = s := if_neg (by simp [ho])
      rw [execInst_of_opcode h ho (by decide), hnow]
      simp only [execImmediate, ho, retire_snd, State.setReg_lastKey, loadedWords, storedWords,
        storeWord_lastKey _ _ _ hsdl, List.mem_singleton]
      -- The word is read back in before it is stored.
      by_cases ha : memAddr i s &&& ~~~3#32 = GPU_INPUT
      · rw [ha, if_neg (by decide), if_pos rfl, loadWord_lastKey _ _ hsdl, if_pos rfl]
      · rw [loadWord_eq h _ s ha]
        simp only [@eq_comm _ GPU_INPUT, @eq_comm _ GPU_FLUSH, if_neg ha]
    | SWC1 =>
      have hnow : flushing h i s = s := if_neg (by simp [ho])
      rw [execInst_of_opcode h ho (by decide), hnow]
      simp only [execCop1Ldst, ho, loadedWords, storedWords,
        storeWord_lastKey _ _ s hsdl, List.mem_singleton, List.not_mem_nil, if_false]
      simp only [eq_comm]
    | SDC1 =>
      rw [execInst_of_opcode h ho (by decide)]
      simp only [execCop1Ldst, ho, loadedWords, storedWords, storeWord_lastKey _ _ _ hsdl,
        List.mem_cons, List.not_mem_nil, or_false, if_false]
      -- One of the two words can be the flush, not both.
      by_cases ha : memAddr i s = GPU_FLUSH
      · have hnow : flushing h i s = s := if_neg fun hc => hc.2 ha
        have ha' : memAddr i s + 4 ≠ GPU_FLUSH := fun he => add_four_ne _ (he.trans ha.symm)
        rw [hnow, if_neg ha', if_pos ha, if_pos (.inl ha.symm)]
      · have hlater : flushing h i s = storeWord h (memAddr i s) (s.getFpr (ft i)) s :=
          if_pos ⟨ho, ha⟩
        rw [hlater, if_neg ha]
        simp only [@eq_comm _ GPU_FLUSH, ha, false_or]
    | _ => exact hother (by simp [loadedWords, ho]) (by simp [storedWords, ho])

end instructions

/-- The instruction is a load whose destination, `$0` apart, holds `k` afterwards: one of
the pair for LDC1. -/
def Receives (i k : Word) (t : State) : Prop :=
  match opcode i with
  | some .LB | some .LBU | some .LH | some .LHU | some .LW | some .LWL | some .LWR =>
    rt i = R0 ∨ t.reg (rt i) = k
  | some .LWC1 => t.getFpr (ft i) = k
  | some .LDC1 => t.getFpr (ft i) = k ∨ ft i ≠ 31 ∧ t.getFpr (ft i + 1) = k
  | _ => False

/-- A load of the input register whose destination gets the whole word: LWL and LWR at the
end of the aligned word where they load all of it, and LDC1 unless it writes the input
register's word behind the last floating-point register. `$0` gets nothing, and LWL and LWR
to it pass at every byte of the word. -/
def TakesWhole (i : Word) (s : State) : Prop :=
  match opcode i with
  | some .LW | some .LWC1 => True
  | some .LWL => rt i = R0 ∨ (memAddr i s).toNat % 4 = 3
  | some .LWR => rt i = R0 ∨ (memAddr i s).toNat % 4 = 0
  | some .LDC1 => memAddr i s = GPU_INPUT ∨ ft i ≠ 31 ∨
    Bytes.load32 s.memory (memAddr i s) = s.lastKey
  | _ => False

section instructions
variable {h : Host} {i : Word} {s : State}

theorem reg_written (t : State) (n : Reg) (v k : Word) :
    n = R0 ∨ ((t.setReg n v).setReg R0 0).reg n = k ↔ n = R0 ∨ v = k := by
  rw [State.setReg_reg, State.setReg_reg_self]
  by_cases hn : n = R0
  · simp only [hn, true_or]
  · simp only [hn, false_or, if_false]

theorem loadWord_getFpr (a : Word) (t : State) (n : ℕ) :
    (loadWord h a t).2.getFpr n = t.getFpr n := by
  simp only [State.getFpr, loadWord_fpr, loadWord_fpCond]

/-- Which instructions that take a key away hand it over. -/
theorem receives_iff (hsdl : h.haveSdl = true) (hne : s.lastKey ≠ 0)
    (hlt : s.lastKey.toNat < 256) (hread : GPU_INPUT ∈ loadedWords i s) :
    Receives i s.lastKey (execInst h i s).2 ↔ TakesWhole i s := by
  have hinput := loadWord_input s hsdl
  have hmod : (memAddr i s).toNat % 4 < 4 := Nat.mod_lt _ (by decide)
  cases ho : opcode i with
  | none => simp [loadedWords, ho] at hread
  | some o =>
    cases o with
    | LW =>
      have ha : memAddr i s = GPU_INPUT := by simpa [loadedWords, ho, eq_comm] using hread
      rw [execInst_of_opcode h ho (by decide)]
      simp only [Receives, TakesWhole, execImmediate, ho, retire_snd, reg_written, ha, hinput,
        or_true]
    | LWL =>
      have ha : memAddr i s &&& ~~~3#32 = GPU_INPUT := by
        simpa [loadedWords, ho, eq_comm] using hread
      rw [execInst_of_opcode h ho (by decide)]
      simp only [Receives, TakesWhole, execImmediate, ho, retire_snd, reg_written, ha, hinput,
        BitVec.shiftLeft_eq', shift_left]
      -- The key is a single byte: shifted by a byte or more it is no longer itself.
      rw [Bytes.shiftLeft_or_eq_iff hne hlt _ (by omega)]
      have hwhole : 3 - (memAddr i s).toNat % 4 = 0 ↔ (memAddr i s).toNat % 4 = 3 := by omega
      rw [hwhole]
    | LWR =>
      have ha : memAddr i s &&& ~~~3#32 = GPU_INPUT := by
        simpa [loadedWords, ho, eq_comm] using hread
      rw [execInst_of_opcode h ho (by decide)]
      simp only [Receives, TakesWhole, execImmediate, ho, retire_snd, reg_written, ha, hinput,
        BitVec.ushiftRight_eq', shift_right]
      rw [Bytes.shiftRight_or_eq_iff hne hlt _ hmod]
    | LWC1 =>
      have ha : memAddr i s = GPU_INPUT := by simpa [loadedWords, ho, eq_comm] using hread
      rw [execInst_of_opcode h ho (by decide)]
      simp only [Receives, TakesWhole, execCop1Ldst, ho, ha, hinput, getFpr_setFpr_self]
    | LDC1 =>
      let r := loadWord h (memAddr i s) s
      let r' := loadWord h (memAddr i s + 4) (r.2.setFpr (ft i) r.1)
      have hexec : (execInst h i s).2 = r'.2.setFpr (ft i + 1) r'.1 := by
        rw [execInst_of_opcode h ho (by decide)]
        simp only [execCop1Ldst, ho, r', r]
      have hft := ft_lt i
      have hfirst : (execInst h i s).2.getFpr (ft i) = r.1 := by
        rw [hexec, getFpr_setFpr _ _ (by omega) (by omega) (by omega)]
        exact (loadWord_getFpr _ _ _).trans (getFpr_setFpr_self _ _ _)
      have hsecond : (execInst h i s).2.getFpr (ft i + 1) = r'.1 := by
        rw [hexec, getFpr_setFpr_self]
      simp only [Receives, TakesWhole, ho, hfirst, hsecond]
      by_cases ha : memAddr i s = GPU_INPUT
      · have hkey : r.1 = s.lastKey := by
          simp only [r, ha, hinput]
        exact iff_of_true (.inl hkey) (.inl ha)
      · have ha' : memAddr i s + 4 = GPU_INPUT := by
          simp only [loadedWords, ho, List.mem_cons, List.not_mem_nil, or_false] at hread
          rcases hread with he | he
          · exact absurd he.symm ha
          · exact he.symm
        -- The first word is memory, the second one the key.
        have hmem : r = (Bytes.load32 s.memory (memAddr i s), s) := loadWord_eq h _ s ha
        have hkey : r'.1 = s.lastKey := by
          simp only [r', ha', loadWord_input _ hsdl, State.setFpr_lastKey, hmem]
        simp only [hkey, hmem, ha, false_or, and_true]
        exact or_comm
    | SWL | SWR =>
      simp only [Receives, TakesWhole, ho]
    | _ => simp [loadedWords, ho] at hread

end instructions

/-- The key changes only by a flush or a word load of the input register, and an
instruction that clears a key is a load that puts it in its destination. -/
structure KeyKept (i : Word) (s t : State) : Prop where
  changes : t.lastKey ≠ s.lastKey → GPU_FLUSH ∈ storedWords i s ∨ GPU_INPUT ∈ loadedWords i s
  received : s.lastKey ≠ 0 → t.lastKey = 0 → Receives i s.lastKey t

/-- No key is pending; or a load of the input register takes the whole word, and the last
key that a flush delivers is not 0. -/
def SparesKey (h : Host) (i : Word) (s : State) : Prop :=
  s.lastKey = 0 ∨
  (GPU_INPUT ∈ loadedWords i s → TakesWhole i s) ∧
  (GPU_FLUSH ∈ storedWords i s → lastKeyOf (polled h (flushing h i s)) ≠ some 0)

structure KeyInv (s : State) : Prop where
  zero : s.reg R0 = 0
  byte : s.lastKey.toNat < 256

section steps
variable {h : Host} {i : Word} {s : State}

/-- An instruction that stores a word is no load. -/
theorem not_receives_of_stored (hs : storedWords i s ≠ []) (k : Word) (t : State) :
    ¬ Receives i k t := by
  intro hr
  cases ho : opcode i with
  | none => simp [storedWords, ho] at hs
  | some o =>
    cases o with
    | SW | SWC1 | SDC1 | SWL | SWR => simp [Receives, ho] at hr
    | _ => simp [storedWords, ho] at hs

theorem not_stored_of_loaded (hl : GPU_INPUT ∈ loadedWords i s) :
    GPU_FLUSH ∉ storedWords i s := by
  intro hs
  cases ho : opcode i with
  | none => simp [storedWords, ho] at hs
  | some o =>
    cases o with
    | SWL | SWR =>
      simp only [loadedWords, storedWords, ho, List.mem_singleton] at hl hs
      exact absurd (hl.trans hs.symm) (by decide)
    | SW | SWC1 | SDC1 => simp [loadedWords, ho] at hl
    | _ => simp [storedWords, ho] at hs

theorem keyKept_iff (hsdl : h.haveSdl = true) (hI : KeyInv s) :
    KeyKept i s (execInst h i s).2 ↔ SparesKey h i s := by
  have hkey := execInst_lastKey (i := i) hsdl hI.zero
  have hchanges : (execInst h i s).2.lastKey ≠ s.lastKey →
      GPU_FLUSH ∈ storedWords i s ∨ GPU_INPUT ∈ loadedWords i s := by
    intro hne
    by_contra hno
    rw [not_or] at hno
    rw [hkey, if_neg hno.2, if_neg hno.1] at hne
    exact hne rfl
  by_cases hzero : s.lastKey = 0
  · exact iff_of_true ⟨hchanges, fun hne => absurd hzero hne⟩ (.inl hzero)
  · have hkept : KeyKept i s (execInst h i s).2 ↔
        ((execInst h i s).2.lastKey = 0 → Receives i s.lastKey (execInst h i s).2) :=
      ⟨fun hk => hk.received hzero, fun hr => ⟨hchanges, fun _ => hr⟩⟩
    rw [hkept, SparesKey, or_iff_right hzero]
    -- The three ways the key can go: taken, replaced by a flush, or left alone.
    by_cases hread : GPU_INPUT ∈ loadedWords i s
    · have hstored := not_stored_of_loaded hread
      rw [if_pos hread] at hkey
      calc _ ↔ Receives i s.lastKey (execInst h i s).2 := ⟨fun hr => hr hkey, fun hr _ => hr⟩
        _ ↔ TakesWhole i s := receives_iff hsdl hzero hI.byte hread
        _ ↔ _ := ⟨fun ht => ⟨fun _ => ht, fun hs => absurd hs hstored⟩, fun hw => hw.1 hread⟩
    · by_cases hflush : GPU_FLUSH ∈ storedWords i s
      · have hstored : storedWords i s ≠ [] := List.ne_nil_of_mem hflush
        have hlast : (execInst h i s).2.lastKey = 0 ↔
            lastKeyOf (polled h (flushing h i s)) = some 0 := by
          rw [hkey, if_neg hread, if_pos hflush]
          -- A flush clears the key when the last one it delivers is 0.
          cases lastKeyOf (polled h (flushing h i s)) with
          | none => exact iff_of_false hzero (Option.some_ne_none _).symm
          | some k => exact (Option.some_inj).symm
        calc _ ↔ (execInst h i s).2.lastKey ≠ 0 :=
              ⟨fun hr hc => not_receives_of_stored hstored _ _ (hr hc), fun hne hc => absurd hc hne⟩
          _ ↔ lastKeyOf (polled h (flushing h i s)) ≠ some 0 := not_congr hlast
          _ ↔ _ := ⟨fun hne => ⟨fun hr => absurd hr hread, fun _ => hne⟩, fun hw => hw.2 hflush⟩
      · rw [if_neg hread, if_neg hflush] at hkey
        rw [hkey]
        exact iff_of_true (fun hc => absurd hc hzero)
          ⟨fun hr => absurd hr hread, fun hf => absurd hf hflush⟩

theorem KeyInv.execInst (hsdl : h.haveSdl = true) (hI : KeyInv s) :
    KeyInv (execInst h i s).2 := by
  constructor
  · exact execInst_reg_zero h i s hI.zero
  · rw [execInst_lastKey hsdl hI.zero]
    split_ifs
    · decide
    · cases hlast : lastKeyOf (polled h (flushing h i s)) with
      | none => exact hI.byte
      | some k => exact lastKeyOf_lt hlast
    · exact hI.byte

end steps

section turns
variable {h : Host} {f : Surroundings} {s : State}

/-- The latch that a step clears before the instruction is not looked at. -/
theorem sparesKey_latch (i : Word) (p : Bool) :
    SparesKey h i { s with branchPending := p } ↔ SparesKey h i s := by
  have hpolled : polled h (flushing h i { s with branchPending := p }) =
      polled h (flushing h i s) := by
    -- A first word that is no flush only goes to memory.
    by_cases hpair : opcode i = some .SDC1 ∧ memAddr i s ≠ GPU_FLUSH
    · have hne : memAddr i { s with branchPending := p } ≠ GPU_FLUSH := hpair.2
      rw [flushing, flushing, if_pos hpair, if_pos ⟨hpair.1, hne⟩, storeWord_eq h _ _ _ hne,
        storeWord_eq h _ _ _ hpair.2]
      rfl
    · have hpair' : ¬(opcode i = some .SDC1 ∧
          memAddr i { s with branchPending := p } ≠ GPU_FLUSH) := hpair
      rw [flushing, flushing, if_neg hpair, if_neg hpair']
      rfl
  rw [SparesKey, hpolled]
  rfl

theorem keyKept_step (hsdl : h.haveSdl = true) (hI : KeyInv s) :
    KeyKept s.instr s (stepInstruction h s).2 ↔ SparesKey h s.instr s := by
  obtain ⟨pc, hstep⟩ := stepInstruction_frame h s
  have hclear : KeyInv { s with branchPending := false } := ⟨hI.zero, hI.byte⟩
  rw [hstep]
  calc _ ↔ KeyKept s.instr { s with branchPending := false }
          (execInst h s.instr { s with branchPending := false }).2 :=
        ⟨fun hk => ⟨hk.changes, hk.received⟩, fun hk => ⟨hk.changes, hk.received⟩⟩
    _ ↔ SparesKey h s.instr { s with branchPending := false } := keyKept_iff hsdl hclear
    _ ↔ SparesKey h s.instr s := sparesKey_latch _ _

theorem KeyInv.step (hsdl : h.haveSdl = true) (hI : KeyInv s) :
    KeyInv (stepInstruction h s).2 := by
  obtain ⟨pc, hstep⟩ := stepInstruction_frame h s
  have hclear : KeyInv { s with branchPending := false } := ⟨hI.zero, hI.byte⟩
  have hexec := hclear.execInst (i := s.instr) hsdl
  rw [hstep]
  exact ⟨hexec.zero, hexec.byte⟩

theorem keyInv_resetState (memory : Memory) (entry : Word) : KeyInv (resetState memory entry) :=
  ⟨rfl, show (0#32).toNat < 256 by decide⟩

theorem KeyKept.of_eq {i : Word} {t : State} (heq : t.lastKey = s.lastKey) : KeyKept i s t :=
  ⟨fun hne => absurd heq hne, fun hne hz => absurd (heq.symm.trans hz) hne⟩

/-- A turn of the loop of `execute_jit` that keeps the key, whether it goes on or
returns. -/
def KeepsKeyTurn (f : Surroundings) (h : Host) (u : JitState) : Prop :=
  (∀ v, nativeStep f h u = .next v → KeyKept u.guest.instr u.guest v.guest) ∧
    ∀ r, nativeStep f h u = .done r → KeyKept u.guest.instr u.guest r.2

theorem keepsKeyTurn_of_spares {u : JitState} (hsdl : h.haveSdl = true) (hI : KeyInv u.guest)
    (hspare : SparesKey h u.guest.instr u.guest) : KeepsKeyTurn f h u := by
  have hkept := (keyKept_step hsdl hI).mpr hspare
  constructor
  · intro v hv
    rcases nativeStep_next hv with ⟨reg, hi, lo, pc, hblock⟩ | hstep
    · apply KeyKept.of_eq
      rw [hblock]
    · rwa [executeStep_next hstep] at hkept
  · intro r hr
    rwa [executeStep_done (dispatchStep_done hr)] at hkept

/-- The invariant of the runs under the JIT. -/
theorem keyInv_of_native {mmap : Option (ℕ → Byte)} {n : ℕ} {u : JitState}
    (hsdl : h.haveSdl = true) (hI : KeyInv s)
    (hrun : Run.Steps (nativeStep f h) n ⟨emitInit mmap, s⟩ u) : KeyInv u.guest := by
  have hboth : Sound f.glob u ∧ KeyInv u.guest := by
    apply hrun.invariant (I := fun u => Sound f.glob u ∧ KeyInv u.guest) ?_
      ⟨sound_emitInit _ _ hI.zero, hI⟩
    intro a b hleft hab
    obtain ⟨hsound, ha⟩ := hleft
    have hb : Sound f.glob b := (sound_step hsound).1 b (nativeStep_eq hsound ▸ hab)
    refine ⟨hb, hb.2, ?_⟩
    rcases nativeStep_next hab with ⟨reg, hi, lo, pc, hblock⟩ | hstep
    · rw [hblock]
      exact ha.byte
    · have hkeep := ha.step hsdl
      rw [executeStep_next hstep] at hkeep
      exact hkeep.byte
  exact hboth.2

end turns

/-- Over every run of the interpreter from reset, whatever the flushes deliver: all of its
steps keep the pending key exactly when all of them spare it. Under the JIT a turn that
spares the key keeps it as well; only interpreted instructions reach the device. -/
theorem pending_key_kept_iff (h : Host) (hsdl : h.haveSdl = true) (f : Surroundings)
    (mmap : Option (ℕ → Byte)) (memory : Memory) (entry : Word) (n : ℕ) :
    (Run.Along (executeStep h) (fun u => KeyKept u.instr u (stepInstruction h u).2) n
        (resetState memory entry) ↔
      Run.Along (executeStep h) (fun u => SparesKey h u.instr u) n (resetState memory entry)) ∧
    (Run.Along (nativeStep f h) (fun u => SparesKey h u.guest.instr u.guest) n
        ⟨emitInit mmap, resetState memory entry⟩ →
      Run.Along (nativeStep f h) (KeepsKeyTurn f h) n
        ⟨emitInit mmap, resetState memory entry⟩) := by
  have hreset := keyInv_resetState memory entry
  constructor
  · -- In every state the run reaches the invariant holds, and there the two are the same.
    have hpoint {m : ℕ} {u : State}
        (hu : Run.Steps (executeStep h) m (resetState memory entry) u) :
        KeyKept u.instr u (stepInstruction h u).2 ↔ SparesKey h u.instr u := by
      apply keyKept_step hsdl
      apply hu.invariant (I := KeyInv) ?_ hreset
      intro a b ha hab
      have hb := ha.step hsdl
      rwa [executeStep_next hab] at hb
    exact ⟨fun hk m hm u hu => (hpoint hu).mp (hk m hm u hu),
      fun hk m hm u hu => (hpoint hu).mpr (hk m hm u hu)⟩
  · intro hk m hm u hu
    exact keepsKeyTurn_of_spares hsdl (keyInv_of_native hsdl hreset hu) (hk m hm u hu)

def keyHost : Host :=
  { sdlHost with
    sdlInit := fun _ => ⟨true, true, true, true⟩
    sdlPoll := fun _ => [.keydown 0x61#32] }

def keyProgram (i : Word) : State :=
  resetState (flatImage [0x3C090F0F#32, 0xAD200000#32, i]) 0

/-- `lw $t0, 4($t1)` takes the key. -/
theorem pending_key_kept_iff_lw :
    Run.Along (executeStep keyHost) (fun u => KeyKept u.instr u (stepInstruction keyHost u).2) 3
      (keyProgram 0x8D280004#32) ∧
    KeepsKeyTurn demoSurroundings keyHost ⟨emitInit none, keyProgram 0x8D280004#32⟩ := by
  have hruns := pending_key_kept_iff keyHost rfl demoSurroundings none
    (flatImage [0x3C090F0F#32, 0xAD200000#32, 0x8D280004#32]) 0
  constructor
  · apply (hruns 3).1.mpr
    refine Run.along_succ (executeStep_of_ok (by decide)) (.inl rfl) ?_
    refine Run.along_succ (executeStep_of_ok (by decide)) (.inl (by decide)) ?_
    refine Run.along_succ (executeStep_of_ok (by decide)) ?_ Run.along_zero
    exact .inr ⟨fun _ => trivial, fun hflush => absurd hflush (by decide)⟩
  · refine (hruns 1).2 ?_ 0 (by decide) _ (.refl _)
    intro m hm u hu
    cases hu with
    | refl _ => exact .inl rfl
    | head _ _ => omega

/-- `swl $0, 4($t1)`, behind the flush. -/
def storeLeft : State :=
  (stepInstruction keyHost (stepInstruction keyHost (keyProgram 0xA9200004#32)).2).2

theorem storeLeft_steps :
    Run.Steps (executeStep keyHost) 2 (keyProgram 0xA9200004#32) storeLeft := by
  apply Run.Steps.head (executeStep_of_ok (by decide))
  apply Run.Steps.head (executeStep_of_ok (by decide))
  exact .refl _

/-- The store reads the input register for the bytes it keeps, and the key is gone. -/
theorem pending_key_kept_iff_counterexample :
    ¬ ∀ (h : Host) (memory : Memory) (entry : Word) (n : ℕ), h.haveSdl = true →
      Run.Along (executeStep h) (fun u => KeyKept u.instr u (stepInstruction h u).2) n
        (resetState memory entry) := by
  intro hall
  have hkept : KeyKept storeLeft.instr storeLeft (stepInstruction keyHost storeLeft).2 :=
    hall keyHost _ 0 3 rfl 2 (by decide) storeLeft storeLeft_steps
  have hpending : storeLeft.lastKey ≠ 0 := by decide
  have hcleared : (stepInstruction keyHost storeLeft).2.lastKey = 0 := by decide
  have hstores : storedWords storeLeft.instr storeLeft ≠ [] := by decide
  exact not_receives_of_stored hstores _ _ (hkept.received hpending hcleared)

end MyMips
