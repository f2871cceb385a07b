import MyMips.Lib.Trail
import MyMips.PendingKey
import MyMips.Separation
import MyMips.Replay

namespace MyMips

def request (s : State) : List Event :=
  let a0 := (s.reg A0).toNat
  let a1 := (s.reg A1).toNat
  let a2 := (s.reg A2).toNat
  match Switch.select Syscall (s.reg V0) with
  | some .printInt => [.printInt (s.reg A0).toInt]
  | some .printString => [.printString a0 (guestString s.memory a0)]
  | some .readInt => [.readInt]
  | some .readString => [.readString a0 a1]
  | some .printChar => [.printChar ((s.reg A0).setWidth 8)]
  | some .readChar => [.readChar]
  | some .openFile => [.openFile a0 (guestString s.memory a0) (s.reg A1 != 0)]
  | some .readFile => [.readFile (s.reg A0) a1 a2]
  | some .writeFile => [.writeFile (s.reg A0) a1 a2 (copyOut s.memory a1 a2)]
  | some .closeFile => [.closeFile (s.reg A0)]
  | some .exit | some .exit2 => []
  | none => [.unknownSyscall (s.reg V0)]

/-- A flush in this state gets through to the screen: the device is ready, or `gpu_init`
makes it so. -/
def shows (h : Host) (s : State) : Bool :=
  h.haveSdl && (s.ready || gpuInit (h.sdlInit (.gpuFlush :: s.events)))

def flushed (h : Host) (s : State) : List Event :=
  .gpuFlush :: if shows h s then [.gpuFrame (framePixels s.memory)] else []

/-- The interactions of an instruction, the first one first. -/
def interactions (h : Host) (i : Word) (s : State) : List Event :=
  if opcode i = some .OP_SPECIAL ∧ special i = some .SYSCALL then request s
  else (if GPU_INPUT ∈ loadedWords i s then [.gpuInput] else []) ++
    if GPU_FLUSH ∈ storedWords i s then flushed h s else []

/-- What a piece of the machine's work adds to the history, and whether it makes the
device ready. -/
structure Leaves (s : State) (es : List Event) (opens : Bool) (t : State) : Prop where
  events : t.events = es.reverse ++ s.events
  ready : t.ready = (s.ready || opens)

section device
variable {h : Host} {i a v : Word} {s t : State}

theorem leaves_of_eq (he : t.events = s.events) (hr : t.ready = s.ready) :
    Leaves s [] false t := ⟨he, by rw [hr, Bool.or_false]⟩

theorem Leaves.trans {u : State} {es es' : List Event} {b b' : Bool} (hst : Leaves s es b t)
    (htu : Leaves t es' b' u) : Leaves s (es ++ es') (b || b') u where
  events := by rw [htu.events, hst.events, List.reverse_append, List.append_assoc]
  ready := by rw [htu.ready, hst.ready, Bool.or_assoc]

/-- The other fields have no part in it. -/
theorem Leaves.of_eq {u : State} {es : List Event} {b : Bool} (hst : Leaves s es b t)
    (he : u.events = t.events) (hr : u.ready = t.ready) : Leaves s es b u :=
  ⟨he.trans hst.events, hr.trans hst.ready⟩

theorem loadWord_leaves : Leaves s (if a = GPU_INPUT then [.gpuInput] else []) false
    (loadWord h a s).2 := by
  split_ifs with ha
  · have hdev : (loadWord h a s).2 = (deviceLoadWord h a s).2 := by
      simp only [loadWord, deviceLoadWord, if_pos ha]
      split_ifs <;> rfl
    rw [hdev, deviceLoadWord, if_pos ha]
    split_ifs
    · exact ⟨rfl, (Bool.or_false _).symm⟩
    · exact ⟨rfl, (Bool.or_false _).symm⟩
  · rw [loadWord_eq h a s ha]
    exact leaves_of_eq rfl rfl

theorem storeWord_leaves : Leaves s (if a = GPU_FLUSH then flushed h s else [])
    (decide (a = GPU_FLUSH) && shows h s) (storeWord h a v s) := by
  split_ifs with ha
  · have hdev : storeWord h a v s = if h.haveSdl then gpuFlush h s else s.record .gpuFlush := by
      simp only [storeWord, deviceStoreWord, if_pos ha]
    rw [hdev, ha, decide_eq_true rfl, Bool.true_and, flushed, shows]
    cases hsdl : h.haveSdl with
    | false => exact ⟨rfl, (Bool.or_false _).symm⟩
    | true =>
      rw [if_pos rfl, Bool.true_and]
      cases hready : s.ready || gpuInit (h.sdlInit (.gpuFlush :: s.events)) with
      | true =>
        rw [gpuFlush_shown s hready]
        exact ⟨rfl, (Bool.or_true _).symm⟩
      | false =>
        rw [gpuFlush_hidden s (Bool.eq_false_iff.mp hready)]
        exact ⟨rfl, (Bool.or_false _).symm⟩
  · rw [storeWord_eq h a v s ha, decide_eq_false ha]
    exact leaves_of_eq rfl rfl

/-- A word beside the flush register is not in the frame. -/
theorem framePixels_beside (hx : a + 4 = GPU_FLUSH) :
    framePixels (storeWord h a v s).memory = framePixels s.memory := by
  have ha : a = GPU_FLUSH - 4 := by rw [← hx, BitVec.add_sub_cancel]
  have hbyte (k : ℕ) (hk : k < GPU_W * 4 * GPU_H) :
      (storeWord h a v s).memory (GPU_FB + BitVec.ofNat 32 k) =
        s.memory (GPU_FB + BitVec.ofNat 32 k) := by
    have hsize : k < 76800 := hk
    apply storeWord_memory
    intro hmem
    obtain ⟨j, hj, heq⟩ := List.mem_map.mp hmem
    rw [List.mem_range] at hj
    have hnat := congrArg BitVec.toNat heq
    rw [ha, BitVec.toNat_add, BitVec.toNat_add, BitVec.toNat_ofNat, BitVec.toNat_ofNat] at hnat
    have hfb : GPU_FB.toNat = 0x0F000000 := rfl
    have hflush : (GPU_FLUSH - 4).toNat = 0x0F0EFFFC := rfl
    rw [hfb, hflush] at hnat
    omega
  unfold framePixels
  exact List.map_congr_left fun k hk => hbyte k (List.mem_range.mp hk)

end device

def flushes (h : Host) (i : Word) (s : State) : Bool :=
  decide (GPU_FLUSH ∈ storedWords i s) && shows h s

section instructions
variable {h : Host} {i : Word} {s t : State}

theorem callSyscall_leaves : Leaves s (request s) false (callSyscall h s).2 := by
  unfold request callSyscall
  cases Switch.select Syscall (s.reg V0) with
  | none => exact ⟨rfl, (Bool.or_false _).symm⟩
  | some c =>
    cases c with
    | readString =>
      dsimp only [readString]
      split
      · exact ⟨rfl, (Bool.or_false _).symm⟩
      · exact ⟨rfl, (Bool.or_false _).symm⟩
    | _ => exact ⟨rfl, (Bool.or_false _).symm⟩

/-- Without a word access and without a system call there is no interaction. -/
theorem leaves_of_quiet (hs : ¬ (opcode i = some .OP_SPECIAL ∧ special i = some .SYSCALL))
    (hl : loadedWords i s = []) (hw : storedWords i s = []) (he : t.events = s.events)
    (hr : t.ready = s.ready) : Leaves s (interactions h i s) (flushes h i s) t := by
  have hnone : interactions h i s = [] := by
    simp only [interactions, if_neg hs, hl, hw, List.not_mem_nil, if_false, List.append_nil]
  have hclosed : flushes h i s = false := by simp [flushes, hw]
  rw [hnone, hclosed]
  exact leaves_of_eq he hr

section access
variable {a v : Word} (hs : ¬ (opcode i = some .OP_SPECIAL ∧ special i = some .SYSCALL))
include hs

theorem leaves_of_load (hl : loadedWords i s = [a]) (hw : storedWords i s = [])
    (he : t.events = (loadWord h a s).2.events) (hr : t.ready = (loadWord h a s).2.ready) :
    Leaves s (interactions h i s) (flushes h i s) t := by
  have hload := (loadWord_leaves (h := h) (a := a) (s := s)).of_eq he hr
  unfold interactions flushes
  rw [if_neg hs, hl, hw]
  simpa [eq_comm] using hload

theorem leaves_of_store (hl : loadedWords i s = []) (hw : storedWords i s = [a])
    (he : t.events = (storeWord h a v s).events) (hr : t.ready = (storeWord h a v s).ready) :
    Leaves s (interactions h i s) (flushes h i s) t := by
  have hstore := (storeWord_leaves (h := h) (a := a) (v := v) (s := s)).of_eq he hr
  unfold interactions flushes
  rw [if_neg hs, hl, hw]
  simpa [eq_comm] using hstore

/-- The partial stores read the word before they store it. -/
theorem leaves_of_merge (hl : loadedWords i s = [a]) (hw : storedWords i s = [a])
    (he : t.events = (storeWord h a v (loadWord h a s).2).events)
    (hr : t.ready = (storeWord h a v (loadWord h a s).2).ready) :
    Leaves s (interactions h i s) (flushes h i s) t := by
  have hload := loadWord_leaves (h := h) (a := a) (s := s)
  have hstore := storeWord_leaves (h := h) (a := a) (v := v) (s := (loadWord h a s).2)
  have hboth := (hload.trans hstore).of_eq he hr
  unfold interactions flushes
  rw [if_neg hs, hl, hw]
  by_cases ha : a = GPU_FLUSH
  · have hram : (loadWord h a s).2 = s := by rw [loadWord_eq h a s (by rw [ha]; decide)]
    rw [hram] at hboth
    simpa [eq_comm] using hboth
  · simpa [ha, eq_comm] using hboth

/-- A double word is loaded as two words, and one of them can be the input. -/
theorem leaves_of_load_double {u : State} (hl : loadedWords i s = [a, a + 4])
    (hw : storedWords i s = []) (hu : u.events = (loadWord h a s).2.events)
    (hur : u.ready = (loadWord h a s).2.ready) (he : t.events = (loadWord h (a + 4) u).2.events)
    (hr : t.ready = (loadWord h (a + 4) u).2.ready) :
    Leaves s (interactions h i s) (flushes h i s) t := by
  have hlow := (loadWord_leaves (h := h) (a := a) (s := s)).of_eq hu hur
  have hhigh := (loadWord_leaves (h := h) (a := a + 4) (s := u)).of_eq he hr
  have hboth := hlow.trans hhigh
  unfold interactions flushes
  rw [if_neg hs, hl, hw]
  by_cases ha : a = GPU_INPUT
  · have ha' : a + 4 ≠ GPU_INPUT := fun heq => add_four_ne a (heq.trans ha.symm)
    simpa [ha, ha', eq_comm] using hboth
  · simpa [ha, eq_comm] using hboth

theorem leaves_of_store_double {v' : Word} (hl : loadedWords i s = [])
    (hw : storedWords i s = [a, a + 4])
    (he : t.events = (storeWord h (a + 4) v' (storeWord h a v s)).events)
    (hr : t.ready = (storeWord h (a + 4) v' (storeWord h a v s)).ready) :
    Leaves s (interactions h i s) (flushes h i s) t := by
  have hlow := storeWord_leaves (h := h) (a := a) (v := v) (s := s)
  have hhigh := storeWord_leaves (h := h) (a := a + 4) (v := v') (s := storeWord h a v s)
  have hboth := (hlow.trans hhigh).of_eq he hr
  unfold interactions flushes
  rw [if_neg hs, hl, hw]
  by_cases ha : a = GPU_FLUSH
  · have ha' : a + 4 ≠ GPU_FLUSH := fun heq => add_four_ne a (heq.trans ha.symm)
    simpa [ha, ha', eq_comm] using hboth
  · by_cases ha' : a + 4 = GPU_FLUSH
    · -- The first word goes to memory, beside the frame.
      have hpixels := framePixels_beside (h := h) (v := v) (s := s) ha'
      have hready : (storeWord h a v s).ready = s.ready := by rw [storeWord_eq h a v s ha]
      have hevents : (storeWord h a v s).events = s.events := by rw [storeWord_eq h a v s ha]
      have hshows : shows h (storeWord h a v s) = shows h s := by
        rw [shows, hready, hevents, shows]
      have hflushed : flushed h (storeWord h a v s) = flushed h s := by
        rw [flushed, hshows, hpixels, flushed]
      rw [hflushed, hshows] at hboth
      simpa [ha, ha', eq_comm] using hboth
    · have hnot : GPU_FLUSH ∉ [a, a + 4] := by
        intro hmem
        rcases List.mem_cons.mp hmem with heq | hmem
        · exact ha heq.symm
        · exact ha' (List.mem_singleton.mp hmem).symm
      rw [if_neg ha, if_neg ha', decide_eq_false ha, decide_eq_false ha'] at hboth
      rw [if_neg hnot, decide_eq_false hnot]
      simpa using hboth

end access

theorem execCop1Ldst_leaves (ho : opcode i = some .LWC1 ∨ opcode i = some .LDC1 ∨
    opcode i = some .SWC1 ∨ opcode i = some .SDC1) :
    Leaves s (interactions h i s) (flushes h i s) (execCop1Ldst h i s).2 := by
  have hset (t : State) (n : ℕ) (v : Word) :
      (t.setFpr n v).events = t.events ∧ (t.setFpr n v).ready = t.ready := by
    obtain ⟨f, c, he⟩ := t.setFpr_frame n v
    rw [he]
    exact ⟨rfl, rfl⟩
  have hs : ¬ (opcode i = some .OP_SPECIAL ∧ special i = some .SYSCALL) := by
    rintro ⟨ho', _⟩
    simp [ho'] at ho
  unfold execCop1Ldst
  rcases ho with ho | ho | ho | ho
  · simp only [ho]
    exact leaves_of_load hs (by rw [loadedWords, ho]) (by rw [storedWords, ho]) (hset _ _ _).1
      (hset _ _ _).2
  · simp only [ho]
    exact leaves_of_load_double hs (by rw [loadedWords, ho]) (by rw [storedWords, ho])
      (hset _ _ _).1 (hset _ _ _).2 (hset _ _ _).1 (hset _ _ _).2
  · simp only [ho]
    exact leaves_of_store hs (by rw [loadedWords, ho]) (by rw [storedWords, ho]) rfl rfl
  · simp only [ho]
    exact leaves_of_store_double hs (by rw [loadedWords, ho]) (by rw [storedWords, ho]) rfl rfl

theorem execImmediate_leaves (ho : ∀ o ∈ [Opcode.OP_SPECIAL, .OP_SPECIAL2, .OP_COP1, .LWC1,
    .LDC1, .SWC1, .SDC1, .J, .JAL], opcode i ≠ some o) :
    Leaves s (interactions h i s) (flushes h i s) (execImmediate h i s).2 := by
  have hs : ¬ (opcode i = some .OP_SPECIAL ∧ special i = some .SYSCALL) := fun hc =>
    ho .OP_SPECIAL (by decide) hc.1
  unfold execImmediate
  cases hop : opcode i with
  | none => exact leaves_of_quiet hs (by rw [loadedWords, hop]) (by rw [storedWords, hop]) rfl rfl
  | some o =>
    cases o with
    | OP_SPECIAL | OP_SPECIAL2 | OP_COP1 | LWC1 | LDC1 | SWC1 | SDC1 | J | JAL =>
      exact absurd hop (ho _ (by decide))
    | LW | LWL | LWR =>
      exact leaves_of_load hs (by rw [loadedWords, hop]) (by rw [storedWords, hop]) rfl rfl
    | SW => exact leaves_of_store hs (by rw [loadedWords, hop]) (by rw [storedWords, hop]) rfl rfl
    | SWL | SWR =>
      exact leaves_of_merge hs (by rw [loadedWords, hop]) (by rw [storedWords, hop]) rfl rfl
    | ADDI =>
      obtain ⟨reg, hadd⟩ := addi_frame i s
      simp only [hadd]
      exact leaves_of_quiet hs (by rw [loadedWords, hop]) (by rw [storedWords, hop]) rfl rfl
    | BEQ | BNE | BGTZ | BLEZ =>
      dsimp only
      obtain ⟨p, t, hbranch⟩ := branchIf_frame i s _
      rw [hbranch]
      exact leaves_of_quiet hs (by rw [loadedWords, hop]) (by rw [storedWords, hop]) rfl rfl
    | OP_REGIMM =>
      dsimp only [execRegimm]
      obtain ⟨p, t, hbranch⟩ := branchIf_frame i _ _
      rw [hbranch]
      apply leaves_of_quiet hs (by rw [loadedWords, hop]) (by rw [storedWords, hop])
      · split_ifs <;> rfl
      · split_ifs <;> rfl
    | _ => exact leaves_of_quiet hs (by rw [loadedWords, hop]) (by rw [storedWords, hop]) rfl rfl

/-- An instruction adds its interactions to the history, and nothing else does. -/
theorem execInst_leaves : Leaves s (interactions h i s) (flushes h i s) (execInst h i s).2 := by
  have hquiet {o : Opcode} (ho : opcode i = some o) (hs : special i ≠ some .SYSCALL ∨
      o ≠ .OP_SPECIAL) (hl : loadedWords i s = []) (hw : storedWords i s = []) {t : State}
      (he : t.events = s.events) (hr : t.ready = s.ready) :
      Leaves s (interactions h i s) (flushes h i s) t := by
    apply leaves_of_quiet ?_ hl hw he hr
    rintro ⟨ho', hf⟩
    rcases hs with hs | hs
    · exact hs hf
    · exact hs (Option.some.inj (ho.symm.trans ho'))
  apply execInst_rule h (P := fun r => Leaves s (interactions h i s) (flushes h i s) r.2)
  case hnop =>
    rintro rfl
    exact hquiet (o := .OP_SPECIAL) (by decide) (.inl (by decide)) rfl rfl rfl rfl
  case hsyscall =>
    intro ho hf
    have hrequest : interactions h i s = request s := if_pos ⟨ho, hf⟩
    have hclosed : flushes h i s = false := by simp [flushes, storedWords, ho]
    rw [hrequest, hclosed]
    exact callSyscall_leaves
  case hbreak =>
    intro ho hf
    apply hquiet ho (.inl (by simp [hf])) (by simp [loadedWords, ho]) (by simp [storedWords, ho])
    · rfl
    · rfl
  case hregister =>
    intro ho hf _
    obtain ⟨reg, hi, lo, p, t, he⟩ := execRegister_frame i s
    simp only [he]
    exact hquiet ho (.inl hf) (by simp [loadedWords, ho]) (by simp [storedWords, ho]) rfl rfl
  case hspecial2 =>
    intro ho
    obtain ⟨reg, hi, lo, he⟩ := execSpecial2_frame i s
    simp only [he]
    exact hquiet ho (.inr (by decide)) (by simp [loadedWords, ho]) (by simp [storedWords, ho]) rfl
      rfl
  case hcop1 =>
    intro ho
    obtain ⟨reg, f, c, p, t, he⟩ := execCop1_frame h.fp i s
    simp only [he]
    exact hquiet ho (.inr (by decide)) (by simp [loadedWords, ho]) (by simp [storedWords, ho]) rfl
      rfl
  case hldst => exact execCop1Ldst_leaves
  case hjump =>
    intro ho
    obtain ⟨reg, p, t, he⟩ := execJump_frame i s
    simp only [he]
    rcases ho with ho | ho
    · exact hquiet ho (.inr (by decide)) (by simp [loadedWords, ho]) (by simp [storedWords, ho])
        rfl rfl
    · exact hquiet ho (.inr (by decide)) (by simp [loadedWords, ho]) (by simp [storedWords, ho])
        rfl rfl
  case himm => exact execImmediate_leaves

end instructions

def interactionsAt (h : Host) (s : State) : List Event := interactions h (wordAt s.memory s.pc) s

def frames (es : List Event) : List (List Byte) := es.filterMap fun e => match e with
  | .gpuFrame pixels => some pixels
  | _ => none

section runs
variable {h : Host} {s t : State} {n : ℕ}

theorem stepInstruction_leaves : Leaves s (interactionsAt h s)
    (flushes h (wordAt s.memory s.pc) s) (stepInstruction h s).2 := by
  have hinst : Leaves { s with branchPending := false } (interactionsAt h s)
      (flushes h (wordAt s.memory s.pc) s)
      (execInst h (wordAt s.memory s.pc) { s with branchPending := false }).2 := execInst_leaves
  obtain ⟨pc, hframe⟩ := stepInstruction_frame h s
  rw [hframe]
  exact ⟨hinst.events, hinst.ready⟩

theorem executeStep_leaves {r : ℕ × State} (hs : executeStep h s = .done r) :
    Leaves s (interactionsAt h s) (flushes h (wordAt s.memory s.pc) s) r.2 := by
  rw [← executeStep_done hs]
  exact stepInstruction_leaves

theorem executeStep_leaves_next (hs : executeStep h s = .next t) :
    Leaves s (interactionsAt h s) (flushes h (wordAt s.memory s.pc) s) t := by
  have hleaves := stepInstruction_leaves (h := h) (s := s)
  rw [executeStep_next hs] at hleaves
  exact hleaves

theorem not_frame_request (s : State) : frames (request s) = [] := by
  unfold request
  cases Switch.select Syscall (s.reg V0) with
  | none => rfl
  | some c => cases c <;> rfl

theorem frames_append (es es' : List Event) : frames (es ++ es') = frames es ++ frames es' :=
  List.filterMap_append

/-- The frame an instruction shows is the framebuffer before it. -/
theorem frames_interactions (i : Word) : frames (interactions h i s) =
    if flushes h i s then [framePixels s.memory] else [] := by
  unfold interactions flushes
  by_cases hs : opcode i = some .OP_SPECIAL ∧ special i = some .SYSCALL
  · have hw : storedWords i s = [] := by rw [storedWords, hs.1]
    rw [if_pos hs, hw, not_frame_request]
    rfl
  · have hinput : frames (if GPU_INPUT ∈ loadedWords i s then [.gpuInput] else []) = [] := by
      split_ifs <;> rfl
    rw [if_neg hs, frames_append, hinput, List.nil_append]
    by_cases hw : GPU_FLUSH ∈ storedWords i s
    · rw [if_pos hw, decide_eq_true hw, Bool.true_and, flushed]
      split_ifs <;> rfl
    · rw [if_neg hw, decide_eq_false hw]
      rfl

def shownAt (h : Host) (s : State) : List (List Byte) :=
  if flushes h (wordAt s.memory s.pc) s then [framePixels s.memory] else []

theorem frames_trail (n : ℕ) (s : State) :
    frames (Run.trail (executeStep h) (interactionsAt h) n s) =
      Run.trail (executeStep h) (shownAt h) n s := by
  symm
  apply Run.trail_hom (f := frames) rfl frames_append
  intro t
  exact (frames_interactions (wordAt t.memory t.pc)).symm

/-- A frame, and a frame only, leaves the device ready. -/
theorem opens_eq (s : State) :
    flushes h (wordAt s.memory s.pc) s = !(shownAt h s).isEmpty := by
  rw [shownAt]
  cases flushes h (wordAt s.memory s.pc) s <;> rfl

theorem isEmpty_append (a b : List (List Byte)) :
    (!(a ++ b).isEmpty) = (!a.isEmpty || !b.isEmpty) := by
  cases a <;> rfl

theorem run_leaves (hrun : Run.Steps (executeStep h) n s t) :
    Leaves s (Run.trail (executeStep h) (interactionsAt h) n s)
      (!(Run.trail (executeStep h) (shownAt h) n s).isEmpty) t := by
  induction hrun with
  | refl s => exact leaves_of_eq rfl rfl
  | head hs _ ih =>
    have hone := executeStep_leaves_next hs
    rw [opens_eq] at hone
    rw [Run.trail_succ_of_next hs, Run.trail_succ_of_next hs, isEmpty_append]
    exact hone.trans ih

end runs

/-- What a run makes of the outside world: at every point of it, and when it has returned,
the history holds the interactions of the instructions executed, in order, and nothing
else; the frames that were shown are the contents the framebuffer had at the stores to the
flush register, from the first one on that finds the device ready or makes it so; and the
device is ready exactly when it was at the start or a frame has been shown. -/
theorem run_interactions (h : Host) (s : State) :
    (∀ n t, Run.Steps (executeStep h) n s t →
      t.events = (Run.trail (executeStep h) (interactionsAt h) n s).reverse ++ s.events ∧
      t.ready = (s.ready || !(Run.trail (executeStep h) (shownAt h) n s).isEmpty)) ∧
    (∀ n r, Run.run (executeStep h) n s = some r →
      r.2.events = (Run.trail (executeStep h) (interactionsAt h) n s).reverse ++ s.events ∧
      r.2.ready = (s.ready || !(Run.trail (executeStep h) (shownAt h) n s).isEmpty)) ∧
    ∀ n, frames (Run.trail (executeStep h) (interactionsAt h) n s) =
      Run.trail (executeStep h) (shownAt h) n s := by
  refine ⟨?_, ?_, fun n => frames_trail n s⟩
  · intro n t hrun
    have hleaves := run_leaves hrun
    exact ⟨hleaves.events, hleaves.ready⟩
  · intro n r hrun
    obtain ⟨m, t, hm, hsteps, hdone⟩ := Run.run_eq_some_iff.mp hrun
    obtain ⟨j, rfl⟩ := Nat.exists_eq_add_of_lt hm
    have hlength : m + j + 1 = m + (j + 1) := by omega
    have hlast := executeStep_leaves hdone
    rw [opens_eq] at hlast
    have hleaves := (run_leaves hsteps).trans hlast
    rw [hlength, Run.trail_add hsteps, Run.trail_add hsteps, Run.trail_succ_of_done hdone,
      Run.trail_succ_of_done hdone, isEmpty_append]
    exact ⟨hleaves.events, hleaves.ready⟩

end MyMips
