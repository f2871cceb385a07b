import MyMips.Lib.Oracle
import MyMips.GuestMemory

namespace MyMips
open Oracle

structure Answers where
  scanInt : Word
  scanChar : Byte
  readStdin : Option (List Byte)
  openFile : Word
  readFile : Word × List Byte
  writeFile : Word
  sdlInit : SdlObjects
  sdlPoll : List SdlEvent

def Host.answers (h : Host) (e : List Event) : Answers where
  scanInt := h.scanInt e
  scanChar := h.scanChar e
  readStdin := h.readStdin e
  openFile := h.openFile e
  readFile := h.readFile e
  writeFile := h.writeFile e
  sdlInit := h.sdlInit e
  sdlPoll := h.sdlPoll e

/-- The hosts are built alike, compute alike and answer alike on the way to `E`. -/
structure Host.AgreesOn (E : List Event) (h h' : Host) : Prop where
  haveSdl : h'.haveSdl = h.haveSdl
  fp : h'.fp = h.fp
  answers : ∀ e, e <:+ E → e ≠ [] → h'.answers e = h.answers e

instance : Agreement Host Event where
  Agrees := Host.AgreesOn
  mono hE hh := ⟨hh.haveSdl, hh.fp, fun e he hne => hh.answers e (he.trans hE) hne⟩

theorem haveSdl_of_agrees {E : List Event} {h h' : Host} (hh : Agrees E h h') :
    h'.haveSdl = h.haveSdl := Host.AgreesOn.haveSdl hh

def eventsOf {α : Type} (r : α × State) : List Event := r.2.events

section device
variable (a v : Word) (s : State)

theorem Host.AgreesOn.last {h h' : Host} {e : Event} {E : List Event}
    (hh : Host.AgreesOn (e :: E) h h') : h'.answers (e :: E) = h.answers (e :: E) :=
  hh.answers _ (List.suffix_refl _) (List.cons_ne_nil _ _)

theorem gpuFlush_shown {h : Host}
    (hready : (s.ready || gpuInit (h.sdlInit (.gpuFlush :: s.events))) = true) :
    gpuFlush h s = { s with
      ready := true
      lastKey := pumpEvents s.lastKey
        (h.sdlPoll (.gpuFrame (framePixels s.memory) :: .gpuFlush :: s.events))
      events := .gpuFrame (framePixels s.memory) :: .gpuFlush :: s.events } := if_pos hready

theorem gpuFlush_hidden {h : Host}
    (hready : ¬ (s.ready || gpuInit (h.sdlInit (.gpuFlush :: s.events))) = true) :
    gpuFlush h s = s.record .gpuFlush := if_neg hready

/-- `gpu_init` is asked first, and for events once the device is ready. -/
theorem gpuFlush_heeds : Heeds State.events s.events fun h : Host => gpuFlush h s := by
  have hgrow (e : Event) (E : List Event) : E <:+ e :: E := List.suffix_cons e E
  intro h
  dsimp only
  by_cases hready : (s.ready || gpuInit (h.sdlInit (.gpuFlush :: s.events))) = true
  · rw [gpuFlush_shown s hready]
    refine ⟨(hgrow _ _).trans (hgrow _ _), fun h' hh => ?_⟩
    have hinit := congrArg Answers.sdlInit
      (hh.answers (.gpuFlush :: s.events) (hgrow _ _) (List.cons_ne_nil _ _))
    have hpoll := congrArg Answers.sdlPoll hh.last
    have hready' : (s.ready || gpuInit (h'.sdlInit (.gpuFlush :: s.events))) = true := by
      rw [← hready]
      exact congrArg (fun a => s.ready || gpuInit a) hinit
    rw [gpuFlush_shown s hready']
    exact congrArg (fun p => ({ s with
      ready := true
      lastKey := pumpEvents s.lastKey p
      events := _ } : State)) hpoll
  · rw [gpuFlush_hidden s hready]
    refine ⟨hgrow _ _, fun h' hh => ?_⟩
    have hinit := congrArg Answers.sdlInit hh.last
    have hready' : ¬ (s.ready || gpuInit (h'.sdlInit (.gpuFlush :: s.events))) = true := by
      intro ht
      apply hready
      rw [← ht]
      exact congrArg (fun a => s.ready || gpuInit a) hinit.symm
    exact gpuFlush_hidden s hready'

theorem storeWord_heeds : Heeds State.events s.events fun h : Host => storeWord h a v s := by
  by_cases ha : a = GPU_FLUSH
  · have hstore (h : Host) : storeWord h a v s =
        if h.haveSdl then gpuFlush h s else s.record .gpuFlush := by
      simp only [storeWord, deviceStoreWord, if_pos ha]
    simp only [hstore]
    exact .ite haveSdl_of_agrees (gpuFlush_heeds s) (heeds_const (List.suffix_cons _ _))
  · simp only [storeWord_eq _ a v s ha]
    exact heeds_const (List.suffix_refl _)

theorem loadWord_heeds : Heeds eventsOf s.events fun h : Host => loadWord h a s := by
  by_cases ha : a = GPU_INPUT
  · have hload (h : Host) : loadWord h a s =
        if h.haveSdl then (s.lastKey, { s with lastKey := 0 }.record .gpuInput)
        else (0, s.record .gpuInput) := by
      rw [loadWord, deviceLoadWord, if_pos ha]
      split_ifs <;> rfl
    simp only [hload]
    exact .ite haveSdl_of_agrees (heeds_const (List.suffix_cons _ _))
      (heeds_const (List.suffix_cons _ _))
  · simp only [loadWord_eq _ a s ha]
    exact heeds_const (List.suffix_refl _)

end device

section executors
variable (i : Word) (s : State)

/-- A call that asks asks once, after its request. -/
theorem callSyscall_heeds : Heeds eventsOf s.events fun h : Host => callSyscall h s := by
  -- The request is on the record of every outcome, and the answer decides it.
  have hask (e : Event) {F : Host → Bool × State} (hF : ∀ h, eventsOf (F h) = e :: s.events)
      (hsame : ∀ h h' : Host, h'.answers (e :: s.events) = h.answers (e :: s.events) →
        F h' = F h) : Heeds eventsOf s.events F := by
    apply heeds_query (List.suffix_cons e s.events)
    · intro h
      rw [hF]
    · exact fun h h' hh => hsame h h' (Host.AgreesOn.last hh)
  unfold callSyscall
  cases hn : Switch.select Syscall (s.reg V0) with
  | none => exact heeds_const (List.suffix_cons _ _)
  | some c =>
    cases c with
    | printInt | printString | printChar | closeFile => exact heeds_const (List.suffix_cons _ _)
    | exit | exit2 => exact heeds_const (List.suffix_refl _)
    | readInt =>
      apply hask _ (fun h => rfl)
      intro h h' hh
      exact congrArg (fun v => (false, (s.record .readInt).setReg V0 v))
        (congrArg Answers.scanInt hh)
    | readChar =>
      apply hask _ (fun h => rfl)
      intro h h' hh
      exact congrArg (fun c : Byte => (false, (s.record .readChar).setReg V0 (c.signExtend 32)))
        (congrArg Answers.scanChar hh)
    | openFile =>
      apply hask _ (fun h => rfl)
      intro h h' hh
      exact congrArg (fun v => (false, State.setReg _ V0 v)) (congrArg Answers.openFile hh)
    | writeFile =>
      apply hask _ (fun h => rfl)
      intro h h' hh
      exact congrArg (fun v => (false, State.setReg _ V0 v)) (congrArg Answers.writeFile hh)
    | readFile =>
      apply hask _ (fun h => rfl)
      intro h h' hh
      exact congrArg (fun p : Word × List Byte => (false, State.setReg { s with
        memory := copyIn s.memory (s.reg A1).toNat (p.2.take (s.reg A2).toNat)
        events := _ } V0 p.1)) (congrArg Answers.readFile hh)
    | readString =>
      have hread : ∀ h : Host, ∃ m, readString h s = { s with
          memory := m
          events := .readString (s.reg A0).toNat (s.reg A1).toNat :: s.events } := by
        intro h
        rw [readString]
        split
        · exact ⟨s.memory, rfl⟩
        · exact ⟨_, rfl⟩
      apply hask (.readString (s.reg A0).toNat (s.reg A1).toNat)
      · intro h
        obtain ⟨m, hm⟩ := hread h
        simp only [hm, eventsOf]
      · intro h h' hh
        have hstdin := congrArg Answers.readStdin hh
        simp only [Host.answers] at hstdin
        simp only [readString, State.record, hstdin]

theorem execCop1Ldst_heeds : Heeds eventsOf s.events fun h : Host => execCop1Ldst h i s := by
  have hset (s : State) (n : ℕ) (v : Word) : (s.setFpr n v).events = s.events := by
    obtain ⟨f, c, he⟩ := s.setFpr_frame n v
    rw [he]
  unfold execCop1Ldst
  cases ho : opcode i with
  | none => exact heeds_const (List.suffix_refl _)
  | some o =>
    cases o with
    | LWC1 =>
      apply (loadWord_heeds (memAddr i s) s).map
        (g := fun r => (Ret.ok, r.2.setFpr (ft i) r.1))
      intro r
      rw [eventsOf, eventsOf, hset]
    | SWC1 =>
      exact (storeWord_heeds (memAddr i s) (s.getFpr (ft i)) s).map (g := fun t => (Ret.ok, t))
        fun t => List.suffix_refl _
    | LDC1 =>
      apply (loadWord_heeds (memAddr i s) s).bind
        (G := fun r h => (Ret.ok, (loadWord h (memAddr i s + 4) (r.2.setFpr (ft i) r.1)).2.setFpr
          (ft i + 1) (loadWord h (memAddr i s + 4) (r.2.setFpr (ft i) r.1)).1))
      intro r
      have hload := loadWord_heeds (memAddr i s + 4) (r.2.setFpr (ft i) r.1)
      rw [hset] at hload
      apply hload.map (g := fun q => (Ret.ok, q.2.setFpr (ft i + 1) q.1))
      intro q
      rw [eventsOf, eventsOf, hset]
    | SDC1 =>
      apply (storeWord_heeds (memAddr i s) (s.getFpr (ft i)) s).bind
        (G := fun t h => (Ret.ok, storeWord h (memAddr i s + 4) (t.getFpr (ft i + 1)) t))
      intro t
      exact (storeWord_heeds _ _ t).map (g := fun u => (Ret.ok, u)) fun u => List.suffix_refl _
    | _ => exact heeds_const (List.suffix_refl _)

theorem execImmediate_heeds : Heeds eventsOf s.events fun h : Host => execImmediate h i s := by
  have hload (a : Word) (v : Word × State → Word) : Heeds eventsOf s.events fun h : Host =>
      retire ((loadWord h a s).2.setReg (rt i) (v (loadWord h a s))) :=
    (loadWord_heeds a s).map (g := fun r => retire (r.2.setReg (rt i) (v r)))
      fun r => List.suffix_refl _
  unfold execImmediate
  cases ho : opcode i with
  | none => exact heeds_const (List.suffix_refl _)
  | some o =>
    cases o with
    | ADDI =>
      apply heeds_const
      obtain ⟨reg, hadd⟩ := addi_frame i s
      rw [hadd]
      exact List.suffix_refl _
    | BEQ | BNE | BGTZ | BLEZ =>
      apply heeds_const
      obtain ⟨p, t, hbranch⟩ := branchIf_frame i s _
      rw [hbranch]
      exact List.suffix_refl _
    | OP_REGIMM =>
      apply heeds_const
      unfold execRegimm
      obtain ⟨p, t, hbranch⟩ := branchIf_frame i _ _
      rw [hbranch]
      split_ifs <;> exact List.suffix_refl _
    | LW => exact hload (memAddr i s) fun r => r.1
    | LWL =>
      exact hload (memAddr i s &&& ~~~3#32) fun r =>
        (r.1 <<< (24 - 8 * (memAddr i s &&& 3#32))) |||
          (r.2.reg (rt i) &&& ((1#32 <<< (24 - 8 * (memAddr i s &&& 3#32))) - 1))
    | LWR =>
      exact hload (memAddr i s &&& ~~~3#32) fun r =>
        (r.1 >>> (8 * (memAddr i s &&& 3#32))) |||
          (r.2.reg (rt i) &&& ~~~(0xFFFFFFFF#32 >>> (8 * (memAddr i s &&& 3#32))))
    | SW =>
      exact (storeWord_heeds (memAddr i s) (s.reg (rt i)) s).map (g := retire)
        fun t => List.suffix_refl _
    | SWL =>
      apply (loadWord_heeds (memAddr i s &&& ~~~3#32) s).bind
        (G := fun r h => retire (storeWord h (memAddr i s &&& ~~~3#32)
          ((s.reg (rt i) >>> (24 - 8 * (memAddr i s &&& 3#32))) |||
            (r.1 &&& ~~~(0xFFFFFFFF#32 >>> (24 - 8 * (memAddr i s &&& 3#32))))) r.2))
      intro r
      exact (storeWord_heeds _ _ r.2).map (g := retire) fun t => List.suffix_refl _
    | SWR =>
      apply (loadWord_heeds (memAddr i s &&& ~~~3#32) s).bind
        (G := fun r h => retire (storeWord h (memAddr i s &&& ~~~3#32)
          ((s.reg (rt i) <<< (8 * (memAddr i s &&& 3#32))) |||
            (r.1 &&& ((1#32 <<< (8 * (memAddr i s &&& 3#32))) - 1))) r.2))
      intro r
      exact (storeWord_heeds _ _ r.2).map (g := retire) fun t => List.suffix_refl _
    | _ => exact heeds_const (List.suffix_refl _)

theorem execInst_heeds : Heeds eventsOf s.events fun h : Host => execInst h i s := by
  have hkeep {t : Ret × State} (ht : t.2.events = s.events) :
      Heeds eventsOf s.events fun _ : Host => t := heeds_const (by rw [eventsOf, ht])
  unfold execInst
  by_cases hz : i = 0
  · simp only [if_pos hz]
    exact hkeep rfl
  by_cases hs : opcode i = some .OP_SPECIAL ∧ special i = some .SYSCALL
  · simp only [if_neg hz, if_pos hs]
    exact (callSyscall_heeds s).map (g := fun r => (if r.1 then Ret.stop else .ok, r.2))
      fun r => List.suffix_refl _
  by_cases hb : opcode i = some .OP_SPECIAL ∧ special i = some .BREAK
  · simp only [if_neg hz, if_neg hs, if_pos hb]
    exact hkeep rfl
  simp only [if_neg hz, if_neg hs, if_neg hb]
  cases ho : opcode i with
  | none => exact execImmediate_heeds i s
  | some o =>
    cases o with
    | OP_SPECIAL =>
      obtain ⟨reg, hi, lo, p, t, he⟩ := execRegister_frame i s
      have hevents : (execRegister i s).2.events = s.events := by rw [he]
      exact hkeep hevents
    | OP_SPECIAL2 =>
      obtain ⟨reg, hi, lo, he⟩ := execSpecial2_frame i s
      have hevents : (execSpecial2 i s).2.events = s.events := by rw [he]
      exact hkeep hevents
    | OP_COP1 =>
      intro h
      obtain ⟨reg, f, c, p, t, he⟩ := execCop1_frame h.fp i s
      refine ⟨?_, fun h' hh => ?_⟩
      · simp only [eventsOf, he]
        exact List.suffix_refl _
      · simp only [hh.fp]
    | LWC1 | LDC1 | SWC1 | SDC1 => exact execCop1Ldst_heeds i s
    | J | JAL =>
      obtain ⟨reg, p, t, he⟩ := execJump_frame i s
      have hevents : (execJump i s).2.events = s.events := by rw [he]
      exact hkeep hevents
    | _ => exact execImmediate_heeds i s

def finish (take : Bool) (target : Word) (r : Ret × State) : Ret × State :=
  match r.1 with
  | .ok =>
    let s' := { r.2 with pc := r.2.pc + 4 }
    (.ok, if take then { s' with pc := target } else s')
  | ret => (ret, r.2)

theorem finish_events (take : Bool) (target : Word) (r : Ret × State) :
    (finish take target r).2.events = r.2.events := by
  obtain ⟨_ | _ | _ | _, t⟩ := r
  · cases take <;> rfl
  all_goals rfl

theorem stepInstruction_heeds :
    Heeds eventsOf s.events fun h : Host => stepInstruction h s := by
  apply (execInst_heeds (wordAt s.memory s.pc) { s with branchPending := false }).map
    (g := finish s.branchPending s.branchTarget)
  intro r
  rw [eventsOf, eventsOf, finish_events]

end executors

theorem executeStep_heeds :
    StepHeeds State.events (fun r : ℕ × State => r.2.events) executeStep where
  next {h s t} hs := by
    obtain ⟨hgrows, hsame⟩ := stepInstruction_heeds s h
    dsimp only at hgrows hsame
    rw [executeStep_next hs] at hgrows hsame
    refine ⟨hgrows, fun h' hh => ?_⟩
    rw [executeStep, hsame h' hh]
  done {h s r} hs := by
    obtain ⟨hgrows, hsame⟩ := stepInstruction_heeds s h
    dsimp only [eventsOf] at hgrows hsame
    rw [executeStep_done hs] at hgrows hsame
    refine ⟨hgrows, fun h' hh => ?_⟩
    rw [← hs, executeStep, executeStep, hsame h' hh]

def recording (h : Host) : List Event → List Answers
  | [] => []
  | e :: E => recording h E ++ [h.answers (e :: E)]

def noAnswers : Answers := 
  ⟨0, 0, none, 0, (0, []), 0, ⟨false, false, false, false⟩, []⟩

/-- The host that plays the answers back in turn, whatever it is asked. -/
def replayer (haveSdl : Bool) (fp : FpUnit) (tape : List Answers) : Host :=
  let answer (e : List Event) : Answers := tape.getD (e.length - 1) noAnswers
  { haveSdl := haveSdl
    fp := fp
    scanInt := fun e => (answer e).scanInt
    scanChar := fun e => (answer e).scanChar
    readStdin := fun e => (answer e).readStdin
    openFile := fun e => (answer e).openFile
    readFile := fun e => (answer e).readFile
    writeFile := fun e => (answer e).writeFile
    sdlInit := fun e => (answer e).sdlInit
    sdlPoll := fun e => (answer e).sdlPoll }

theorem length_recording (h : Host) (E : List Event) : (recording h E).length = E.length := by
  induction E with
  | nil => rfl
  | cons e E ih => rw [recording, List.length_append, ih, List.length_singleton, List.length_cons]

theorem recording_get (h : Host) {e E : List Event} (he : e <:+ E) (hne : e ≠ []) :
    (recording h E)[e.length - 1]? = some (h.answers e) := by
  induction E with
  | nil => exact absurd (List.suffix_nil.mp he) hne
  | cons x E ih =>
    have hpos := List.length_pos_iff.mpr hne
    rw [recording]
    rcases List.suffix_cons_iff.mp he with rfl | he
    · rw [List.getElem?_append_right (by simp [length_recording])]
      simp [length_recording]
    · have hlen := he.length_le
      rw [List.getElem?_append_left (by rw [length_recording]; omega), ih he]

theorem replayer_agrees (h : Host) (E : List Event) :
    Agrees E h (replayer h.haveSdl h.fp (recording h E)) := by
  refine ⟨rfl, rfl, fun e he hne => ?_⟩
  have hget : (recording h E).getD (e.length - 1) noAnswers = h.answers e := by
    rw [List.getD_eq_getElem?_getD, recording_get h he hne, Option.getD_some]
  simp only [Host.answers, replayer, hget]

/-- A run depends on nothing but the program, the build, the arithmetic and what the host
answers to the interactions of that run: the history only grows, a host that answers these
alike gives the same run, and so does a host that plays back one recorded answer for each
interaction without looking at what it is asked. -/
theorem record_replay (h : Host) (s : State) :
    (∀ n t, Run.Steps (executeStep h) n s t → s.events <:+ t.events ∧
      (∀ h', Host.AgreesOn t.events h h' → Run.Steps (executeStep h') n s t) ∧
      Run.Steps (executeStep (replayer h.haveSdl h.fp (recording h t.events))) n s t) ∧
    (∀ n r, Run.run (executeStep h) n s = some r → s.events <:+ r.2.events ∧
      (∀ h', Host.AgreesOn r.2.events h h' → Run.run (executeStep h') n s = some r) ∧
      Run.run (executeStep (replayer h.haveSdl h.fp (recording h r.2.events))) n s = some r) ∧
    ∀ E, (recording h E).length = E.length := by
  refine ⟨?_, ?_, length_recording h⟩
  · intro n t hrun
    obtain ⟨hgrows, hsame⟩ := executeStep_heeds.steps hrun
    exact ⟨hgrows, hsame, hsame _ (replayer_agrees h t.events)⟩
  · intro n r hrun
    obtain ⟨hgrows, hsame⟩ := executeStep_heeds.run hrun
    exact ⟨hgrows, hsame, hsame _ (replayer_agrees h r.2.events)⟩

end MyMips
