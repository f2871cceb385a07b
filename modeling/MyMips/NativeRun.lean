import MyMips.JitNative

/-! `execute_jit` with its blocks run as machine code. As long as `$0` is clear, every
turn of the loop is the turn that takes a block to have the effect of its instructions:
the cached blocks are in the buffer as they were emitted, whatever memory holds now. -/
namespace MyMips
open X86 (Machine)

/-- The emulator's surroundings when it calls a block: where `struct global` is, what the
host's registers and memory hold, and the return address. -/
structure Surroundings where
  glob : DWord
  machine : State → Machine
  addr : DWord
  clear : ∀ s, StackClear glob ((machine s).gpr X86.rsp)

def intByte (s : State) (d : ℕ) : Byte :=
  let v := if d < 128 then s.reg (BitVec.ofNat 5 (d / 4)) else if d < 132 then s.hi else s.lo
  (v >>> (8 * (d % 4))).setWidth 8

def image (glob : DWord) (s : State) (mem : Bytes.Store 64) : Bytes.Store 64 := fun a =>
  let d := (a - glob).toNat
  if d < INT_SIZE then intByte s d else mem a

def readBack (glob : DWord) (mem : Bytes.Store 64) (s : State) : State :=
  { s with
    reg := fun r => Bytes.load32 mem (field glob (4 * r.toNat))
    hi := Bytes.load32 mem (field glob 128)
    lo := Bytes.load32 mem (field glob 132)
    pc := Bytes.load32 mem (field glob 1088) }

/-- `fn()`: call the code of a block; `none` when it does not return to the caller. -/
def nativeCall (f : Surroundings) (j : Jit) (b : Block) (s : State) : Option State :=
  let m := (f.machine s).setMem (image f.glob s (f.machine s).mem)
  let code := nativeCode j b
  match Run.run X86.step code.length (m.call f.addr code) with
  | some (.returned addr m') => if addr = f.addr then some (readBack f.glob m'.mem s) else none
  | _ => none

/-- A native block is integer code. -/
theorem nativeCall_frame {f : Surroundings} {j : Jit} {b : Block} {s t : State}
    (ht : nativeCall f j b s = some t) :
    ∃ reg hi lo pc, t = { s with reg := reg, hi := hi, lo := lo, pc := pc } := by
  simp only [nativeCall] at ht
  split at ht
  · split_ifs at ht
    exact ⟨_, _, _, _, (Option.some.inj ht).symm⟩
  · simp at ht

def nativeStep (f : Surroundings) (h : Host) : JitState → Outcome (ℕ × State) JitState :=
  dispatchStep (nativeCall f) h f.glob

section turns
variable {f : Surroundings} {h : Host} {u v : JitState}

/-- A turn that goes on: a block, which changes registers, HI, LO and `pc` only, or a step
of the interpreter. -/
theorem nativeStep_next (hv : nativeStep f h u = .next v) :
    (∃ reg hi lo pc, v.guest = { u.guest with reg := reg, hi := hi, lo := lo, pc := pc }) ∨
      executeStep h u.guest = .next v.guest := by
  rcases dispatchStep_next hv with ⟨b, j, t, _, _, hcall, rfl⟩ | ⟨_, _, _, hone⟩
  · exact .inl (nativeCall_frame hcall)
  · exact .inr hone

end turns

theorem image_represents (glob : DWord) (s : State) (mem : Bytes.Store 64) :
    Represents glob s (image glob s mem) := by
  -- A field is four bytes of the image, and the image has them lowest first.
  have hword (d : ℕ) (v : Word) (hd : d + 4 ≤ INT_SIZE)
      (hv : ∀ k < 4, intByte s (d + k) = (v >>> (8 * k)).setWidth 8) :
      Bytes.load32 (image glob s mem) (field glob d) = v := by
    have hbyte (k : ℕ) (hk : k < 4) :
        image glob s mem (field glob d + BitVec.ofNat 64 k) = (v >>> (8 * k)).setWidth 8 := by
      unfold INT_SIZE at hd
      simp only [image, field, Bytes.ofNat_add_ofNat]
      rw [Bytes.toNat_offset glob (by omega), if_pos (by unfold INT_SIZE; omega), hv k hk]
    rw [Bytes.load32, hbyte 3 (by omega), hbyte 2 (by omega), hbyte 1 (by omega),
      hbyte 0 (by omega)]
    simpa using Bytes.append_le32 v
  refine ⟨fun r => ?_, ?_, ?_⟩
  · have hr := r.isLt
    refine hword _ _ (by unfold INT_SIZE; omega) ?_
    · intro k hk
      have hdiv : (4 * r.toNat + k) / 4 = r.toNat := by omega
      have hmod : (4 * r.toNat + k) % 4 = k := by omega
      simp only [intByte]
      rw [if_pos (by omega), hdiv, hmod, BitVec.ofNat_toNat, BitVec.setWidth_eq]
  · apply hword _ _ (by decide)
    intro k hk
    have hmod : (128 + k) % 4 = k := by omega
    simp only [intByte]
    rw [if_neg (by omega), if_pos (by omega), hmod]
  · apply hword _ _ (by decide)
    intro k hk
    have hmod : (132 + k) % 4 = k := by omega
    simp only [intByte]
    rw [if_neg (by omega), if_neg (by omega), hmod]

/-- The native code of an intact block has the effect of the instructions it was emitted
from, if the buffer has the whole of it. -/
theorem nativeCall_eq (f : Surroundings) (h : Host) {j : Jit} {b : Block}
    (hb : b.Intact f.glob j) {s : State} (h0 : s.reg 0 = 0) :
    nativeCall f j b s = blockCall h f.glob j b s := by
  obtain ⟨hback, hlost⟩ := native_call h hb h0 f.addr
    (m := (f.machine s).setMem (image f.glob s (f.machine s).mem))
    (image_represents f.glob s _) (f.clear s)
  rw [nativeCall, blockCall]
  by_cases hin : b.Inside f.glob j
  · obtain ⟨m', hrun, heffect⟩ := hback hin
    simp only [hrun, if_true, if_pos hin]
    obtain ⟨reg, hi, lo, pc, heq⟩ := blockEffect_frame h b s
    have hrep := heffect.rep
    have hpc := heffect.pc
    rw [heq] at hrep hpc ⊢
    rw [readBack, hrep.hi, hrep.lo, hpc, funext hrep.reg]
  · rw [if_neg hin]
    split
    · rename_i addr m' hrun
      exact absurd hrun (hlost hin _ addr m')
    · rfl

def Sound (glob : DWord) (u : JitState) : Prop :=
  u.jit.Blocks (fun b => b.Intact glob u.jit) ∧ u.guest.reg 0 = 0

section sound
variable {f : Surroundings} {h : Host} {u v : JitState}

/-- With sound blocks the native loop takes the same turn as the loop of block effects. -/
theorem nativeStep_eq (hu : Sound f.glob u) : nativeStep f h u = jitStep h f.glob u := by
  rcases dispatchStep_cases h f.glob u with ⟨b, j, _, hfind, hstep⟩ | ⟨j, _, hstep⟩
  · obtain ⟨-, hb, -⟩ := findBlock_blocks (P := fun j b => b.Intact f.glob j) hu.1
      (fun b hb => hb.compileBlock _ _) hfind (fun hc => (compileBlock_some hc).2.2.2.2.2)
    have hcall := nativeCall_eq f h (j := cacheInsert u.guest.pc b j) hb hu.2
    rw [nativeStep, jitStep, hstep, hstep, hcall]
  · rw [nativeStep, jitStep, hstep, hstep]

/-- A step keeps `$0` clear, in the returned state too. -/
theorem executeStep_reg_zero {s : State} (h0 : s.reg 0 = 0) :
    (∀ t, executeStep h s = .next t → t.reg 0 = 0) ∧
      ∀ r, executeStep h s = .done r → r.2.reg 0 = 0 := by
  have hstep := stepInstruction_reg_zero h s h0
  constructor
  · intro t ht
    rwa [executeStep_next ht] at hstep
  · intro r hr
    rwa [executeStep_done hr] at hstep

theorem runWords_reg_zero (words : List Word) {s : State} (h0 : s.reg 0 = 0) :
    (runWords h words s).reg 0 = 0 := by
  induction words generalizing s with
  | nil => exact h0
  | cons i words ih => exact ih (execInst_reg_zero h i s h0)

theorem sound_step {glob : DWord} (hu : Sound glob u) :
    (∀ v, jitStep h glob u = .next v → Sound glob v) ∧
      ∀ r, jitStep h glob u = .done r → r.2.reg 0 = 0 := by
  constructor
  · intro v hv
    rcases dispatchStep_next hv with ⟨b, j, t, _, hfind, hcall, rfl⟩ | ⟨j, hj, hjit, hone⟩
    · obtain ⟨-, -, hall⟩ := findBlock_blocks (P := fun j b => b.Intact glob j) hu.1
        (fun b hb => hb.compileBlock _ _) hfind (fun hc => (compileBlock_some hc).2.2.2.2.2)
      obtain ⟨-, rfl⟩ := blockCall_some h hcall
      exact ⟨hall, runWords_reg_zero b.words hu.2⟩
    · refine ⟨?_, executeStep_reg_zero hu.2 |>.1 _ hone⟩
      rw [hjit]
      rcases hj with rfl | rfl
      · exact hu.1
      · exact hu.1.mono compileBlock_cache fun b hb => hb.compileBlock _ _
  · intro r hr
    exact (executeStep_reg_zero hu.2).2 r (dispatchStep_done hr)

theorem sound_emitInit (glob : DWord) (mmap : Option (ℕ → Byte)) {s : State}
    (h0 : s.reg 0 = 0) : Sound glob ⟨emitInit mmap, s⟩ := ⟨emitInit_blocks mmap, h0⟩

/-- A native run is a run of block effects through sound states. -/
theorem steps_native {n : ℕ} (hrun : Run.Steps (nativeStep f h) n u v) (hu : Sound f.glob u) :
    Run.Steps (jitStep h f.glob) n u v ∧ Sound f.glob v := by
  induction hrun with
  | refl u => exact ⟨.refl u, hu⟩
  | head hstep _ ih =>
    rw [nativeStep_eq hu] at hstep
    obtain ⟨hrest, hv⟩ := ih ((sound_step hu).1 _ hstep)
    exact ⟨.head hstep hrest, hv⟩

end sound

/-- `$0` is hardwired to zero: after every instruction word, after every step of every
run of the interpreter, and after every turn of every run of the JIT with its blocks run
as machine code, in the states both return included. -/
theorem zero_register_hardwired (h : Host) (f : Surroundings) (mmap : Option (ℕ → Byte))
    (s : State) (h0 : s.reg 0 = 0) :
    (∀ i, (execInst h i s).2.reg 0 = 0) ∧
    (∀ n t, Run.Steps (executeStep h) n s t →
      t.reg 0 = 0 ∧ ∀ r, executeStep h t = .done r → r.2.reg 0 = 0) ∧
    (∀ n u, Run.Steps (nativeStep f h) n ⟨emitInit mmap, s⟩ u →
      u.guest.reg 0 = 0 ∧ ∀ r, nativeStep f h u = .done r → r.2.reg 0 = 0) := by
  refine ⟨fun i => execInst_reg_zero h i s h0, ?_, ?_⟩
  · intro n t hrun
    -- The invariant of the interpreter; a return does not break it either.
    have ht : t.reg 0 = 0 := by
      apply hrun.invariant (I := fun t => t.reg 0 = 0) ?_ h0
      exact fun a b ha hab => (executeStep_reg_zero ha).1 b hab
    exact ⟨ht, (executeStep_reg_zero ht).2⟩
  · intro n u hrun
    obtain ⟨-, hu⟩ := steps_native hrun (sound_emitInit f.glob mmap h0)
    refine ⟨hu.2, fun r hr => ?_⟩
    rw [nativeStep_eq hu] at hr
    exact (sound_step hu).2 r hr

def demoSurroundings : Surroundings where
  glob := 0x10000
  machine := fun _ => ⟨Function.update (fun _ => 0) X86.rsp 0x8000,
    ⟨none, none, none, none⟩, fun _ => 0, []⟩
  addr := 0x400
  clear := by
    intro s
    change StackClear 0x10000 0x8000
    unfold StackClear
    decide

/-- `addiu r0, r0, 5` interpreted, and the first native block of the loop program. -/
theorem zero_register_hardwired_addiu :
    (execInst nullHost 0x24000005#32 loopProgram.guest).2.reg 0 = 0 ∧
    ∃ v, nativeStep demoSurroundings nullHost loopProgram = .next v ∧ v.guest.reg 0 = 0 := by
  have h0 : loopProgram.guest.reg 0 = 0 := by decide
  obtain ⟨hexec, -, hnative⟩ := zero_register_hardwired nullHost demoSurroundings
    (some fun _ => 0) loopProgram.guest h0
  have hsound : Sound demoSurroundings.glob loopProgram := sound_emitInit _ _ h0
  obtain ⟨v, hv⟩ : ∃ v, nativeStep demoSurroundings nullHost loopProgram = .next v := by
    rw [nativeStep_eq hsound]
    exact ⟨_, rfl⟩
  exact ⟨hexec _, v, hv, (hnative 1 v (.head hv (.refl v))).1⟩

end MyMips
