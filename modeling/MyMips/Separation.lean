import MyMips.NativeRefine
import MyMips.Footprint
import MyMips.SyscallBounds
import MyMips.MemoryView

namespace MyMips

def storedBytes (i : Word) (s : State) : List Word :=
  match opcode i with
  | some .SB => bytesFrom (memAddr i s) 1
  | some .SH => bytesFrom (memAddr i s) 2
  | some .SW | some .SWC1 => bytesFrom (memAddr i s) 4
  | some .SDC1 => bytesFrom (memAddr i s) 8
  | some .SWL | some .SWR => bytesFrom (memAddr i s &&& ~~~3#32) 4
  | _ => []

/-- The buffer that `read_string` or `read` fills: its first offset and its length. -/
def readBuffer (s : State) : ℕ × ℕ :=
  match Switch.select Syscall (s.reg V0) with
  | some .readString => ((s.reg A0).toNat, (s.reg A1).toNat)
  | some .readFile => ((s.reg A1).toNat, (s.reg A2).toNat)
  | _ => (0, 0)

/-- The byte at `x` is in what the instruction stores or reads into. -/
def MayWrite (i : Word) (s : State) (x : Word) : Prop :=
  x ∈ storedBytes i s ∨ opcode i = some .OP_SPECIAL ∧ special i = some .SYSCALL ∧
    (readBuffer s).1 ≤ x.toNat ∧ x.toNat < (readBuffer s).1 + (readBuffer s).2

section writes
variable {h : Host} {i a v x : Word} {s : State} {n : ℕ}

theorem le_sub_of_not_mem (hx : x ∉ bytesFrom a n) : n ≤ (x - a).toNat := by
  by_contra hlt
  apply hx
  have hadd : a + BitVec.ofNat 32 (x - a).toNat = x := by
    rw [BitVec.ofNat_toNat, BitVec.setWidth_eq, BitVec.add_comm, BitVec.sub_add_cancel]
  rw [← hadd]
  exact mem_bytesFrom a (Nat.lt_of_not_le hlt)

theorem storeByte_memory (hx : x ∉ bytesFrom a 1) : (storeByte a v s).memory x = s.memory x := by
  rw [storeByte_eq]
  exact Bytes.write_of_le s.memory a x _ (le_sub_of_not_mem hx)

theorem storeHalf_memory (hx : x ∉ bytesFrom a 2) : (storeHalf a v s).memory x = s.memory x := by
  rw [storeHalf_eq]
  exact Bytes.write_of_le s.memory a x _ (le_sub_of_not_mem hx)

theorem storeWord_memory (hx : x ∉ bytesFrom a 4) :
    (storeWord h a v s).memory x = s.memory x := by
  by_cases hdev : a = GPU_FLUSH
  · have hflush : storeWord h a v s = (deviceStoreWord h a s).2 := by
      simp only [storeWord, deviceStoreWord, if_pos hdev]
    obtain ⟨r, k, e, hstore⟩ := deviceStoreWord_frame h a s
    rw [hflush, hstore]
  · rw [storeWord_eq h a v s hdev]
    exact Bytes.write_of_le s.memory a x _ (le_sub_of_not_mem hx)

/-- The two halves of a double word. -/
theorem not_mem_halves (hx : x ∉ bytesFrom a 8) : x ∉ bytesFrom a 4 ∧ x ∉ bytesFrom (a + 4) 4 := by
  constructor
  · intro hmem
    obtain ⟨k, hk, rfl⟩ := List.mem_map.mp hmem
    rw [List.mem_range] at hk
    exact hx (mem_bytesFrom a (by omega))
  · intro hmem
    obtain ⟨k, hk, rfl⟩ := List.mem_map.mp hmem
    rw [List.mem_range] at hk
    have hadd : a + 4 + BitVec.ofNat 32 k = a + BitVec.ofNat 32 (4 + k) :=
      Bytes.ofNat_add_ofNat a 4 k
    exact hx (hadd ▸ mem_bytesFrom a (by omega))

theorem callSyscall_memory_of (hx : ¬ ((readBuffer s).1 ≤ x.toNat ∧
    x.toNat < (readBuffer s).1 + (readBuffer s).2)) :
    (callSyscall h s).2.memory x = s.memory x := by
  unfold readBuffer at hx
  unfold callSyscall
  cases hn : Switch.select Syscall (s.reg V0) with
  | none => rfl
  | some c =>
    rw [hn] at hx
    cases c with
    | readString =>
      simp only [readString, State.record]
      cases h.readStdin (.readString (s.reg A0).toNat (s.reg A1).toNat :: s.events) with
      | none => rfl
      | some bytes =>
        apply copyIn_of_not_mem
        rw [length_strncpy (List.length_take_le _ _)]
        exact hx
    | readFile =>
      apply copyIn_of_not_mem
      have hlen := List.length_take_le (s.reg A2).toNat
        (h.readFile (.readFile (s.reg A0) (s.reg A1).toNat (s.reg A2).toNat :: s.events)).2
      intro hin
      exact hx ⟨hin.1, lt_of_lt_of_le hin.2 (Nat.add_le_add_left hlen _)⟩
    | _ => rfl

/-- An instruction changes no byte but those it stores or reads into. -/
theorem execInst_memory_of (hx : ¬ MayWrite i s x) :
    (execInst h i s).2.memory x = s.memory x := by
  obtain ⟨hstored, hbuffer⟩ := not_or.mp hx
  apply execInst_rule h (P := fun r => r.2.memory x = s.memory x)
  case hnop => exact fun _ => rfl
  case hsyscall =>
    intro ho hf
    exact callSyscall_memory_of fun hin => hbuffer ⟨ho, hf, hin⟩
  case hbreak => exact fun _ _ => rfl
  case hregister =>
    intro _ _ _
    obtain ⟨reg, hi, lo, p, t, he⟩ := execRegister_frame i s
    simp only [he]
  case hspecial2 =>
    intro _
    obtain ⟨reg, hi, lo, he⟩ := execSpecial2_frame i s
    simp only [he]
  case hcop1 =>
    intro _
    obtain ⟨reg, f, c, p, t, he⟩ := execCop1_frame h.fp i s
    simp only [he]
  case hldst =>
    rintro (ho | ho | ho | ho)
    · simp only [execCop1Ldst, ho, State.setFpr_memory, loadWord_memory]
    · simp only [execCop1Ldst, ho, State.setFpr_memory, loadWord_memory]
    · simp only [storedBytes, ho] at hstored
      simp only [execCop1Ldst, ho]
      exact storeWord_memory hstored
    · simp only [storedBytes, ho] at hstored
      obtain ⟨hlow, hhigh⟩ := not_mem_halves hstored
      simp only [execCop1Ldst, ho]
      rw [storeWord_memory hhigh, storeWord_memory hlow]
  case hjump =>
    intro _
    obtain ⟨reg, p, t, he⟩ := execJump_frame i s
    simp only [he]
  case himm =>
    intro _
    by_cases hk : keepsMemory i = true
    · rw [execImmediate_memory h hk]
    · cases ho : opcode i with
      | none => simp [keepsMemory, ho] at hk
      | some o =>
        simp only [storedBytes, ho] at hstored
        cases o with
        | SB =>
          simp only [execImmediate, ho, retire_snd, State.setReg_memory]
          exact storeByte_memory hstored
        | SH =>
          simp only [execImmediate, ho, retire_snd, State.setReg_memory]
          exact storeHalf_memory hstored
        | SW =>
          simp only [execImmediate, ho, retire_snd, State.setReg_memory]
          exact storeWord_memory hstored
        | SWL | SWR =>
          simp only [execImmediate, ho, retire_snd, State.setReg_memory]
          rw [storeWord_memory hstored, loadWord_memory]
        | OP_SPECIAL | SWC1 | SDC1 => simp only [execImmediate, ho]
        | _ => simp [keepsMemory, ho] at hk

theorem not_mayWrite_of_keepsMemory (hk : keepsMemory i = true) : ¬ MayWrite i s x := by
  have hnone : storedBytes i s = [] := by
    unfold keepsMemory at hk
    unfold storedBytes
    cases ho : opcode i with
    | none => rfl
    | some o =>
      rw [ho] at hk
      cases o with
      | SB | SH | SW | SWL | SWR | SWC1 | SDC1 => exact absurd hk Bool.noConfusion
      | _ => rfl
  rintro (hmem | ⟨ho, hf, _⟩)
  · rw [hnone] at hmem
    exact List.not_mem_nil hmem
  · simp [keepsMemory, ho, hf] at hk

end writes

def fetchedBytes (s : State) : List Word := bytesFrom (s.pc &&& ~~~3#32) 4

/-- Everything the program ever executes lies in `text`, and nothing it ever writes does. -/
def Separated (h : Host) (text : Set Word) : State → Prop :=
  Run.Always (executeStep h) fun t => (∀ x ∈ fetchedBytes t, x ∈ text) ∧
    ∀ x ∈ text, ¬ MayWrite (wordAt t.memory t.pc) t x

section separated
variable {h : Host} {text : Set Word} {s t t' : State} {n : ℕ}

theorem executeStep_memory_of {x : Word} (hstep : executeStep h t = .next t')
    (hx : ¬ MayWrite (wordAt t.memory t.pc) t x) : t'.memory x = t.memory x := by
  have hclear : ¬ MayWrite (wordAt t.memory t.pc) { t with branchPending := false } x := hx
  obtain ⟨pc, hframe⟩ := stepInstruction_frame h t
  have hnext := (executeStep_next hstep).symm.trans hframe
  rw [(Prod.mk.inj hnext).2]
  exact execInst_memory_of hclear

/-- The text stays as it was loaded. -/
theorem Separated.text_kept (hsep : Separated h text s) (hrun : Run.Steps (executeStep h) n s t) :
    ∀ x ∈ text, t.memory x = s.memory x := by
  apply hrun.invariant_along (I := fun t => ∀ x ∈ text, t.memory x = s.memory x)
    (P := fun t => ∀ x ∈ text, ¬ MayWrite (wordAt t.memory t.pc) t x)
  · intro t t' hkept hwrites hstep x hx
    rw [executeStep_memory_of hstep (hwrites x hx), hkept x hx]
  · exact fun m _ u hu => (hsep m u hu).2
  · exact fun _ _ => rfl

theorem Separated.keepsExecuted (hsep : Separated h text s) : KeepsExecuted h s := by
  intro n t t' hrun hstep pc hpc
  obtain ⟨m, u, _, hu, rfl⟩ := hpc
  rw [wordAt_eq, wordAt_eq]
  apply Bytes.load32_congr
  intro k hk
  have htext := (hsep m u hu).1 _ (mem_bytesFrom (u.pc &&& ~~~3#32) hk)
  exact executeStep_memory_of hstep ((hsep n t hrun).2 _ htext)

end separated

/-- A program that keeps its data out of its code: the code never changes, and, with no
straight line of it too long, it never does under the JIT either, which returns the same. What
counts as a write is decided by the instruction alone: the bytes of a store of any kind and
the buffer of a syscall that reads. -/
theorem separated_program (f : Surroundings) (h : Host) (mmap : Option (ℕ → Byte))
    (text : Set Word) (s : State) (h0 : s.reg 0 = 0) (hsep : Separated h text s) :
    (∀ n t, Run.Steps (executeStep h) n s t → ∀ x ∈ text, t.memory x = s.memory x) ∧
    (ShortBlocks h s →
      (∀ n u, Run.Steps (nativeStep f h) n ⟨emitInit mmap, s⟩ u →
        (∀ x ∈ text, u.guest.memory x = s.memory x) ∧
          EmitsInside f.glob u.guest.memory u.guest.pc u.jit) ∧
      ∀ r, Run.Returns (nativeStep f h) ⟨emitInit mmap, s⟩ r ↔
        Run.Returns (executeStep h) s r) := by
  have hkeep := hsep.keepsExecuted
  refine ⟨fun n t ht => hsep.text_kept ht, fun hshort => ?_⟩
  have hR := inStep_emitInit f mmap h0 hkeep hshort
  refine ⟨?_, nativeStep_matches.returns_iff hR⟩
  intro n u hu
  obtain ⟨k, t, hk, ⟨rfl, _⟩, _⟩ := nativeStep_matches.reached hR hu
  exact ⟨hsep.text_kept hk, hshort.always_emitsInside h0 hkeep mmap n u hu⟩

/-- `addiu r8, r8, 1; break` is separated from its first two words. -/
theorem separated_program_break :
    ∃ r, Run.Returns (nativeStep demoSurroundings nullHost) haltProgram r ∧
      Run.Returns (executeStep nullHost) haltProgram.guest r := by
  obtain ⟨t, r, h1, h2, ht⟩ := steps_halt
  -- Neither of the two words writes memory.
  have hsep : Separated nullHost {x | x.toNat < 8} haltProgram.guest := by
    have hbytes {u : State} (hall : (fetchedBytes u).all (fun x => x.toNat < 8) = true) :
        ∀ x ∈ fetchedBytes u, x ∈ {x : Word | x.toNat < 8} := fun x hx =>
      of_decide_eq_true (List.all_eq_true.mp hall x hx)
    refine Run.always_of_next h1 ⟨hbytes ?_, fun x _ => ?_⟩
      (Run.always_of_done h2 ⟨hbytes ?_, fun x _ => ?_⟩)
    · decide +kernel
    · exact not_mayWrite_of_keepsMemory (by decide +kernel)
    · rw [ht]
      decide +kernel
    · rw [ht]
      exact not_mayWrite_of_keepsMemory (by decide +kernel)
  obtain ⟨_, hjit⟩ := separated_program demoSurroundings nullHost (some fun _ => 0) _
    haltProgram.guest rfl hsep
  obtain ⟨_, hreturns⟩ := hjit shortBlocks_halt
  have hret : Run.Returns (executeStep nullHost) haltProgram.guest r := by
    refine ⟨0 + 1 + 1, ?_⟩
    rw [Run.run_add_of_steps (.head h1 (.refl t)), Run.run, h2]
  exact ⟨r, (hreturns r).mpr hret, hret⟩

end MyMips
