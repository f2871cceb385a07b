import MyMips.NativeRun
import MyMips.BlockStore

/-! `execute_jit` with its blocks run as machine code against `execute`, under conditions
on the interpreted program alone: a program that does not rewrite what it has executed,
and no straight line of it too long for the room `compile_block` tests for. -/
namespace MyMips

/-- The address is the program counter of one of the first `n` steps of the interpreter. -/
def Executed (h : Host) (s : State) (n : ℕ) (pc : Word) : Prop :=
  ∃ m u, m < n ∧ Run.Steps (executeStep h) m s u ∧ u.pc = pc

/-- No step of the interpreter changes a word that it has executed before. -/
def KeepsExecuted (h : Host) (s : State) : Prop :=
  ∀ n t t', Run.Steps (executeStep h) n s t → executeStep h t = .next t' →
    ∀ pc, Executed h s n pc → wordAt t'.memory pc = wordAt t.memory pc

/-- The translations of the words from any reached `pc` on fit, with the 31 bytes around
them, in the 8192 bytes that `compile_block` tests for. -/
def ShortBlocks (h : Host) : State → Prop :=
  Run.Always (executeStep h) fun t =>
    12 + ((blockWords t.memory t.pc).map codeSize).sum + 19 ≤ 8192

def Block.Executed (h : Host) (s : State) (n : ℕ) (b : Block) : Prop :=
  ∀ k < b.words.length, MyMips.Executed h s n (b.pc + BitVec.ofNat 32 (4 * k))

section executed
variable {h : Host} {s : State} {n k : ℕ} {b : Block}

theorem Executed.mono {pc : Word} (hpc : Executed h s n pc) (hnk : n ≤ k) :
    Executed h s k pc := by
  obtain ⟨m, u, hm, hu, hp⟩ := hpc
  exact ⟨m, u, lt_of_lt_of_le hm hnk, hu, hp⟩

theorem fetch_take (m : Memory) (pc : Word) (hk : k ≤ n) :
    (fetch m pc n).take k = fetch m pc k := by
  rw [fetch, ← List.map_take, List.take_range, Nat.min_eq_left hk, fetch]

/-- The first words of a block are a run of their own, and it ends at the next word. -/
theorem steps_block_take {t : State} (hm : b.Matches t.memory) (hpc : b.pc = t.pc)
    (hs : t.branchPending = false) (hk : k ≤ b.words.length) :
    Run.Steps (executeStep h) k t
      { runWords h (b.words.take k) t with pc := b.pc + BitVec.ofNat 32 (4 * k) } := by
  have hinlined (i : Word) (hi : i ∈ b.words.take k) : (jitEmit i).1 = true :=
    b.inlined i (List.mem_of_mem_take hi)
  have hlength : (b.words.take k).length = k := by
    rw [List.length_take, Nat.min_eq_left hk]
  have hfetch : b.words.take k = fetch t.memory b.pc (b.words.take k).length := by
    rw [hlength, ← fetch_take t.memory b.pc hk, ← hm]
  have hsteps := steps_words h hinlined t b.pc hfetch hs
  rw [hlength, hpc] at hsteps
  rw [hpc]
  exact hsteps

/-- Running a block executes each of its words. -/
theorem Block.executed_of_matches {t : State} (hrun : Run.Steps (executeStep h) n s t)
    (hm : b.Matches t.memory) (hpc : b.pc = t.pc) (hs : t.branchPending = false) :
    b.Executed h s (n + b.words.length) := by
  intro k hk
  exact ⟨n + k, _, by omega, hrun.trans (steps_block_take hm hpc hs hk.le), rfl⟩

end executed

section step
variable {h : Host} {glob : DWord} {s : State} {n : ℕ} {u v : JitState}

/-- Where a run of the dispatcher is: at a state of the interpreter, with a coherent cache
of executed words. -/
structure Caught (h : Host) (glob : DWord) (s : State) (n : ℕ) (u : JitState) : Prop where
  steps : Run.Steps (executeStep h) n s u.guest
  coherent : Coherent glob u
  executed : u.jit.Blocks (Block.Executed h s n)

theorem caught_emitInit (mmap : Option (ℕ → Byte)) (s : State) :
    Caught h glob s 0 ⟨emitInit mmap, s⟩ where
  steps := .refl s
  coherent := coherent_emitInit mmap s
  executed := emitInit_blocks mmap

/-- The block found for `pc` is a block of the words there. -/
theorem Coherent.found {b : Block} {j : Jit} (hu : Coherent glob u)
    (hfind : findBlock glob u.guest.memory u.guest.pc u.jit = (some b, j)) :
    b.pc = u.guest.pc ∧ b.Matches u.guest.memory := by
  obtain ⟨hpc, hb, _⟩ := findBlock_blocks (P := fun _ b => b.Matches u.guest.memory)
    (hu.mono rfl fun _ hb => hb.2.2) (fun _ hb => hb) hfind
    (fun hc => (compileBlock_some hc).2.1)
  exact ⟨hpc, hb⟩

/-- A program that keeps what it has executed keeps the cached blocks. -/
theorem Caught.keepsCode (hu : Caught h glob s n u) (hkeep : KeepsExecuted h s) :
    KeepsCode h glob u := by
  intro v hv x b hvalid hfn
  rcases dispatchStep_next hv with ⟨_, _, t, _, _, hcall, rfl⟩ | ⟨_, _, _, hone⟩
  · -- A block leaves the whole memory alone.
    obtain ⟨-, rfl⟩ := blockCall_some h hcall
    rw [blockEffect_memory]
  · obtain ⟨b', hb', _, hexec⟩ := hu.executed x hvalid
    obtain rfl : b = b' := Option.some.inj (hfn.symm.trans hb')
    apply List.map_congr_left
    intro k hk
    apply hkeep n _ _ hu.steps hone
    exact hexec k (List.mem_range.mp hk)

/-- A turn of the dispatcher goes on to a later state of the interpreter. -/
theorem Caught.next (hu : Caught h glob s n u) (hkeep : KeepsExecuted h s)
    (hstep : jitStep h glob u = .next v) : ∃ k, Caught h glob s k v := by
  have hcoherent := coherent_step hu.coherent (hu.keepsCode hkeep) hstep
  rcases dispatchStep_next hstep with
    ⟨b, j, t, hpending, hfind, hcall, rfl⟩ | ⟨j, hj, hjit, hone⟩
  · -- A block: found in the cache or just compiled, its words are executed now.
    obtain ⟨-, rfl⟩ := blockCall_some h hcall
    obtain ⟨hbpc, hb⟩ := hu.coherent.found hfind
    have hcache : j.cache = u.jit.cache := by
      rcases findBlock_cases hfind with ⟨_, rfl⟩ | hc
      · rfl
      · exact (congrArg (fun r => r.2.cache) hc).symm.trans compileBlock_cache
    refine ⟨n + b.words.length, ?_, hcoherent, ?_⟩
    · exact hu.steps.trans (steps_block h hb hbpc hpending)
    · apply Jit.Blocks.insert _ hbpc
      · exact Block.executed_of_matches hu.steps hb hbpc hpending
      · exact hu.executed.mono hcache fun b hb k hk => (hb k hk).mono (Nat.le_add_right n _)
  · -- One step of the interpreter.
    have hcache : v.jit.cache = u.jit.cache := by
      rw [hjit]
      rcases hj with rfl | rfl
      · rfl
      · exact compileBlock_cache
    refine ⟨n + 1, hu.steps.tail hone, hcoherent, ?_⟩
    exact hu.executed.mono hcache fun b hb k hk => (hb k hk).mono (Nat.le_succ n)

theorem caught_of_steps (hkeep : KeepsExecuted h s) (mmap : Option (ℕ → Byte)) {k : ℕ}
    (hrun : Run.Steps (jitStep h glob) k ⟨emitInit mmap, s⟩ u) : ∃ n, Caught h glob s n u := by
  apply hrun.invariant (I := fun u => ∃ n, Caught h glob s n u)
  · rintro u v ⟨n, hu⟩ hstep
    exact hu.next hkeep hstep
  · exact ⟨0, caught_emitInit mmap s⟩

end step

section native
variable {f : Surroundings} {h : Host}

/-- The native dispatcher is in step with the interpreter. -/
theorem nativeStep_matches : Run.Matches (nativeStep f h) (executeStep h) fun u s =>
    InStep h f.glob u s ∧ Sound f.glob u := by
  rintro u s ⟨hin, hsound⟩
  have hturn := jitStep_matches u s hin
  rw [nativeStep_eq hsound]
  cases hstep : jitStep h f.glob u with
  | next v =>
    rw [hstep] at hturn
    obtain ⟨k, s', hk, hsteps, hin'⟩ := hturn
    exact ⟨k, s', hk, hsteps, hin', (sound_step hsound).1 v hstep⟩
  | done r =>
    rw [hstep] at hturn
    exact hturn
  | crash =>
    rw [hstep] at hturn
    exact hturn

/-- Short blocks fit wherever `compile_block` does not refuse them. -/
theorem ShortBlocks.roomy {s : State} (hshort : ShortBlocks h s) {n : ℕ} {t : State}
    (hrun : Run.Steps (executeStep h) n s t) (j : Jit) : Roomy t.memory t.pc j := by
  have hfits := hshort n t hrun
  by_cases hfull : j.codeCap < j.codeOff + 8192
  · exact .inr (.inl hfull)
  · exact .inr (.inr (.inr (by omega)))

/-- A fresh JIT is in step with a program that keeps what it has executed and has short
blocks. -/
theorem inStep_emitInit (f : Surroundings) (mmap : Option (ℕ → Byte)) {s : State}
    (h0 : s.reg 0 = 0) (hkeep : KeepsExecuted h s) (hshort : ShortBlocks h s) :
    InStep h f.glob ⟨emitInit mmap, s⟩ s ∧ Sound f.glob ⟨emitInit mmap, s⟩ := by
  refine ⟨⟨rfl, coherent_emitInit mmap s, ?_⟩, sound_emitInit f.glob mmap h0⟩
  intro n u hu
  obtain ⟨k, hk⟩ := caught_of_steps hkeep mmap hu
  exact ⟨hk.keepsCode hkeep, fun _ _ => hshort.roomy hk.steps u.jit⟩

theorem ShortBlocks.always_emitsInside {s : State} (hshort : ShortBlocks h s) (h0 : s.reg 0 = 0)
    (hkeep : KeepsExecuted h s) (mmap : Option (ℕ → Byte)) : Run.Always (nativeStep f h)
      (fun u => EmitsInside f.glob u.guest.memory u.guest.pc u.jit) ⟨emitInit mmap, s⟩ := by
  intro n u hu
  obtain ⟨k, t, hk, ⟨rfl, _⟩, _⟩ :=
    nativeStep_matches.reached (inStep_emitInit f mmap h0 hkeep hshort) hu
  exact (emitsInside_iff _ _ _ _).mpr (hshort.roomy hk u.jit)

/-- A program that never rewrites an instruction it has executed runs under `execute_jit`,
with the blocks run as machine code, as it does under `execute`: one returns exactly when
the other does, with the same code and the same final state; the dispatcher passes only
states of the interpreter and keeps up with it. Without overlong straight lines the code
buffer is not overrun on the way. -/
theorem native_refines_interpreter (f : Surroundings) (h : Host) (mmap : Option (ℕ → Byte))
    (s : State) (h0 : s.reg 0 = 0) (hkeep : KeepsExecuted h s) (hshort : ShortBlocks h s) :
    (∀ r, Run.Returns (nativeStep f h) ⟨emitInit mmap, s⟩ r ↔ Run.Returns (executeStep h) s r) ∧
    (∀ n u, Run.Steps (nativeStep f h) n ⟨emitInit mmap, s⟩ u →
      EmitsInside f.glob u.guest.memory u.guest.pc u.jit ∧
        ∃ k, Run.Steps (executeStep h) k s u.guest) ∧
    (∀ k t, Run.Steps (executeStep h) k s t →
      ∃ n u j, Run.Steps (nativeStep f h) n ⟨emitInit mmap, s⟩ u ∧
        Run.Steps (executeStep h) j t u.guest) := by
  have hR := inStep_emitInit f mmap h0 hkeep hshort
  refine ⟨nativeStep_matches.returns_iff hR, ?_, ?_⟩
  · intro n u hu
    obtain ⟨k, t, hk, ⟨rfl, _⟩, _⟩ := nativeStep_matches.reached hR hu
    exact ⟨hshort.always_emitsInside h0 hkeep mmap n u hu, k, hk⟩
  · intro k t hk
    obtain ⟨n, u, j, v, hn, hj, ⟨rfl, _⟩, _⟩ := nativeStep_matches.catches_up hR hk
    exact ⟨n, u, j, hn, hj⟩

end native

/-- The states of `addiu r8, r8, 1; break`. -/
theorem steps_halt : ∃ t r, executeStep nullHost haltProgram.guest = .next t ∧
    executeStep nullHost t = .done r ∧ t = (stepInstruction nullHost haltProgram.guest).2 := by
  refine ⟨_, _, executeStep_of_ok ?_, executeStep_of_stop ?_, rfl⟩
  · decide +kernel
  · decide +kernel

/-- It executes one word before the last and stores nothing. -/
theorem keepsExecuted_halt : KeepsExecuted nullHost haltProgram.guest := by
  obtain ⟨t, r, h1, h2, _⟩ := steps_halt
  intro n u v hu hv pc hpc
  obtain ⟨m, _, hm, _⟩ := hpc
  -- The first step has nothing behind it, and the second does not go on.
  have hlate : Run.Steps (executeStep nullHost) (n - 1) t u :=
    hu.drop (.head h1 (.refl t)) (by omega)
  obtain ⟨_, rfl⟩ := hlate.eq_zero (by simp [h2])
  rw [h2] at hv
  exact absurd hv (by simp)

/-- Its blocks are short. -/
theorem shortBlocks_halt : ShortBlocks nullHost haltProgram.guest := by
  obtain ⟨t, r, h1, h2, ht⟩ := steps_halt
  rw [ShortBlocks]
  refine Run.always_of_next h1 ?_ (Run.always_of_done h2 ?_)
  · decide +kernel
  · rw [ht]
    decide +kernel

/-- Native code returns what the interpreter does. -/
theorem native_refines_interpreter_break :
    ∃ r, Run.Returns (nativeStep demoSurroundings nullHost) haltProgram r ∧
      Run.Returns (executeStep nullHost) haltProgram.guest r := by
  obtain ⟨t, r, h1, h2, _⟩ := steps_halt
  obtain ⟨hreturns, _, _⟩ := native_refines_interpreter demoSurroundings nullHost
    (some fun _ => 0) haltProgram.guest rfl keepsExecuted_halt shortBlocks_halt
  have hret : Run.Returns (executeStep nullHost) haltProgram.guest r := by
    refine ⟨0 + 1 + 1, ?_⟩
    rw [Run.run_add_of_steps (.head h1 (.refl t)), Run.run, h2]
  exact ⟨r, (hreturns r).mpr hret, hret⟩

end MyMips
