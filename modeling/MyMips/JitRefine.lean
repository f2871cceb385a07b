import MyMips.JitBuffer

/-! `execute_jit` against `execute`. The dispatcher is in step with the interpreter as long
as the cached blocks match memory and lie in the buffer: a block is as many interpreter
steps as it has instructions, every other turn of the loop is one step. -/
namespace MyMips

section block
variable (h : Host)

theorem runWords_cons (i : Word) (words : List Word) (s : State) :
    runWords h (i :: words) s = runWords h words (execInst h i s).2 := rfl

theorem jitEmit_frame {i : Word} (hi : (jitEmit i).1 = true) (s : State) :
    ∃ reg hi lo, execInst h i s = (.ok, { s with reg := reg, hi := hi, lo := lo }) :=
  ⟨_, _, _, jitEmit_exec h i s hi s.pc s.branchPending⟩

/-- Inlined instructions change registers, HI and LO only. -/
theorem runWords_frame {words : List Word} (hw : ∀ i ∈ words, (jitEmit i).1 = true)
    (s : State) : ∃ reg hi lo, runWords h words s = { s with reg := reg, hi := hi, lo := lo } := by
  induction words generalizing s with
  | nil => exact ⟨s.reg, s.hi, s.lo, rfl⟩
  | cons i words ih =>
    obtain ⟨reg, hi', lo, hexec⟩ := jitEmit_frame h (hw i (List.mem_cons_self ..)) s
    obtain ⟨reg', hi'', lo', hrun⟩ := ih (fun k hk => hw k (List.mem_cons_of_mem i hk))
      (execInst h i s).2
    refine ⟨reg', hi'', lo', ?_⟩
    rw [runWords_cons, hrun, hexec]

theorem blockEffect_frame (b : Block) (s : State) :
    ∃ reg hi lo pc, blockEffect h b s = { s with reg := reg, hi := hi, lo := lo, pc := pc } := by
  obtain ⟨reg, hi, lo, hrun⟩ := runWords_frame h b.inlined s
  exact ⟨reg, hi, lo, _, by rw [blockEffect, hrun]⟩

@[simp] theorem blockEffect_memory (b : Block) (s : State) :
    (blockEffect h b s).memory = s.memory := by
  obtain ⟨reg, hi, lo, pc, he⟩ := blockEffect_frame h b s
  rw [he]

theorem blockCall_some {glob : DWord} {j : Jit} {b : Block} {s t : State}
    (ht : blockCall h glob j b s = some t) : b.Inside glob j ∧ t = blockEffect h b s := by
  rw [blockCall] at ht
  split_ifs at ht with hin
  exact ⟨hin, (Option.some.inj ht).symm⟩

/-- One inlined instruction at `pc`, outside a delay slot, as a step of the interpreter. -/
theorem step_inlined {i : Word} (hi : (jitEmit i).1 = true) (s : State) (p : Word)
    (hfetch : wordAt s.memory p = i) (hs : s.branchPending = false) :
    executeStep h { s with pc := p } = .next { (execInst h i s).2 with pc := p + 4 } := by
  have hexec := jitEmit_exec h i s hi p false
  have hself := jitEmit_exec h i s hi s.pc s.branchPending
  rw [executeStep, stepInstruction]
  simp only [hfetch, hexec, hs]
  rw [hself, hs]
  simp

/-- The words that memory holds from `p` on, executed by the interpreter. -/
theorem steps_words {words : List Word} (hw : ∀ i ∈ words, (jitEmit i).1 = true) (s : State)
    (p : Word) (hfetch : words = fetch s.memory p words.length) (hs : s.branchPending = false) :
    Run.Steps (executeStep h) words.length { s with pc := p }
      { runWords h words s with pc := p + BitVec.ofNat 32 (4 * words.length) } := by
  induction words generalizing s p with
  | nil => simpa [runWords] using Run.Steps.refl { s with pc := p }
  | cons i words ih =>
    rw [List.length_cons, fetch_succ] at hfetch
    obtain ⟨hi, htail⟩ := List.cons.inj hfetch
    obtain ⟨reg, hi', lo, hexec⟩ := jitEmit_frame h (hw i (List.mem_cons_self ..)) s
    have hmem : (execInst h i s).2.memory = s.memory := by rw [hexec]
    have hpending : (execInst h i s).2.branchPending = false := by rw [hexec]; exact hs
    have hrest := ih (fun k hk => hw k (List.mem_cons_of_mem i hk)) (execInst h i s).2 (p + 4)
      (by rw [hmem]; exact htail) hpending
    rw [add_four_mul] at hrest
    exact .head (step_inlined h (hw i (List.mem_cons_self ..)) s p hi.symm hs) hrest

/-- A block whose words memory still holds does what that many interpreter steps do. -/
theorem steps_block {b : Block} {s : State} (hm : b.Matches s.memory) (hpc : b.pc = s.pc)
    (hs : s.branchPending = false) :
    Run.Steps (executeStep h) b.words.length s (blockEffect h b s) := by
  have hsteps := steps_words h b.inlined s b.pc hm hs
  rw [blockEffect]
  rw [hpc] at hsteps ⊢
  exact hsteps

end block

section coherence
variable (h : Host) (glob : DWord)

/-- The next turn of the loop leaves the guest words of every cached block as they are. -/
def KeepsCode (u : JitState) : Prop :=
  ∀ v, jitStep h glob u = .next v → ∀ x b, (u.jit.cache x).valid = true →
    (u.jit.cache x).fn = some b →
      fetch v.guest.memory b.pc b.words.length = fetch u.guest.memory b.pc b.words.length

/-- The whole of every cached block is in the buffer, and it matches memory. -/
def Coherent (u : JitState) : Prop :=
  u.jit.Blocks fun b => b.Intact glob u.jit ∧ b.Inside glob u.jit ∧ b.Matches u.guest.memory

/-- The next turn of the loop compiles nothing that runs over the end of the buffer. -/
def FitsBuffer (u : JitState) : Prop :=
  u.guest.branchPending = false → cacheLookup u.guest.pc u.jit = none →
    Roomy u.guest.memory u.guest.pc u.jit

variable {h glob} {u v : JitState}

/-- The kinds of turns, with what each leaves in the cache. -/
theorem jitStep_cases (hu : Coherent glob u) :
    (∃ b j, u.guest.branchPending = false ∧ b.pc = u.guest.pc ∧ b.Matches u.guest.memory ∧
      jitStep h glob u = .next ⟨cacheInsert u.guest.pc b j, blockEffect h b u.guest⟩ ∧
      (cacheInsert u.guest.pc b j).Blocks fun b =>
        b.Intact glob (cacheInsert u.guest.pc b j) ∧ b.Inside glob (cacheInsert u.guest.pc b j) ∧
          b.Matches u.guest.memory) ∨
    (jitStep h glob u = .crash ∧ ¬ FitsBuffer u) ∨
    (∃ j, j.cache = u.jit.cache ∧ j.codeCap = u.jit.codeCap ∧
      (∀ b, Block.Intact b glob u.jit → Block.Intact b glob j) ∧
      jitStep h glob u = interpret h ⟨j, u.guest⟩) := by
  -- A turn runs a block, cached or new, or interprets one instruction.
  rcases dispatchStep_cases h glob u with
    ⟨b, j, hpending, hfind, hstep⟩ | ⟨j, hj, hstep⟩
  · have hturn := hstep (blockCall h glob)
    rw [blockCall] at hturn
    by_cases hin : b.Inside glob (cacheInsert u.guest.pc b j)
    · rw [if_pos hin] at hturn
      obtain ⟨hpc, hb, hall⟩ := findBlock_blocks
        (P := fun j b => b.Intact glob j ∧ b.Inside glob j ∧ b.Matches u.guest.memory) hu
        (fun b hb => ⟨hb.1.compileBlock _ _, inside_compileBlock.mpr hb.2.1, hb.2.2⟩) hfind
        (fun hc => ⟨(compileBlock_some hc).2.2.2.2.2, hin, (compileBlock_some hc).2.1⟩)
      exact .inl ⟨b, j, hpending, hpc, hb.2.2, hturn, hall⟩
    · -- A block that does not fit has just been compiled.
      rw [if_neg hin] at hturn
      refine .inr (.inl ⟨hturn, fun hfits => hin ?_⟩)
      rw [findBlock] at hfind
      cases hlookup : cacheLookup u.guest.pc u.jit with
      | some b' =>
        rw [hlookup] at hfind
        obtain ⟨hb, rfl⟩ := Prod.mk.inj hfind
        obtain rfl := Option.some.inj hb
        exact (hu.lookup hlookup).2.2.1
      | none =>
        rw [hlookup] at hfind
        have hinside := (inside_iff_of_some hfind).mpr (hfits hpending hlookup)
        exact hinside
  · refine .inr (.inr ⟨j, ?_, ?_, ?_, hstep _⟩)
    · rcases hj with rfl | rfl
      · rfl
      · exact compileBlock_cache
    · rcases hj with rfl | rfl
      · rfl
      · exact compileBlock_codeCap
    · intro b hb
      rcases hj with rfl | rfl
      · exact hb
      · exact hb.compileBlock _ _

/-- A turn that keeps the cached words keeps the cache coherent. -/
theorem coherent_step (hu : Coherent glob u) (hkeep : KeepsCode h glob u)
    (hstep : jitStep h glob u = .next v) : Coherent glob v := by
  have hwords := hkeep v hstep
  rcases jitStep_cases (h := h) hu with
    ⟨b, j, _, _, _, hblock, hall⟩ | ⟨hcrash, _⟩ | ⟨j, hcache, hcap, hintact, hi⟩
  · obtain rfl := Outcome.next.inj (hblock.symm.trans hstep)
    rw [Coherent, blockEffect_memory]
    exact hall
  · rw [hcrash] at hstep
    exact absurd hstep nofun
  · rw [hi] at hstep
    obtain ⟨hjit, -⟩ := interpret_next hstep
    intro x hx
    rw [hjit, hcache] at hx ⊢
    obtain ⟨b, hb, hpc, hin, hinside, hm⟩ := hu x hx
    refine ⟨b, hb, hpc, ?_, ?_, ?_⟩
    · exact hintact b hin
    · rw [Block.Inside, hcap]
      exact hinside
    · rw [Block.Matches, hwords x b hx hb]
      exact hm

theorem keepsCode_of_memory (hstep : jitStep h glob u = .next v)
    (hm : v.guest.memory = u.guest.memory) : KeepsCode h glob u := by
  intro w hw x b _ _
  obtain rfl : v = w := by simpa using hstep.symm.trans hw
  rw [hm]

theorem coherent_emitInit (mmap : Option (ℕ → Byte)) (s : State) :
    Coherent glob ⟨emitInit mmap, s⟩ := emitInit_blocks mmap

end coherence

/-- The code at `fn` is the translation of a nonempty run of the words that memory holds
from `pc` on. -/
def IsTranslation (glob : DWord) (j : Jit) (fn : ℕ) (m : Memory) (pc : Word) : Prop :=
  ∃ buf n, j.codeBuf = some buf ∧ 0 < n ∧ (∀ i ∈ fetch m pc n, (jitEmit i).1 = true) ∧
    HoldsAt buf fn (blockCode glob pc (fetch m pc n))

/-- In every run no step of which changes a word that a cached block was translated from,
every cache hit is the translation of what memory holds at that moment. -/
theorem cache_hit_is_translation (h : Host) (glob : DWord) (mmap : Option (ℕ → Byte))
    (s : State) (n : ℕ) (u : JitState)
    (hrun : Run.Steps (jitStep h glob) n ⟨emitInit mmap, s⟩ u)
    (hkeep : Run.Along (jitStep h glob) (KeepsCode h glob) n ⟨emitInit mmap, s⟩) (b : Block)
    (hhit : cacheLookup u.guest.pc u.jit = some b) :
    IsTranslation glob u.jit b.fn u.guest.memory u.guest.pc := by
  have hu : Coherent glob u :=
    hrun.invariant_along (fun _ _ => coherent_step) hkeep (coherent_emitInit mmap s)
  obtain ⟨hpc, hin, hinside, hm⟩ := hu.lookup hhit
  obtain ⟨buf, hbuf, hheld⟩ := hin.whole hinside
  refine ⟨buf, b.words.length, hbuf, List.length_pos_iff.mpr b.nonempty, ?_, ?_⟩
  · rw [← hpc, ← hm]
    exact b.inlined
  · rw [← hpc, ← hm]
    exact hheld

/-- `addiu r8, r8, 1; j 0; nop`, and the states of its first turns. -/
def loopProgram : JitState :=
  ⟨emitInit (some fun _ => 0), resetState (flatImage [0x25080001#32, 0x08000000#32, 0]) 0⟩

def jitNext (u : JitState) : JitState :=
  match jitStep nullHost 0 u with
  | .next v => v
  | _ => u

/-- Back at its start, the loop finds the block of its first turn. -/
theorem cache_hit_is_translation_loop :
    let u := jitNext (jitNext (jitNext loopProgram))
    ∃ b, cacheLookup u.guest.pc u.jit = some b ∧
      IsTranslation 0 u.jit b.fn u.guest.memory u.guest.pc := by
  intro u
  have h1 : jitStep nullHost 0 loopProgram = .next (jitNext loopProgram) := rfl
  have h2 : jitStep nullHost 0 (jitNext loopProgram) = .next (jitNext (jitNext loopProgram)) := rfl
  have h3 : jitStep nullHost 0 (jitNext (jitNext loopProgram)) = .next u := rfl
  have hkeep : Run.Along (jitStep nullHost 0) (KeepsCode nullHost 0) 3 loopProgram :=
    Run.along_succ h1 (keepsCode_of_memory h1 rfl)
      (Run.along_succ h2 (keepsCode_of_memory h2 rfl)
        (Run.along_succ h3 (keepsCode_of_memory h3 rfl) Run.along_zero))
  have hhit : (cacheLookup u.guest.pc u.jit).isSome = true := by decide +kernel
  obtain ⟨b, hb⟩ := Option.isSome_iff_exists.mp hhit
  exact ⟨b, hb, cache_hit_is_translation nullHost 0 _ _ 3 u
    (.head h1 (.head h2 (.head h3 (.refl u)))) hkeep b hb⟩

/-- `addiu r8, r8, 1; sw r0, 0(r0); j 0; nop`: the store turns the first word into a nop. -/
def patchProgram : JitState :=
  ⟨emitInit (some fun _ => 0),
    resetState (flatImage [0x25080001#32, 0xAC000000#32, 0x08000000#32, 0]) 0⟩

/-- A block from offset 0 whose body's fourth byte is not the one a nop translates to. -/
theorem not_isTranslation {glob : DWord} {j : Jit} {m : Memory} {pc : Word}
    {buf : ℕ → Byte} (hbuf : j.codeBuf = some buf) (hm : wordAt m pc = 0)
    (hbyte : buf 15 ≠ 0) : ¬ IsTranslation glob j 0 m pc := by
  rintro ⟨buf', n, hbuf', hn, -, hheld⟩
  obtain rfl : buf' = buf := Option.some.inj (hbuf'.symm.trans hbuf)
  obtain ⟨n, rfl⟩ := Nat.exists_eq_succ_of_ne_zero (by omega : n ≠ 0)
  apply hbyte
  -- The prologue takes 12 bytes; then `ld(EAX, 0)` with its displacement last.
  have hcode : ∃ rest, blockCode glob pc (fetch m pc (n + 1)) =
      prologue glob ++ ([0x41, 0x8B, 0x47, 0x00] ++ rest) := by
    refine ⟨[0xC1, 0xE0, 0x00] ++ (fetch m (pc + 4) n).flatMap (fun i => (jitEmit i).2) ++
      epilogue glob (pc + BitVec.ofNat 32 (4 * (n + 1))), ?_⟩
    have hnop : (jitEmit 0).2 = [0x41, 0x8B, 0x47, 0x00, 0xC1, 0xE0, 0x00] := by decide
    simp only [blockCode, length_fetch]
    rw [fetch_succ, hm, List.flatMap_cons, hnop]
    simp
  obtain ⟨rest, hcode⟩ := hcode
  have hlen : 15 < (blockCode glob pc (fetch m pc (n + 1))).length := by
    rw [hcode]
    simp [prologue, e64, e32]
  have h15 := hheld 15 hlen
  simp only [hcode] at h15
  simpa [prologue, e64, e32] using h15

/-- The dispatcher hits a block whose word the program has overwritten. -/
theorem cache_hit_stale :
    ¬ ∀ (h : Host) (glob : DWord) (mmap : Option (ℕ → Byte)) (s : State) (n : ℕ) (u : JitState),
      Run.Steps (jitStep h glob) n ⟨emitInit mmap, s⟩ u → u.guest.branchPending = false →
        ∀ b, cacheLookup u.guest.pc u.jit = some b →
          IsTranslation glob u.jit b.fn u.guest.memory u.guest.pc := by
  intro hall
  have hrun : ∃ u, Run.Steps (jitStep nullHost 0) 4 patchProgram u ∧
      u.guest.branchPending = false ∧ u.guest.pc = 0 ∧ wordAt u.guest.memory 0 = 0 ∧
        (∃ b, cacheLookup 0 u.jit = some b ∧ b.fn = 0) ∧
          ∃ buf, u.jit.codeBuf = some buf ∧ buf 15 ≠ 0 := by
    have hafter : (Run.after (jitStep nullHost 0) 4 patchProgram).any (fun u =>
        !u.guest.branchPending && u.guest.pc == 0 && wordAt u.guest.memory 0 == 0 &&
          (cacheLookup 0 u.jit).any (fun b => b.fn == 0) &&
            u.jit.codeBuf.any (fun buf => buf 15 != 0)) = true := by decide +kernel
    obtain ⟨u, hu, hcheck⟩ := Option.any_eq_true _ _ |>.mp hafter
    simp only [Bool.and_eq_true, Bool.not_eq_true', beq_iff_eq, Option.any_eq_true,
      bne_iff_ne] at hcheck
    obtain ⟨⟨⟨⟨hpending, hpc⟩, hm⟩, b, hb, hfn⟩, buf, hbuf, hbyte⟩ := hcheck
    exact ⟨u, Run.steps_of_after hu, hpending, hpc, hm, ⟨b, hb, hfn⟩, buf, hbuf, hbyte⟩
  obtain ⟨u, hu, hpending, hpc, hm, ⟨b, hb, hfn⟩, buf, hbuf, hbyte⟩ := hrun
  have hit := hall nullHost 0 _ _ 4 u hu hpending b (hpc.symm ▸ hb)
  rw [hfn, hpc] at hit
  exact not_isTranslation hbuf hm hbyte hit

section refine
variable {h : Host} {glob : DWord}

/-- The dispatcher is where the interpreter is, and will keep the cached words and its
blocks inside the buffer. -/
def InStep (h : Host) (glob : DWord) (u : JitState) (s : State) : Prop :=
  u.guest = s ∧ Coherent glob u ∧
    Run.Always (jitStep h glob) (fun u => KeepsCode h glob u ∧ FitsBuffer u) u

theorem jitStep_matches : Run.Matches (jitStep h glob) (executeStep h) (InStep h glob) := by
  rintro u s ⟨rfl, hu, hkeep⟩
  rcases jitStep_cases (h := h) hu with
    ⟨b, j, hpending, hpc, hm, hstep, -⟩ | ⟨-, hnot⟩ | ⟨j, -, -, -, hstep⟩
  · rw [hstep]
    refine ⟨b.words.length, _, List.length_pos_iff.mpr b.nonempty,
      steps_block h hm hpc hpending, rfl, ?_, hkeep.next hstep⟩
    exact coherent_step hu hkeep.now.1 hstep
  · exact absurd hkeep.now.2 hnot
  · -- Interpreted: one step against one step.
    rw [interpret] at hstep
    dsimp only at hstep
    rcases hone : stepInstruction h u.guest with ⟨r, s'⟩
    rw [hone] at hstep
    cases r with
    | ok =>
      rw [hstep]
      refine ⟨1, s', by omega, .head ?_ (.refl s'), rfl, ?_, hkeep.next hstep⟩
      · rw [executeStep, hone]
      · exact coherent_step hu hkeep.now.1 hstep
    | err | stop | trap => rw [hstep, executeStep, hone]

/-- Where no turn changes a cached word or overruns the code buffer, `execute_jit` returns
exactly when `execute` does, with the same code and final state (the interactions with the
host included); every state it passes is one the interpreter passes, and it keeps up with
every step of the interpreter. -/
theorem jit_refines_interpreter (h : Host) (glob : DWord) (mmap : Option (ℕ → Byte)) (s : State)
    (hkeep : Run.Always (jitStep h glob) (fun u => KeepsCode h glob u ∧ FitsBuffer u)
      ⟨emitInit mmap, s⟩) :
    (∀ r, (∃ n, executeJit h glob mmap n s = some r) ↔ ∃ n, execute h n s = some r) ∧
    (∀ n u, Run.Steps (jitStep h glob) n ⟨emitInit mmap, s⟩ u →
      ∃ k, Run.Steps (executeStep h) k s u.guest) ∧
    (∀ k t, Run.Steps (executeStep h) k s t →
      ∃ n u j, Run.Steps (jitStep h glob) n ⟨emitInit mmap, s⟩ u ∧
        Run.Steps (executeStep h) j t u.guest) := by
  have hR : InStep h glob ⟨emitInit mmap, s⟩ s := ⟨rfl, coherent_emitInit mmap s, hkeep⟩
  refine ⟨jitStep_matches.returns_iff hR, ?_, ?_⟩
  · intro n u hu
    obtain ⟨k, t, hk, rfl, -⟩ := jitStep_matches.reached hR hu
    exact ⟨k, hk⟩
  · intro k t hk
    obtain ⟨n, u, j, v, hn, hj, rfl, -⟩ := jitStep_matches.catches_up hR hk
    exact ⟨n, u, j, hn, hj⟩

end refine

/-- `addiu r8, r8, 1; break`: a block, then a stop. -/
def haltProgram : JitState :=
  ⟨emitInit (some fun _ => 0), resetState (flatImage [0x25080001#32, 0x0000000D#32]) 0⟩

theorem jit_refines_interpreter_break :
    ∃ n k r, executeJit nullHost 0 (some fun _ => 0) n haltProgram.guest = some r ∧
      execute nullHost k haltProgram.guest = some r := by
  have h1 : jitStep nullHost 0 haltProgram = .next (jitNext haltProgram) := rfl
  obtain ⟨r, h2⟩ : ∃ r, jitStep nullHost 0 (jitNext haltProgram) = .done r := ⟨_, rfl⟩
  -- Both turns find the buffer all but empty.
  have hroom (u : JitState) (hu : u.jit.codeOff + LONGEST_BLOCK ≤ u.jit.codeCap) : FitsBuffer u :=
    fun _ _ => roomy_of_longest _ _ _ hu
  have hkeep : Run.Always (jitStep nullHost 0) (fun u => KeepsCode nullHost 0 u ∧ FitsBuffer u)
      haltProgram := by
    refine Run.always_of_next h1 ⟨keepsCode_of_memory h1 rfl, hroom _ (by decide +kernel)⟩
      (Run.always_of_done h2 ⟨?_, hroom _ (by decide +kernel)⟩)
    intro v hv
    exact absurd (h2.symm.trans hv) (by simp)
  have hjit : executeJit nullHost 0 (some fun _ => 0) 2 haltProgram.guest = some r := by
    refine (Run.run_add_of_steps (.head h1 (.refl _)) 1).trans ?_
    rw [Run.run, h2]
  obtain ⟨k, hk⟩ := ((jit_refines_interpreter nullHost 0 (some fun _ => 0) haltProgram.guest
    hkeep).1 r).mp ⟨2, hjit⟩
  exact ⟨2, k, r, hjit, hk⟩

structure SltiTurn (n : ℕ) (u : JitState) : Prop where
  le : n ≤ 860
  pending : u.guest.branchPending = false
  pc : u.guest.pc = BitVec.ofNat 32 (4096 * n)
  memory : u.guest.memory = sltiMemory
  codeBuf : u.jit.codeBuf.isSome = true
  codeCap : u.jit.codeCap = 16 * 1024 * 1024
  codeOff : u.jit.codeOff = n * 19487
  cached : u.jit.Blocks fun b => b.pc.toNat < 4096 * n

section slti
variable {h : Host} {glob : DWord} {n : ℕ} {u v : JitState}

/-- Every block starts behind the ones before. -/
theorem SltiTurn.miss (hu : SltiTurn n u) : cacheLookup u.guest.pc u.jit = none := by
  cases hlookup : cacheLookup u.guest.pc u.jit with
  | none => rfl
  | some b =>
    obtain ⟨hpc, hlt⟩ := hu.cached.lookup hlookup
    have hle := hu.le
    rw [hpc, hu.pc, BitVec.toNat_ofNat] at hlt
    omega

/-- The word a block starts with is inlined, and the test for 8192 free bytes passes. -/
theorem SltiTurn.compiles (glob : DWord) (hu : SltiTurn n u) :
    (jitEmit (wordAt u.guest.memory u.guest.pc)).1 = true ∧
      u.jit.codeOff + 8192 ≤ u.jit.codeCap ∧
      ∃ b j, compileBlock glob u.guest.memory u.guest.pc u.jit = (some b, j) := by
  have hle := hu.le
  have hword : (jitEmit (wordAt u.guest.memory u.guest.pc)).1 = true := by
    rw [← blockWords_ne_nil_iff, hu.memory, hu.pc]
    exact blockWords_slti_ne hle
  have hfree : u.jit.codeOff + 8192 ≤ u.jit.codeCap := by
    rw [hu.codeOff, hu.codeCap]
    omega
  exact ⟨hword, hfree, compileBlock_of_word glob hu.codeBuf hfree hword⟩

/-- Behind a block that was compiled and called the next one begins. -/
theorem SltiTurn.called {b : Block} {j : Jit} (h : Host) (hu : SltiTurn n u) (hlast : n < 860)
    (hc : compileBlock glob u.guest.memory u.guest.pc u.jit = (some b, j)) :
    SltiTurn (n + 1) ⟨cacheInsert u.guest.pc b j, blockEffect h b u.guest⟩ := by
  obtain ⟨hword, hfree, _⟩ := hu.compiles glob
  obtain ⟨reg, hi, lo, hrun⟩ := runWords_frame h b.inlined u.guest
  obtain ⟨hpc, _⟩ := compileBlock_some hc
  have hcount : b.words.length = 1024 := by
    rw [blockWords_of_some hc, hu.memory, hu.pc, blockWords_slti hu.le, List.length_replicate]
    rfl
  have hj : j = (compileBlock glob u.guest.memory u.guest.pc u.jit).2 := by rw [hc]
  have hcache : j.cache = u.jit.cache := hj ▸ compileBlock_cache
  have hbelow {x : Word} (hx : x.toNat < 4096 * n) : x.toNat < 4096 * (n + 1) := by omega
  constructor
  · omega
  · rw [blockEffect, hrun]
    exact hu.pending
  · change b.pc + BitVec.ofNat 32 (4 * b.words.length) = _
    rw [hpc, hu.pc, hcount, ← BitVec.ofNat_add]
    rfl
  · exact (blockEffect_memory h b u.guest).trans hu.memory
  · change j.codeBuf.isSome = true
    rw [hj, compileBlock_codeBuf, Option.isSome_map]
    exact hu.codeBuf
  · exact (hj ▸ compileBlock_codeCap : j.codeCap = u.jit.codeCap).trans hu.codeCap
  · change j.codeOff = (n + 1) * 19487
    rw [hj, compileBlock_codeOff _ _ _ _ hu.codeBuf hfree (blockWords_ne_nil_iff.mpr hword),
      hu.memory, hu.pc, sum_slti hu.le, hu.codeOff]
    omega
  · refine (hu.cached.mono hcache fun b hb => hbelow hb).insert hpc ?_
    rw [hpc, hu.pc, BitVec.toNat_ofNat]
    omega

/-- A turn goes on to the next block, but for the last one. -/
theorem SltiTurn.step (h : Host) (glob : DWord) (hu : SltiTurn n u) :
    (∃ v, jitStep h glob u = .next v ∧ v.guest.memory = u.guest.memory ∧ SltiTurn (n + 1) v) ∨
      jitStep h glob u = .crash := by
  obtain ⟨_, _, b, j, hc⟩ := hu.compiles glob
  have hturn : jitStep h glob u = if b.Inside glob j then
      .next ⟨cacheInsert u.guest.pc b j, blockEffect h b u.guest⟩ else .crash := by
    have hfind : findBlock glob u.guest.memory u.guest.pc u.jit = (some b, j) := by
      rw [findBlock, hu.miss, hc]
    have hin : b.Inside glob (cacheInsert u.guest.pc b j) ↔ b.Inside glob j := .rfl
    rw [jitStep, dispatchStep, if_neg (by simp [hu.pending])]
    simp only [hfind, blockCall, hin]
    split_ifs <;> rfl
  have hfits : b.Inside glob j ↔ n < 860 := by
    rw [inside_iff_of_some hc, hu.memory, hu.pc,
      roomy_slti hu.le hu.codeBuf hu.codeCap hu.codeOff]
  rw [hturn]
  by_cases hlast : n < 860
  · rw [if_pos (hfits.mpr hlast)]
    exact .inl ⟨_, rfl, blockEffect_memory h b u.guest, hu.called h hlast hc⟩
  · rw [if_neg (mt hfits.mp hlast)]
    exact .inr rfl

theorem SltiTurn.next (hu : SltiTurn n u) (hv : jitStep h glob u = .next v) :
    v.guest.memory = u.guest.memory ∧ SltiTurn (n + 1) v := by
  rcases hu.step h glob with ⟨w, hw, hnext⟩ | hcrash
  · obtain rfl := Outcome.next.inj (hw.symm.trans hv)
    exact hnext
  · exact absurd (hcrash.symm.trans hv) nofun

def sltiProgram : State := resetState sltiMemory 0

theorem sltiTurn_zero : SltiTurn 0 ⟨emitInit (some fun _ => 0), sltiProgram⟩ where
  le := Nat.zero_le _
  pending := rfl
  pc := rfl
  memory := rfl
  codeBuf := rfl
  codeCap := rfl
  codeOff := rfl
  cached := emitInit_blocks _

/-- Interpreted, it runs to its end. -/
theorem execute_slti (h : Host) : ∃ n t, execute h n sltiProgram = some (0, t) := by
  let words := List.replicate sltiWords sltiWord
  have hinlined (i : Word) (hi : i ∈ words) : (jitEmit i).1 = true :=
    List.eq_of_mem_replicate hi ▸ jitEmit_slti
  have hlength : words.length = sltiWords := List.length_replicate
  have hfetch : words = fetch sltiProgram.memory 0#32 words.length := by
    rw [hlength]
    exact (fetch_slti (k := 0) (Nat.zero_add _).le).symm
  obtain ⟨t, hm, hpc, hrun⟩ : ∃ t, t.memory = sltiMemory ∧
      t.pc = BitVec.ofNat 32 (4 * sltiWords) ∧
        Run.Steps (executeStep h) sltiWords sltiProgram t := by
    have hrun := steps_words h hinlined sltiProgram 0#32 hfetch rfl
    obtain ⟨reg, hi, lo, hend⟩ := runWords_frame h hinlined sltiProgram
    rw [hlength, BitVec.zero_add, hend] at hrun
    exact ⟨_, rfl, rfl, hrun⟩
  -- The word behind the last `slti`.
  have hstop : (stepInstruction h t).1 = .stop := by
    rw [stepInstruction, hm, hpc, wordAt_slti_end]
    rfl
  refine ⟨sltiWords + 1, (stepInstruction h t).2, ?_⟩
  rw [execute, Run.run_add_of_steps hrun, Run.run, executeStep_of_stop hstop]

/-- Under the JIT it never returns. -/
theorem executeJit_slti (h : Host) (glob : DWord) (n : ℕ) :
    executeJit h glob (some fun _ => 0) n sltiProgram = none := by
  rw [Option.eq_none_iff_forall_ne_some]
  intro r hr
  refine Run.run_rule (I := fun u => ∃ n, SltiTurn n u) (Q := fun _ => False) ?_ ?_ hr
    ⟨0, sltiTurn_zero⟩
  · rintro u v ⟨n, hu⟩ hv
    exact ⟨n + 1, (hu.next hv).2⟩
  · rintro u r ⟨n, hu⟩ hr
    rcases hu.step h glob with ⟨w, hw, _⟩ | hcrash
    · exact absurd (hw.symm.trans hr) nofun
    · exact absurd (hcrash.symm.trans hr) nofun

theorem keepsCode_slti (h : Host) (glob : DWord) :
    Run.Always (jitStep h glob) (KeepsCode h glob) ⟨emitInit (some fun _ => 0), sltiProgram⟩ := by
  intro n u hrun v hv
  obtain ⟨n, hu⟩ : ∃ n, SltiTurn n u := by
    refine hrun.invariant (I := fun u => ∃ n, SltiTurn n u) ?_ ⟨0, sltiTurn_zero⟩
    rintro u v ⟨n, hu⟩ hv
    exact ⟨n + 1, (hu.next hv).2⟩
  exact keepsCode_of_memory hv (hu.next hv).1 v hv

end slti

/-- A program that stores nothing: the interpreter comes to its end, the JIT runs over the end
of the code buffer. -/
theorem jit_refines_interpreter_fails :
    ¬ ∀ (h : Host) (glob : DWord) (mmap : Option (ℕ → Byte)) (s : State),
      Run.Always (jitStep h glob) (KeepsCode h glob) ⟨emitInit mmap, s⟩ →
        ∀ r, (∃ n, executeJit h glob mmap n s = some r) ↔ ∃ n, execute h n s = some r := by
  intro hall
  obtain ⟨n, t, hrun⟩ := execute_slti nullHost
  have hreturns := hall nullHost 0 (some fun _ => 0) sltiProgram (keepsCode_slti nullHost 0) (0, t)
  obtain ⟨k, hk⟩ := hreturns.mpr ⟨n, hrun⟩
  rw [executeJit_slti] at hk
  exact absurd hk nofun

end MyMips
