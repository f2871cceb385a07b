import MyMips.JitBuffer
import MyMips.Lib.Arena

namespace MyMips
open Arena

/-- One successful compilation: its argument, what it returned and what it wrote. -/
structure Issued where
  startPc : Word
  fn : Block
  bytes : List Byte

def Issued.segment (e : Issued) : Segment Byte := ⟨e.fn.fn, e.bytes⟩

/-- The calls of the loop of `execute_jit`, one turn after the other, as long as the code
buffer is not overrun. The list holds the compilations that returned a block. -/
inductive BlockRun (glob : DWord) (mmap : Option (ℕ → Byte)) : List Issued → Jit → Prop
  | init : BlockRun glob mmap [] (emitInit mmap)
  | hit {issued : List Issued} {j : Jit} {b : Block} (pc : Word) :
    BlockRun glob mmap issued j → cacheLookup pc j = some b →
    BlockRun glob mmap issued (cacheInsert pc b j)
  | compiled {issued : List Issued} {j j' : Jit} {b : Block} (m : Memory) (pc : Word) :
    BlockRun glob mmap issued j → cacheLookup pc j = none → EmitsInside glob m pc j →
    compileBlock glob m pc j = (some b, j') →
    BlockRun glob mmap (⟨pc, b, emitted glob m pc j⟩ :: issued) (cacheInsert pc b j')
  | refused {issued : List Issued} {j j' : Jit} (m : Memory) (pc : Word) :
    BlockRun glob mmap issued j → cacheLookup pc j = none → EmitsInside glob m pc j →
    compileBlock glob m pc j = (none, j') → BlockRun glob mmap issued j'

section compile
variable {glob : DWord} {m : Memory} {pc : Word} {j j' : Jit} {b : Block}

/-- Whatever it returns, a compilation writes from the offset on and nothing else. -/
theorem compileBlock_leaves {r : Option Block} (h : compileBlock glob m pc j = (r, j')) :
    j'.cache = j.cache ∧ j'.codeCap = j.codeCap ∧
      j'.codeBuf = j.codeBuf.map fun buf => j.emit buf (emitted glob m pc j) := by
  have hj : j' = (compileBlock glob m pc j).2 := by rw [h]
  rw [hj]
  exact ⟨compileBlock_cache, compileBlock_codeCap, compileBlock_codeBuf glob m pc j⟩

/-- The offset stays within the buffer when what is emitted does. -/
theorem EmitsInside.le (h : EmitsInside glob m pc j) (hle : j.codeOff ≤ j.codeCap) :
    j.codeOff + (emitted glob m pc j).length ≤ j.codeCap := by
  by_cases hnil : emitted glob m pc j = []
  · rw [hnil]
    exact hle
  · exact (emitsInside_iff_le glob m pc j hnil).mp h

/-- Then the buffer has the whole of it. -/
theorem EmitsInside.emit_eq (h : EmitsInside glob m pc j) (hle : j.codeOff ≤ j.codeCap)
    (buf : ℕ → Byte) :
    j.emit buf (emitted glob m pc j) = emitAt buf j.codeOff (emitted glob m pc j) := by
  have hfits := h.le hle
  rw [Jit.emit, List.take_of_length_le (by omega)]

end compile

/-- What is stored: the blocks issued, in the buffer if there is one; and the cache holds
only these, under their start addresses. -/
structure Jit.Keeps (j : Jit) (issued : List Issued) : Prop where
  stores : ∀ buf, j.codeBuf = some buf → Stores buf j.codeOff (issued.map Issued.segment)
  no_buffer : j.codeBuf = none → issued = []
  cached : j.Blocks fun b => ∃ e ∈ issued, e.fn = b ∧ e.startPc = b.pc
  inside : j.codeOff ≤ j.codeCap

section run
variable {glob : DWord} {mmap : Option (ℕ → Byte)} {issued : List Issued} {j j' : Jit} {b : Block}

theorem emitInit_keeps (mmap : Option (ℕ → Byte)) : (emitInit mmap).Keeps [] where
  stores buf _ := stores_nil buf 0
  no_buffer _ := rfl
  cached := emitInit_blocks mmap
  inside := Nat.zero_le _

theorem Jit.Keeps.insert (h : j.Keeps issued) {pc : Word} (hpc : b.pc = pc)
    (hb : ∃ e ∈ issued, e.fn = b ∧ e.startPc = b.pc) : (cacheInsert pc b j).Keeps issued where
  stores := h.stores
  no_buffer := h.no_buffer
  cached := h.cached.insert hpc hb
  inside := h.inside

theorem Jit.Keeps.compiled (h : j.Keeps issued) {m : Memory} {pc : Word}
    (hinside : EmitsInside glob m pc j) (hc : compileBlock glob m pc j = (some b, j')) :
    (cacheInsert pc b j').Keeps (⟨pc, b, emitted glob m pc j⟩ :: issued) := by
  obtain ⟨hpc, _, _, hfn, hoff, _⟩ := compileBlock_some hc
  rw [← emitted_of_some hc, hfn] at hoff
  obtain ⟨hcache, hcap, hmap⟩ := compileBlock_leaves hc
  have hkeeps : j'.Keeps (⟨pc, b, emitted glob m pc j⟩ :: issued) := by
    constructor
    · intro buf' hbuf'
      cases hbuf : j.codeBuf with
      | none => simp [hbuf, hbuf'] at hmap
      | some buf =>
        obtain rfl : buf' = emitAt buf j.codeOff (emitted glob m pc j) := by
          rw [← hinside.emit_eq h.inside]
          simpa [hbuf, hbuf'] using hmap
        -- The new block lies where the offset was, behind all the others.
        have hnew : Segment.HeldBy ⟨j.codeOff, emitted glob m pc j⟩
            (emitAt buf j.codeOff (emitted glob m pc j)) := holdsAt_emitAt _ _ _
        have hpush := (h.stores buf hbuf).push (fun x hx => emitAt_of_lt _ hx) hnew
        rw [hoff, List.map_cons, Issued.segment, hfn]
        exact hpush
    · intro hnone
      -- Without a buffer no block is returned.
      rw [hnone] at hmap
      have hbuf : j.codeBuf = none := by simpa using hmap.symm
      rw [compileBlock, hbuf] at hc
      simp at hc
    · intro x hx
      rw [hcache] at hx ⊢
      obtain ⟨b', hb', hpc', e, he, hfn', hstart⟩ := h.cached x hx
      exact ⟨b', hb', hpc', e, List.mem_cons_of_mem _ he, hfn', hstart⟩
    · rw [hoff, hcap]
      exact hinside.le h.inside
  exact hkeeps.insert hpc ⟨_, List.mem_cons_self, rfl, hpc.symm⟩

/-- An aborted compilation writes its prologue behind the offset and takes it back. -/
theorem Jit.Keeps.refused (h : j.Keeps issued) {m : Memory} {pc : Word}
    (hc : compileBlock glob m pc j = (none, j')) : j'.Keeps issued := by
  have hoff := compileBlock_none hc
  obtain ⟨hcache, hcap, hmap⟩ := compileBlock_leaves hc
  constructor
  · intro buf' hbuf'
    cases hbuf : j.codeBuf with
    | none => simp [hbuf, hbuf'] at hmap
    | some buf =>
      obtain rfl : buf' = j.emit buf (emitted glob m pc j) := by
        simpa [hbuf, hbuf'] using hmap
      rw [hoff]
      exact (h.stores buf hbuf).scribble fun x hx => emitAt_of_lt _ hx
  · intro hnone
    rw [hnone] at hmap
    exact h.no_buffer (by simpa using hmap.symm)
  · rw [Jit.Blocks, hcache]
    exact h.cached
  · rw [hoff, hcap]
    exact h.inside

/-- Every turn keeps the blocks. -/
theorem BlockRun.keeps (h : BlockRun glob mmap issued j) : j.Keeps issued := by
  induction h with
  | init => exact emitInit_keeps mmap
  | hit pc _ hlookup ih =>
    obtain ⟨hpc, hissued⟩ := ih.cached.lookup hlookup
    exact ih.insert hpc hissued
  | compiled m pc _ _ hinside hc ih => exact ih.compiled hinside hc
  | refused m pc _ _ _ hc ih => exact ih.refused hc

/-- A turn of `execute_jit`, whatever a native block does to the guest, makes these calls. -/
theorem dispatchStep_blockRun {call : Jit → Block → State → Option State} {h : Host}
    {u v : JitState} (hu : BlockRun glob mmap issued u.jit)
    (hinside : EmitsInside glob u.guest.memory u.guest.pc u.jit)
    (hstep : dispatchStep call h glob u = .next v) :
    ∃ issued', BlockRun glob mmap issued' v.jit := by
  rw [dispatchStep] at hstep
  split at hstep
  · -- A delay slot is interpreted, and nothing is looked up.
    exact ⟨issued, (interpret_next hstep).1.symm ▸ hu⟩
  · dsimp only at hstep
    cases hlookup : cacheLookup u.guest.pc u.jit with
    | some b =>
      simp only [findBlock, hlookup] at hstep
      split at hstep
      · rw [← Outcome.next.inj hstep]
        exact ⟨issued, .hit _ hu hlookup⟩
      · simp at hstep
    | none =>
      simp only [findBlock, hlookup] at hstep
      -- A refused word is interpreted too, but the prologue has been written.
      rcases hc : compileBlock glob u.guest.memory u.guest.pc u.jit with ⟨b | b, j'⟩
      · simp only [hc] at hstep
        rw [(interpret_next hstep).1]
        exact ⟨issued, .refused _ _ hu hlookup hinside hc⟩
      · simp only [hc] at hstep
        split at hstep
        · rw [← Outcome.next.inj hstep]
          exact ⟨_, .compiled _ _ hu hlookup hinside hc⟩
        · simp at hstep

/-- So does every run, as long as no turn of it overruns the buffer. -/
theorem blockRun_of_steps {call : Jit → Block → State → Option State} {h : Host} {n : ℕ}
    {s : State} {u : JitState}
    (hrun : Run.Steps (dispatchStep call h glob) n ⟨emitInit mmap, s⟩ u)
    (hroom : Run.Along (dispatchStep call h glob)
      (fun v => EmitsInside glob v.guest.memory v.guest.pc v.jit) n ⟨emitInit mmap, s⟩) :
    ∃ issued, BlockRun glob mmap issued u.jit := by
  apply hrun.invariant_along (I := fun v => ∃ issued, BlockRun glob mmap issued v.jit) ?_ hroom
  · exact ⟨[], .init⟩
  · rintro v w ⟨issued, hv⟩ hinside hstep
    exact dispatchStep_blockRun hv hinside hstep

end run

/-- Over any sequence of the calls: a lookup returns only a block that was compiled for
the address looked up; the blocks lie apart from each other below `code_off`, which is
within the buffer; and their bytes are as they were emitted. -/
theorem native_blocks_sound (glob : DWord) (mmap : Option (ℕ → Byte)) (issued : List Issued)
    (j : Jit) (h : BlockRun glob mmap issued j) :
    (∀ pc b, cacheLookup pc j = some b → ∃ e ∈ issued, e.startPc = pc ∧ e.fn = b) ∧
    (issued.Pairwise fun a b => Disjoint a.segment.cells b.segment.cells) ∧
    (∀ e ∈ issued, ∀ x ∈ e.segment.cells, x < j.codeOff) ∧ j.codeOff ≤ j.codeCap ∧
    ∀ e ∈ issued, ∃ buf, j.codeBuf = some buf ∧ e.segment.HeldBy buf := by
  have hkeeps := h.keeps
  have hlookup (pc : Word) (b : Block) (hb : cacheLookup pc j = some b) :
      ∃ e ∈ issued, e.startPc = pc ∧ e.fn = b := by
    obtain ⟨hpc, e, he, hfn, hstart⟩ := hkeeps.cached.lookup hb
    exact ⟨e, he, hstart.trans hpc, hfn⟩
  cases hbuf : j.codeBuf with
  | none =>
    -- `mmap` failed, and no block has ever been issued.
    obtain rfl := hkeeps.no_buffer hbuf
    exact ⟨hlookup, by simp, by simp, hkeeps.inside, by simp⟩
  | some buf =>
    obtain ⟨hbelow, hdisjoint, hheld⟩ := hkeeps.stores buf hbuf
    rw [List.pairwise_map] at hdisjoint
    refine ⟨hlookup, hdisjoint, ?_, hkeeps.inside, ?_⟩
    · intro e he x hx
      exact hx.2.trans_le (hbelow e.segment (List.mem_map_of_mem he))
    · intro e he
      exact ⟨buf, rfl, hheld e.segment (List.mem_map_of_mem he)⟩

/-- Two blocks, with a hit of the first and a refused word between them. -/
theorem native_blocks_sound_two : ∃ issued j, issued.length = 2 ∧
    BlockRun 0 (some fun _ => 0) issued j ∧
    (issued.Pairwise fun a b => Disjoint a.segment.cells b.segment.cells) ∧
    ∀ e ∈ issued, ∃ buf, j.codeBuf = some buf ∧ e.segment.HeldBy buf := by
  let j0 := emitInit (some fun _ => 0)
  have hinside (pc : Word) {j : Jit} (hj : j.codeOff + LONGEST_BLOCK ≤ j.codeCap) :
      EmitsInside 0 twoBlocks pc j := (emitsInside_iff _ _ _ _).mpr (roomy_of_longest _ _ _ hj)
  have hword : (jitEmit (wordAt twoBlocks 0)).1 = true := by decide
  have hsyscall : (jitEmit (wordAt twoBlocks 4)).1 = false := by decide
  have hword' : (jitEmit (wordAt twoBlocks 8)).1 = true := by decide
  -- The first block, compiled and hit.
  obtain ⟨b, j, hfirst⟩ := compileBlock_of_word (j := j0) 0 rfl (by simp [j0, emitInit]) hword
  have hrun := (BlockRun.compiled twoBlocks 0 .init rfl (hinside 0 (by decide)) hfirst).hit 0
    cacheLookup_insert_self
  obtain ⟨hcache, hcap, hbuf⟩ := compileBlock_leaves hfirst
  have hoff : j.codeOff ≤ 0 + LONGEST_BLOCK := codeOff_le_of_some hfirst
  have hempty (q : Word) : cacheLookup q j = none := by
    rw [cacheLookup, hcache]
    rfl
  let j1 := cacheInsert 0 b (cacheInsert 0 b j)
  have hroom : j1.codeOff + LONGEST_BLOCK ≤ j1.codeCap := by
    change j.codeOff + LONGEST_BLOCK ≤ j.codeCap
    rw [hcap]
    unfold LONGEST_BLOCK BLOCK_LIMIT at hoff ⊢
    change _ ≤ 16 * 1024 * 1024
    omega
  have hmiss (q : Word) (hq : cacheIndex q ≠ cacheIndex 0) : cacheLookup q j1 = none := by
    rw [cacheLookup_insert_of_ne hq, cacheLookup_insert_of_ne hq, hempty]
  -- The refused word, and the block behind it.
  obtain ⟨j2, hnone⟩ := compileBlock_of_refused 0 j1 hsyscall
  have hrun' := hrun.refused twoBlocks 4 (hmiss 4 (by decide)) (hinside 4 hroom) hnone
  obtain ⟨hcache', hcap', hbuf'⟩ := compileBlock_leaves hnone
  have hroom' : j2.codeOff + LONGEST_BLOCK ≤ j2.codeCap := by
    rw [compileBlock_none hnone, hcap']
    exact hroom
  have hsome : j2.codeBuf.isSome = true := by
    rw [hbuf', Option.isSome_map]
    change j.codeBuf.isSome = true
    rw [hbuf, Option.isSome_map]
    rfl
  have hmiss' : cacheLookup 8 j2 = none := by
    rw [cacheLookup, hcache']
    exact hmiss 8 (by decide)
  obtain ⟨b', j3, hsecond⟩ := compileBlock_of_word 0 hsome
    ((Nat.add_le_add_left (by decide) _).trans hroom') hword'
  have hlast := hrun'.compiled twoBlocks 8 hmiss' (hinside 8 hroom') hsecond
  obtain ⟨_, hdisjoint, _, _, hheld⟩ := native_blocks_sound _ _ _ _ hlast
  exact ⟨_, _, rfl, hlast, hdisjoint, hheld⟩

end MyMips
