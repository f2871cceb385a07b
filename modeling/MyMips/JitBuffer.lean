import MyMips.JitCache
import MyMips.Unaligned
import Mathlib.Algebra.Order.BigOperators.Group.List
import Mathlib.Algebra.Order.Group.Nat

namespace MyMips

def storeSize (n : Reg) : ℕ := if n = 0 then 0 else 4

def codeSize (i : Word) : ℕ :=
  match opcode i with
  | some .OP_SPECIAL =>
    match special i with
    | some .ADDU | some .SUBU | some .AND | some .OR | some .XOR => 8 + storeSize (rd i)
    | some .NOR | some .SLLV | some .SRLV | some .SRAV => 10 + storeSize (rd i)
    | some .SLT | some .SLTU => 14 + storeSize (rd i)
    | some .SLL | some .SRL | some .SRA => 7 + storeSize (rd i)
    | some .MFHI | some .MFLO => 7 + storeSize (rd i)
    | some .MTHI | some .MTLO => 11
    | some .MOVZ | some .MOVN => 17 + storeSize (rd i)
    | _ => 0
  | some .ADDIU | some .ANDI | some .ORI | some .XORI => 9 + storeSize (rt i)
  | some .SLTI | some .SLTIU => 15 + storeSize (rt i)
  | some .LUI => 2 * storeSize (rt i)
  | _ => 0

section sizes
variable (i : Word)

theorem length_st (n : Reg) : (st n).length = storeSize n := by
  unfold st storeSize
  split <;> rfl

@[simp] theorem length_ld (r : Byte) (n : Reg) : (ld r n).length = 4 := rfl
@[simp] theorem length_ldOff (v : Word) : (ldOff v).length = 7 := rfl
@[simp] theorem length_stOff (v : Word) : (stOff v).length = 7 := rfl
@[simp] theorem length_aluRr (o : Byte) (n : Reg) : (aluRr o n).length = 4 := rfl
@[simp] theorem length_setFlag (c : Byte) : (setFlag c).length = 6 := rfl
@[simp] theorem length_e32 (v : Word) : (e32 v).length = 4 := rfl

theorem length_jitEmit : (jitEmit i).2.length = codeSize i := by
  unfold jitEmit codeSize
  cases ho : opcode i with
  | none => rfl
  | some o =>
    cases o with
    | OP_SPECIAL =>
      cases hf : special i with
      | none => rfl
      | some f =>
        cases f <;> simp [length_st] <;> omega
    | LUI => by_cases hr : rt i = 0#5 <;> simp [storeSize, hr]
    | ADDIU | ANDI | ORI | XORI | SLTI | SLTIU =>
      simp [length_st]
      omega
    | _ => rfl

theorem storeSize_le (n : Reg) : storeSize n ≤ 4 := by
  unfold storeSize
  split <;> omega

/-- A conditional move is the longest translation. -/
theorem codeSize_le : codeSize i ≤ 21 := by
  have hd := storeSize_le (rd i)
  have ht := storeSize_le (rt i)
  unfold codeSize
  split
  · split <;> omega
  all_goals omega

end sizes

section block
variable (glob : DWord) (m : Memory) (pc : Word) (j : Jit)

/-- The words a block is made of: the inlined ones from `pc` on, at most `BLOCK_LIMIT`. -/
def blockWords : List Word := (fetch m pc BLOCK_LIMIT).takeWhile fun i => (jitEmit i).1

theorem compileLoop_eq_takeWhile (n : ℕ) :
    (compileLoop m n pc).words = (fetch m pc n).takeWhile fun i => (jitEmit i).1 := by
  induction n generalizing pc with
  | zero => rfl
  | succ n ih =>
    rw [compileLoop, fetch_succ]
    dsimp only
    split
    · rename_i hemit
      simp only [List.takeWhile_cons, hemit, if_true, ih (pc + 4)]
    · rename_i hemit
      simp only [List.takeWhile_cons, if_neg hemit]

def emitted : List Byte :=
  match j.codeBuf with
  | none => []
  | some _ =>
    if j.codeOff + 8192 > j.codeCap then []
    else
      let body := compileLoop m BLOCK_LIMIT pc
      if body.words = [] then prologue glob ++ body.code
      else prologue glob ++ body.code ++ epilogue glob body.pc

/-- Nothing else in the buffer is written. -/
theorem compileBlock_codeBuf :
    (compileBlock glob m pc j).2.codeBuf =
      j.codeBuf.map fun buf => j.emit buf (emitted glob m pc j) := by
  have hnil (buf : ℕ → Byte) : j.emit buf [] = buf := by
    funext x
    simp [Jit.emit, emitAt]
  unfold compileBlock emitted
  cases hbuf : j.codeBuf with
  | none => simpa using hbuf
  | some buf =>
    dsimp only
    split
    · simp [hbuf, hnil]
    · split <;> rfl

def EmitsInside : Prop := ∀ k < (emitted glob m pc j).length, j.codeOff + k < j.codeCap

/-- Nothing is compiled here, or the block fits: 12 bytes before and 19 behind the
translations. -/
def Roomy : Prop :=
  j.codeBuf = none ∨ j.codeCap < j.codeOff + 8192 ∨ blockWords m pc = [] ∨
    j.codeOff + (12 + ((blockWords m pc).map codeSize).sum + 19) ≤ j.codeCap

theorem length_compileLoop_code (n : ℕ) : (compileLoop m n pc).code.length =
    ((compileLoop m n pc).words.map codeSize).sum := by
  have hcode := congrArg Compiled.code (compileLoop_spec m pc n)
  dsimp only at hcode
  rw [hcode, List.length_flatMap]
  simp only [length_jitEmit]

theorem length_prologue : (prologue glob).length = 12 := rfl

theorem length_epilogue : (epilogue glob pc).length = 19 := rfl

theorem emitsInside_iff_le (hne : emitted glob m pc j ≠ []) :
    EmitsInside glob m pc j ↔ j.codeOff + (emitted glob m pc j).length ≤ j.codeCap := by
  have hpos : 0 < (emitted glob m pc j).length := List.length_pos_iff.mpr hne
  constructor
  · intro hall
    have hlast := hall ((emitted glob m pc j).length - 1) (by omega)
    omega
  · intro hle k hk
    omega

theorem emitsInside_iff : EmitsInside glob m pc j ↔ Roomy m pc j := by
  have hlength := length_compileLoop_code m pc BLOCK_LIMIT
  rw [compileLoop_eq_takeWhile] at hlength
  -- Code fits when its last byte does.
  have hfits := emitsInside_iff_le glob m pc j
  unfold EmitsInside at hfits ⊢
  unfold Roomy
  unfold emitted at hfits ⊢
  cases hbuf : j.codeBuf with
  | none => simp
  | some buf =>
    simp only [hbuf] at hfits ⊢
    by_cases hfull : j.codeOff + 8192 > j.codeCap
    · simp [hfull]
    · rw [if_neg hfull, compileLoop_eq_takeWhile, ← blockWords] at hfits ⊢
      by_cases hwords : blockWords m pc = []
      · have hnone : (compileLoop m BLOCK_LIMIT pc).code = [] := by
          rw [← List.length_eq_zero_iff, hlength, ← blockWords, hwords]
          rfl
        -- The prologue alone is well below the 8192 bytes tested for.
        rw [if_pos hwords, hnone, List.append_nil] at hfits ⊢
        rw [hfits (by simp [prologue]), length_prologue]
        refine ⟨fun _ => .inr (.inr (.inl hwords)), fun _ => by omega⟩
      · rw [if_neg hwords] at hfits ⊢
        rw [hfits (by simp [prologue]), List.length_append, List.length_append, length_prologue,
          length_epilogue, hlength, ← blockWords]
        simp only [hwords, hfull, reduceCtorEq, false_or]

/-- The longest block takes 1024 conditional moves. -/
theorem sum_codeSize_le : ((blockWords m pc).map codeSize).sum ≤ BLOCK_LIMIT * 21 := by
  have hcount : (blockWords m pc).length ≤ BLOCK_LIMIT := by
    rw [blockWords, ← compileLoop_eq_takeWhile]
    exact compileLoop_length m pc BLOCK_LIMIT
  calc ((blockWords m pc).map codeSize).sum
      ≤ ((blockWords m pc).map codeSize).length * 21 := by
        apply List.sum_le_card_nsmul
        intro n hn
        obtain ⟨i, _, rfl⟩ := List.mem_map.mp hn
        exact codeSize_le i
    _ ≤ BLOCK_LIMIT * 21 := by
        rw [List.length_map]
        exact Nat.mul_le_mul_right 21 hcount

def LONGEST_BLOCK : ℕ := 12 + BLOCK_LIMIT * 21 + 19

theorem roomy_of_longest (hj : j.codeOff + (12 + BLOCK_LIMIT * 21 + 19) ≤ j.codeCap) :
    Roomy m pc j := by
  have hsum := sum_codeSize_le m pc
  exact .inr (.inr (.inr (by omega)))

/-- A block that is emitted moves `code_off` behind it. -/
theorem compileBlock_codeOff (hbuf : j.codeBuf.isSome = true)
    (hroom : j.codeOff + 8192 ≤ j.codeCap) (hwords : blockWords m pc ≠ []) :
    (compileBlock glob m pc j).2.codeOff =
      j.codeOff + (12 + ((blockWords m pc).map codeSize).sum + 19) := by
  obtain ⟨buf, hbuf⟩ := Option.isSome_iff_exists.mp hbuf
  have hlength := length_compileLoop_code m pc BLOCK_LIMIT
  rw [compileLoop_eq_takeWhile, ← blockWords] at hlength
  have hcount : (compileLoop m BLOCK_LIMIT pc).words ≠ [] := by
    rw [compileLoop_eq_takeWhile]
    exact hwords
  simp only [compileBlock, hbuf, if_neg (not_lt.mpr hroom), dif_neg hcount, List.length_append,
    length_prologue, length_epilogue, hlength]

end block

section returned
variable {glob : DWord} {m : Memory} {pc : Word} {j j' : Jit} {b : Block}

/-- A block starts with a word that is inlined. -/
theorem blockWords_ne_nil_iff : blockWords m pc ≠ [] ↔ (jitEmit (wordAt m pc)).1 = true := by
  rw [blockWords, BLOCK_LIMIT, fetch_succ, List.takeWhile_cons]
  split <;> simp_all

theorem blockWords_of_some (h : compileBlock glob m pc j = (some b, j')) :
    b.words = blockWords m pc := by
  unfold compileBlock at h
  cases hbuf : j.codeBuf with
  | none => simp [hbuf] at h
  | some buf =>
    rw [hbuf] at h
    dsimp only at h
    split at h
    · simp at h
    · split at h
      · simp at h
      · rw [← Option.some.inj (Prod.mk.inj h).1]
        exact compileLoop_eq_takeWhile m pc BLOCK_LIMIT

theorem compileBlock_none (h : compileBlock glob m pc j = (none, j')) :
    j'.codeOff = j.codeOff := by
  unfold compileBlock at h
  cases hbuf : j.codeBuf with
  | none =>
    rw [hbuf] at h
    rw [← (Prod.mk.inj h).2]
  | some buf =>
    rw [hbuf] at h
    dsimp only at h
    split at h
    · rw [← (Prod.mk.inj h).2]
    · split at h
      · rw [← (Prod.mk.inj h).2]
      · simp at h

/-- What is written is the code of the block. -/
theorem emitted_of_some (h : compileBlock glob m pc j = (some b, j')) :
    emitted glob m pc j = b.code glob := by
  have hspec := compileLoop_spec m pc BLOCK_LIMIT
  unfold compileBlock at h
  unfold emitted
  generalize compileLoop_inlined m BLOCK_LIMIT pc = hinlined at h
  generalize compileLoop m BLOCK_LIMIT pc = body at hspec hinlined h ⊢
  cases hbuf : j.codeBuf with
  | none => simp [hbuf] at h
  | some buf =>
    rw [hbuf] at h
    dsimp only at h ⊢
    split at h
    · simp at h
    · rename_i hroom
      split at h
      · simp at h
      · rename_i hcount
        obtain rfl := Option.some.inj (Prod.mk.inj h).1
        rw [if_neg hroom, if_neg hcount, congrArg Compiled.code hspec, congrArg Compiled.pc hspec]
        rfl

/-- The whole of a new block is in the buffer exactly when there was room for it. -/
theorem inside_iff_of_some (h : compileBlock glob m pc j = (some b, j')) :
    b.Inside glob j' ↔ Roomy m pc j := by
  have hcode := emitted_of_some h
  have hcap : j'.codeCap = j.codeCap := by
    have hkept : (compileBlock glob m pc j).2.codeCap = j.codeCap := compileBlock_codeCap
    rw [← hkept, h]
  obtain ⟨_, _, _, hfn, _⟩ := compileBlock_some h
  have hne : emitted glob m pc j ≠ [] := by
    rw [hcode]
    simp [Block.code, blockCode, prologue]
  rw [← emitsInside_iff glob, emitsInside_iff_le glob m pc j hne, hcode, Block.Inside, hfn, hcap]

/-- A compilation that succeeds moves the offset by at most the longest block. -/
theorem codeOff_le_of_some (h : compileBlock glob m pc j = (some b, j')) :
    j'.codeOff ≤ j.codeOff + LONGEST_BLOCK := by
  obtain ⟨_, _, _, hfn, hoff, _⟩ := compileBlock_some h
  have hlength : (b.code glob).length ≤ LONGEST_BLOCK := by
    have hsum := sum_codeSize_le m pc
    rw [← blockWords_of_some h] at hsum
    have hsizes : (b.words.map fun i => (jitEmit i).2.length) = b.words.map codeSize :=
      List.map_congr_left fun i _ => length_jitEmit i
    rw [Block.code, blockCode, List.length_append, List.length_append, length_prologue,
      length_epilogue, List.length_flatMap, hsizes, LONGEST_BLOCK]
    omega
  rw [hoff, hfn]
  exact Nat.add_le_add_left hlength _

/-- It needs a buffer, room and an inlined word, and nothing else. -/
theorem compileBlock_isSome (hbuf : j.codeBuf.isSome = true) (hroom : j.codeOff + 8192 ≤ j.codeCap)
    (hword : (jitEmit (wordAt m pc)).1 = true) : (compileBlock glob m pc j).1.isSome = true := by
  obtain ⟨buf, hbuf⟩ := Option.isSome_iff_exists.mp hbuf
  have hwords : (compileLoop m BLOCK_LIMIT pc).words ≠ [] := by
    rw [compileLoop_eq_takeWhile, ← blockWords]
    exact blockWords_ne_nil_iff.mpr hword
  simp only [compileBlock, hbuf, if_neg (not_lt.mpr hroom), dif_neg hwords, Option.isSome_some]

theorem compileBlock_of_word (glob : DWord) (hbuf : j.codeBuf.isSome = true)
    (hroom : j.codeOff + 8192 ≤ j.codeCap) (hword : (jitEmit (wordAt m pc)).1 = true) :
    ∃ b j', compileBlock glob m pc j = (some b, j') := by
  have hsome : (compileBlock glob m pc j).1.isSome = true := compileBlock_isSome hbuf hroom hword
  obtain ⟨b, hb⟩ := Option.isSome_iff_exists.mp hsome
  exact ⟨b, _, Prod.ext hb rfl⟩

theorem compileBlock_of_refused (glob : DWord) (j : Jit)
    (hword : (jitEmit (wordAt m pc)).1 = false) :
    ∃ j', compileBlock glob m pc j = (none, j') := by
  rcases hc : compileBlock glob m pc j with ⟨_ | b, j'⟩
  · exact ⟨j', rfl⟩
  · have hne : blockWords m pc ≠ [] := blockWords_of_some hc ▸ b.nonempty
    rw [blockWords_ne_nil_iff, hword] at hne
    exact absurd hne Bool.noConfusion

end returned

/-- The states of the emitter: compilations of any addresses, with any memory at the
time, and the cache entries made between them. -/
inductive CompileRun (glob : DWord) (mmap : Option (ℕ → Byte)) : Jit → Prop
  | init : CompileRun glob mmap (emitInit mmap)
  | compile {j : Jit} (m : Memory) (pc : Word) :
    CompileRun glob mmap j → CompileRun glob mmap (compileBlock glob m pc j).2
  | insert {j : Jit} (pc : Word) (fn : Block) :
    CompileRun glob mmap j → CompileRun glob mmap (cacheInsert pc fn j)

section run
variable {glob : DWord} {mmap : Option (ℕ → Byte)} {j : Jit}

theorem CompileRun.codeCap (hj : CompileRun glob mmap j) : j.codeCap = 16 * 1024 * 1024 := by
  induction hj with
  | init => rfl
  | compile m pc _ ih => exact compileBlock_codeCap.trans ih
  | insert pc fn _ ih => exact ih

/-- The emitter of every run under the JIT, whatever a block does, is in one of these
states. -/
theorem compileRun_of_steps {call : Jit → Block → State → Option State} {h : Host} {n : ℕ}
    {s : State} {u : JitState}
    (hrun : Run.Steps (dispatchStep call h glob) n ⟨emitInit mmap, s⟩ u) :
    CompileRun glob mmap u.jit := by
  apply hrun.invariant (I := fun u => CompileRun glob mmap u.jit) ?_ .init
  intro u v hu hstep
  -- A turn of the loop either calls a block, found or just compiled, or interprets.
  rcases dispatchStep_next hstep with ⟨b, j, t, _, hf, _, rfl⟩ | ⟨j, hj, hjit, _⟩
  · rcases findBlock_cases hf with ⟨_, rfl⟩ | hcompile
    · exact .insert _ _ hu
    · have hj : j = (compileBlock glob u.guest.memory u.guest.pc u.jit).2 := by rw [hcompile]
      subst hj
      exact .insert _ _ (.compile _ _ hu)
  · rw [hjit]
    rcases hj with rfl | rfl
    · exact hu
    · exact .compile _ _ hu

end run

/-- Whatever has been compiled before, a compilation stays inside the buffer exactly
when the block at hand is roomy; the room for the longest block, 21535 bytes, is always
enough. -/
theorem jit_emitter_bounds (glob : DWord) (mmap : Option (ℕ → Byte)) (j : Jit)
    (hj : CompileRun glob mmap j) :
    j.codeCap = 16 * 1024 * 1024 ∧
    ∀ m pc, (EmitsInside glob m pc j ↔ Roomy m pc j) ∧
      (j.codeOff + (12 + BLOCK_LIMIT * 21 + 19) ≤ j.codeCap → EmitsInside glob m pc j) :=
  ⟨hj.codeCap, fun m pc => ⟨emitsInside_iff glob m pc j,
    fun hroom => (emitsInside_iff glob m pc j).mpr (roomy_of_longest m pc j hroom)⟩⟩

/-- `addiu t0, r0, 1; syscall; addiu t1, t1, 2; break`: two blocks, and two words that are
refused. -/
def twoBlocks : Memory := flatImage [0x24080001, 0x0000000C, 0x25290002, 0x0000000D]

/-- Behind the first block, its hit and the word that is refused there is room for the
second. -/
theorem jit_emitter_bounds_two : ∃ b j j',
    compileBlock 0 twoBlocks 0 (emitInit (some fun _ => 0)) = (some b, j) ∧
      cacheLookup 0 (cacheInsert 0 b j) = some b ∧
      compileBlock 0 twoBlocks 4 (cacheInsert 0 b j) = (none, j') ∧
      EmitsInside 0 twoBlocks 8 j' := by
  let j0 := emitInit (some fun _ => 0)
  have hword : (jitEmit (wordAt twoBlocks 0)).1 = true := by decide
  have hsyscall : (jitEmit (wordAt twoBlocks 4)).1 = false := by decide
  obtain ⟨b, j, hfirst⟩ := compileBlock_of_word (j := j0) 0 rfl (by simp [j0, emitInit]) hword
  obtain ⟨j', hnone⟩ := compileBlock_of_refused 0 (cacheInsert 0 b j) hsyscall
  have hrun : CompileRun 0 (some fun _ => 0) j' := by
    have hcompiled : CompileRun 0 (some fun _ => 0) (compileBlock 0 twoBlocks 0 j0).2 :=
      .compile _ _ .init
    rw [hfirst] at hcompiled
    have hrefused := (hcompiled.insert 0 b).compile twoBlocks 4
    rwa [hnone] at hrefused
  obtain ⟨hcap, hbounds⟩ := jit_emitter_bounds 0 _ j' hrun
  refine ⟨b, j, j', hfirst, cacheLookup_insert_self, hnone, (hbounds twoBlocks 8).2 ?_⟩
  have hoff : (cacheInsert 0 b j).codeOff ≤ 0 + LONGEST_BLOCK := codeOff_le_of_some hfirst
  rw [compileBlock_none hnone, hcap]
  unfold LONGEST_BLOCK at hoff
  unfold BLOCK_LIMIT at hoff ⊢
  omega

theorem wordAt_flatImage (ws : List Word) (pc : Word) :
    wordAt (flatImage ws) pc = (ws[pc.toNat / 4]?).getD 0 := by
  let a := pc &&& ~~~3#32
  have halign : a + BitVec.ofNat 32 (pc.toNat % 4) = pc := align_add pc
  have hmod : a.toNat % 4 = 0 := align_mod_four pc
  -- The four bytes lie in the word of `pc`, one after the other.
  have hbyte (k : ℕ) (hk : k < 4) :
      (a + BitVec.ofNat 32 k).toNat / 4 = pc.toNat / 4 ∧ (a + BitVec.ofNat 32 k).toNat % 4 = k := by
    have hlt := a.isLt
    have hpc := congrArg BitVec.toNat halign
    rw [BitVec.toNat_add, BitVec.toNat_ofNat] at hpc ⊢
    omega
  have hload : wordAt (flatImage ws) pc = Bytes.load32 (flatImage ws) a := by
    rw [wordAt, Bytes.load32, BitVec.add_zero]
    rfl
  have hflat (k : ℕ) (hk : k < 4) : flatImage ws (a + BitVec.ofNat 32 k) =
      (((ws[pc.toNat / 4]?).getD 0) >>> (8 * k)).setWidth 8 := by
    obtain ⟨hdiv, hrem⟩ := hbyte k hk
    rw [flatImage, hdiv, hrem]
    cases ws[pc.toNat / 4]? with
    | none => simp
    | some w => rfl
  rw [hload, Bytes.load32, hflat 3 (by omega), hflat 2 (by omega), hflat 1 (by omega),
    hflat 0 (by omega)]
  exact Bytes.append_le32 _

/-! A program of 861 * 4096 bytes 0x28 and BREAK: every word before it is
`slti t0, at, 0x2828`, translated to 19 bytes. Its blocks take 19487 bytes each, and 860 of
them leave 18396. -/

def sltiWord : Word := 0x28282828

def sltiWords : ℕ := 861 * 1024

def sltiMemory : Memory := flatImage (List.replicate sltiWords sltiWord ++ [0x0000000D])

/-- The emitter after the first `n` blocks of the program. -/
def sltiJit : ℕ → Jit
  | 0 => emitInit (some fun _ => 0)
  | n + 1 => (compileBlock 0 sltiMemory (BitVec.ofNat 32 (4096 * n)) (sltiJit n)).2

theorem jitEmit_slti : (jitEmit sltiWord).1 = true := by decide

theorem wordAt_slti {k : ℕ} (hk : k < sltiWords) :
    wordAt sltiMemory (BitVec.ofNat 32 (4 * k)) = sltiWord := by
  have hindex : (BitVec.ofNat 32 (4 * k)).toNat / 4 = k := by
    unfold sltiWords at hk
    rw [BitVec.toNat_ofNat]
    omega
  rw [sltiMemory, wordAt_flatImage, hindex,
    List.getElem?_append_left (by rwa [List.length_replicate]),
    List.getElem?_replicate, if_pos hk, Option.getD_some]

theorem wordAt_slti_end : wordAt sltiMemory (BitVec.ofNat 32 (4 * sltiWords)) = 0x0000000D := by
  have hindex : (BitVec.ofNat 32 (4 * sltiWords)).toNat / 4 = sltiWords := by decide
  rw [sltiMemory, wordAt_flatImage, hindex,
    List.getElem?_append_right (by rw [List.length_replicate]),
    List.length_replicate, Nat.sub_self]
  rfl

theorem fetch_slti {k n : ℕ} (hn : k + n ≤ sltiWords) :
    fetch sltiMemory (BitVec.ofNat 32 (4 * k)) n = List.replicate n sltiWord := by
  apply List.eq_replicate_iff.mpr
  refine ⟨length_fetch _ _ n, fun i hi => ?_⟩
  obtain ⟨x, hx, rfl⟩ := List.mem_map.mp hi
  have hx' := List.mem_range.mp hx
  rw [← BitVec.ofNat_add, ← Nat.mul_add]
  exact wordAt_slti (by omega)

theorem blockWords_slti {n : ℕ} (hn : n ≤ 860) :
    blockWords sltiMemory (BitVec.ofNat 32 (4096 * n)) = List.replicate BLOCK_LIMIT sltiWord := by
  have hstart : 4096 * n = 4 * (1024 * n) := by omega
  have hroom : 1024 * n + BLOCK_LIMIT ≤ sltiWords := by
    unfold BLOCK_LIMIT sltiWords
    omega
  rw [blockWords, hstart, fetch_slti hroom, List.takeWhile_replicate, jitEmit_slti, if_pos rfl]

theorem blockWords_slti_ne {n : ℕ} (hn : n ≤ 860) :
    blockWords sltiMemory (BitVec.ofNat 32 (4096 * n)) ≠ [] := by
  rw [blockWords_slti hn]
  exact List.replicate_succ_ne_nil

theorem sum_slti {n : ℕ} (hn : n ≤ 860) :
    ((blockWords sltiMemory (BitVec.ofNat 32 (4096 * n))).map codeSize).sum = 19456 := by
  have hsize : codeSize sltiWord = 19 := by decide
  rw [blockWords_slti hn, List.map_replicate, hsize, List.sum_replicate_nat]
  rfl

/-- The 861st block is the first that does not fit. -/
theorem roomy_slti {n : ℕ} (hn : n ≤ 860) {j : Jit} (hbuf : j.codeBuf.isSome = true)
    (hcap : j.codeCap = 16 * 1024 * 1024) (hoff : j.codeOff = n * 19487) :
    Roomy sltiMemory (BitVec.ofNat 32 (4096 * n)) j ↔ n < 860 := by
  have hnone : j.codeBuf ≠ none := Option.isSome_iff_ne_none.mp hbuf
  unfold Roomy
  rw [sum_slti hn, hoff, hcap]
  simp only [hnone, blockWords_slti_ne hn, false_or]
  omega

theorem compileRun_slti (n : ℕ) : CompileRun 0 (some fun _ => 0) (sltiJit n) := by
  induction n with
  | zero => exact .init
  | succ n ih => exact .compile _ _ ih

theorem codeOff_slti (n : ℕ) (hn : n ≤ 860) :
    (sltiJit n).codeBuf.isSome = true ∧ (sltiJit n).codeOff = n * 19487 := by
  induction n with
  | zero => exact ⟨rfl, rfl⟩
  | succ n ih =>
    obtain ⟨hbuf, hoff⟩ := ih (by omega)
    have hcap := (compileRun_slti n).codeCap
    have hn' : n ≤ 860 := by omega
    refine ⟨?_, ?_⟩
    · rw [sltiJit, compileBlock_codeBuf, Option.isSome_map]
      exact hbuf
    · rw [sltiJit, compileBlock_codeOff _ _ _ _ hbuf (by omega) (blockWords_slti_ne hn'),
        sum_slti hn', hoff]
      omega

/-- The 861st block runs over the end of the buffer. -/
theorem jit_emitter_bounds_fails :
    ¬ ∀ (glob : DWord) (mmap : Option (ℕ → Byte)) (j : Jit), CompileRun glob mmap j →
      ∀ m pc, EmitsInside glob m pc j := by
  intro hall
  have hinside := hall 0 _ _ (compileRun_slti 860) sltiMemory (BitVec.ofNat 32 (4096 * 860))
  obtain ⟨hbuf, hoff⟩ := codeOff_slti 860 le_rfl
  have hroomy := (emitsInside_iff _ _ _ _).mp hinside
  rw [roomy_slti le_rfl hbuf (compileRun_slti 860).codeCap hoff] at hroomy
  exact absurd hroomy (lt_irrefl 860)

end MyMips
