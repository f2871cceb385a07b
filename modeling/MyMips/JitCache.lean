import MyMips.Jit

namespace MyMips

def HoldsAt (buf : ℕ → Byte) (cur : ℕ) (bytes : List Byte) : Prop :=
  ∀ k (hk : k < bytes.length), buf (cur + k) = bytes[k]

theorem emitAt_of_lt {buf : ℕ → Byte} {cur x : ℕ} (bytes : List Byte) (hx : x < cur) :
    emitAt buf cur bytes x = buf x := by
  rw [emitAt, if_neg (by omega)]

theorem holdsAt_emitAt (buf : ℕ → Byte) (cur : ℕ) (bytes : List Byte) :
    HoldsAt (emitAt buf cur bytes) cur bytes := by
  intro k hk
  rw [emitAt, if_pos (by omega), Nat.add_sub_cancel_left, List.getElem?_eq_getElem hk,
    Option.getD_some]

/-- What lies before the cursor survives. -/
theorem HoldsAt.emitAt {buf : ℕ → Byte} {fn : ℕ} {bytes : List Byte} (h : HoldsAt buf fn bytes)
    {cur : ℕ} (hle : fn + bytes.length ≤ cur) (new : List Byte) :
    HoldsAt (emitAt buf cur new) fn bytes := by
  intro k hk
  rw [emitAt_of_lt new (by omega)]
  exact h k hk

section compile
variable (glob : DWord) (m : Memory) (pc : Word) (j : Jit)

def fetch (m : Memory) (pc : Word) (n : ℕ) : List Word :=
  (List.range n).map fun k => wordAt m (pc + BitVec.ofNat 32 (4 * k))

@[simp] theorem length_fetch (n : ℕ) : (fetch m pc n).length = n := by simp [fetch]

theorem add_four_mul (pc : Word) (k : ℕ) :
    pc + 4 + BitVec.ofNat 32 (4 * k) = pc + BitVec.ofNat 32 (4 * (k + 1)) := by
  have h4 : (4 : Word) = BitVec.ofNat 32 4 := rfl
  rw [BitVec.add_assoc, h4, ← BitVec.ofNat_add, Nat.mul_add, Nat.add_comm 4]

theorem fetch_succ (n : ℕ) : fetch m pc (n + 1) = wordAt m pc :: fetch m (pc + 4) n := by
  rw [fetch, List.range_succ_eq_map, List.map_cons, List.map_map, fetch]
  congr 1
  · simp
  · apply List.map_congr_left
    intro k _
    rw [add_four_mul]
    rfl

theorem jitEmit_skipped {i : Word} (h : ¬ (jitEmit i).1 = true) : (jitEmit i).2 = [] := by
  cases ho : opcode i with
  | none => simp only [jitEmit, ho]
  | some o =>
    cases o with
    | OP_SPECIAL =>
      cases hf : special i with
      | none => simp only [jitEmit, ho, hf]
      | some f => cases f <;> simp_all only [jitEmit, not_true_eq_false]
    | _ => simp_all only [jitEmit, not_true_eq_false]

/-- The loop emits the translations of the words it fetched, in order. -/
theorem compileLoop_spec (n : ℕ) :
    compileLoop m n pc =
      let words := (compileLoop m n pc).words
      ⟨words.flatMap (fun i => (jitEmit i).2), words,
        pc + BitVec.ofNat 32 (4 * words.length)⟩ := by
  induction n generalizing pc with
  | zero => simp [compileLoop]
  | succ n ih =>
    rw [compileLoop]
    dsimp only
    split
    · rename_i hemit
      rw [ih (pc + 4)]
      simp only [List.flatMap_cons, List.length_cons, add_four_mul]
    · rename_i hemit
      simp [jitEmit_skipped hemit]

theorem compileLoop_words (n : ℕ) :
    (compileLoop m n pc).words = fetch m pc (compileLoop m n pc).words.length := by
  induction n generalizing pc with
  | zero => rfl
  | succ n ih =>
    rw [compileLoop]
    dsimp only
    split
    · rw [List.length_cons, fetch_succ, ← ih (pc + 4)]
    · rfl

theorem compileLoop_length (n : ℕ) : (compileLoop m n pc).words.length ≤ n := by
  induction n generalizing pc with
  | zero => rfl
  | succ n ih =>
    rw [compileLoop]
    dsimp only
    split
    · exact Nat.succ_le_succ (ih (pc + 4))
    · exact Nat.zero_le _

end compile

namespace Block

/-- The block was emitted from the words that memory now holds at its addresses. -/
def Matches (b : Block) (m : Memory) : Prop := b.words = fetch m b.pc b.words.length

/-- The block lies before the offset, and what the buffer has of it is as it was emitted. -/
def Intact (b : Block) (glob : DWord) (j : Jit) : Prop :=
  b.fn + (b.code glob).length ≤ j.codeOff ∧
    ∃ buf, j.codeBuf = some buf ∧ HoldsAt buf b.fn ((b.code glob).take (j.codeCap - b.fn))

theorem Intact.whole {b : Block} {glob : DWord} {j : Jit} (h : b.Intact glob j)
    (hin : b.Inside glob j) : ∃ buf, j.codeBuf = some buf ∧ HoldsAt buf b.fn (b.code glob) := by
  obtain ⟨-, buf, hbuf, hheld⟩ := h
  have hfits : (b.code glob).length ≤ j.codeCap - b.fn := by
    unfold Inside at hin
    omega
  rw [List.take_of_length_le hfits] at hheld
  exact ⟨buf, hbuf, hheld⟩

end Block

section compileBlock
variable {glob : DWord} {m : Memory} {pc : Word} {j j' : Jit}

@[simp] theorem compileBlock_cache : (compileBlock glob m pc j).2.cache = j.cache := by
  unfold compileBlock
  cases j.codeBuf with
  | none => rfl
  | some buf =>
    dsimp only
    split
    · rfl
    · split <;> rfl

@[simp] theorem compileBlock_codeCap : (compileBlock glob m pc j).2.codeCap = j.codeCap := by
  unfold compileBlock
  cases j.codeBuf with
  | none => rfl
  | some buf =>
    dsimp only
    split
    · rfl
    · split <;> rfl

theorem inside_compileBlock {b : Block} :
    b.Inside glob (compileBlock glob m pc j).2 ↔ b.Inside glob j := by
  rw [Block.Inside, compileBlock_codeCap, Block.Inside]

/-- A block that `compile_block` returns starts at `pc`, was emitted from the words there
and is in the buffer. -/
theorem compileBlock_some {b : Block} (h : compileBlock glob m pc j = (some b, j')) :
    b.pc = pc ∧ b.Matches m ∧ b.words.length ≤ BLOCK_LIMIT ∧ b.fn = j.codeOff ∧
      j'.codeOff = b.fn + (b.code glob).length ∧ b.Intact glob j' := by
  have hspec := compileLoop_spec m pc BLOCK_LIMIT
  have hwords := compileLoop_words m pc BLOCK_LIMIT
  have hlength := compileLoop_length m pc BLOCK_LIMIT
  unfold compileBlock at h
  -- The body is abstracted so that the splits below stay small.
  generalize compileLoop_inlined m BLOCK_LIMIT pc = hinlined at h
  generalize compileLoop m BLOCK_LIMIT pc = body at hspec hwords hlength hinlined h
  cases hbuf : j.codeBuf with
  | none => simp [hbuf] at h
  | some buf =>
    rw [hbuf] at h
    dsimp only at h
    split at h
    · simp at h
    · split at h
      · simp at h
      · rename_i hcount
        obtain ⟨hb, rfl⟩ := Prod.mk.inj h
        obtain rfl := Option.some.inj hb
        have hcode : Block.code ⟨j.codeOff, pc, body.words, hcount, hinlined⟩ glob =
            prologue glob ++ body.code ++ epilogue glob body.pc := by
          rw [congrArg Compiled.code hspec, congrArg Compiled.pc hspec]
          rfl
        refine ⟨rfl, hwords, hlength, rfl, ?_, ?_⟩
        · rw [hcode]
        · rw [Block.Intact, hcode]
          exact ⟨le_refl _, _, rfl, holdsAt_emitAt _ _ _⟩

/-- Compilation, aborted or not, leaves the blocks in the buffer alone. -/
theorem Block.Intact.compileBlock {b : Block} (h : b.Intact glob j) (m : Memory) (pc : Word) :
    b.Intact glob (compileBlock glob m pc j).2 := by
  obtain ⟨hle, buf, hbuf, hheld⟩ := h
  have hcut : b.fn + ((b.code glob).take (j.codeCap - b.fn)).length ≤ j.codeOff := by
    rw [List.length_take]
    omega
  unfold MyMips.compileBlock
  simp only [hbuf]
  split
  · exact ⟨hle, buf, hbuf, hheld⟩
  · split
    · exact ⟨hle, _, rfl, hheld.emitAt hcut _⟩
    · exact ⟨hle.trans (Nat.le_add_right _ _), _, rfl, hheld.emitAt hcut _⟩

end compileBlock

/-- Every valid entry holds a block for its tag, and the block satisfies `P`. -/
def Jit.Blocks (j : Jit) (P : Block → Prop) : Prop :=
  ∀ x, (j.cache x).valid = true → ∃ b, (j.cache x).fn = some b ∧ (j.cache x).pc = b.pc ∧ P b

section cache
variable {j : Jit} {P : Block → Prop} {pc : Word} {b : Block}

theorem emitInit_blocks (mmap : Option (ℕ → Byte)) : (emitInit mmap).Blocks P := by
  intro x hx
  simp [emitInit] at hx

theorem Jit.Blocks.mono {j' : Jit} {Q : Block → Prop} (hj : j.Blocks P)
    (hcache : j'.cache = j.cache) (hPQ : ∀ b, P b → Q b) : j'.Blocks Q := by
  intro x hx
  rw [hcache] at hx ⊢
  obtain ⟨b, hb, hpc, hP⟩ := hj x hx
  exact ⟨b, hb, hpc, hPQ b hP⟩

/-- A hit is a block for exactly the address looked up. -/
theorem Jit.Blocks.lookup (h : j.Blocks P) (hb : cacheLookup pc j = some b) :
    b.pc = pc ∧ P b := by
  rw [cacheLookup] at hb
  split at hb
  · rename_i hvalid
    obtain ⟨b', hb', hpc, hP⟩ := h _ hvalid.1
    obtain rfl : b' = b := Option.some.inj (hb'.symm.trans hb)
    exact ⟨hpc.symm.trans hvalid.2, hP⟩
  · simp at hb

theorem cacheLookup_insert_self : cacheLookup pc (cacheInsert pc b j) = some b := by
  simp [cacheLookup, cacheInsert]

theorem cacheLookup_insert_of_ne {q : Word} (hq : cacheIndex q ≠ cacheIndex pc) :
    cacheLookup q (cacheInsert pc b j) = cacheLookup q j := by
  simp only [cacheLookup, cacheInsert, Function.update_of_ne hq]

theorem Jit.Blocks.insert (h : j.Blocks P) (hpc : b.pc = pc) (hP : P b) :
    (cacheInsert pc b j).Blocks P := by
  intro x hx
  by_cases hxi : x = cacheIndex pc
  · subst hxi
    refine ⟨b, ?_, ?_, hP⟩
    · simp [cacheInsert]
    · simp [cacheInsert, hpc]
  · simp only [cacheInsert, Function.update_of_ne hxi] at hx ⊢
    exact h x hx

end cache

section dispatch
variable {glob : DWord} {b : Block}

/-- The two things a turn of the loop can do: run the block found for `pc`, or one step
of the interpreter. -/
theorem dispatchStep_cases (h : Host) (glob : DWord) (u : JitState) :
    (∃ b j, u.guest.branchPending = false ∧
      findBlock glob u.guest.memory u.guest.pc u.jit = (some b, j) ∧
      ∀ call, dispatchStep call h glob u =
        match call (cacheInsert u.guest.pc b j) b u.guest with
        | some s => .next ⟨cacheInsert u.guest.pc b j, s⟩
        | none => .crash) ∨
    (∃ j, (j = u.jit ∨ j = (compileBlock glob u.guest.memory u.guest.pc u.jit).2) ∧
      ∀ call, dispatchStep call h glob u = interpret h ⟨j, u.guest⟩) := by
  unfold dispatchStep
  by_cases hpending : u.guest.branchPending = true
  · exact .inr ⟨u.jit, .inl rfl, fun _ => if_pos hpending⟩
  · simp only [if_neg hpending]
    rcases hf : findBlock glob u.guest.memory u.guest.pc u.jit with ⟨b | b, j⟩
    · refine .inr ⟨j, ?_, fun _ => rfl⟩
      rw [findBlock] at hf
      split at hf
      · simp at hf
      · exact .inr (congrArg Prod.snd hf).symm
    · exact .inl ⟨b, j, by simpa using hpending, rfl, fun _ => rfl⟩

theorem interpret_next {h : Host} {w v : JitState} (hw : interpret h w = .next v) :
    v.jit = w.jit ∧ executeStep h w.guest = .next v.guest := by
  rw [interpret] at hw
  rw [executeStep]
  rcases hstep : stepInstruction h w.guest with ⟨_ | _ | _ | _, s'⟩ <;> rw [hstep] at hw
  · obtain rfl := Outcome.next.inj hw
    exact ⟨rfl, rfl⟩
  all_goals simp at hw

theorem interpret_done {h : Host} {w : JitState} {r : ℕ × State}
    (hr : interpret h w = .done r) : executeStep h w.guest = .done r := by
  rw [interpret] at hr
  rw [executeStep]
  rcases hstep : stepInstruction h w.guest with ⟨_ | _ | _ | _, t⟩ <;> rw [hstep] at hr
  · simp at hr
  · obtain rfl := Outcome.done.inj hr
    rfl
  · obtain rfl := Outcome.done.inj hr
    rfl
  · simp at hr

theorem findBlock_cases {m : Memory} {pc : Word} {j j' : Jit}
    (hf : findBlock glob m pc j = (some b, j')) :
    (cacheLookup pc j = some b ∧ j' = j) ∨ compileBlock glob m pc j = (some b, j') := by
  rw [findBlock] at hf
  split at hf
  · rename_i fn hlookup
    obtain ⟨hb, rfl⟩ := Prod.mk.inj hf
    exact .inl ⟨hlookup.trans hb, rfl⟩
  · exact .inr hf

/-- A turn that goes on ran the block found for `pc`, or one step of the interpreter. -/
theorem dispatchStep_next {call : Jit → Block → State → Option State} {h : Host} {u v : JitState}
    (hstep : dispatchStep call h glob u = .next v) :
    (∃ b j t, u.guest.branchPending = false ∧
      findBlock glob u.guest.memory u.guest.pc u.jit = (some b, j) ∧
      call (cacheInsert u.guest.pc b j) b u.guest = some t ∧
      v = ⟨cacheInsert u.guest.pc b j, t⟩) ∨
    (∃ j, (j = u.jit ∨ j = (compileBlock glob u.guest.memory u.guest.pc u.jit).2) ∧
      v.jit = j ∧ executeStep h u.guest = .next v.guest) := by
  rcases dispatchStep_cases h glob u with ⟨b, j, hpending, hfind, hturn⟩ | ⟨j, hj, hturn⟩
  · left
    rw [hturn] at hstep
    cases hcall : call (cacheInsert u.guest.pc b j) b u.guest with
    | none => simp [hcall] at hstep
    | some t =>
      rw [hcall] at hstep
      exact ⟨b, j, t, hpending, hfind, hcall, (Outcome.next.inj hstep).symm⟩
  · rw [hturn] at hstep
    obtain ⟨hjit, hone⟩ := interpret_next hstep
    exact .inr ⟨j, hj, hjit, hone⟩

/-- Only the interpreter returns. -/
theorem dispatchStep_done {call : Jit → Block → State → Option State} {h : Host} {u : JitState}
    {r : ℕ × State} (hstep : dispatchStep call h glob u = .done r) :
    executeStep h u.guest = .done r := by
  rcases dispatchStep_cases h glob u with ⟨b, j, _, _, hturn⟩ | ⟨j, _, hturn⟩
  · rw [hturn] at hstep
    cases hcall : call (cacheInsert u.guest.pc b j) b u.guest with
    | none => simp [hcall] at hstep
    | some t => simp [hcall] at hstep
  · rw [hturn] at hstep
    have hret := interpret_done hstep
    exact hret

/-- A property of cached blocks that survives compilation and holds of new blocks holds
of every block in the cache after the search, the found one included. -/
theorem findBlock_blocks {P : Jit → Block → Prop} {m : Memory} {pc : Word} {j j' : Jit}
    (hj : j.Blocks (P j))
    (hkeep : ∀ b, P j b → P (compileBlock glob m pc j).2 b)
    (hf : findBlock glob m pc j = (some b, j'))
    (hnew : compileBlock glob m pc j = (some b, j') → P j' b) :
    b.pc = pc ∧ P j' b ∧ (cacheInsert pc b j').Blocks (P j') := by
  rcases findBlock_cases hf with ⟨hlookup, rfl⟩ | hcompile
  · obtain ⟨hpc, hP⟩ := hj.lookup hlookup
    exact ⟨hpc, hP, hj.insert hpc hP⟩
  · have hpc := (compileBlock_some hcompile).1
    have hP := hnew hcompile
    have hj' : j'.Blocks (P j') := by
      have hcache : j'.cache = j.cache := by
        have hkept : (compileBlock glob m pc j).2.cache = j.cache := compileBlock_cache
        rw [← hkept, hcompile]
      have hkeep' : ∀ b, P j b → P j' b := by
        simpa only [hcompile] using hkeep
      intro x hx
      rw [hcache] at hx ⊢
      obtain ⟨b, hb, hbpc, hPb⟩ := hj x hx
      exact ⟨b, hb, hbpc, hkeep' b hPb⟩
    exact ⟨hpc, hP, hj'.insert hpc hP⟩

end dispatch

end MyMips
