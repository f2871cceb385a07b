import MyMips.BlockStore
import MyMips.JitRefine

namespace MyMips

/-- The next turn starts a block in `S`, if it can start one at all. -/
def StartsIn (S : Finset Word) (u : JitState) : Prop :=
  u.guest.branchPending = false → (jitEmit (wordAt u.guest.memory u.guest.pc)).1 = true →
    u.guest.pc ∈ S

/-- Every block issued so far starts in `S`, was compiled once and is still in the cache. -/
structure Tidy (S : Finset Word) (issued : List Issued) (j : Jit) : Prop where
  distinct : (issued.map Issued.startPc).Nodup
  starts : ∀ e ∈ issued, e.startPc ∈ S
  cached : ∀ e ∈ issued, cacheLookup e.startPc j = some e.fn
  codeOff : j.codeOff ≤ issued.length * LONGEST_BLOCK

section cache
variable {j : Jit} {pc q : Word} {b : Block}

/-- What has been found is stored again where it was. -/
theorem cacheInsert_of_lookup (h : cacheLookup pc j = some b) : cacheInsert pc b j = j := by
  have hentry : j.cache (cacheIndex pc) = ⟨pc, some b, true⟩ := by
    rw [cacheLookup] at h
    rcases he : j.cache (cacheIndex pc) with ⟨p, fn, valid⟩
    rw [he] at h
    split at h
    · rename_i hvalid
      obtain ⟨rfl, rfl⟩ := hvalid
      obtain rfl : fn = some b := h
      rfl
    · simp at h
  rw [cacheInsert, ← hentry, Function.update_eq_self]

end cache

section tidy
variable {S : Finset Word} {issued : List Issued} {glob : DWord} {m : Memory} {pc : Word}
  {j j' : Jit} {b : Block}

theorem tidy_emitInit (S : Finset Word) (mmap : Option (ℕ → Byte)) : Tidy S [] (emitInit mmap) :=
  ⟨List.nodup_nil, by simp, by simp, Nat.zero_le _⟩

/-- An address that is not in the cache has not been compiled. -/
theorem Tidy.notMem_of_miss (hj : Tidy S issued j) (hmiss : cacheLookup pc j = none) :
    pc ∉ issued.map Issued.startPc := by
  intro hmem
  obtain ⟨e, he, rfl⟩ := List.mem_map.mp hmem
  rw [hj.cached e he] at hmiss
  exact absurd hmiss (Option.some_ne_none _)

/-- There is room for every block that has not been compiled yet. -/
theorem Tidy.room (hj : Tidy S issued j) (hS : S.card * LONGEST_BLOCK ≤ j.codeCap) (hpc : pc ∈ S)
    (hmiss : cacheLookup pc j = none) : j.codeOff + LONGEST_BLOCK ≤ j.codeCap := by
  have hnew : (pc :: issued.map Issued.startPc).Nodup :=
    List.nodup_cons.mpr ⟨hj.notMem_of_miss hmiss, hj.distinct⟩
  have hsub : (pc :: issued.map Issued.startPc).toFinset ⊆ S := by
    intro q hq
    rcases List.mem_cons.mp (List.mem_toFinset.mp hq) with rfl | hq
    · exact hpc
    · obtain ⟨e, he, rfl⟩ := List.mem_map.mp hq
      exact hj.starts e he
  have hcount : issued.length + 1 ≤ S.card := by
    have hle := Finset.card_le_card hsub
    rwa [List.toFinset_card_of_nodup hnew, List.length_cons, List.length_map] at hle
  calc j.codeOff + LONGEST_BLOCK
      ≤ issued.length * LONGEST_BLOCK + LONGEST_BLOCK := Nat.add_le_add_right hj.codeOff _
    _ = (issued.length + 1) * LONGEST_BLOCK := (Nat.succ_mul _ _).symm
    _ ≤ S.card * LONGEST_BLOCK := Nat.mul_le_mul_right _ hcount
    _ ≤ j.codeCap := hS

theorem Tidy.compiled (hj : Tidy S issued j) (hinj : Set.InjOn cacheIndex S) (hpc : pc ∈ S)
    (hmiss : cacheLookup pc j = none) (hc : compileBlock glob m pc j = (some b, j')) :
    Tidy S (⟨pc, b, emitted glob m pc j⟩ :: issued) (cacheInsert pc b j') := by
  have hcache : j'.cache = j.cache := (compileBlock_leaves hc).1
  have hnew := hj.notMem_of_miss hmiss
  refine ⟨List.nodup_cons.mpr ⟨hnew, hj.distinct⟩, ?_, ?_, ?_⟩
  · exact List.forall_mem_cons.mpr ⟨hpc, hj.starts⟩
  · refine List.forall_mem_cons.mpr ⟨cacheLookup_insert_self, fun e he => ?_⟩
    -- The other blocks have entries of their own.
    have hne : cacheIndex e.startPc ≠ cacheIndex pc := by
      intro heq
      have hsame := hinj (hj.starts e he) hpc heq
      exact hnew (hsame ▸ List.mem_map_of_mem he)
    rw [cacheLookup_insert_of_ne hne, cacheLookup, hcache]
    exact hj.cached e he
  · have hoff := codeOff_le_of_some hc
    have hold := hj.codeOff
    rw [List.length_cons, Nat.succ_mul]
    exact hoff.trans (Nat.add_le_add_right hold _)

theorem Tidy.refused (hj : Tidy S issued j) (hc : compileBlock glob m pc j = (none, j')) :
    Tidy S issued j' := by
  refine ⟨hj.distinct, hj.starts, fun e he => ?_, ?_⟩
  · rw [cacheLookup, (compileBlock_leaves hc).1]
    exact hj.cached e he
  · rw [compileBlock_none hc]
    exact hj.codeOff

/-- Room for the longest block is room for the one at hand. -/
theorem emitsInside_of_room (hroom : j.codeOff + LONGEST_BLOCK ≤ j.codeCap) :
    EmitsInside glob m pc j :=
  (emitsInside_iff glob m pc j).mpr (roomy_of_longest m pc j hroom)

end tidy

section run
variable {S : Finset Word} {call : Jit → Block → State → Option State} {h : Host}
  {glob : DWord} {mmap : Option (ℕ → Byte)} {issued : List Issued} {u v : JitState}

/-- A compilation of a tidy run stays inside the buffer, and is refused only where there is
nothing to inline or no buffer. -/
theorem Tidy.fits (hu : Tidy S issued u.jit) (hS : S.card * LONGEST_BLOCK ≤ u.jit.codeCap)
    (hstart : StartsIn S u) (hpending : u.guest.branchPending = false)
    (hmiss : cacheLookup u.guest.pc u.jit = none) :
    EmitsInside glob u.guest.memory u.guest.pc u.jit ∧
      ((jitEmit (wordAt u.guest.memory u.guest.pc)).1 = true → u.jit.codeBuf.isSome = true →
        (compileBlock glob u.guest.memory u.guest.pc u.jit).1.isSome = true) := by
  by_cases hword : (jitEmit (wordAt u.guest.memory u.guest.pc)).1 = true
  · have hroom := hu.room hS (hstart hpending hword) hmiss
    refine ⟨emitsInside_of_room hroom, fun _ hbuf => compileBlock_isSome hbuf ?_ hword⟩
    exact (Nat.add_le_add_left (by decide) _).trans hroom
  · -- Nothing is compiled, and the prologue alone is short.
    have hempty : blockWords u.guest.memory u.guest.pc = [] :=
      not_ne_iff.mp fun hne => hword (blockWords_ne_nil_iff.mp hne)
    refine ⟨(emitsInside_iff _ _ _ _).mpr (.inr (.inr (.inl hempty))), fun hw => ?_⟩
    exact absurd hw hword

/-- The size of the buffer never changes, and neither does whether there is one. -/
theorem BlockRun.buffer {j : Jit} (hj : BlockRun glob mmap issued j) :
    j.codeCap = 16 * 1024 * 1024 ∧ j.codeBuf.isSome = mmap.isSome := by
  have hcompiled {j j' : Jit} {r : Option Block} {m : Memory} {pc : Word}
      (hc : compileBlock glob m pc j = (r, j'))
      (hj : j.codeCap = 16 * 1024 * 1024 ∧ j.codeBuf.isSome = mmap.isSome) :
      j'.codeCap = 16 * 1024 * 1024 ∧ j'.codeBuf.isSome = mmap.isSome := by
    obtain ⟨_, hcap, hbuf⟩ := compileBlock_leaves hc
    rw [hcap, hbuf, Option.isSome_map]
    exact hj
  induction hj with
  | init => exact ⟨rfl, rfl⟩
  | hit pc _ _ ih => exact ih
  | compiled m pc _ _ _ hc ih =>
    have hkept := hcompiled hc ih
    exact hkept
  | refused m pc _ _ _ hc ih => exact hcompiled hc ih

/-- One turn of the loop. -/
theorem Tidy.step (hrun : BlockRun glob mmap issued u.jit) (hu : Tidy S issued u.jit)
    (hinj : Set.InjOn cacheIndex S) (hS : S.card * LONGEST_BLOCK ≤ 16 * 1024 * 1024)
    (hstart : StartsIn S u) (hstep : dispatchStep call h glob u = .next v) :
    ∃ issued', BlockRun glob mmap issued' v.jit ∧ Tidy S issued' v.jit := by
  rw [dispatchStep] at hstep
  split at hstep
  · -- A delay slot is interpreted, and nothing is looked up.
    rw [(interpret_next hstep).1]
    exact ⟨issued, hrun, hu⟩
  · rename_i hslot
    have hpending : u.guest.branchPending = false := Bool.eq_false_iff.mpr hslot
    dsimp only at hstep
    cases hlookup : cacheLookup u.guest.pc u.jit with
    | some b =>
      simp only [findBlock, hlookup] at hstep
      split at hstep
      · rw [← Outcome.next.inj hstep]
        refine ⟨issued, .hit _ hrun hlookup, ?_⟩
        rw [cacheInsert_of_lookup hlookup]
        exact hu
      · simp at hstep
    | none =>
      have hcap := hrun.buffer.1
      have hinside : EmitsInside glob u.guest.memory u.guest.pc u.jit :=
        (hu.fits (by rwa [hcap]) hstart hpending hlookup).1
      simp only [findBlock, hlookup] at hstep
      rcases hc : compileBlock glob u.guest.memory u.guest.pc u.jit with ⟨b | b, j'⟩
      · simp only [hc] at hstep
        rw [(interpret_next hstep).1]
        exact ⟨issued, .refused _ _ hrun hlookup hinside hc, hu.refused hc⟩
      · simp only [hc] at hstep
        have hword : (jitEmit (wordAt u.guest.memory u.guest.pc)).1 = true := by
          apply blockWords_ne_nil_iff.mp
          rw [← blockWords_of_some hc]
          exact b.nonempty
        split at hstep
        · rw [← Outcome.next.inj hstep]
          exact ⟨_, .compiled _ _ hrun hlookup hinside hc,
            hu.compiled hinj (hstart hpending hword) hlookup hc⟩
        · simp at hstep

end run

/-- A program whose blocks start at no more than 779 addresses, no two of them with the same
cache index, costs the JIT one compilation for each: over a whole run no address is
compiled twice and every block stays in the cache, no compilation leaves the buffer, and,
with a buffer at all, none is refused where there is a word to inline. -/
theorem jit_capacity (call : Jit → Block → State → Option State) (h : Host) (glob : DWord)
    (mmap : Option (ℕ → Byte)) (s : State) (S : Finset Word) (hinj : Set.InjOn cacheIndex S)
    (hS : S.card ≤ 779) (hstarts : Run.Always (dispatchStep call h glob) (StartsIn S)
      ⟨emitInit mmap, s⟩) (n : ℕ) (u : JitState)
    (hrun : Run.Steps (dispatchStep call h glob) n ⟨emitInit mmap, s⟩ u) :
    ∃ issued, BlockRun glob mmap issued u.jit ∧ (issued.map Issued.startPc).Nodup ∧
      (∀ e ∈ issued, e.startPc ∈ S ∧ cacheLookup e.startPc u.jit = some e.fn) ∧
      (u.guest.branchPending = false → cacheLookup u.guest.pc u.jit = none →
        EmitsInside glob u.guest.memory u.guest.pc u.jit ∧
        ((jitEmit (wordAt u.guest.memory u.guest.pc)).1 = true → mmap.isSome = true →
          (compileBlock glob u.guest.memory u.guest.pc u.jit).1.isSome = true)) := by
  have hsize : S.card * LONGEST_BLOCK ≤ 16 * 1024 * 1024 := by
    calc S.card * LONGEST_BLOCK ≤ 779 * LONGEST_BLOCK := Nat.mul_le_mul_right _ hS
      _ ≤ 16 * 1024 * 1024 := by decide
  obtain ⟨issued, hissued, htidy⟩ : ∃ issued, BlockRun glob mmap issued u.jit ∧
      Tidy S issued u.jit := by
    refine hrun.invariant_along (I := fun u => ∃ issued, BlockRun glob mmap issued u.jit ∧
      Tidy S issued u.jit) ?_ (fun m _ v hv => hstarts m v hv) ⟨[], .init, tidy_emitInit S mmap⟩
    intro v w hv hstart hstep
    obtain ⟨issued, hissued, htidy⟩ := hv
    exact htidy.step hissued hinj hsize hstart hstep
  obtain ⟨hcap, hbuf⟩ := hissued.buffer
  refine ⟨issued, hissued, htidy.distinct, fun e he => ⟨htidy.starts e he, htidy.cached e he⟩, ?_⟩
  intro hpending hmiss
  rw [← hbuf]
  exact htidy.fits (by rwa [hcap]) (hstarts n u hrun) hpending hmiss

/-- `addiu t0, t0, 1; sltiu t1, t0, 2; bne t1, r0, 0; nop; addiu t2, r0, 5; break`: the block
at 0 runs twice, the one at 12 once, and the branch is refused each time. -/
def countProgram : JitState :=
  ⟨emitInit (some fun _ => 0), resetState (flatImage [0x25080001#32, 0x2D090002#32, 0x1520FFFD#32,
    0, 0x240A0005#32, 0x0000000D#32]) 0⟩

/-- Both blocks are in the cache in the end, each compiled once. -/
theorem jit_capacity_count : ∃ (v : JitState) (issued : List Issued),
    Run.Steps (jitStep nullHost 0) 6 countProgram v ∧
    BlockRun 0 (some fun _ => 0) issued v.jit ∧ (issued.map Issued.startPc).Nodup ∧
    (∀ e ∈ issued, e.startPc ∈ ({0, 12} : Finset Word)) ∧
    (cacheLookup 0 v.jit).isSome = true ∧ (cacheLookup 12 v.jit).isSome = true := by
  have hstarts : Run.Always (jitStep nullHost 0) (StartsIn {0, 12}) countProgram := by
    have hcheck : Run.check (jitStep nullHost 0) (fun u => u.guest.branchPending ||
        !(jitEmit (wordAt u.guest.memory u.guest.pc)).1 || u.guest.pc == 0 || u.guest.pc == 12)
        7 countProgram = true := by decide +kernel
    intro n u hu hpending hword
    have hgood := Run.always_of_check hcheck n u hu
    simpa [hpending, hword] using hgood
  have hafter : (Run.after (jitStep nullHost 0) 6 countProgram).any (fun v =>
      (cacheLookup 0 v.jit).isSome && (cacheLookup 12 v.jit).isSome) = true := by decide +kernel
  obtain ⟨v, hv, hcached⟩ := Option.any_eq_true _ _ |>.mp hafter
  have hrun := Run.steps_of_after hv
  obtain ⟨hfirst, hsecond⟩ := Bool.and_eq_true_iff.mp hcached
  obtain ⟨issued, hissued, hdistinct, hin, _⟩ := jit_capacity _ nullHost 0 (some fun _ => 0) _
    {0, 12} (by decide) (by decide) hstarts 6 v hrun
  exact ⟨v, issued, hrun, hissued, hdistinct, fun e he => (hin e he).1, hfirst, hsecond⟩

end MyMips
