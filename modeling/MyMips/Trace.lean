import MyMips.Lib.Trail
import MyMips.NativeRefine
import MyMips.Transparency

namespace MyMips

def executeLogStep (h : Host) (log : Bool) (u : State × List Line) :
    Outcome ((ℕ × State) × List Line) (State × List Line) :=
  match stepInstructionLog h log u.1 u.2 with
  | ((.ok, s'), err) => .next (s', err)
  | ((.err, s'), err) => .done ((1, s'), err)
  | ((.stop, s'), err) => .done ((0, s'), err)
  | ((.trap, _), _) => .crash

def interpretLog (h : Host) (log : Bool) (m : JitState) (err : List Line) :
    Outcome ((ℕ × State) × List Line) (JitState × List Line) :=
  match stepInstructionLog h log m.guest err with
  | ((.ok, s'), err) => .next (⟨m.jit, s'⟩, err)
  | ((.err, s'), err) => .done ((1, s'), err)
  | ((.stop, s'), err) => .done ((0, s'), err)
  | ((.trap, _), _) => .crash

/-- The loop of `execute_jit` with the log: native blocks write none. -/
def dispatchLogStep (call : Jit → Block → State → Option State) (h : Host) (glob : DWord)
    (log : Bool) (u : JitState × List Line) :
    Outcome ((ℕ × State) × List Line) (JitState × List Line) :=
  if u.1.guest.branchPending then interpretLog h log u.1 u.2
  else
    let pc := u.1.guest.pc
    let r := findBlock glob u.1.guest.memory pc u.1.jit
    match r.1 with
    | some fn =>
      let jit := cacheInsert pc fn r.2
      match call jit fn u.1.guest with
      | some s => .next (⟨jit, s⟩, u.2)
      | none => .crash
    | none => interpretLog h log ⟨r.2, u.1.guest⟩ u.2

structure Fetched where
  pc : Word
  instru : Word
  inSlot : Bool
  deriving DecidableEq

def fetched (s : State) : Fetched := ⟨s.pc, wordAt s.memory s.pc, s.branchPending⟩

namespace Fetched

def traceLine (e : Fetched) : Line :=
  "Executing pc = ".toList ++ (hex08 e.pc ++ ": ".toList ++ hex08 e.instru ++ ": ".toList ++
    Disasm.disassemble e.instru 64)

def logLine (e : Fetched) : Line :=
  "[my_mips] ".toList ++ e.traceLine ++ " (cpu.c:291)\n".toList

/-- The instructions that no native block ever runs. -/
def interpreted (e : Fetched) : Bool := e.inSlot || !(jitEmit e.instru).1

end Fetched

def history (h : Host) (n : ℕ) (s : State) : List Fetched :=
  Run.trail (executeStep h) (fun s => [fetched s]) n s

section log
variable {h : Host} {glob : DWord}

theorem logInstr_eq (s : State) :
    logInstr s.pc (wordAt s.memory s.pc) "cpu.c".toList 291 = (fetched s).logLine := by
  have hhead : "[my_mips] Executing pc = ".toList =
      "[my_mips] ".toList ++ "Executing pc = ".toList := by decide
  have htail : " (".toList ++ "cpu.c".toList ++ ':' :: Text.dec 291 ++ ")\n".toList =
      " (cpu.c:291)\n".toList := by decide
  -- The texts are abstracted: what is left is a matter of brackets.
  have hassoc (m p q a b c d loc x1 x2 x3 x4 x5 : Line) (hm : m = p ++ q)
      (hloc : a ++ b ++ ':' :: c ++ d = loc) :
      m ++ x1 ++ x2 ++ x3 ++ x4 ++ x5 ++ a ++ b ++ ':' :: c ++ d =
        p ++ (q ++ (x1 ++ x2 ++ x3 ++ x4 ++ x5)) ++ loc := by
    subst hm hloc
    simp only [List.append_assoc, List.cons_append]
  exact hassoc _ _ _ _ _ _ _ _ _ _ _ _ _ hhead htail

theorem logNote_true (s : State) : logNote true s = [(fetched s).logLine] := by
  rw [logNote, if_pos rfl, logInstr_eq]

theorem executeLogStep_eq (h : Host) (log : Bool) :
    executeLogStep h log = Run.logged (executeStep h) (logNote log) := by
  funext u
  rw [executeLogStep, stepInstructionLog_eq, Run.logged, executeStep]
  rcases stepInstruction h u.1 with ⟨_ | _ | _ | _, t⟩ <;> rfl

def interprets (glob : DWord) (u : JitState) : Bool :=
  u.guest.branchPending || (findBlock glob u.guest.memory u.guest.pc u.jit).1.isNone

theorem interpretLog_eq (log : Bool) (m : JitState) (err : List Line) :
    interpretLog h log m err = (interpret h m).withLog (err ++ logNote log m.guest) := by
  rw [interpretLog, stepInstructionLog_eq, interpret]
  rcases stepInstruction h m.guest with ⟨_ | _ | _ | _, t⟩ <;> rfl

theorem dispatchLogStep_eq (call : Jit → Block → State → Option State) (h : Host)
    (glob : DWord) (log : Bool) :
    dispatchLogStep call h glob log = Run.logged (dispatchStep call h glob) fun u =>
      if interprets glob u then logNote log u.guest else [] := by
  funext u
  rw [dispatchLogStep, Run.logged, dispatchStep, interprets]
  cases hpending : u.1.guest.branchPending with
  | true =>
    simp only [if_true, Bool.true_or]
    exact interpretLog_eq log u.1 u.2
  | false =>
    simp only [Bool.false_eq_true, if_false, Bool.false_or]
    rcases findBlock glob u.1.guest.memory u.1.guest.pc u.1.jit with ⟨_ | b, j⟩
    · simp only [Option.isNone_none, if_true]
      exact interpretLog_eq log ⟨j, u.1.guest⟩ u.2
    · dsimp only
      cases call (cacheInsert u.1.guest.pc b j) b u.1.guest with
      | none => rfl
      | some s => simp [Outcome.withLog]

end log

section history
variable {h : Host} {s t : State} {k n : ℕ}

theorem trail_logNote (n : ℕ) (s : State) :
    Run.trail (executeStep h) (logNote true) n s = (history h n s).map Fetched.logLine := by
  apply Run.trail_congr
  intro t
  exact logNote_true t

theorem length_history (hrun : Run.Steps (executeStep h) n s t) : (history h n s).length = n := by
  induction hrun with
  | refl s => rfl
  | @head n s t u hs _ ih =>
    rw [history] at ih ⊢
    rw [Run.trail_succ_of_next hs, List.length_append, ih]
    exact Nat.add_comm 1 n

/-- With `-l` the interpreter runs as without it, and stderr lists the instructions it
executes, the last one included: all of them, in order, with their addresses and words. -/
theorem log_lists_execution (h : Host) (s : State) (err : List Line) :
    (∀ n, Run.run (executeLogStep h true) n (s, err) =
      (Run.run (executeStep h) n s).map fun r =>
        (r, err ++ (history h n s).map Fetched.logLine)) ∧
    (∀ n t err', Run.Steps (executeLogStep h true) n (s, err) (t, err') ↔
      Run.Steps (executeStep h) n s t ∧ err' = err ++ (history h n s).map Fetched.logLine) ∧
    ∀ n, Run.run (executeLogStep h false) n (s, err) =
      (Run.run (executeStep h) n s).map fun r => (r, err) := by
  refine ⟨?_, ?_, ?_⟩
  · intro n
    rw [executeLogStep_eq, Run.run_logged, trail_logNote]
  · intro n t err'
    rw [executeLogStep_eq, Run.steps_logged_iff, trail_logNote]
  · intro n
    rw [executeLogStep_eq, Run.run_logged, Run.trail_eq_nil logNote_false, List.append_nil]

end history

section jit
variable {f : Surroundings} {h : Host} {glob : DWord}

/-- The log `kept` of a run whose instructions are `all`: nothing that was not executed, in
order, and everything that is never compiled. -/
def Thins (kept all : List Fetched) : Prop :=
  kept.Sublist all ∧ (all.filter Fetched.interpreted).Sublist kept

theorem thins_append (a b a' b' : List Fetched) (h : Thins a b) (h' : Thins a' b') :
    Thins (a ++ a') (b ++ b') := by
  refine ⟨h.1.append h'.1, ?_⟩
  rw [List.filter_append]
  exact h.2.append h'.2

theorem thins_self (a : List Fetched) : Thins a a := ⟨.refl a, List.filter_sublist⟩

/-- A block runs words that are inlined, none of them in a delay slot. -/
theorem thins_block {b : Block} {s : State} (hm : b.Matches s.memory) (hpc : b.pc = s.pc)
    (hs : s.branchPending = false) : Thins [] (history h b.words.length s) := by
  refine ⟨List.nil_sublist _, ?_⟩
  rw [List.filter_eq_nil_iff.mpr]
  intro e he
  obtain ⟨k, u, hk, hu, hmem⟩ := Run.mem_trail he
  obtain rfl := List.mem_singleton.mp hmem
  -- The state before word `k` of the block, which has the word at its address.
  have hu' := hu.unique (steps_block_take hm hpc hs hk.le)
  have hinlined : ∀ i ∈ b.words.take k, (jitEmit i).1 = true := fun i hi =>
    b.inlined i (List.mem_of_mem_take hi)
  obtain ⟨reg, hi, lo, hrun⟩ := runWords_frame h hinlined s
  rw [hrun] at hu'
  have hword : wordAt s.memory (b.pc + BitVec.ofNat 32 (4 * k)) ∈ b.words := by
    rw [hm]
    exact List.mem_map_of_mem (List.mem_range.mpr hk)
  rw [hu']
  simp only [Fetched.interpreted, fetched, hs, b.inlined _ hword, Bool.not_true, Bool.or_self,
    Bool.false_eq_true, not_false_eq_true]

/-- A turn that does not call `step_instruction` runs the block found for `pc`. -/
theorem interprets_cases (h : Host) (glob : DWord) (u : JitState) :
    (interprets glob u = true ∧ ∃ j, ∀ call, dispatchStep call h glob u =
      interpret h ⟨j, u.guest⟩) ∨
    (interprets glob u = false ∧ u.guest.branchPending = false ∧ ∃ b j,
      findBlock glob u.guest.memory u.guest.pc u.jit = (some b, j) ∧
      ∀ call, dispatchStep call h glob u =
        match call (cacheInsert u.guest.pc b j) b u.guest with
        | some s => .next ⟨cacheInsert u.guest.pc b j, s⟩
        | none => .crash) := by
  unfold dispatchStep interprets
  cases hpending : u.guest.branchPending with
  | true => exact .inl ⟨rfl, u.jit, fun _ => rfl⟩
  | false =>
    rcases hf : findBlock glob u.guest.memory u.guest.pc u.jit with ⟨_ | b, j⟩
    · refine .inl ⟨rfl, j, fun call => ?_⟩
      simp only [Bool.false_eq_true, if_false, hf]
    · refine .inr ⟨rfl, rfl, b, j, rfl, fun call => ?_⟩
      cases hcall : call (cacheInsert u.guest.pc b j) b u.guest with
      | none => simp only [Bool.false_eq_true, if_false, hf, hcall]
      | some s => simp only [Bool.false_eq_true, if_false, hf, hcall]

/-- What a turn of the native dispatcher logs, against the steps it stands for. -/
theorem nativeStep_matchesLogged : Run.MatchesLogged (nativeStep f h)
    (fun u => if interprets f.glob u then [fetched u.guest] else []) (executeStep h)
    (fun s => [fetched s]) Thins fun u s => InStep h f.glob u s ∧ Sound f.glob u := by
  rintro u s ⟨hin, hsound⟩
  have hturn := nativeStep_matches u s ⟨hin, hsound⟩
  obtain ⟨rfl, hu, -⟩ := hin
  have hinterpreted (hi : interprets f.glob u = true) {v : JitState}
      (hn : nativeStep f h u = .next v) : executeStep h u.guest = .next v.guest := by
    rcases interprets_cases h f.glob u with ⟨_, j, hcall⟩ | ⟨hi', _⟩
    · exact (interpret_next ((hcall _).symm.trans hn)).2
    · exact absurd (hi.symm.trans hi') Bool.noConfusion
  cases hn : nativeStep f h u with
  | next v =>
    rw [hn] at hturn
    obtain ⟨_, t, _, _, ⟨rfl, hv⟩, hsound'⟩ := hturn
    cases hi : interprets f.glob u with
    | true =>
      have hone := hinterpreted hi hn
      refine ⟨1, v.guest, .head hone (.refl _), ⟨⟨rfl, hv⟩, hsound'⟩, ?_⟩
      rw [Run.trail_succ_of_next hone]
      simp only [hi, if_true]
      exact thins_self [fetched u.guest]
    | false =>
      rcases interprets_cases h f.glob u with ⟨hi', _⟩ | ⟨_, hpending, b, j, hfind, hturn'⟩
      · exact absurd (hi'.symm.trans hi) Bool.noConfusion
      · obtain ⟨hpc, hb⟩ := hu.found hfind
        have hv' : v.guest = blockEffect h b u.guest := by
          rw [nativeStep_eq hsound, jitStep, hturn'] at hn
          cases hcall : blockCall h f.glob (cacheInsert u.guest.pc b j) b u.guest with
          | none => simp [hcall] at hn
          | some t =>
            rw [hcall] at hn
            rw [← Outcome.next.inj hn, (blockCall_some h hcall).2]
        refine ⟨b.words.length, v.guest, ?_, ⟨⟨rfl, hv⟩, hsound'⟩, ?_⟩
        · rw [hv']
          exact steps_block h hb hpc hpending
        · simp only [hi, Bool.false_eq_true, if_false]
          exact thins_block hb hpc hpending
  | done r =>
    rw [hn] at hturn
    refine ⟨hturn, ?_⟩
    rcases interprets_cases h f.glob u with ⟨hi, _⟩ | ⟨_, _, b, j, _, hturn'⟩
    · simp only [hi, if_true]
      exact thins_self _
    · -- A turn that runs a block does not return.
      rw [nativeStep, hturn'] at hn
      cases hcall : nativeCall f (cacheInsert u.guest.pc b j) b u.guest <;> simp [hcall] at hn
  | crash => trivial

def nativeNote (glob : DWord) (log : Bool) (u : JitState) : List Line :=
  if interprets glob u then logNote log u.guest else []

theorem trail_nativeNote (n : ℕ) (u : JitState) :
    Run.trail (nativeStep f h) (nativeNote f.glob true) n u = (Run.trail (nativeStep f h)
      (fun u => if interprets f.glob u then [fetched u.guest] else []) n u).map
        Fetched.logLine := by
  apply Run.trail_congr
  intro v
  rw [nativeNote]
  cases interprets f.glob v with
  | true => exact logNote_true v.guest
  | false => rfl

theorem nativeNote_false (u : JitState) : nativeNote glob false u = [] := by
  rw [nativeNote]
  split_ifs <;> rfl

theorem dispatchLogStep_native (log : Bool) : dispatchLogStep (nativeCall f) h f.glob log =
    Run.logged (nativeStep f h) (nativeNote f.glob log) :=
  dispatchLogStep_eq (nativeCall f) h f.glob log

/-- Under the JIT the log of a program that never rewrites an instruction it has executed,
and has no overlong straight line, is thinned out: it lists instructions of the interpreted
run only, in the order of that run, and every one of them that cannot be compiled or is in a
delay slot. -/
theorem native_log_thins (f : Surroundings) (h : Host) (mmap : Option (ℕ → Byte)) (s : State)
    (h0 : s.reg 0 = 0) (hkeep : KeepsExecuted h s) (hshort : ShortBlocks h s) (err : List Line) :
    (∀ n u err', Run.Steps (dispatchLogStep (nativeCall f) h f.glob true) n
        (⟨emitInit mmap, s⟩, err) (u, err') →
      ∃ k kept, Run.Steps (executeStep h) k s u.guest ∧ Thins kept (history h k s) ∧
        err' = err ++ kept.map Fetched.logLine) ∧
    (∀ n r err', Run.run (dispatchLogStep (nativeCall f) h f.glob true) n
        (⟨emitInit mmap, s⟩, err) = some (r, err') →
      ∃ k kept, Run.run (executeStep h) k s = some r ∧ Thins kept (history h k s) ∧
        err' = err ++ kept.map Fetched.logLine) := by
  have hR := inStep_emitInit f mmap h0 hkeep hshort
  rw [dispatchLogStep_native]
  constructor
  · intro n u err' hrun
    obtain ⟨hsteps, rfl⟩ := Run.steps_logged_iff.mp hrun
    obtain ⟨k, t, hk, ⟨⟨rfl, _⟩, _⟩, hthin⟩ :=
      nativeStep_matchesLogged.reached (thins_self []) thins_append hR hsteps
    exact ⟨k, _, hk, hthin, by rw [trail_nativeNote]⟩
  · intro n r err' hrun
    obtain ⟨m, hret, rfl⟩ := Run.returns_logged_iff.mp ⟨n, hrun⟩
    obtain ⟨k, hk, hthin⟩ :=
      nativeStep_matchesLogged.returns (thins_self []) thins_append hR hret
    exact ⟨k, _, hk, hthin, by rw [trail_nativeNote]⟩

end jit

/-- After its first block `addiu r8, r8, 1; break` has logged part of its instructions. -/
theorem native_log_thins_break : ∃ v err' k kept,
    Run.Steps (dispatchLogStep (nativeCall demoSurroundings) nullHost demoSurroundings.glob true)
      1 (haltProgram, []) (v, err') ∧
    Thins kept (history nullHost k haltProgram.guest) ∧ err' = kept.map Fetched.logLine := by
  obtain ⟨hturns, _⟩ := native_log_thins demoSurroundings nullHost (some fun _ => 0)
    haltProgram.guest rfl keepsExecuted_halt shortBlocks_halt []
  have hsound : Sound demoSurroundings.glob haltProgram := sound_emitInit _ _ rfl
  obtain ⟨v, hv⟩ : ∃ v, nativeStep demoSurroundings nullHost haltProgram = .next v := by
    rw [nativeStep_eq hsound]
    exact ⟨_, rfl⟩
  obtain ⟨err', hrun⟩ : ∃ err', Run.Steps (dispatchLogStep (nativeCall demoSurroundings) nullHost
      demoSurroundings.glob true) 1 (haltProgram, []) (v, err') := by
    rw [dispatchLogStep_native]
    exact ⟨_, Run.steps_logged_iff.mpr ⟨.head hv (.refl v), rfl⟩⟩
  obtain ⟨k, kept, _, hthin, hlog⟩ := hturns 1 v _ hrun
  exact ⟨v, err', k, kept, hrun, hthin, hlog⟩

end MyMips
