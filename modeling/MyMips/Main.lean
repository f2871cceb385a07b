import MyMips.CodeListing
import MyMips.TerminalSession
import MyMips.Session
import MyMips.Continue
import MyMips.Logger

namespace MyMips.Loader

def InitResult.setMode (m : Mode) : InitResult → InitResult
  | .returns g => .returns { g with mode := m }
  | r => r

section mode
variable {env : Env} {argv argv' : Argv} {garbage g g' : Global} {m : Mode}

theorem openProgram_mode (f : DirEntry) (g : Global) (m : Mode) :
    openProgram f { g with mode := m } =
      ((openProgram f g).1, { (openProgram f g).2 with mode := m }) := by
  unfold openProgram
  cases openFile f with
  | none =>
    rcases binaryOrElf f with _ | ⟨d, _ | ⟨e, tbl⟩⟩ <;> rfl
  | some d' =>
    rcases binaryOrElf f with _ | ⟨d, _ | ⟨e, tbl⟩⟩ <;> rfl

theorem setMode_ofOption (r : Option Global) :
    (InitResult.ofOption r).setMode m = .ofOption (r.map fun g => { g with mode := m }) := by
  cases r <;> rfl

theorem loadProgram_mode (fd : Option Disk) (g : Global) (m : Mode) :
    loadProgram env fd { g with mode := m } = (loadProgram env fd g).setMode m := by
  unfold loadProgram
  by_cases helf : g.elf ≠ 0
  · simp only [if_pos helf, mapElfGlobal]
    cases htbl : (if g.elfHeader.phnum = 0 then some fun _ => 0 else g.prgHeader) with
    | none => rfl
    | some tbl =>
      dsimp only
      rw [setMode_ofOption, Option.map_map]
      rfl
  · simp only [if_neg helf]
    rw [setMode_ofOption, Option.map_map]
    rfl

/-- Two command lines for one program differ in the flags. -/
theorem initGlobal_mode (hpath : argv'.path = argv.path) :
    initGlobal env argv' garbage = (initGlobal env argv garbage).setMode argv'.mode := by
  have hreset : resetGlobal argv' garbage =
      { resetGlobal argv garbage with mode := argv'.mode } := rfl
  unfold initGlobal
  cases env.malloc with
  | false => rfl
  | true =>
    simp only [Bool.not_true, Bool.false_eq_true, if_false, hpath, hreset, openProgram_mode,
      loadProgram_mode]
    cases loadProgram env (openProgram (env.files argv.path) (resetGlobal argv garbage)).1
      (openProgram (env.files argv.path) (resetGlobal argv garbage)).2 <;> rfl

theorem mode_initGlobal (hinit : initGlobal env argv garbage = .returns g) :
    g.mode = argv.mode := by
  have hself : initGlobal env argv garbage =
      (initGlobal env argv garbage).setMode argv.mode := initGlobal_mode rfl
  rw [hinit] at hself
  exact congrArg Global.mode (InitResult.returns.inj hself)

theorem openProgram_reg (f : DirEntry) (g : Global) : (openProgram f g).2.reg = g.reg := by
  unfold openProgram
  cases openFile f with
  | none => rcases binaryOrElf f with _ | ⟨d, _ | ⟨e, tbl⟩⟩ <;> rfl
  | some d' => rcases binaryOrElf f with _ | ⟨d, _ | ⟨e, tbl⟩⟩ <;> rfl

theorem loadProgram_reg {fd : Option Disk} (hload : loadProgram env fd g = .returns g') :
    g'.reg = g.reg := by
  have hof {r : Option Global} (hr : ∀ g' ∈ r, g'.reg = g.reg)
      (heq : InitResult.ofOption r = .returns g') : g'.reg = g.reg := by
    cases r with
    | none => cases heq
    | some g1 =>
      obtain rfl := InitResult.returns.inj heq
      exact hr g1 rfl
  unfold loadProgram at hload
  split_ifs at hload
  · unfold mapElfGlobal at hload
    dsimp only at hload
    cases htbl : (if g.elfHeader.phnum = 0 then some fun _ => 0 else g.prgHeader) with
    | none =>
      rw [htbl] at hload
      cases hload
    | some tbl =>
      simp only [htbl] at hload
      apply hof ?_ hload
      intro g1 hg1
      obtain ⟨img, _, rfl⟩ := Option.map_eq_some_iff.mp hg1
      rfl
  · apply hof ?_ hload
    intro g1 hg1
    obtain ⟨m, _, rfl⟩ := Option.map_eq_some_iff.mp hg1
    rfl

/-- Whatever the struct held and whatever was loaded, `$0` is 0. -/
theorem initGlobal_zero (hinit : initGlobal env argv garbage = .returns g) :
    g.state.reg 0 = 0 := by
  unfold initGlobal at hinit
  split_ifs at hinit
  dsimp only at hinit
  cases hload : loadProgram env (openProgram (env.files argv.path) (resetGlobal argv garbage)).1
      (openProgram (env.files argv.path) (resetGlobal argv garbage)).2 with
  | fails =>
    rw [hload] at hinit
    cases hinit
  | crash =>
    rw [hload] at hinit
    cases hinit
  | returns g' =>
    rw [hload] at hinit
    obtain rfl := InitResult.returns.inj hinit
    have hreg := loadProgram_reg hload
    rw [openProgram_reg] at hreg
    have hsp : (0 : Reg) ≠ SP := by decide
    have hzero : g'.reg 0 = 0 := congrFun hreg 0
    exact (Function.update_of_ne hsp (BitVec.ofNat 32 (MEM_SIZE - 4)) g'.reg).trans hzero

end mode

section flag
variable {F : Mode → Mode} {x : List Char}

theorem foldl_scanArg (hF : ∀ m a, scanArg (F m) a = F (scanArg m a)) (args : List (List Char))
    (m : Mode) : args.foldl scanArg (F m) = F (args.foldl scanArg m) := by
  induction args generalizing m with
  | nil => rfl
  | cons a args ih => rw [List.foldl_cons, List.foldl_cons, hF, ih]

theorem mode_insert (hF : ∀ m a, scanArg (F m) a = F (scanArg m a)) (hx : ∀ m, scanArg m x = F m)
    (o o' : List (List Char)) (path : List Char) :
    Argv.mode ⟨o ++ x :: o', path⟩ = F (Argv.mode ⟨o ++ o', path⟩) := by
  simp only [Argv.mode, Argv.all, List.append_assoc, List.cons_append, List.foldl_append,
    List.foldl_cons, hx, foldl_scanArg hF]

variable (o o' : List (List Char)) (path : List Char)

theorem mode_insert_jit : Argv.mode ⟨o ++ "-j".toList :: o', path⟩ =
    { Argv.mode ⟨o ++ o', path⟩ with jit := true } := by
  apply mode_insert (F := fun m => { m with jit := true }) ?_ (fun m => rfl)
  intro m a
  unfold scanArg
  split <;> rfl

theorem mode_insert_log : Argv.mode ⟨o ++ "-l".toList :: o', path⟩ =
    { Argv.mode ⟨o ++ o', path⟩ with log := true } := by
  apply mode_insert (F := fun m => { m with log := true }) ?_ (fun m => rfl)
  intro m a
  unfold scanArg
  split <;> rfl

theorem mode_insert_debug : Argv.mode ⟨o ++ "-d".toList :: o', path⟩ =
    { Argv.mode ⟨o ++ o', path⟩ with debug := true } := by
  apply mode_insert (F := fun m => { m with debug := true }) ?_ (fun m => rfl)
  intro m a
  unfold scanArg
  split <;> rfl

end flag

end MyMips.Loader

namespace MyMips
open Loader

/-- Everything a run of the emulator meets. What the guest reads is among the answers of
`host`; it does not come out of the stream the debugger reads. -/
structure World where
  /-- `argv[0]` -/
  name : List Char
  env : Env
  /-- The memory `malloc` hands out for `struct global`. -/
  garbage : Global
  host : Host
  surroundings : Surroundings
  /-- The memory `mmap` hands out for the code buffer. -/
  mmapCode : Option (ℕ → Byte)
  /-- `isatty(STDIN_FILENO)` -/
  interactive : Bool
  stdin : CFile
  terminal : Terminal
  /-- What the memory of the readline stream holds before its fields are set. -/
  staleHasBuffer : Bool
  staleBuffer : ℤ

/-- The exit status, the guest at the end of its execution, what the debugger printed, and
the lines on stderr, those of the loader aside. -/
structure Exit where
  status : ℕ
  guest : Option State
  output : List Line
  stderr : List Line

def usageLine (name : List Char) : Line :=
  "Usage: ".toList ++ name ++ " [-l] [-d] [-j] <path to MIPS executable>\n".toList

def errorLines (code : ℕ) : List Line :=
  if code = 1 then [logger "main.c".toList 40 "Error during execution".toList] else []

def Debugs (w : World) (d d' : Dbg) : Prop :=
  ∃ fuel, if w.interactive then
    DebugRun (cstreamPop cstreamReadlineRead) w.host fuel
      (cstreamReadlineCreate w.staleHasBuffer w.staleBuffer w.terminal) d d'
  else DebugRun (cstreamPop cstreamFileRead) w.host fuel (cstreamFileCreate w.stdin) d d'

inductive Executes (w : World) (g : Global) : Exit → Prop
  | debug {d' : Dbg} : g.mode.debug = true → Debugs w g.debugger d' →
    Executes w g ⟨0, some d'.guest, d'.output, d'.stderr⟩
  | jit {code : ℕ} {t : State} {err : List Line} : g.mode.debug = false → g.mode.jit = true →
    Run.Returns (dispatchLogStep (nativeCall w.surroundings) w.host w.surroundings.glob g.mode.log)
      (⟨emitInit w.mmapCode, g.state⟩, []) ((code, t), err) →
    Executes w g ⟨0, some t, [], err ++ errorLines code⟩
  | interpret {code : ℕ} {t : State} {err : List Line} :
    g.mode.debug = false → g.mode.jit = false →
    Run.Returns (executeLogStep w.host g.mode.log) (g.state, []) ((code, t), err) →
    Executes w g ⟨0, some t, [], err ++ errorLines code⟩

inductive Main (w : World) : Option Argv → Exit → Prop
  | usage : Main w none ⟨1, none, [], [usageLine w.name]⟩
  | fails {argv : Argv} : initGlobal w.env argv w.garbage = .fails →
    Main w (some argv) ⟨1, none, [], []⟩
  | executes {argv : Argv} {g : Global} {e : Exit} :
    initGlobal w.env argv w.garbage = .returns g → Executes w g e → Main w (some argv) e

/-- A program that does not rewrite what it has executed and has no overlong straight
lines. -/
structure Compilable (h : Host) (s : State) : Prop where
  keeps : KeepsExecuted h s
  short : ShortBlocks h s

/-- How a run under `-j` ends, against the same run without: the same, but for the lines of
`-l` that native code does not write. -/
structure Exit.Agrees (log : Bool) (e' e : Exit) : Prop where
  status : e'.status = e.status
  guest : e'.guest = e.guest
  output : e'.output = e.output
  stderr : e'.stderr.Sublist e.stderr
  silent : log = false → e'.stderr = e.stderr

section jit
variable {w : World} {g : Global} {argv : Argv} {e : Exit} {f : Surroundings}
  {h : Host} {s : State} {mmap : Option (ℕ → Byte)}

theorem Exit.Agrees.refl (log : Bool) (e : Exit) : e.Agrees log e :=
  ⟨rfl, rfl, rfl, .refl _, fun _ => rfl⟩

theorem main_of_fails (hinit : initGlobal w.env argv w.garbage = .fails) :
    Main w (some argv) e ↔ e = ⟨1, none, [], []⟩ := by
  constructor
  · intro he
    cases he with
    | fails _ => rfl
    | executes hreturns _ => exact absurd (hinit.symm.trans hreturns) nofun
  · rintro rfl
    exact .fails hinit

theorem not_main_of_crash (hinit : initGlobal w.env argv w.garbage = .crash) :
    ¬ Main w (some argv) e := by
  intro he
  cases he with
  | fails hfails => exact absurd (hinit.symm.trans hfails) nofun
  | executes hreturns _ => exact absurd (hinit.symm.trans hreturns) nofun

theorem main_of_returns (hinit : initGlobal w.env argv w.garbage = .returns g) :
    Main w (some argv) e ↔ Executes w g e := by
  constructor
  · intro he
    cases he with
    | fails hfails => exact absurd (hinit.symm.trans hfails) nofun
    | executes hreturns he =>
      obtain rfl := InitResult.returns.inj (hinit.symm.trans hreturns)
      exact he
  · exact .executes hinit

/-- The logs of two runs that return the same. -/
theorem log_agrees (hR : InStep h f.glob ⟨emitInit mmap, s⟩ s ∧ Sound f.glob ⟨emitInit mmap, s⟩)
    {log : Bool} {r : ℕ × State} {err err' : List Line}
    (hinterp : Run.Returns (executeLogStep h log) (s, []) (r, err))
    (hnative : Run.Returns (dispatchLogStep (nativeCall f) h f.glob log)
      (⟨emitInit mmap, s⟩, []) (r, err')) :
    err'.Sublist err ∧ (log = false → err' = err) := by
  rw [executeLogStep_eq] at hinterp
  rw [dispatchLogStep_native] at hnative
  obtain ⟨n, hn, rfl⟩ := Run.returns_logged_iff.mp hinterp
  obtain ⟨k, hk, rfl⟩ := Run.returns_logged_iff.mp hnative
  rw [List.nil_append, List.nil_append]
  cases log with
  | false =>
    rw [Run.trail_eq_nil logNote_false, Run.trail_eq_nil nativeNote_false]
    exact ⟨.refl _, fun _ => rfl⟩
  | true =>
    obtain ⟨j, hj, hthin, _⟩ :=
      nativeStep_matchesLogged.returns (thins_self []) thins_append hR hk
    rw [trail_nativeNote, trail_logNote, history, Run.trail_of_run hn hj]
    exact ⟨hthin.map Fetched.logLine, Bool.noConfusion⟩

/-- The interpreter and the JIT return the same, with logs that agree. -/
theorem returns_agree (hR : InStep h f.glob ⟨emitInit mmap, s⟩ s ∧
    Sound f.glob ⟨emitInit mmap, s⟩) (log : Bool) (r : ℕ × State) :
    (∃ err, Run.Returns (executeLogStep h log) (s, []) (r, err)) ↔
      ∃ err, Run.Returns (dispatchLogStep (nativeCall f) h f.glob log)
        (⟨emitInit mmap, s⟩, []) (r, err) := by
  rw [executeLogStep_eq, dispatchLogStep_native]
  simp only [Run.returns_logged_iff]
  constructor
  · rintro ⟨_, n, hn, rfl⟩
    obtain ⟨k, hk⟩ := (nativeStep_matches.returns_iff hR r).mpr ⟨n, hn⟩
    exact ⟨_, k, hk, rfl⟩
  · rintro ⟨_, n, hn, rfl⟩
    obtain ⟨k, hk⟩ := (nativeStep_matches.returns_iff hR r).mp ⟨n, hn⟩
    exact ⟨_, k, hk, rfl⟩

/-- The flag `-j` on a loaded program. -/
theorem executes_jit (h0 : g.state.reg 0 = 0) (hsafe : Compilable w.host g.state) :
    let gj : Global := { g with mode := { g.mode with jit := true } }
    (∀ e, Executes w g e → ∃ e', Executes w gj e' ∧ e'.Agrees g.mode.log e) ∧
    ∀ e', Executes w gj e' → ∃ e, Executes w g e ∧ e'.Agrees g.mode.log e := by
  intro gj
  have hR := inStep_emitInit w.surroundings w.mmapCode h0 hsafe.keeps hsafe.short
  have hagrees {code : ℕ} {t : State} {err err' : List Line}
      (hlog : err'.Sublist err ∧ (g.mode.log = false → err' = err)) :
      Exit.Agrees g.mode.log ⟨0, some t, [], err' ++ errorLines code⟩
        ⟨0, some t, [], err ++ errorLines code⟩ :=
    ⟨rfl, rfl, rfl, hlog.1.append (.refl _), fun hl => by rw [hlog.2 hl]⟩
  constructor
  · intro e he
    cases he with
    | debug hd hrun => exact ⟨_, .debug hd hrun, .refl _ _⟩
    | jit hd hj hret => exact ⟨_, .jit hd rfl hret, .refl _ _⟩
    | @interpret code t err hd hj hret =>
      obtain ⟨err', hret'⟩ := (returns_agree hR g.mode.log (code, t)).mp ⟨err, hret⟩
      exact ⟨_, .jit hd rfl hret', hagrees (log_agrees hR hret hret')⟩
  · intro e' he
    cases he with
    | debug hd hrun => exact ⟨_, .debug hd hrun, .refl _ _⟩
    | @jit code t err' hd _ hret' =>
      cases hj : g.mode.jit with
      | true => exact ⟨_, .jit hd hj hret', .refl _ _⟩
      | false =>
        obtain ⟨err, hret⟩ := (returns_agree hR g.mode.log (code, t)).mpr ⟨err', hret'⟩
        exact ⟨_, .interpret hd hj hret, hagrees (log_agrees hR hret hret')⟩
    | interpret hd hj hret => exact absurd hj (by simp [gj])

end jit

/-- The option `-j` changes nothing but the log of `-l`: wherever it stands among the
options, `main` ends with the same status, the same machine and the same output. -/
theorem main_jit (w : World) (o o' : List (List Char)) (path : List Char)
    (hsafe : ∀ g, initGlobal w.env ⟨o ++ o', path⟩ w.garbage = .returns g →
      Compilable w.host g.state) :
    let argv : Argv := ⟨o ++ o', path⟩
    let argv' : Argv := ⟨o ++ "-j".toList :: o', path⟩
    (∀ e, Main w (some argv) e → ∃ e', Main w (some argv') e' ∧ e'.Agrees argv.mode.log e) ∧
    ∀ e', Main w (some argv') e' → ∃ e, Main w (some argv) e ∧ e'.Agrees argv.mode.log e := by
  intro argv argv'
  have hmode : argv'.mode = { argv.mode with jit := true } := mode_insert_jit o o' path
  have hinit : initGlobal w.env argv' w.garbage =
      (initGlobal w.env argv w.garbage).setMode argv'.mode := initGlobal_mode rfl
  cases hrun : initGlobal w.env argv w.garbage with
  | fails =>
    rw [hrun] at hinit
    simp only [main_of_fails hrun, main_of_fails hinit]
    exact ⟨fun e he => ⟨e, he, .refl _ _⟩, fun e he => ⟨e, he, .refl _ _⟩⟩
  | crash =>
    rw [hrun] at hinit
    exact ⟨fun e he => absurd he (not_main_of_crash hrun),
      fun e he => absurd he (not_main_of_crash hinit)⟩
  | returns g =>
    rw [hrun, hmode, ← mode_initGlobal hrun] at hinit
    simp only [main_of_returns hrun, main_of_returns hinit, ← mode_initGlobal hrun]
    exact executes_jit (initGlobal_zero hrun) (hsafe g hrun)

def continueLine : List Byte := "continue".toList.map fun c => BitVec.ofNat 8 c.toNat

/-- `break`, and twelve times `addiu $v0, $v0, 1` behind it. -/
def breakDisk : Disk :=
  diskOf ((0x0000000D#32 :: List.replicate 12 0x24420001#32).flatMap Bytes.le32)

def breakWorld : World where
  name := "my_mips".toList
  env := hostWith (.regular breakDisk true)
  garbage := blank
  host := nullHost
  surroundings := demoSurroundings
  mmapCode := some fun _ => 0
  interactive := false
  stdin := ⟨continueLine ++ [10], false⟩
  terminal := ⟨[], []⟩
  staleHasBuffer := false
  staleBuffer := 0

/-- It is loaded and stops at once. -/
theorem breakWorld_runs : ∃ g t,
    initGlobal breakWorld.env ⟨[], "a".toList⟩ breakWorld.garbage = .returns g ∧
    Compilable breakWorld.host g.state ∧ Executes breakWorld g ⟨0, some t, [], []⟩ := by
  have hhost := hostWith_succeeds (.regular breakDisk true) (diskOf_succeeds _ : breakDisk.Succeeds)
  have hflat : ¬ breakDisk.IsElf := by
    rintro ⟨-, hcheck⟩
    exact absurd hcheck (by decide +kernel)
  obtain ⟨g, hinit, hstate⟩ := loadsFlat_of_le breakWorld.env ⟨[], "a".toList⟩ rfl hhost
    (by decide +kernel) hflat (by decide +kernel) breakWorld.garbage
  obtain ⟨t, hdone⟩ : ∃ t, executeStep breakWorld.host g.state = .done (0, t) := by
    rw [hstate]
    exact ⟨_, executeStep_of_stop (by decide +kernel)⟩
  have hshort : 12 + ((blockWords g.state.memory g.state.pc).map codeSize).sum + 19 ≤ 8192 := by
    rw [hstate]
    decide +kernel
  have hmode : g.mode = ⟨false, false, false⟩ := mode_initGlobal hinit
  refine ⟨g, t, hinit, ⟨?_, Run.always_of_done hdone hshort⟩, ?_⟩
  · -- There is no step to rewrite anything.
    intro n u v hu hv
    obtain ⟨_, rfl⟩ := hu.eq_zero fun v hv' => absurd (hdone.symm.trans hv') nofun
    exact absurd (hdone.symm.trans hv) nofun
  · have hret : Run.Returns (executeLogStep breakWorld.host g.mode.log) (g.state, [])
        ((0, t), []) := by
      rw [hmode, executeLogStep_eq]
      exact Run.returns_logged_iff.mpr ⟨1, by rw [Run.run, hdone],
        by rw [Run.trail_eq_nil logNote_false, List.append_nil]⟩
    exact .interpret (by rw [hmode]) (by rw [hmode]) hret

/-- `my_mips a` ends the same under `-j`. -/
theorem main_jit_break : ∃ e e', Main breakWorld (some ⟨[], "a".toList⟩) e ∧
    Main breakWorld (some ⟨["-j".toList], "a".toList⟩) e' ∧ e'.Agrees false e := by
  obtain ⟨g, t, hinit, hsafe, hrun⟩ := breakWorld_runs
  obtain ⟨hto, _⟩ := main_jit breakWorld [] [] "a".toList fun g' hinit' => by
    obtain rfl := InitResult.returns.inj (hinit.symm.trans hinit')
    exact hsafe
  obtain ⟨e', he', hagrees⟩ := hto _ (.executes hinit hrun)
  exact ⟨_, e', .executes hinit hrun, he', hagrees⟩

def exitMessage (code : ℕ) : Line :=
  if code = 1 then "Error during execution".toList else "Program exited.".toList

section debug
variable {w : World} {g : Global} {h : Host} {d : Dbg} {s t : State} {code n : ℕ}

theorem continueStep_next (hd : d.halted = false) (hb : d.breakpoints = [])
    (hs : executeStep h d.guest = .next s) :
    continueStep h d = .next { announce d with guest := s } := by
  have hc : bpContains s.pc { announce d with guest := s } = false := by
    rw [bpContains]
    exact List.any_eq_false.mpr fun b hbp => absurd (hb ▸ hbp) List.not_mem_nil
  rw [continueStep, doStep_eq h hd, executeStep_next hs]
  simp only [hc, Bool.false_eq_true, if_false]

theorem continueStep_done (hd : d.halted = false)
    (hs : executeStep h d.guest = .done (code, t)) : ∃ d', continueStep h d = .done d' ∧
      d'.guest = t ∧ d'.output = (announce d).output ++ [exitMessage code] ∧
      d'.stderr = (announce d).stderr := by
  rw [continueStep, doStep_eq h hd]
  rw [executeStep] at hs
  rcases hstep : stepInstruction h d.guest with ⟨_ | _ | _ | _, u⟩ <;> rw [hstep] at hs
  · exact absurd hs (by simp)
  · obtain ⟨rfl, rfl⟩ := Prod.mk.inj (Outcome.done.inj hs)
    exact ⟨_, rfl, rfl, rfl, rfl⟩
  · obtain ⟨rfl, rfl⟩ := Prod.mk.inj (Outcome.done.inj hs)
    exact ⟨_, rfl, rfl, rfl, rfl⟩
  · exact absurd hs (by simp)

/-- Without breakpoints `continue` goes to the end of the program. -/
theorem doContinue_of_run (hd : d.halted = false) (hb : d.breakpoints = [])
    (hrun : Run.run (executeStep h) n d.guest = some (code, t)) :
    ∃ d', doContinue h n d = some d' ∧ d'.guest = t ∧ d'.output =
      d.output ++ (history h n d.guest).map Fetched.traceLine ++ [exitMessage code] ∧
      d'.stderr = d.stderr ++ Run.trail (executeStep h) (logNote d.log) n d.guest := by
  have htrace (d : Dbg) : (announce d).output = d.output ++ [(fetched d.guest).traceLine] := rfl
  have hlog (d : Dbg) : (announce d).stderr = d.stderr ++ logNote d.log d.guest := rfl
  rw [doContinue, if_neg (by simp [hd])]
  induction n generalizing d with
  | zero => simp [Run.run] at hrun
  | succ n ih =>
    rw [Run.run] at hrun
    rw [Run.run, history]
    cases hs : executeStep h d.guest with
    | next s =>
      rw [hs] at hrun
      obtain ⟨d', hcont, hguest, houtput, hstderr⟩ :=
        ih (d := { announce d with guest := s }) hd hb hrun
      rw [continueStep_next hd hb hs, Run.trail_succ_of_next hs, Run.trail_succ_of_next hs]
      refine ⟨d', hcont, hguest, ?_, ?_⟩
      · rw [houtput, htrace, List.map_append, List.append_assoc d.output]
        rfl
      · rw [hstderr, hlog, List.append_assoc d.stderr]
        rfl
    | done r =>
      rw [hs] at hrun
      obtain rfl := Option.some.inj hrun
      obtain ⟨d', hdone, hguest, houtput, hstderr⟩ := continueStep_done hd hs
      rw [hdone, Run.trail_succ_of_done hs, Run.trail_succ_of_done hs]
      exact ⟨d', rfl, hguest, by rw [houtput, htrace]; rfl, by rw [hstderr, hlog]⟩
    | crash =>
      rw [hs] at hrun
      exact absurd hrun (by simp)

end debug

/-- The user types `continue` and ends the session, or it is the script on stdin. -/
def TypesContinue (w : World) : Prop :=
  if w.interactive then w.staleHasBuffer = false ∧ typed w.terminal.replies = [continueLine]
  else w.stdin = ⟨continueLine ++ [10], false⟩

/-- Such a session is the command `continue`. -/
theorem debugs_continue {w : World} (hw : TypesContinue w) {d d' : Dbg} {n : ℕ}
    (hcont : doContinue w.host n d = some d') : Debugs w d d' := by
  have hchars : ([continueLine].map fun l => l.map fun c => Char.ofNat c.toNat) =
      ["continue".toList] := by decide
  have hdebug : debug w.host n ["continue".toList] d = some d' := by
    have hcommand : runCommand w.host n "continue".toList d = some (false, d') := by
      have hstep : isCmd "continue".toList "step".toList (some "s".toList) = false := by decide
      have hcontinue : isCmd "continue".toList "continue".toList (some "c".toList) = true := by
        decide
      rw [runCommand, hstep, hcontinue, hcont]
      rfl
    have hline : ("continue".toList).takeWhile (· != Char.ofNat 0) = "continue".toList := by
      decide
    rw [debug, if_neg (by decide), hline, hcommand]
    rfl
  rw [← hchars] at hdebug
  have hplain : ∀ l ∈ [continueLine], ∀ c ∈ l, c ≠ 0 ∧ c ≠ (10 : Byte) := by decide
  rw [TypesContinue] at hw
  refine ⟨n, ?_⟩
  cases hi : w.interactive with
  | true =>
    rw [hi, if_pos rfl] at hw
    obtain ⟨hstale, htyped⟩ := hw
    rw [if_pos rfl, hstale]
    rw [← htyped] at hdebug hplain
    exact debugRun_of_typed w.host n hplain hdebug
  | false =>
    rw [hi, if_neg Bool.noConfusion] at hw
    rw [if_neg Bool.noConfusion, hw]
    exact debugRun_of_debug file_serves w.host n [continueLine]
      (fun l hl c hc => (hplain l hl c hc).2) ⟨0, [continueLine], rfl, rfl⟩ hdebug

/-- What the interpreter does silently, `-l` logs, `continue` under `-d` traces, and under
both is logged and traced: all execute the same instructions and come to the same machine, and
the last message of the debugger tells whether the others report an error. -/
theorem main_log_debug (w : World) (hw : TypesContinue w) (o o' : List (List Char))
    (path : List Char) (hmode : Argv.mode ⟨o ++ o', path⟩ = ⟨false, false, false⟩) (e : Exit)
    (t : State) (hguest : e.guest = some t) (hmain : Main w (some ⟨o ++ o', path⟩) e) :
    ∃ (executed : List Fetched) (code : ℕ), e.stderr = errorLines code ∧
      Main w (some ⟨o ++ "-l".toList :: o', path⟩)
        ⟨0, some t, [], executed.map Fetched.logLine ++ errorLines code⟩ ∧
      Main w (some ⟨o ++ "-d".toList :: o', path⟩)
        ⟨0, some t, executed.map Fetched.traceLine ++ [exitMessage code], []⟩ ∧
      Main w (some ⟨o ++ "-d".toList :: "-l".toList :: o', path⟩)
        ⟨0, some t, executed.map Fetched.traceLine ++ [exitMessage code],
          executed.map Fetched.logLine⟩ := by
  cases hmain with
  | fails _ => exact absurd hguest nofun
  | @executes _ g _ hinit he =>
    have hg : g.mode = ⟨false, false, false⟩ := (mode_initGlobal hinit).trans hmode
    have hflag {args : List (List Char)} {m : Mode} (hm : Argv.mode ⟨args, path⟩ = m) :
        initGlobal w.env ⟨args, path⟩ w.garbage = .returns { g with mode := m } := by
      have hsame : initGlobal w.env ⟨args, path⟩ w.garbage =
          (initGlobal w.env ⟨o ++ o', path⟩ w.garbage).setMode (Argv.mode ⟨args, path⟩) :=
        initGlobal_mode rfl
      rw [hsame, hinit, hm]
      rfl
    cases he with
    | debug hd _ => exact absurd hd (by simp [hg])
    | jit _ hj _ => exact absurd hj (by simp [hg])
    | @interpret code t' err hd hj hret =>
      obtain rfl := Option.some.inj hguest
      rw [hg, executeLogStep_eq] at hret
      obtain ⟨n, hn, rfl⟩ := Run.returns_logged_iff.mp hret
      -- A run of the debugger, with or without the log.
      have hdebug {args : List (List Char)} (log : Bool)
          (hm : Argv.mode ⟨args, path⟩ = ⟨true, log, false⟩) :
          Main w (some ⟨args, path⟩) ⟨0, some t',
            (history w.host n g.state).map Fetched.traceLine ++ [exitMessage code],
            Run.trail (executeStep w.host) (logNote log) n g.state⟩ := by
        obtain ⟨d', hcont, rfl, houtput, hstderr⟩ :=
          doContinue_of_run (d := Global.debugger { g with mode := ⟨true, log, false⟩ }) rfl rfl hn
        have hexit := Executes.debug (w := w) (g := { g with mode := ⟨true, log, false⟩ }) rfl
          (debugs_continue hw hcont)
        rw [houtput, hstderr] at hexit
        exact .executes (hflag hm) hexit
      have hlogmode : Argv.mode ⟨o ++ "-l".toList :: o', path⟩ = ⟨false, true, false⟩ :=
        (mode_insert_log o o' path).trans (by rw [hmode])
      refine ⟨history w.host n g.state, code, ?_, ?_, ?_, ?_⟩
      · rw [Run.trail_eq_nil logNote_false]
        rfl
      · apply Main.executes (hflag hlogmode) (.interpret rfl rfl ?_)
        rw [executeLogStep_eq]
        exact Run.returns_logged_iff.mpr ⟨n, hn, by rw [trail_logNote]; rfl⟩
      · have hsilent := hdebug false
          ((mode_insert_debug o o' path).trans (by rw [hmode]))
        rwa [Run.trail_eq_nil logNote_false] at hsilent
      · rw [← trail_logNote]
        exact hdebug true ((mode_insert_debug o ("-l".toList :: o') path).trans (by rw [hlogmode]))

/-- Under `-d` the script of `continue` shows the one instruction of `break`. -/
theorem main_log_debug_break : ∃ (executed : List Fetched) (t : State) (code : ℕ),
    Main breakWorld (some ⟨["-d".toList], "a".toList⟩)
      ⟨0, some t, executed.map Fetched.traceLine ++ [exitMessage code], []⟩ := by
  obtain ⟨g, t, hinit, _, hrun⟩ := breakWorld_runs
  obtain ⟨executed, code, _, _, hdebug, _⟩ := main_log_debug breakWorld rfl [] [] "a".toList rfl _ t
    rfl (.executes hinit hrun)
  exact ⟨executed, t, code, hdebug⟩

end MyMips
