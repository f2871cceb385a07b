import MyMips.Trace

namespace MyMips

section rule
variable {h : Host} {d d' : Dbg} {fuel : ℕ} {T : Dbg → Dbg → Prop}

/-- The loop of the `step` command. -/
theorem stepLoop_rule (hrefl : ∀ d, T d d)
    (hstep : ∀ d d' r, d.halted = false → doStep h d = some (r, d') → T d d')
    (htrans : ∀ a b c, T a b → T b c → T a c) {n : ℕ} (hloop : stepLoop h n d = some d') :
    T d d' := by
  induction n generalizing d with
  | zero =>
    obtain rfl := Option.some.inj hloop
    exact hrefl d
  | succ n ih =>
    rw [stepLoop] at hloop
    cases hd : d.halted with
    | true =>
      rw [if_pos hd] at hloop
      obtain rfl := Option.some.inj hloop
      exact hrefl d
    | false =>
      rw [if_neg (by simp [hd])] at hloop
      cases hs : doStep h d with
      | none => simp [hs] at hloop
      | some r =>
        rw [hs] at hloop
        exact htrans d r.2 d' (hstep d r.2 r.1 hd hs) (ih hloop)

/-- The loop of the `continue` command. -/
theorem doContinue_rule (hobs : ∀ d d', Observes d d' → T d d')
    (hstep : ∀ d d' r, d.halted = false → doStep h d = some (r, d') → T d d')
    (htrans : ∀ a b c, T a b → T b c → T a c) (hcont : doContinue h fuel d = some d') :
    T d d' := by
  rw [doContinue] at hcont
  cases hd : d.halted with
  | true =>
    rw [if_pos hd] at hcont
    obtain rfl := Option.some.inj hcont
    exact hobs d _ (observes_line d (by decide))
  | false =>
    rw [if_neg (by simp [hd])] at hcont
    -- One turn: a step, and the message when it ends at a breakpoint.
    have hturn {d1 : Dbg} (hd1 : d1.halted = false) :
        (∀ d2, continueStep h d1 = .next d2 → T d1 d2 ∧ d2.halted = false) ∧
          ∀ d2, continueStep h d1 = .done d2 → T d1 d2 := by
      rw [continueStep]
      cases hs : doStep h d1 with
      | none => exact ⟨fun d2 hd2 => by simp at hd2, fun d2 hd2 => by simp at hd2⟩
      | some r =>
        have hone := hstep d1 r.2 r.1 hd1 hs
        have hhalt := (doStep_advances hd1 hs).2
        rcases r with ⟨_ | _ | _ | _, e⟩
        · dsimp only
          split_ifs
          · refine ⟨fun d2 hd2 => by simp at hd2, fun d2 hd2 => ?_⟩
            obtain rfl := Outcome.done.inj hd2
            exact htrans d1 e _ hone (hobs e _ (observes_line e (isTrace_append (by decide) _)))
          · refine ⟨fun d2 hd2 => ?_, fun d2 hd2 => by simp at hd2⟩
            obtain rfl := Outcome.next.inj hd2
            exact ⟨hone, hhalt.mpr rfl⟩
        all_goals
          refine ⟨fun d2 hd2 => by simp at hd2, fun d2 hd2 => ?_⟩
          obtain rfl := Outcome.done.inj hd2
          exact hone
    refine Run.run_rule (I := fun d1 => T d d1 ∧ d1.halted = false) (Q := T d) ?_ ?_ hcont
      ⟨hobs d d (observes_refl d), hd⟩
    · rintro d1 d2 ⟨hT, hd1⟩ hnext
      obtain ⟨hone, hd2⟩ := (hturn hd1).1 d2 hnext
      exact ⟨htrans d d1 d2 hT hone, hd2⟩
    · rintro d1 d2 ⟨hT, hd1⟩ hdone
      exact htrans d d1 d2 hT ((hturn hd1).2 d2 hdone)

/-- The rule for sessions: what quiet commands and single steps do, and what composes, is
what every script does. -/
theorem debug_rule (hobs : ∀ d d', Observes d d' → T d d')
    (hstep : ∀ d d' r, d.halted = false → doStep h d = some (r, d') → T d d')
    (htrans : ∀ a b c, T a b → T b c → T a c) {lines : List Line}
    (hrun : debug h fuel lines d = some d') : T d d' := by
  have hrefl (d : Dbg) : T d d := hobs d d (observes_refl d)
  have hcommand {d d' : Dbg} {line : Line} {q : Bool}
      (hcmd : runCommand h fuel line d = some (q, d')) : T d d' := by
    cases hs : isStep line with
    | true =>
      rw [runCommand_step hs] at hcmd
      obtain ⟨d1, hloop, heq⟩ := Option.map_eq_some_iff.mp hcmd
      obtain ⟨rfl, rfl⟩ := Prod.mk.inj heq
      exact stepLoop_rule hrefl hstep htrans hloop
    | false =>
      cases hc : isContinue line with
      | true =>
        rw [isStep] at hs
        rw [isContinue] at hc
        rw [runCommand, if_neg (Bool.eq_false_iff.mp hs), if_pos hc] at hcmd
        obtain ⟨d1, hcont, heq⟩ := Option.map_eq_some_iff.mp hcmd
        obtain ⟨rfl, rfl⟩ := Prod.mk.inj heq
        exact doContinue_rule hobs hstep htrans hcont
      | false => exact hobs d d' (runCommand_observes hs hc hcmd)
  induction lines generalizing d with
  | nil =>
    obtain rfl := Option.some.inj hrun
    exact hrefl d
  | cons line lines ih =>
    rw [debug] at hrun
    split_ifs at hrun
    · obtain rfl := Option.some.inj hrun
      exact hrefl d
    · split at hrun
      case h_1 d1 hcmd => exact htrans d d1 d' (hcommand hcmd) (ih hrun)
      case h_2 d1 hcmd =>
        obtain rfl := Option.some.inj hrun
        exact hcommand hcmd
      case h_3 => simp at hrun

end rule

def Dbg.traceLines (d : Dbg) : List Line := d.output.filter isTrace

/-- From `d` to `d'` the guest made `k` calls, and the trace printed is that of the
instructions they executed. -/
structure Shows (h : Host) (k : ℕ) (d d' : Dbg) : Prop where
  advances : Advances h k d d'
  running : d.halted = false →
    d'.traceLines = d.traceLines ++ (history h k d.guest).map Fetched.traceLine
  halted : d.halted = true → d'.traceLines = d.traceLines

section shows
variable {h : Host} {d d' d'' : Dbg} {k n : ℕ}

theorem traceLines_print (lines : List Line) :
    (d.print lines).traceLines = d.traceLines ++ lines.filter isTrace := by
  rw [Dbg.traceLines, Dbg.print, List.filter_append, Dbg.traceLines]

theorem history_one (s : State) : history h 1 s = [fetched s] := by
  rw [history, Run.trail]
  cases executeStep h s <;> rfl

theorem history_add {s t : State} (hrun : Run.Steps (executeStep h) k s t) (n : ℕ) :
    history h (k + n) s = history h k s ++ history h n t := Run.trail_add hrun n

theorem length_history_of_calls {s t : State} {b : Bool} (hcalls : Calls h s k b t) :
    (history h k s).length = k := by
  cases hcalls with
  | running hsteps => exact length_history hsteps
  | stopped hsteps hdone =>
    rw [history_add hsteps, history_one, List.length_append, length_history hsteps]
    rfl

theorem Shows.trans (hshow : Shows h k d d') (hmore : Shows h n d' d'') :
    Shows h (k + n) d d'' := by
  refine ⟨hshow.advances.trans hmore.advances, fun hd => ?_, fun hd => ?_⟩
  · have hcalls := hshow.advances.running hd
    cases hhalt : d'.halted with
    | false =>
      rw [hhalt] at hcalls
      cases hcalls with
      | running hrun =>
        rw [hmore.running hhalt, hshow.running hd, history_add hrun, List.map_append,
          List.append_assoc]
    | true =>
      obtain ⟨rfl, _, _⟩ := hmore.advances.halted hhalt
      rw [hmore.halted hhalt, hshow.running hd, Nat.add_zero]
  · obtain ⟨_, hhalt, _⟩ := hshow.advances.halted hd
    rw [hmore.halted hhalt, hshow.halted hd]

theorem Observes.shows (hobs : Observes d d') : Shows h 0 d d' := by
  have hlines : d'.traceLines = d.traceLines := by
    obtain ⟨bs, lines, rfl, hquiet⟩ := hobs
    rw [traceLines_print, List.filter_eq_nil_iff.mpr fun line hline => by simp [hquiet line hline]]
    exact List.append_nil _
  refine ⟨hobs.advances, fun _ => ?_, fun _ => hlines⟩
  rw [hlines]
  exact (List.append_nil _).symm

theorem doStep_shows {r : Ret} (hd : d.halted = false) (hstep : doStep h d = some (r, d')) :
    Shows h 1 d d' := by
  have hadv := (doStep_advances hd hstep).1
  refine ⟨hadv, fun _ => ?_, fun hd' => by simp [hd] at hd'⟩
  have htrace : (announce d).traceLines = d.traceLines ++ [(fetched d.guest).traceLine] := by
    have hline : isTrace ("Executing pc = ".toList ++ instrLine d.guest.memory d.guest.pc) = true :=
      isTrace_traceLine _
    have hsame : (announce d).traceLines = (traceInstr d).traceLines := rfl
    rw [hsame, traceInstr, traceLines_print, List.filter_cons_of_pos hline]
    rfl
  -- Behind the trace comes at most the message of a program that has stopped.
  have hquiet {s : State} {message : Line} (hm : isTrace message = false) :
      Dbg.traceLines ({ announce d with guest := s, halted := true }.print [message]) =
        (announce d).traceLines := by
    rw [traceLines_print, List.filter_cons_of_neg (by simp [hm])]
    exact List.append_nil _
  rw [history_one, List.map_singleton, ← htrace]
  rw [doStep_eq h hd] at hstep
  rcases hs : stepInstruction h d.guest with ⟨_ | _ | _ | _, s⟩ <;> rw [hs] at hstep
  · obtain ⟨_, rfl⟩ := Prod.mk.inj (Option.some.inj hstep)
    rfl
  · obtain ⟨_, rfl⟩ := Prod.mk.inj (Option.some.inj hstep)
    exact hquiet (by decide)
  · obtain ⟨_, rfl⟩ := Prod.mk.inj (Option.some.inj hstep)
    exact hquiet (by decide)
  · simp at hstep

end shows

/-- Every script of a running program executes some number of instructions, and the trace
the debugger prints of them, whatever else it prints in between, is line by line what `-l`
logs when the interpreter executes the same number of instructions from the same state. -/
theorem session_trace (h : Host) (fuel : ℕ) (lines : List Line) (d d' : Dbg)
    (hd : d.halted = false) (hrun : debug h fuel lines d = some d') :
    ∃ k, let executed := history h k d.guest
      executed.length = k ∧
      d'.traceLines = d.traceLines ++ executed.map Fetched.traceLine ∧
      (d'.halted = false → Run.Steps (executeLogStep h true) k (d.guest, [])
        (d'.guest, executed.map Fetched.logLine)) ∧
      (d'.halted = true → ∃ code, Run.run (executeLogStep h true) k (d.guest, []) =
        some ((code, d'.guest), executed.map Fetched.logLine)) := by
  obtain ⟨k, hshow⟩ : ∃ k, Shows h k d d' := by
    apply debug_rule (T := fun d d' => ∃ k, Shows h k d d') ?_ ?_ ?_ hrun
    · exact fun d d' hobs => ⟨0, hobs.shows⟩
    · exact fun d d' r hd hstep => ⟨1, doStep_shows hd hstep⟩
    · intro a b c hab hbc
      obtain ⟨k, hk⟩ := hab
      obtain ⟨n, hn⟩ := hbc
      exact ⟨k + n, hk.trans hn⟩
  obtain ⟨hreturned, hreached, _⟩ := log_lists_execution h d.guest []
  refine ⟨k, ?_, hshow.running hd, ?_, ?_⟩
  · exact length_history_of_calls (hshow.advances.running hd)
  · intro hhalt
    have hcalls := hshow.advances.running hd
    rw [hhalt] at hcalls
    cases hcalls with
    | running hsteps => exact (hreached k d'.guest _).mpr ⟨hsteps, rfl⟩
  · intro hhalt
    have hcalls := hshow.advances.running hd
    rw [hhalt] at hcalls
    cases hcalls with
    | @stopped k code t u hsteps hdone =>
      refine ⟨code, ?_⟩
      rw [hreturned, Run.run_add_of_steps hsteps, Run.run, hdone]
      rfl

/-- The script of a breakpoint, one step and on to the end shows both instructions. -/
theorem session_trace_break : ∃ d' k,
    debug nullHost 2 ["break 4".toList, "step".toList, "c".toList] breakDebug = some d' ∧
    d'.traceLines = (history nullHost k breakDebug.guest).map Fetched.traceLine := by
  obtain ⟨k, _, htrace, _, _⟩ := session_trace nullHost 2
    ["break 4".toList, "step".toList, "c".toList] breakDebug _ rfl rfl
  exact ⟨_, k, rfl, htrace⟩

end MyMips
