import MyMips.Readline
import MyMips.Transparency

namespace MyMips
open LineSource Labelled

/-- The lines before the first reply that is none: an interrupt, an error or the end of
the input. -/
def typed : List (Except Err (Option (List Byte))) → List (List Byte)
  | .ok (some l) :: rest => l :: typed rest
  | _ => []

def atTerminal (buffer : ℤ) (start : Bool) (position : ℕ) (prompts : List String)
    (replies : List (Except Err (Option (List Byte)))) : Cstream CstreamReadline :=
  ⟨false, buffer, ⟨start, none, position, ⟨replies, prompts⟩⟩⟩

section terminal
variable {buffer : ℤ} {start : Bool} {position : ℕ} {prompts : List String}
  {replies rest : List (Except Err (Option (List Byte)))}

/-- A line is read whole, and the stream is between two lines again. -/
theorem readLine_line {l : List Byte} (hl : ∀ c ∈ l, c ≠ 0 ∧ c ≠ 10) (v : Vec) :
    ∃ position' prompts' w, Run.Returns (readLineStep (cstreamPop cstreamReadlineRead))
      (atTerminal buffer start position prompts (.ok (some l) :: rest), v)
      (.ok (), atTerminal buffer start position' prompts' rest, w) ∧
      w.data = v.data ++ (l ++ [0]) := by
  have hzero : 0 ∉ l := fun h0 => (hl 0 h0).1 rfl
  obtain ⟨position', hpops⟩ := pops_readline buffer hzero (List.drop_zero (l := l)) start
    ⟨rest, prompts ++ [if start then "dbg$ " else "> "]⟩
  have hfirst : Pops (cstreamPop cstreamReadlineRead)
      (atTerminal buffer start position prompts (.ok (some l) :: rest))
      (l.map charOf ++ [NEWLINE]) (atTerminal buffer start position'
        (prompts ++ [if start then "dbg$ " else "> "]) rest) := hpops.of_eq (by simp) rfl
  obtain ⟨u, hline, hend⟩ := hfirst.split
  obtain ⟨w, hsteps, hdata⟩ := steps_of_pops (fun c hc => (hl c hc).2) hline v
  cases hend with
  | cons hpop hnil =>
    cases hnil
    refine ⟨position', _, _, returns_of_steps hsteps hpop (.inr rfl), ?_⟩
    rw [vecPush_data, hdata, List.append_assoc]

/-- At any other reply the loop of `debug` ends. -/
theorem readLine_ends (hreplies : typed replies = []) :
    ∃ r t v, Run.Returns (readLineStep (cstreamPop cstreamReadlineRead))
      (atTerminal buffer start position prompts replies, vecInit) (r, t, v) ∧
      (r ≠ .ok () ∨ v.data.length ≤ 1) := by
  have hend {t : Cstream CstreamReadline} (hpop : cstreamPop cstreamReadlineRead
      (atTerminal buffer start position prompts replies) = (.ok EOF, t)) :
      ∃ r t v, Run.Returns (readLineStep (cstreamPop cstreamReadlineRead))
        (atTerminal buffer start position prompts replies, vecInit) (r, t, v) ∧
        (r ≠ .ok () ∨ v.data.length ≤ 1) :=
    ⟨_, _, _, returns_of_steps (.refl _) hpop (.inl rfl), .inr le_rfl⟩
  cases replies with
  | nil => exact hend rfl
  | cons reply replies =>
    rcases reply with e | _ | l
    · refine ⟨.error e, _, vecInit, ⟨1, rfl⟩, .inl nofun⟩
    · exact hend rfl
    · simp [typed] at hreplies

/-- The loop of `debug` executes the lines typed, and no more. -/
theorem debugRun_of_typed (h : Host) (fuel : ℕ) (hlines : ∀ l ∈ typed replies, ∀ c ∈ l,
    c ≠ 0 ∧ c ≠ 10) {d d' : Dbg} (hdebug : debug h fuel
      ((typed replies).map fun l => l.map fun c => Char.ofNat c.toNat) d = some d') :
    DebugRun (cstreamPop cstreamReadlineRead) h fuel
      (atTerminal buffer start position prompts replies) d d' := by
  have hended {replies : List (Except Err (Option (List Byte)))} {position : ℕ}
      {prompts : List String} (d : Dbg) (hreplies : typed replies = []) :
      DebugRun (cstreamPop cstreamReadlineRead) h fuel
        (atTerminal buffer start position prompts replies) d d := by
    obtain ⟨r, t, v, hreturns, hend⟩ := readLine_ends hreplies
    exact .ended d hreturns hend
  induction replies generalizing d position prompts with
  | nil =>
    obtain rfl := Option.some.inj hdebug
    exact hended d rfl
  | cons reply replies ih =>
    rcases reply with e | _ | l
    · obtain rfl := Option.some.inj hdebug
      exact hended d rfl
    · obtain rfl := Option.some.inj hdebug
      exact hended d rfl
    · rw [typed, List.forall_mem_cons] at hlines
      obtain ⟨position', prompts', v, hreturns, hdata⟩ : ∃ position' prompts' v, Run.Returns
          (readLineStep (cstreamPop cstreamReadlineRead))
          (atTerminal buffer start position prompts (.ok (some l) :: replies), vecInit)
          (.ok (), atTerminal buffer start position' prompts' replies, v) ∧
          v.data = vecInit.data ++ (l ++ [0]) := readLine_line hlines.1 vecInit
      have hline : v.data = l ++ [0] := hdata
      rw [typed, List.map_cons, debug] at hdebug
      split_ifs at hdebug with hempty
      · -- An empty line ends the session.
        obtain rfl := Option.some.inj hdebug
        obtain rfl := List.map_eq_nil_iff.mp hempty
        exact .ended d hreturns (.inr (by rw [hline]; exact le_rfl))
      · have hsize : 1 < v.data.length := by
          rw [hline, List.length_append, List.length_singleton]
          have hpos := List.length_pos_iff.mpr fun hnil => hempty (List.map_eq_nil_iff.mpr hnil)
          omega
        rw [← lineText_terminated, ← hline] at hdebug
        cases hcommand : runCommand h fuel (lineText v.data) d with
        | none => simp [hcommand] at hdebug
        | some r =>
          obtain ⟨quit, d1⟩ := r
          rw [hcommand] at hdebug
          cases quit with
          | true =>
            obtain rfl := Option.some.inj hdebug
            exact .quit hreturns hsize hcommand
          | false => exact .command hreturns hsize hcommand (ih hlines.2 hdebug)

end terminal

/-- The lines returned before the first interrupt are the first the user completed. -/
theorem typed_prefix (results : List (Except Err (Option (List Byte)))) :
    (typed results).map some <+: results.filterMap Except.toOption := by
  induction results with
  | nil => exact List.nil_prefix
  | cons reply results ih =>
    rcases reply with e | _ | l
    · exact List.nil_prefix
    · exact List.nil_prefix
    · exact List.cons_prefix_cons.mpr ⟨rfl, ih⟩

/-- A session at the terminal, whatever the order of keys, signals and outcomes of `select`:
the debugger does what `debug` does on the lines the user completed up to the first
interrupt, error or end of the input. -/
theorem terminal_session (h : Host) (fuel : ℕ) (es : List Happening) (s : Rl)
    (hrun : runs rlStep es rlInit = some s)
    (hlines : ∀ l ∈ typed s.results, ∀ c ∈ l, c ≠ 0 ∧ c ≠ 10) (buffer : ℤ) (d d' : Dbg)
    (hdebug : debug h fuel
      ((typed s.results).map fun l => l.map fun c => Char.ofNat c.toNat) d = some d') :
    (typed s.results).map some <+: es.filterMap Happening.completed ∧
    DebugRun (cstreamPop cstreamReadlineRead) h fuel
      (cstreamReadlineCreate false buffer ⟨s.results, []⟩) d d' := by
  constructor
  · have hprefix := typed_prefix s.results
    have hdelivered := (rlInv_of_runs hrun).delivered
    rw [← hdelivered]
    exact hprefix.trans (List.prefix_append _ _)
  · exact debugRun_of_typed h fuel hlines hdebug

/-- `q` typed and returned before an interrupt. -/
theorem terminal_session_quit : ∃ s,
    runs rlStep [.call, .selectReady, .readChar (some (some [0x71])), .proceed] rlInit = some s ∧
    DebugRun (cstreamPop cstreamReadlineRead) nullHost 1
      (cstreamReadlineCreate false 0 ⟨s.results, []⟩) breakDebug breakDebug := by
  obtain ⟨_, hsession⟩ := terminal_session nullHost 1
    [.call, .selectReady, .readChar (some (some [0x71])), .proceed] _ rfl (by decide) 0
    breakDebug breakDebug rfl
  exact ⟨_, rfl, hsession⟩

end MyMips
