import MyMips.Lib.Labelled
import MyMips.Streams

/-! `interruptible_readline.c`: one call after the other, with signals, the outcomes of
`select` and the keys of the user coming in any order. The readline library is seen at
its interface: a character either completes the line, which calls `readline_callback`, or
does not. -/
namespace MyMips
open Labelled

inductive Errno
  | EAGAIN | EINTR | other
  deriving DecidableEq

/-- Where `interruptible_readline` is: not running, before `select`, before
`rl_callback_read_char`, before the test of `user_input_complete`, and before the two
halves of `check_interrupt`. -/
inductive Point
  | idle | waiting | reading | testing | checking | clearing
  deriving DecidableEq

inductive Happening
  | sigint
  | call
  | selectFails (errno : Errno)
  | selectReady
  /-- `rl_callback_read_char()`, with the line if this completes it. -/
  | readChar (line : Option (Option (List Byte)))
  /-- The code goes on to its next test or return. -/
  | proceed
  deriving DecidableEq

/-- The file-scope variables, whether readline has a handler installed, what the calls
have returned, and the messages on stderr. -/
structure Rl where
  point : Point
  interrupted : Bool
  userInput : Option (List Byte)
  userInputComplete : Bool
  handler : Bool
  results : List (Except Err (Option (List Byte)))
  stderr : List String

def rlInit : Rl := ⟨.idle, false, none, false, false, [], []⟩

def readlineCallback (line : Option (List Byte)) (s : Rl) : Rl := { s with
  userInput := line
  userInputComplete := true
  handler := false }

def Rl.ret (s : Rl) (r : Except Err (Option (List Byte))) : Rl := { s with
  point := .idle
  results := s.results ++ [r] }

def resetPrompt (s : Rl) : Rl := { s with
  interrupted := false
  handler := false
  stderr := s.stderr ++ ["^C\n"] }

def errorWarn (err : Err) (fmt : String) (s : Rl) : Err × Rl :=
  (err, { s with stderr := s.stderr ++ [fmt] })

def rlStep (e : Happening) (s : Rl) : Option Rl :=
  match e, s.point with
  | .sigint, _ => some { s with interrupted := true }
  | .call, .idle => some { s with
      point := .waiting
      interrupted := false
      handler := true }
  | .selectFails .EAGAIN, .waiting => some s
  | .selectFails .EINTR, .waiting => some { s with point := .checking }
  | .selectFails .other, .waiting =>
    let r := errorWarn .ERROR "select failed in interruptible_readline" s
    some (r.2.ret (.error r.1))
  | .selectReady, .waiting => some { s with point := .reading }
  | .readChar none, .reading => some { s with point := .testing }
  | .readChar (some line), .reading => some { readlineCallback line s with point := .testing }
  | .proceed, .testing =>
    if s.userInputComplete then
      some ({ s with userInputComplete := false }.ret (.ok s.userInput))
    else some { s with point := .checking }
  | .proceed, .checking =>
    if s.interrupted then some { s with point := .clearing }
    else some { s with point := .waiting }
  | .proceed, .clearing => some ((resetPrompt s).ret (.error .KEYBOARD_INTERUPT))
  | _, _ => none

/-- The same, one rule for each branch. -/
inductive RlTurn : Happening → Rl → Rl → Prop
  | sigint (s : Rl) : RlTurn .sigint s { s with interrupted := true }
  | call {s : Rl} : s.point = .idle → RlTurn .call s { s with
      point := .waiting
      interrupted := false
      handler := true }
  | again {s : Rl} : s.point = .waiting → RlTurn (.selectFails .EAGAIN) s s
  | woken {s : Rl} : s.point = .waiting →
    RlTurn (.selectFails .EINTR) s { s with point := .checking }
  | failed {s : Rl} : s.point = .waiting → RlTurn (.selectFails .other) s
    (Rl.ret { s with stderr := s.stderr ++ ["select failed in interruptible_readline"] }
      (.error .ERROR))
  | ready {s : Rl} : s.point = .waiting → RlTurn .selectReady s { s with point := .reading }
  | char {s : Rl} : s.point = .reading → RlTurn (.readChar none) s { s with point := .testing }
  | line {s : Rl} (line : Option (List Byte)) : s.point = .reading →
    RlTurn (.readChar (some line)) s { readlineCallback line s with point := .testing }
  | complete {s : Rl} : s.point = .testing → s.userInputComplete = true →
    RlTurn .proceed s (Rl.ret { s with userInputComplete := false } (.ok s.userInput))
  | incomplete {s : Rl} : s.point = .testing → s.userInputComplete = false →
    RlTurn .proceed s { s with point := .checking }
  | caught {s : Rl} : s.point = .checking → s.interrupted = true →
    RlTurn .proceed s { s with point := .clearing }
  | quiet {s : Rl} : s.point = .checking → s.interrupted = false →
    RlTurn .proceed s { s with point := .waiting }
  | reported {s : Rl} : s.point = .clearing →
    RlTurn .proceed s ((resetPrompt s).ret (.error .KEYBOARD_INTERUPT))

theorem rlStep_turn {e : Happening} {s t : Rl} (h : rlStep e s = some t) : RlTurn e s t := by
  unfold rlStep at h
  split at h
  case h_1 => exact Option.some.inj h ▸ .sigint s
  case h_2 hp => exact Option.some.inj h ▸ .call hp
  case h_3 hp => exact Option.some.inj h ▸ .again hp
  case h_4 hp => exact Option.some.inj h ▸ .woken hp
  case h_5 hp => exact Option.some.inj h ▸ .failed hp
  case h_6 hp => exact Option.some.inj h ▸ .ready hp
  case h_7 hp => exact Option.some.inj h ▸ .char hp
  case h_8 line hp => exact Option.some.inj h ▸ .line line hp
  case h_9 hp =>
    split at h
    · exact Option.some.inj h ▸ .complete hp ‹_›
    · exact Option.some.inj h ▸ .incomplete hp (Bool.eq_false_iff.mpr ‹_›)
  case h_10 hp =>
    split at h
    · exact Option.some.inj h ▸ .caught hp ‹_›
    · exact Option.some.inj h ▸ .quiet hp (Bool.eq_false_iff.mpr ‹_›)
  case h_11 hp => exact Option.some.inj h ▸ .reported hp
  case h_12 => simp at h

def Happening.completed : Happening → Option (Option (List Byte))
  | .readChar line => line
  | _ => none

def Happening.isRead : Happening → Bool
  | .readChar _ => true
  | _ => false

def isInterrupt (r : Except Err (Option (List Byte))) : Bool :=
  r matches .error .KEYBOARD_INTERUPT

namespace Rl

def returned (s : Rl) : List (Option (List Byte)) := s.results.filterMap Except.toOption

def pending (s : Rl) : List (Option (List Byte)) :=
  if s.userInputComplete then [s.userInput] else []

def interrupts (s : Rl) : ℕ := s.results.countP isInterrupt

end Rl

section
variable (s : Rl) (r : Except Err (Option (List Byte)))

theorem returned_ret : (s.ret r).returned = s.returned ++ r.toOption.toList := by
  rw [Rl.returned, Rl.ret, List.filterMap_append, Rl.returned]
  cases r <;> rfl

theorem interrupts_ret : (s.ret r).interrupts = s.interrupts + if isInterrupt r then 1 else 0 := by
  rw [Rl.interrupts, Rl.ret, List.countP_append, Rl.interrupts, List.countP_singleton]

end

structure RlInv (es : List Happening) (s : Rl) : Prop where
  delivered : s.returned ++ s.pending = es.filterMap Happening.completed
  complete : s.userInputComplete = true → s.point = .testing
  handler : s.point ≠ .idle → s.handler = !s.userInputComplete
  clearing : s.point = .clearing → s.interrupted = true
  signalled : s.interrupts + (if s.interrupted then 1 else 0) ≤ es.count .sigint

theorem rlInv_init : RlInv [] rlInit := ⟨rfl, by decide, by decide, by decide, by decide⟩

theorem pending_of_incomplete {s : Rl} (h : s.userInputComplete = false) : s.pending = [] := by
  rw [Rl.pending, h]
  rfl

section invariant
variable {es : List Happening} {e : Happening} {s t : Rl}

theorem filterMap_completed (hs : RlInv es s) (hcompleted : e.completed = none) :
    s.returned ++ s.pending = (es ++ [e]).filterMap Happening.completed := by
  rw [List.filterMap_append, ← hs.delivered, List.filterMap_cons_none hcompleted,
    List.filterMap_nil, List.append_nil]

theorem count_sigint_le (es : List Happening) (e : Happening) :
    es.count .sigint ≤ (es ++ [e]).count .sigint := by
  rw [List.count_append]
  exact Nat.le_add_right _ _

/-- A line waits to be returned in one place only. -/
theorem RlInv.incomplete (hs : RlInv es s) (hp : s.point ≠ .testing) :
    s.userInputComplete = false := by
  rw [Bool.eq_false_iff]
  exact fun hc => hp (hs.complete hc)

/-- Inside a call the code moves from point to point. -/
theorem RlInv.move (hs : RlInv es s) (hcompleted : e.completed = none) (hin : s.point ≠ .idle)
    {p : Point} (hcomplete : s.userInputComplete = true → p = .testing)
    (hclearing : p = .clearing → s.interrupted = true) : RlInv (es ++ [e]) { s with point := p } := by
  have hdelivered := filterMap_completed hs hcompleted
  have hsame := hs.signalled.trans (count_sigint_le es e)
  exact ⟨hdelivered, hcomplete, fun _ => hs.handler hin, hclearing, hsame⟩

theorem RlInv.step (hs : RlInv es s) (h : rlStep e s = some t) : RlInv (es ++ [e]) t := by
  have hsame := hs.signalled.trans (count_sigint_le es e)
  cases rlStep_turn h with
  | sigint =>
    have hdelivered := filterMap_completed hs (e := .sigint) rfl
    refine ⟨hdelivered, hs.complete, hs.handler, fun _ => rfl, ?_⟩
    have hle := hs.signalled
    change s.interrupts + 1 ≤ _
    rw [List.count_append, List.count_singleton_self]
    omega
  | call hp =>
    have hno := hs.incomplete (by rw [hp]; decide)
    have hdelivered := filterMap_completed hs (e := .call) rfl
    refine ⟨hdelivered, fun hc => ?_, fun _ => ?_, fun hc => ?_, ?_⟩
    · exact absurd (hno.symm.trans hc) Bool.noConfusion
    · rw [hno]
      rfl
    · exact Point.noConfusion hc
    · exact (Nat.le_add_right _ _).trans hsame
  | again hp => exact ⟨filterMap_completed hs rfl, hs.complete, hs.handler, hs.clearing, hsame⟩
  | woken hp =>
    have hno := hs.incomplete (by rw [hp]; decide)
    exact hs.move rfl (by rw [hp]; decide) (by simp [hno]) nofun
  | failed hp =>
    have hno := hs.incomplete (by rw [hp]; decide)
    refine ⟨?_, fun hc => ?_, fun hidle => absurd rfl hidle, fun hc => Point.noConfusion hc, ?_⟩
    · rw [returned_ret, ← filterMap_completed hs rfl]
      simp only [Except.toOption, Option.toList_none, List.append_nil]
      rfl
    · exact absurd (hno.symm.trans hc) Bool.noConfusion
    · rw [interrupts_ret]
      exact hsame
  | ready hp =>
    have hno := hs.incomplete (by rw [hp]; decide)
    exact hs.move rfl (by rw [hp]; decide) (by simp [hno]) nofun
  | char hp =>
    exact hs.move rfl (by rw [hp]; decide) (fun _ => rfl) nofun
  | line line hp =>
    -- The callback leaves the line and removes the handler.
    have hno := hs.incomplete (by rw [hp]; decide)
    have hdelivered := hs.delivered
    rw [pending_of_incomplete hno, List.append_nil] at hdelivered
    refine ⟨?_, fun _ => rfl, fun _ => rfl, fun hc => Point.noConfusion hc, hsame⟩
    rw [List.filterMap_append, ← hdelivered]
    rfl
  | complete hp hc =>
    refine ⟨?_, fun hc' => Bool.noConfusion hc', fun hidle => absurd rfl hidle,
      fun hc' => Point.noConfusion hc', ?_⟩
    · have hpending : s.pending = [s.userInput] := if_pos hc
      rw [returned_ret, ← filterMap_completed hs rfl, hpending]
      exact List.append_nil _
    · rw [interrupts_ret]
      exact hsame
  | incomplete hp hc =>
    exact hs.move rfl (by rw [hp]; decide) (by simp [hc]) nofun
  | caught hp hi =>
    have hno := hs.incomplete (by rw [hp]; decide)
    exact hs.move rfl (by rw [hp]; decide) (by simp [hno]) (fun _ => hi)
  | quiet hp hi =>
    have hno := hs.incomplete (by rw [hp]; decide)
    exact hs.move rfl (by rw [hp]; decide) (by simp [hno]) nofun
  | reported hp =>
    -- The signal that set the flag pays for the report.
    have hno := hs.incomplete (by rw [hp]; decide)
    have hi := hs.clearing hp
    refine ⟨?_, fun hc => ?_, fun hidle => absurd rfl hidle, fun hc => Point.noConfusion hc, ?_⟩
    · rw [returned_ret, ← filterMap_completed hs rfl]
      simp only [Except.toOption, Option.toList_none, List.append_nil]
      rfl
    · exact absurd (hno.symm.trans hc) Bool.noConfusion
    · rw [hi] at hsame
      rw [interrupts_ret]
      exact hsame

theorem rlInv_of_runs (hrun : runs rlStep es rlInit = some s) : RlInv es s :=
  runs_invariant rlInv_init (fun _ _ _ _ hu h => hu.step h) hrun

end invariant

def readsLeft : Point → ℕ
  | .waiting | .reading => 1
  | _ => 0

/-- The call that was interrupted in `s` has returned, or is on its way out: the character
at hand, if there is one, is the last it reads. -/
def Leaving (s : Rl) (es : List Happening) (t : Rl) : Prop :=
  s.results.length < t.results.length ∨
    s.results.length = t.results.length ∧ t.interrupted = true ∧ t.point ≠ .idle ∧
      es.countP Happening.isRead + readsLeft t.point ≤ 1

section signal
variable {es : List Happening} {e : Happening} {s t u v : Rl}

theorem length_results_ret (s : Rl) (r : Except Err (Option (List Byte))) :
    (s.ret r).results.length = s.results.length + 1 := by
  rw [Rl.ret, List.length_append, List.length_singleton]

theorem length_results_le (h : rlStep e s = some t) : s.results.length ≤ t.results.length := by
  have hret (w : Rl) (r : Except Err (Option (List Byte))) :
      w.results.length ≤ (w.ret r).results.length := by
    rw [length_results_ret]
    exact Nat.le_succ _
  cases rlStep_turn h with
  | failed hp => exact hret { s with stderr := s.stderr ++ _ } _
  | complete hp hc => exact hret { s with userInputComplete := false } _
  | reported hp => exact hret (resetPrompt s) _
  | _ => exact le_rfl

theorem Leaving.step (hu : Leaving s es u) (h : rlStep e u = some v) :
    Leaving s (es ++ [e]) v := by
  rcases hu with hlt | ⟨heq, hi, hin, hreads⟩
  · exact .inl (hlt.trans_le (length_results_le h))
  have hreturned (w : Rl) (r : Except Err (Option (List Byte))) (hw : w.results = u.results) :
      Leaving s (es ++ [e]) (w.ret r) := by
    left
    rw [length_results_ret, hw, heq]
    exact Nat.lt_succ_self _
  -- The code moves on inside the call, perhaps with a character read.
  have hmoved (p : Point) (hp : p ≠ .idle)
      (hread : (if e.isRead then 1 else 0) + readsLeft p ≤ readsLeft u.point) :
      p ≠ .idle ∧ (es ++ [e]).countP Happening.isRead + readsLeft p ≤ 1 := by
    refine ⟨hp, ?_⟩
    rw [List.countP_append, List.countP_singleton]
    omega
  cases rlStep_turn h with
  | sigint => exact .inr ⟨heq, rfl, hmoved u.point hin (by simp [Happening.isRead])⟩
  | call hp => exact absurd hp hin
  | again hp => exact .inr ⟨heq, hi, hmoved u.point hin (by simp [Happening.isRead])⟩
  | woken hp => exact .inr ⟨heq, hi, hmoved .checking nofun (by rw [hp]; decide)⟩
  | failed hp => exact hreturned { u with stderr := u.stderr ++ _ } _ rfl
  | ready hp => exact .inr ⟨heq, hi, hmoved .reading nofun (by rw [hp]; decide)⟩
  | char hp => exact .inr ⟨heq, hi, hmoved .testing nofun (by rw [hp]; decide)⟩
  | line line hp => exact .inr ⟨heq, hi, hmoved .testing nofun (by rw [hp]; exact le_rfl)⟩
  | complete hp hc => exact hreturned { u with userInputComplete := false } _ rfl
  | incomplete hp hc => exact .inr ⟨heq, hi, hmoved .checking nofun (by rw [hp]; decide)⟩
  | caught hp _ => exact .inr ⟨heq, hi, hmoved .clearing nofun (by rw [hp]; decide)⟩
  | quiet hp hq => exact absurd (hi.symm.trans hq) Bool.noConfusion
  | reported hp => exact hreturned (resetPrompt u) _ rfl

/-- Once interrupted, a call reads at most one more character. -/
theorem reads_le_one (hi : s.interrupted = true) (hin : s.point ≠ .idle)
    (hrun : runs rlStep es s = some t) (hopen : t.results.length = s.results.length) :
    es.countP Happening.isRead ≤ 1 := by
  have hbudget : readsLeft s.point ≤ 1 := by
    cases s.point <;> decide
  have hstart : Leaving s [] s := .inr ⟨rfl, hi, hin, by simpa using hbudget⟩
  rcases runs_invariant hstart (fun _ _ _ _ hu h => hu.step h) hrun with hlt | ⟨_, _, _, hreads⟩
  · omega
  · omega

/-- Without a signal no interrupt is reported, in one call or in several. -/
theorem interrupts_of_quiet (hi : s.interrupted = false) (hp : s.point ≠ .clearing)
    (hrun : runs rlStep es s = some t) (hquiet : .sigint ∉ es) : t.interrupts = s.interrupts := by
  have hkept := runs_invariant (I := fun es t => .sigint ∉ es →
    t.interrupted = false ∧ t.point ≠ .clearing ∧ t.interrupts = s.interrupts)
    (fun _ => ⟨hi, hp, rfl⟩) ?_ hrun
  · exact (hkept hquiet).2.2
  · intro es u e v hu h hno
    rw [List.mem_append, not_or, List.mem_singleton] at hno
    obtain ⟨hui, hup, hcount⟩ := hu hno.1
    cases rlStep_turn h with
    | sigint => exact absurd rfl hno.2
    | call _ => exact ⟨rfl, nofun, hcount⟩
    | again _ => exact ⟨hui, hup, hcount⟩
    | failed _ => exact ⟨hui, nofun, by rw [interrupts_ret]; exact hcount⟩
    | complete _ _ => exact ⟨hui, nofun, by rw [interrupts_ret]; exact hcount⟩
    | caught _ hcaught => exact absurd (hui.symm.trans hcaught) Bool.noConfusion
    | reported hclearing => exact absurd hclearing hup
    | _ => exact ⟨hui, nofun, hcount⟩

end signal

/-- `interruptible_readline` over any number of calls and any order of signals, outcomes of
`select` and keys. Every line the user completes is returned, once and in order, and
nothing else is; readline is only asked to read while its handler is installed; every
reported interrupt has a signal of its own, and one of the same call; and a call that has
been interrupted reads at most one more character before it returns. -/
theorem readline_protocol (es : List Happening) (s : Rl) (hrun : runs rlStep es rlInit = some s) :
    s.returned ++ s.pending = es.filterMap Happening.completed ∧
    (s.point ≠ .testing → s.pending = []) ∧
    (∀ line t, rlStep (.readChar line) s = some t → s.handler = true) ∧
    s.interrupts ≤ es.count .sigint ∧
    (∀ fs t, runs rlStep (.call :: fs) s = some t → .sigint ∉ fs →
      t.interrupts = s.interrupts) ∧
    (s.interrupted = true → s.point ≠ .idle → ∀ fs t, runs rlStep fs s = some t →
      t.results.length = s.results.length → fs.countP Happening.isRead ≤ 1) := by
  have hs := rlInv_of_runs hrun
  refine ⟨hs.delivered, ?_, ?_, ?_, ?_, ?_⟩
  · intro hp
    exact pending_of_incomplete (hs.incomplete hp)
  · intro line t h
    have hreading : s.point = .reading := by
      cases rlStep_turn h with
      | char hp => exact hp
      | line _ hp => exact hp
    have hno := hs.incomplete (by rw [hreading]; decide)
    rw [hs.handler (by rw [hreading]; decide), hno]
    rfl
  · exact (Nat.le_add_right _ _).trans hs.signalled
  · intro fs t hcall hquiet
    obtain ⟨u, hu, hrest⟩ := runs_cons_iff.mp hcall
    cases rlStep_turn hu with
    | call _ =>
      refine (interrupts_of_quiet ?_ ?_ hrest hquiet).trans rfl
      · rfl
      · nofun
  · intro hi hin fs t hrun' hopen
    exact reads_le_one hi hin hrun' hopen

/-- A line typed around an interrupt: the second call returns it. -/
theorem readline_protocol_interrupted : ∃ s,
    runs rlStep [.call, .selectReady, .readChar none, .sigint, .proceed, .proceed, .proceed,
      .call, .selectReady, .readChar (some (some [0x73])), .proceed] rlInit = some s ∧
    s.returned = [some [0x73]] ∧ s.interrupts ≤ 1 := by
  obtain ⟨hdelivered, hpending, _, hsignalled, _, _⟩ := readline_protocol [.call, .selectReady,
    .readChar none, .sigint, .proceed, .proceed, .proceed, .call, .selectReady,
    .readChar (some (some [0x73])), .proceed] _ rfl
  rw [hpending (by decide), List.append_nil] at hdelivered
  exact ⟨_, rfl, hdelivered, hsignalled⟩

end MyMips
