import MyMips.Dbg

namespace MyMips

def stepN (h : Host) (k : ℕ) (s : State) : State := (fun s => (stepInstruction h s).2)^[k] s

/-- `k` calls of `step_instruction` from `s` end in a state; the flag says that the last
one returned 1 or 2. All the others returned 0. -/
inductive Calls (h : Host) (s : State) : ℕ → Bool → State → Prop
  | running {k : ℕ} {t : State} : Run.Steps (executeStep h) k s t → Calls h s k false t
  | stopped {k code : ℕ} {t u : State} : Run.Steps (executeStep h) k s t →
      executeStep h t = .done (code, u) → Calls h s (k + 1) true u

section calls
variable {h : Host} {s t u : State} {k n : ℕ} {b c : Bool}

theorem steps_stepN (hrun : Run.Steps (executeStep h) k s t) : t = stepN h k s := by
  induction hrun with
  | refl s => rfl
  | @head k s t u hs _ ih => rw [ih, stepN, stepN, Function.iterate_succ_apply, executeStep_next hs]

theorem Calls.eq_stepN (hcalls : Calls h s k b t) : t = stepN h k s := by
  cases hcalls with
  | running hrun => exact steps_stepN hrun
  | stopped hrun hdone =>
    rw [stepN, Function.iterate_succ_apply']
    have hlast := executeStep_done hdone
    rw [steps_stepN hrun, stepN] at hlast
    exact hlast.symm

theorem Calls.trans (hcalls : Calls h s k false t) (hmore : Calls h t n b u) :
    Calls h s (k + n) b u := by
  cases hcalls with
  | running hrun =>
    cases hmore with
    | running hrun' => exact .running (hrun.trans hrun')
    | stopped hrun' hdone => exact .stopped (hrun.trans hrun') hdone

/-- So many calls have one outcome. -/
theorem Calls.unique (hcalls : Calls h s k b t) (hcalls' : Calls h s k c u) : b = c := by
  -- A run of continuing calls cannot pass the state whose call stops.
  have hne {j code : ℕ} {v w x : State} (hlong : Run.Steps (executeStep h) (j + 1) s x)
      (hshort : Run.Steps (executeStep h) j s v) (hdone : executeStep h v = .done (code, w)) :
      False := by
    have hzero := (hlong.drop hshort (by omega)).eq_zero (by simp [hdone])
    omega
  cases hcalls with
  | running hrun =>
    cases hcalls' with
    | running _ => rfl
    | stopped hshort hdone => exact (hne hrun hshort hdone).elim
  | stopped hshort hdone =>
    cases hcalls' with
    | running hrun => exact (hne hrun hshort hdone).elim
    | stopped _ _ => rfl

end calls

def isTrace (line : Line) : Bool := "Executing pc = ".toList.isPrefixOf line

def Dbg.traced (d : Dbg) : ℕ := d.output.countP isTrace

/-- From `d` to `d'` the guest made `k` calls, all of them traced; a halted one none. -/
structure Advances (h : Host) (k : ℕ) (d d' : Dbg) : Prop where
  traced : d'.traced = d.traced + k
  running : d.halted = false → Calls h d.guest k d'.halted d'.guest
  halted : d.halted = true → k = 0 ∧ d'.halted = true ∧ d'.guest = d.guest

/-- A command that only prints, none of it trace, and edits the breakpoints. -/
def Observes (d d' : Dbg) : Prop :=
  ∃ bs lines, d' = { d with breakpoints := bs }.print lines ∧ ∀ line ∈ lines, isTrace line = false

section advances
variable {h : Host} {d d' d'' : Dbg} {k n : ℕ}

theorem traced_print (lines : List Line) :
    (d.print lines).traced = d.traced + lines.countP isTrace := by
  rw [Dbg.traced, Dbg.print, List.countP_append, Dbg.traced]

theorem Advances.trans (hadv : Advances h k d d') (hmore : Advances h n d' d'') :
    Advances h (k + n) d d'' := by
  refine ⟨by rw [hmore.traced, hadv.traced, Nat.add_assoc], fun hd => ?_, fun hd => ?_⟩
  · have hcalls := hadv.running hd
    cases hhalt : d'.halted with
    | false =>
      rw [hhalt] at hcalls
      exact hcalls.trans (hmore.running hhalt)
    | true =>
      obtain ⟨rfl, hhalt', hguest⟩ := hmore.halted hhalt
      rwa [hhalt', hguest, Nat.add_zero, ← hhalt]
  · obtain ⟨rfl, hhalt, hguest⟩ := hadv.halted hd
    obtain ⟨rfl, hhalt', hguest'⟩ := hmore.halted hhalt
    exact ⟨rfl, hhalt', hguest'.trans hguest⟩

theorem Advances.guest_eq (hadv : Advances h k d d') : d'.guest = stepN h k d.guest := by
  cases hd : d.halted with
  | false => exact (hadv.running hd).eq_stepN
  | true =>
    obtain ⟨rfl, -, hguest⟩ := hadv.halted hd
    exact hguest

theorem Observes.advances (hobs : Observes d d') : Advances h 0 d d' := by
  obtain ⟨bs, lines, rfl, hquiet⟩ := hobs
  have hcount : lines.countP isTrace = 0 := by
    simpa [List.countP_eq_zero] using hquiet
  refine ⟨?_, fun hd => ?_, fun hd => ⟨rfl, hd, rfl⟩⟩
  · rw [traced_print, hcount]
    rfl
  · change Calls h d.guest 0 d.halted d.guest
    rw [hd]
    exact .running (.refl _)

theorem Advances.refl (d : Dbg) : Advances h 0 d d :=
  Observes.advances ⟨d.breakpoints, [], by simp [Dbg.print], by simp⟩

theorem observes_print (d : Dbg) {lines : List Line} (hquiet : ∀ line ∈ lines, isTrace line = false) :
    Observes d (d.print lines) := ⟨d.breakpoints, lines, rfl, hquiet⟩

theorem observes_line (d : Dbg) {line : Line} (hquiet : isTrace line = false) :
    Observes d (d.print [line]) :=
  observes_print d (List.forall_mem_singleton.mpr hquiet)

theorem isTrace_cons {c : Char} (hc : c ≠ 'E') (line : Line) : isTrace (c :: line) = false := by
  have hE : "Executing pc = ".toList = 'E' :: "xecuting pc = ".toList := by decide
  have hne : ('E' == c) = false := beq_false_of_ne hc.symm
  rw [isTrace, hE, List.isPrefixOf_cons_cons, hne, Bool.false_and]

theorem isTrace_append {w : Line} (hw : w.head?.any (· != 'E') = true) (line : Line) :
    isTrace (w ++ line) = false := by
  cases w with
  | nil => simp at hw
  | cons c w => exact isTrace_cons (by simpa using hw) (w ++ line)

/-- A text that does not start like the trace, from its first character alone. -/
theorem isTrace_literal {l : List Char} (hl : l.head?.any (· != 'E') = true) :
    isTrace (String.ofList l).toList = false := by
  rw [String.toList_ofList, ← List.append_nil l]
  exact isTrace_append hl []

theorem isTrace_traceLine (line : Line) : isTrace ("Executing pc = ".toList ++ line) = true := by
  rw [isTrace, List.isPrefixOf_iff_prefix]
  exact List.prefix_append _ _

theorem traced_announce : (announce d).traced = d.traced + 1 := by
  have htrace : (announce d).traced = (traceInstr d).traced := rfl
  rw [htrace, traceInstr, traced_print, List.countP_singleton, if_pos (isTrace_traceLine _)]

/-- A step that ends the program, after its trace and with its message. -/
theorem advances_stop {s : State} {code : ℕ} {message : Line} (hd : d.halted = false)
    (hstep : executeStep h d.guest = .done (code, s)) (hquiet : isTrace message = false) :
    Advances h 1 d ({ announce d with guest := s, halted := true }.print [message]) := by
  refine ⟨?_, fun _ => .stopped (.refl _) hstep, fun hd' => by simp [hd] at hd'⟩
  rw [traced_print, List.countP_singleton, hquiet]
  exact traced_announce

theorem doStep_advances {r : Ret} (hd : d.halted = false) (hstep : doStep h d = some (r, d')) :
    Advances h 1 d d' ∧ (d'.halted = false ↔ r = .ok) := by
  rw [doStep_eq h hd] at hstep
  rcases hs : stepInstruction h d.guest with ⟨_ | _ | _ | _, s⟩ <;> rw [hs] at hstep
  · obtain ⟨rfl, rfl⟩ := Prod.mk.inj (Option.some.inj hstep)
    have hnext : executeStep h d.guest = .next s := by rw [executeStep, hs]
    refine ⟨⟨traced_announce, fun _ => ?_, fun hd' => by simp [hd] at hd'⟩, by simp [hd, announce, traceInstr]⟩
    change Calls h d.guest 1 d.halted s
    rw [hd]
    exact .running (.head hnext (.refl s))
  · obtain ⟨rfl, rfl⟩ := Prod.mk.inj (Option.some.inj hstep)
    have hdone : executeStep h d.guest = .done (1, s) := by rw [executeStep, hs]
    exact ⟨advances_stop hd hdone (by decide), by simp⟩
  · obtain ⟨rfl, rfl⟩ := Prod.mk.inj (Option.some.inj hstep)
    have hdone : executeStep h d.guest = .done (0, s) := by rw [executeStep, hs]
    exact ⟨advances_stop hd hdone (by decide), by simp⟩
  · simp at hstep

/-- The `step` command. -/
theorem stepLoop_advances (hloop : stepLoop h n d = some d') : ∃ k, Advances h k d d' := by
  induction n generalizing d with
  | zero =>
    obtain rfl := Option.some.inj hloop
    exact ⟨0, .refl d⟩
  | succ n ih =>
    rw [stepLoop] at hloop
    cases hd : d.halted with
    | true =>
      rw [if_pos hd] at hloop
      obtain rfl := Option.some.inj hloop
      exact ⟨0, .refl d⟩
    | false =>
      rw [if_neg (by simp [hd])] at hloop
      cases hstep : doStep h d with
      | none => simp [hstep] at hloop
      | some r =>
        rw [hstep] at hloop
        obtain ⟨hone, -⟩ := doStep_advances hd hstep
        obtain ⟨k, hrest⟩ := ih hloop
        exact ⟨1 + k, hone.trans hrest⟩

theorem stepLoop_of_halted (hd : d.halted = true) (n : ℕ) : stepLoop h n d = some d := by
  cases n with
  | zero => rfl
  | succ n => rw [stepLoop, if_pos hd]

/-- Two `step` commands are one. -/
theorem stepLoop_add (m n : ℕ) (d : Dbg) :
    stepLoop h (m + n) d = (stepLoop h m d).bind (stepLoop h n) := by
  induction m generalizing d with
  | zero =>
    rw [Nat.zero_add]
    rfl
  | succ m ih =>
    have hadd : m + 1 + n = m + n + 1 := by omega
    rw [hadd, stepLoop, stepLoop]
    cases hd : d.halted with
    | true => simp [stepLoop_of_halted hd]
    | false =>
      cases hstep : doStep h d with
      | none => simp
      | some r => simpa using ih r.2

/-- A turn of the loop of `continue` is one step, whether the loop goes on or not. -/
theorem continueStep_advances (hd : d.halted = false) :
    (∀ d', continueStep h d = .next d' → Advances h 1 d d' ∧ d'.halted = false) ∧
      ∀ d', continueStep h d = .done d' → Advances h 1 d d' := by
  rw [continueStep]
  cases hstep : doStep h d with
  | none => exact ⟨fun d' hd' => by simp at hd', fun d' hd' => by simp at hd'⟩
  | some r =>
    obtain ⟨hone, hhalt⟩ := doStep_advances hd hstep
    rcases r with ⟨_ | _ | _ | _, d1⟩
    · dsimp only
      split_ifs
      · refine ⟨fun d' hd' => by simp at hd', fun d' hd' => ?_⟩
        obtain rfl := Outcome.done.inj hd'
        exact hone.trans (observes_line d1 (isTrace_append (by decide) _)).advances
      · refine ⟨fun d' hd' => ?_, fun d' hd' => by simp at hd'⟩
        obtain rfl := Outcome.next.inj hd'
        exact ⟨hone, hhalt.mpr rfl⟩
    all_goals
      refine ⟨fun d' hd' => by simp at hd', fun d' hd' => ?_⟩
      obtain rfl := Outcome.done.inj hd'
      exact hone

/-- The `continue` command. -/
theorem doContinue_advances {fuel : ℕ} (hcont : doContinue h fuel d = some d') :
    ∃ k, Advances h k d d' := by
  rw [doContinue] at hcont
  cases hd : d.halted with
  | true =>
    rw [if_pos hd] at hcont
    obtain rfl := Option.some.inj hcont
    exact ⟨0, (observes_line d (by decide)).advances⟩
  | false =>
    rw [if_neg (by simp [hd])] at hcont
    refine Run.run_rule (I := fun d1 => (∃ k, Advances h k d d1) ∧ d1.halted = false)
      (Q := fun d' => ∃ k, Advances h k d d') ?_ ?_ hcont ⟨⟨0, .refl d⟩, hd⟩
    · rintro d1 d2 ⟨⟨k, hk⟩, hd1⟩ hnext
      obtain ⟨hone, hd2⟩ := (continueStep_advances hd1).1 d2 hnext
      exact ⟨⟨k + 1, hk.trans hone⟩, hd2⟩
    · rintro d1 d2 ⟨⟨k, hk⟩, hd1⟩ hdone
      exact ⟨k + 1, hk.trans ((continueStep_advances hd1).2 d2 hdone)⟩

theorem observes_refl (d : Dbg) : Observes d d :=
  ⟨d.breakpoints, [], by simp [Dbg.print], by simp⟩

theorem observes_edit (d : Dbg) (bs : List Word) {line : Line} (hquiet : isTrace line = false) :
    Observes d ({ d with breakpoints := bs }.print [line]) :=
  ⟨bs, [line], rfl, List.forall_mem_singleton.mpr hquiet⟩

theorem bpAdd_observes (addr : Word) (d : Dbg) : Observes d (bpAdd addr d) := by
  rw [bpAdd]
  split_ifs
  · exact observes_refl d
  · exact observes_line d (by decide)
  · exact observes_edit d _ (isTrace_append (by decide) _)

theorem bpDelete_observes (addr : Word) (d : Dbg) : Observes d (bpDelete addr d) := by
  rw [bpDelete]
  split
  · exact observes_edit d _ (isTrace_append (by decide) _)
  · exact observes_line d (isTrace_append (by decide) _)

theorem bpList_observes (d : Dbg) : Observes d (bpList d) := by
  rw [bpList]
  split_ifs
  · exact observes_line d (by decide)
  · apply observes_print
    rintro line hline
    obtain ⟨addr, -, rfl⟩ := List.mem_map.mp hline
    exact isTrace_append (by decide) _

theorem printRegisters_observes (d : Dbg) : Observes d (printRegisters d) := by
  apply observes_print
  rintro line hline
  rcases List.mem_cons.mp hline with rfl | hline
  · simp only [List.append_assoc]
    exact isTrace_append (by decide) _
  · obtain ⟨k, -, rfl⟩ := List.mem_map.mp hline
    change isTrace ('r' :: _) = false
    exact isTrace_cons (by decide) _

theorem isTrace_instrLine (m : Memory) (pc : Word) : isTrace (instrLine m pc) = false :=
  isTrace_cons (by decide) _

theorem printCode_observes {fuel : ℕ} (hcode : printCode fuel d = some d') : Observes d d' := by
  rw [printCode] at hcode
  obtain ⟨lines, hrun, rfl⟩ := Option.map_eq_some_iff.mp hcode
  apply observes_print
  refine Run.run_rule (I := fun r => ∀ line ∈ r.2, isTrace line = false)
    (Q := fun lines => ∀ line ∈ lines, isTrace line = false) ?_ ?_ hrun (by simp)
  · rintro r r' hr hnext
    rw [codeStep] at hnext
    split_ifs at hnext
    obtain rfl := Outcome.next.inj hnext
    rintro line hline
    rcases List.mem_append.mp hline with hline | hline
    · exact hr line hline
    · obtain rfl := List.mem_singleton.mp hline
      exact isTrace_instrLine _ _
  · rintro r lines hr hdone
    rw [codeStep] at hdone
    split_ifs at hdone
    obtain rfl := Outcome.done.inj hdone
    exact hr

theorem printWord_observes (addr : Word) (d : Dbg) : Observes d (printWord addr d) :=
  observes_line d (isTrace_instrLine _ _)

theorem dumpMemory_observes (count : ℕ) (addr : Word) (d : Dbg) :
    Observes d (dumpMemory addr count d) := by
  apply observes_print
  rintro line hline
  obtain ⟨k, -, rfl⟩ := List.mem_map.mp hline
  exact isTrace_cons (by decide) _

theorem helpDebug_observes (d : Dbg) : Observes d (helpDebug d) := by
  apply observes_print
  repeat refine List.forall_mem_cons.mpr ⟨isTrace_literal (by decide), ?_⟩
  exact List.forall_mem_nil _

theorem parseAddr_error {line message : Line} (hparse : parseAddr line = .error message) :
    isTrace message = false := by
  rw [parseAddr] at hparse
  split at hparse
  · obtain rfl := Except.error.inj hparse
    decide
  · dsimp only at hparse
    split at hparse
    · simp at hparse
    · obtain rfl := Except.error.inj hparse
      decide

theorem withAddr_observes {run : Word → Dbg → Dbg} (hrun : ∀ addr, Observes d (run addr d))
    (line : Line) : Observes d (withAddr line d run) := by
  rw [withAddr]
  split
  · exact hrun _
  · exact observes_line d (parseAddr_error ‹_›)

end advances

def isStep (line : Line) : Bool := isCmd line "step".toList (some "s".toList)
def isContinue (line : Line) : Bool := isCmd line "continue".toList (some "c".toList)

section commands
variable {h : Host} {d d' : Dbg} {fuel : ℕ} {line : Line}

theorem ite_elim {α : Type} {c P : Prop} [Decidable c] {a b x : α} (ha : a = x → P)
    (hb : b = x → P) : (if c then a else b) = x → P := by
  split
  · exact ha
  · exact hb

/-- Every other command, known or not, only looks. -/
theorem runCommand_observes {q : Bool} (hs : isStep line = false) (hc : isContinue line = false)
    (hrun : runCommand h fuel line d = some (q, d')) : Observes d d' := by
  have hdone {b : Bool} {d1 : Dbg} (hobs : Observes d d1) (heq : some (b, d1) = some (q, d')) :
      Observes d d' := by
    obtain ⟨-, rfl⟩ := Prod.mk.inj (Option.some.inj heq)
    exact hobs
  have haddr {run : Word → Dbg → Dbg} (hall : ∀ addr, Observes d (run addr d)) :
      Observes d (withAddr line d run) := withAddr_observes hall line
  rw [isStep] at hs
  rw [isContinue] at hc
  rw [runCommand, if_neg (Bool.eq_false_iff.mp hs), if_neg (Bool.eq_false_iff.mp hc)] at hrun
  revert hrun
  -- One command at a time, in the order `run_command` tries them.
  refine ite_elim (hdone (haddr fun addr => bpAdd_observes addr d)) ?_
  refine ite_elim (hdone (haddr fun addr => bpDelete_observes addr d)) ?_
  refine ite_elim (hdone (bpList_observes d)) ?_
  refine ite_elim (hdone (printRegisters_observes d)) ?_
  refine ite_elim (hdone (haddr fun addr => printWord_observes addr d)) ?_
  refine ite_elim (hdone (haddr fun addr => dumpMemory_observes _ addr d)) ?_
  refine ite_elim (fun hrun => ?_) ?_
  · obtain ⟨d1, hprint, heq⟩ := Option.map_eq_some_iff.mp hrun
    exact hdone (printCode_observes hprint) (congrArg some heq)
  refine ite_elim (hdone (helpDebug_observes d)) ?_
  refine ite_elim (hdone (observes_refl d)) (hdone ?_)
  apply observes_line
  rw [List.append_assoc]
  exact isTrace_append (by decide) _

/-- A command runs the guest on by some number of calls. -/
theorem runCommand_advances {q : Bool} (hrun : runCommand h fuel line d = some (q, d')) :
    ∃ k, Advances h k d d' := by
  cases hs : isStep line with
  | true =>
    rw [isStep] at hs
    rw [runCommand, if_pos hs] at hrun
    obtain ⟨d1, hloop, heq⟩ := Option.map_eq_some_iff.mp hrun
    obtain ⟨rfl, rfl⟩ := Prod.mk.inj heq
    exact stepLoop_advances hloop
  | false =>
    cases hc : isContinue line with
    | true =>
      rw [isStep] at hs
      rw [isContinue] at hc
      rw [runCommand, if_neg (Bool.eq_false_iff.mp hs), if_pos hc] at hrun
      obtain ⟨d1, hcont, heq⟩ := Option.map_eq_some_iff.mp hrun
      obtain ⟨rfl, rfl⟩ := Prod.mk.inj heq
      exact doContinue_advances hcont
    | false => exact ⟨0, (runCommand_observes hs hc hrun).advances⟩

/-- A script that comes to its end does so as well. -/
theorem debug_advances {lines : List Line} (hrun : debug h fuel lines d = some d') :
    ∃ k, Advances h k d d' := by
  induction lines generalizing d with
  | nil =>
    obtain rfl := Option.some.inj hrun
    exact ⟨0, .refl d⟩
  | cons line lines ih =>
    rw [debug] at hrun
    split_ifs at hrun
    · obtain rfl := Option.some.inj hrun
      exact ⟨0, .refl d⟩
    · split at hrun
      case h_1 d1 hcmd =>
        obtain ⟨k, hone⟩ := runCommand_advances hcmd
        obtain ⟨n, hrest⟩ := ih hrun
        exact ⟨k + n, hone.trans hrest⟩
      case h_2 d1 hcmd =>
        obtain rfl := Option.some.inj hrun
        exact runCommand_advances hcmd
      case h_3 => simp at hrun

theorem ite_some_imp {α : Type} {c : Prop} [Decidable c] {a a' b b' : Option α} {x : α}
    (h : (if c then a else b) = some x) (ha : a = some x → a' = some x)
    (hb : b = some x → b' = some x) : (if c then a' else b') = some x := by
  by_cases hc : c
  · rw [if_pos hc] at h ⊢
    exact ha h
  · rw [if_neg hc] at h ⊢
    exact hb h

/-- A larger bound on the iterations does not change a result. -/
theorem runCommand_mono {q : Bool} {fuel' : ℕ} (hrun : runCommand h fuel line d = some (q, d'))
    (hle : fuel ≤ fuel') : runCommand h fuel' line d = some (q, d') := by
  have hcontinue {x : Bool × Dbg} (hx : (doContinue h fuel d).map (false, ·) = some x) :
      (doContinue h fuel' d).map (false, ·) = some x := by
    obtain ⟨d1, hcont, heq⟩ := Option.map_eq_some_iff.mp hx
    have hmore : doContinue h fuel' d = some d1 :=
      ite_some_imp hcont id fun hrun => Run.run_mono hrun hle
    rw [hmore, ← heq]
    rfl
  have hcode {x : Bool × Dbg} (hx : (printCode fuel d).map (false, ·) = some x) :
      (printCode fuel' d).map (false, ·) = some x := by
    obtain ⟨d1, hprint, heq⟩ := Option.map_eq_some_iff.mp hx
    obtain ⟨lines, hlines, rfl⟩ := Option.map_eq_some_iff.mp hprint
    rw [printCode, Run.run_mono hlines hle, ← heq]
    rfl
  -- Only `continue` and `code` see the bound; the six commands between them do not.
  refine ite_some_imp hrun id fun hrun => ite_some_imp hrun hcontinue fun hrun => ?_
  refine ite_some_imp hrun id fun hrun => ite_some_imp hrun id fun hrun => ?_
  refine ite_some_imp hrun id fun hrun => ite_some_imp hrun id fun hrun => ?_
  refine ite_some_imp hrun id fun hrun => ite_some_imp hrun id fun hrun => ?_
  exact ite_some_imp hrun hcode id

theorem debug_mono {fuel' : ℕ} {lines : List Line} (hrun : debug h fuel lines d = some d')
    (hle : fuel ≤ fuel') : debug h fuel' lines d = some d' := by
  induction lines generalizing d with
  | nil => exact hrun
  | cons line lines ih =>
    rw [debug] at hrun ⊢
    split_ifs at hrun ⊢
    · exact hrun
    · split at hrun
      case h_1 d1 hcmd =>
        rw [runCommand_mono hcmd hle]
        exact ih hrun
      case h_2 d1 hcmd =>
        rw [runCommand_mono hcmd hle]
        exact hrun
      case h_3 => simp at hrun

theorem runCommand_step (hs : isStep line = true) (d : Dbg) :
    runCommand h fuel line d = (stepLoop h (stepCount line) d).map (false, ·) := by
  rw [isStep] at hs
  rw [runCommand, if_pos hs]

end commands

def stepLine (n : ℕ) : Line := "step ".toList ++ Text.dec n

theorem isStep_stepLine (n : ℕ) : isStep (stepLine n) = true := rfl

theorem stepCount_stepLine {n : ℕ} (hn : n ≤ Strto.LONG_MAX) : stepCount (stepLine n) = n := by
  obtain ⟨c, l, hdec⟩ := List.exists_cons_of_ne_nil (l := Text.dec n) Nat.toDigits_ne_nil
  have hc : (c == ' ') = false := by
    have hnum := Text.token_dec.chars n c (hdec ▸ List.mem_cons_self)
    exact beq_false_of_ne fun he => absurd hnum (by rw [he]; decide)
  have hblank : (Text.dec n).dropWhile (· == ' ') = c :: l := by
    rw [hdec, List.dropWhile_cons_of_neg (by simp [hc])]
  have harg : cmdArg (stepLine n) = some (Text.dec n) := by
    have hdrop : ((stepLine n).dropWhile (· != ' ')).dropWhile (· == ' ') = c :: l := hblank
    rw [cmdArg, hdrop, hdec]
  rw [stepCount, harg]
  simp only [Strto.strtol_dec]
  omega

/-- The debugger is transparent. Whatever the commands of a terminating script are, the
guest is where the traced number of calls of `step_instruction` leaves it, and the run is
a run of `execute`; every command but `step` and `continue` leaves the guest alone, and so
does every command after the program has stopped; consecutive `step` commands add up; and
two scripts with the same number of steps end in the same guest state. -/
theorem debugger_transparent (h : Host) (d : Dbg) :
    (∀ fuel lines d', debug h fuel lines d = some d' →
      ∃ k, d'.traced = d.traced + k ∧ d'.guest = stepN h k d.guest ∧
        (d.halted = false → Calls h d.guest k d'.halted d'.guest)) ∧
    (∀ fuel line q d', isStep line = false → isContinue line = false →
      runCommand h fuel line d = some (q, d') → d'.guest = d.guest ∧ d'.halted = d.halted) ∧
    (d.halted = true → ∀ fuel lines d', debug h fuel lines d = some d' →
      d'.guest = d.guest ∧ d'.halted = true) ∧
    (∀ fuel l m n, isStep l = true → isStep m = true → isStep n = true →
      stepCount l = stepCount m + stepCount n →
      runCommand h fuel l d = (runCommand h fuel m d).bind fun r => runCommand h fuel n r.2) ∧
    (∀ m n, m + n ≤ Strto.LONG_MAX →
      isStep (stepLine m) = true ∧ stepCount (stepLine (m + n)) =
        stepCount (stepLine m) + stepCount (stepLine n)) ∧
    (∀ e : Dbg, e.guest = d.guest → e.halted = d.halted →
      ∀ fuel fuel' lines lines' d' e', debug h fuel lines d = some d' →
      debug h fuel' lines' e = some e' → d'.traced - d.traced = e'.traced - e.traced →
      d'.guest = e'.guest ∧ d'.halted = e'.halted) := by
  refine ⟨?_, ?_, ?_, ?_, ?_, ?_⟩
  · intro fuel lines d' hrun
    obtain ⟨k, hadv⟩ := debug_advances hrun
    refine ⟨k, hadv.traced, hadv.guest_eq, hadv.running⟩
  · intro fuel line q d' hs hc hrun
    obtain ⟨bs, lines, rfl, -⟩ := runCommand_observes hs hc hrun
    exact ⟨rfl, rfl⟩
  · intro hd fuel lines d' hrun
    obtain ⟨k, hadv⟩ := debug_advances hrun
    obtain ⟨-, hhalt, hguest⟩ := hadv.halted hd
    exact ⟨hguest, hhalt⟩
  · intro fuel l m n hl hm hn hcount
    rw [runCommand_step hl, runCommand_step hm, hcount, stepLoop_add]
    cases stepLoop h (stepCount m) d with
    | none => rfl
    | some d1 => exact (runCommand_step hn d1).symm
  · intro m n hmn
    refine ⟨isStep_stepLine m, ?_⟩
    rw [stepCount_stepLine hmn, stepCount_stepLine (by omega), stepCount_stepLine (by omega)]
  · intro e hguest hhalt fuel fuel' lines lines' d' e' hrun hrun' hcount
    obtain ⟨k, hadv⟩ := debug_advances hrun
    obtain ⟨n, hadv'⟩ := debug_advances hrun'
    -- Both scripts made the same number of calls.
    have hkn : k = n := by
      rw [hadv.traced, hadv'.traced] at hcount
      omega
    subst hkn
    refine ⟨by rw [hadv.guest_eq, hadv'.guest_eq, hguest], ?_⟩
    cases hd : d.halted with
    | true => rw [(hadv.halted hd).2.1, (hadv'.halted (hhalt.trans hd)).2.1]
    | false =>
      have hcalls' := hadv'.running (hhalt.trans hd)
      rw [hguest] at hcalls'
      exact (hadv.running hd).unique hcalls'

/-- `addiu r8, r0, 5` and `break`, under the debugger. -/
def breakDebug : Dbg where
  guest := resetState (flatImage [0x24080005#32, 0x0000000D#32]) 0
  fileSize := 8
  log := false
  breakpoints := []
  halted := false
  output := []
  stderr := []

/-- A breakpoint, one step, and on to the end. -/
theorem debugger_transparent_break :
    ∃ d' k, debug nullHost 2 ["break 4".toList, "step".toList, "c".toList] breakDebug = some d' ∧
      Calls nullHost breakDebug.guest k d'.halted d'.guest ∧
      d'.guest = stepN nullHost k breakDebug.guest := by
  obtain ⟨hscript, -⟩ := debugger_transparent nullHost breakDebug
  obtain ⟨k, -, hguest, hcalls⟩ := hscript 2 ["break 4".toList, "step".toList, "c".toList] _ rfl
  exact ⟨_, k, rfl, hcalls rfl, hguest⟩

end MyMips
