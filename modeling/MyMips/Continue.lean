import MyMips.Breakpoints
import MyMips.Lib.Until
import MyMips.Transparency

namespace MyMips

section loop
variable {h : Host} {d d' : Dbg} {m : ℕ}

/-- The state after the last step of a run, whether that returned or not. -/
def lastState : (ℕ × State) ⊕ State → State
  | .inl (_, u) => u
  | .inr u => u

/-- One turn of the loop beside one step of the machine. -/
theorem continueStep_eq (hd : d.halted = false) :
    match Run.stepUntil (fun s => s.pc ∈ d.breakpoints) (executeStep h) d.guest with
    | .next s => ∃ d', continueStep h d = .next d' ∧ d'.guest = s ∧ d'.halted = false ∧
        d'.breakpoints = d.breakpoints
    | .done r => ∃ d', continueStep h d = .done d' ∧ d'.guest = lastState r ∧
        d'.halted = r.isLeft
    | .crash => continueStep h d = .crash := by
  unfold Run.stepUntil executeStep continueStep
  rw [doStep_eq h hd]
  rcases stepInstruction h d.guest with ⟨_ | _ | _ | _, s⟩
  · by_cases hs : s.pc ∈ d.breakpoints
    · have hc := (bpContains_iff s.pc { announce d with guest := s }).mpr hs
      simp only [if_pos hs, if_pos hc]
      exact ⟨_, rfl, rfl, hd⟩
    · have hc : ¬ bpContains s.pc { announce d with guest := s } = true :=
        fun hc => hs ((bpContains_iff _ _).mp hc)
      simp only [if_neg hs, if_neg hc]
      exact ⟨_, rfl, rfl, hd, rfl⟩
  · exact ⟨_, rfl, rfl, rfl⟩
  · exact ⟨_, rfl, rfl, rfl⟩
  · rfl

/-- `d'` is where the loop is when the guest has come to `s`. -/
structure Continues (d : Dbg) (d' : Dbg) (s : State) : Prop where
  guest : d'.guest = s
  halted : d'.halted = false
  breakpoints : d'.breakpoints = d.breakpoints

theorem Continues.next {d1 d2 : Dbg} {s : State} (hc : Continues d d1 s)
    (hstep : continueStep h d1 = .next d2) :
    ∃ t, Run.stepUntil (fun s => s.pc ∈ d.breakpoints) (executeStep h) s = .next t ∧
      Continues d d2 t := by
  have hturn := continueStep_eq (h := h) hc.halted
  rw [hc.breakpoints, hc.guest] at hturn
  cases hs : Run.stepUntil (fun s => s.pc ∈ d.breakpoints) (executeStep h) s with
  | next t =>
    simp only [hs, hstep, Outcome.next.injEq, exists_eq_left'] at hturn
    exact ⟨t, rfl, hturn.1, hturn.2.1, hturn.2.2⟩
  | done r => simp [hs, hstep] at hturn
  | crash => simp [hs, hstep] at hturn

theorem Continues.next' {d1 : Dbg} {s t : State} (hc : Continues d d1 s)
    (hs : Run.stepUntil (fun s => s.pc ∈ d.breakpoints) (executeStep h) s = .next t) :
    ∃ d2, continueStep h d1 = .next d2 ∧ Continues d d2 t := by
  have hturn := continueStep_eq (h := h) hc.halted
  rw [hc.breakpoints, hc.guest, hs] at hturn
  obtain ⟨d2, hstep, hguest, hhalted, hbreakpoints⟩ := hturn
  exact ⟨d2, hstep, hguest, hhalted, hbreakpoints⟩

theorem Continues.done {d1 : Dbg} {s : State} (hc : Continues d d1 s)
    (hstep : continueStep h d1 = .done d') :
    ∃ r, Run.stepUntil (fun s => s.pc ∈ d.breakpoints) (executeStep h) s = .done r ∧
      d'.guest = lastState r ∧ d'.halted = r.isLeft := by
  have hturn := continueStep_eq (h := h) hc.halted
  rw [hc.breakpoints, hc.guest] at hturn
  cases hs : Run.stepUntil (fun s => s.pc ∈ d.breakpoints) (executeStep h) s with
  | next t => simp [hs, hstep] at hturn
  | done r =>
    simp only [hs, hstep, Outcome.done.injEq, exists_eq_left'] at hturn
    exact ⟨r, rfl, hturn⟩
  | crash => simp [hs, hstep] at hturn

theorem Continues.done' {d1 : Dbg} {s : State} {r : (ℕ × State) ⊕ State} (hc : Continues d d1 s)
    (hs : Run.stepUntil (fun s => s.pc ∈ d.breakpoints) (executeStep h) s = .done r) :
    ∃ d', continueStep h d1 = .done d' := by
  have hturn := continueStep_eq (h := h) hc.halted
  rw [hc.breakpoints, hc.guest, hs] at hturn
  obtain ⟨d', hstep, -⟩ := hturn
  exact ⟨d', hstep⟩

/-- So many turns of the loop are so many calls of `step_instruction`. -/
theorem advances_steps (hd : d.halted = false) (hrun : Run.Steps (continueStep h) m d d') :
    Advances h m d d' := by
  induction hrun with
  | refl d => exact .refl d
  | @head m d d1 d' hnext _ ih =>
    obtain ⟨hone, hd1⟩ := (continueStep_advances hd).1 d1 hnext
    exact Nat.add_comm 1 m ▸ hone.trans (ih hd1)

/-- What the loop comes to is the first stop of the machine. -/
theorem firstStop_of_doContinue {fuel : ℕ} (hd : d.halted = false)
    (hcont : doContinue h fuel d = some d') :
    ∃ k r, Run.FirstStop (fun s => s.pc ∈ d.breakpoints) (executeStep h) d.guest k r ∧
      Advances h k d d' ∧ d'.guest = lastState r ∧ d'.halted = r.isLeft := by
  rw [doContinue, if_neg (by simp [hd])] at hcont
  obtain ⟨m, d1, -, hrun, hdone⟩ := Run.run_eq_some_iff.mp hcont
  obtain ⟨s, hsteps, hc⟩ := hrun.lockstep (R := Continues d) (fun _ _ _ hc hnext => hc.next hnext)
    ⟨rfl, hd, rfl⟩
  obtain ⟨r, hstop, hguest, hhalted⟩ := hc.done hdone
  have hlast := (continueStep_advances hc.halted).2 d' hdone
  exact ⟨m + 1, r, Run.stepUntil_returns_iff.mp ⟨s, hsteps, hstop⟩,
    (advances_steps hd hrun).trans hlast, hguest, hhalted⟩

/-- The loop gets to the first stop. -/
theorem doContinue_of_firstStop {fuel k : ℕ} {r : (ℕ × State) ⊕ State} (hd : d.halted = false)
    (hfirst : Run.FirstStop (fun s => s.pc ∈ d.breakpoints) (executeStep h) d.guest k r)
    (hk : k ≤ fuel) : ∃ d', doContinue h fuel d = some d' := by
  rw [doContinue, if_neg (by simp [hd])]
  obtain ⟨m, rfl⟩ := Nat.exists_eq_succ_of_ne_zero (Nat.ne_of_gt hfirst.stops.pos)
  obtain ⟨s, hsteps, hstop⟩ := Run.stepUntil_returns_iff.mpr hfirst
  obtain ⟨d1, hrun, hc⟩ := hsteps.lockstep (R := fun s d1 => Continues d d1 s)
    (fun _ _ _ hc hnext => hc.next' hnext) ⟨rfl, hd, rfl⟩
  obtain ⟨d', hdone⟩ := hc.done' hstop
  exact ⟨d', Run.run_eq_some_iff.mpr ⟨m, d1, hk, hrun, hdone⟩⟩

end loop

/-- `continue` makes exactly as many steps as it takes to the first one that returns
nonzero or leads to a breakpoint, and does not return if there is none. -/
theorem doContinue_first_stop (h : Host) (d : Dbg) (hd : d.halted = false) :
    let P : State → Prop := fun s => s.pc ∈ d.breakpoints
    (∀ fuel d', doContinue h fuel d = some d' →
      ∃ k r, Run.FirstStop P (executeStep h) d.guest k r ∧ Advances h k d d' ∧
        d'.guest = lastState r ∧ d'.halted = r.isLeft) ∧
    (∀ k r, Run.FirstStop P (executeStep h) d.guest k r →
      ∀ fuel, k ≤ fuel → ∃ d', doContinue h fuel d = some d') ∧
    ((∀ k r, ¬ Run.StopsAt P (executeStep h) d.guest k r) →
      ∀ fuel, doContinue h fuel d = none) ∧
    (∀ k r, Run.FirstStop P (executeStep h) d.guest k r → ∀ j t, 0 < j → j < k →
      Run.Steps (executeStep h) j d.guest t → t.pc ∉ d.breakpoints) := by
  intro P
  refine ⟨?_, ?_, ?_, ?_⟩
  · intro fuel d' hcont
    exact firstStop_of_doContinue hd hcont
  · intro k r hfirst fuel hk
    exact doContinue_of_firstStop hd hfirst hk
  · intro hnever fuel
    by_contra hsome
    obtain ⟨d', hcont⟩ := Option.ne_none_iff_exists'.mp hsome
    obtain ⟨k, r, hfirst, -⟩ := firstStop_of_doContinue hd hcont
    exact hnever k r hfirst.stops
  · intro k r hfirst j t hj hjk ht
    exact hfirst.not_mem hj hjk ht

/-- `beq $0, $0, 4` to address 8 with its delay slot, and breakpoints at the branch and
at its target. -/
def branchDbg : Dbg where
  guest := resetState (flatImage [0x10000001#32, 0x24080001#32, 0x0000000D#32]) 0
  fileSize := 12
  log := false
  breakpoints := [0, 8]
  halted := false
  output := []
  stderr := []

/-- The breakpoint at the branch does not stop it, the one at the target does. -/
theorem doContinue_first_stop_branch :
    ∃ d', doContinue nullHost 2 branchDbg = some d' ∧ Advances nullHost 2 branchDbg d' ∧
      d'.halted = false ∧ d'.guest.pc = 8 := by
  let s1 := (stepInstruction nullHost branchDbg.guest).2
  let s2 := (stepInstruction nullHost s1).2
  let P : State → Prop := fun s => s.pc ∈ branchDbg.breakpoints
  have hslot : Run.stepUntil P (executeStep nullHost) branchDbg.guest = .next s1 :=
    Run.stepUntil_eq_next.mpr ⟨executeStep_of_ok (by decide), by decide⟩
  have htarget : Run.stepUntil P (executeStep nullHost) s1 = .done (.inr s2) := by
    have hnext : executeStep nullHost s1 = .next s2 := executeStep_of_ok (by decide)
    have hbreak : P s2 := by decide
    simp only [Run.stepUntil, hnext, if_pos hbreak]
  have hfirst := Run.stepUntil_returns_iff.mp ⟨s1, .head hslot (.refl s1), htarget⟩
  obtain ⟨hstops, hreturns, -⟩ := doContinue_first_stop nullHost branchDbg rfl
  obtain ⟨d', hcont⟩ := hreturns 2 _ hfirst 2 le_rfl
  obtain ⟨k, r, hfirst', hadv, hguest, hhalted⟩ := hstops 2 d' hcont
  obtain ⟨rfl, rfl⟩ := hfirst'.unique hfirst
  refine ⟨d', hcont, hadv, hhalted, ?_⟩
  rw [hguest]
  decide

end MyMips
