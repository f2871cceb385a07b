import MyMips.Lib.Run

/-! Machines that keep a log. What a state has to say is noted when the machine leaves it,
by a step that goes on as by one that returns. -/
def Outcome.withLog {ρ σ β : Type*} (l : List β) :
    Outcome ρ σ → Outcome (ρ × List β) (σ × List β)
  | .next t => .next (t, l)
  | .done r => .done (r, l)
  | .crash => .crash

namespace Run
variable {ρ σ τ α β : Type*}

def trail (step : σ → Outcome ρ σ) (note : σ → List β) : ℕ → σ → List β
  | 0, _ => []
  | n + 1, s => note s ++ match step s with
    | .next t => trail step note n t
    | _ => []

def logged (step : σ → Outcome ρ σ) (note : σ → List β) (u : σ × List β) :
    Outcome (ρ × List β) (σ × List β) :=
  (step u.1).withLog (u.2 ++ note u.1)

section
variable {step : σ → Outcome ρ σ} {note : σ → List β} {n k : ℕ} {s t : σ}

theorem trail_succ_of_next (hs : step s = .next t) :
    trail step note (n + 1) s = note s ++ trail step note n t := by
  rw [trail, hs]

theorem trail_succ_of_done {r : ρ} (hs : step s = .done r) :
    trail step note (n + 1) s = note s := by
  rw [trail, hs]
  exact List.append_nil _

theorem trail_add (h : Steps step k s t) (n : ℕ) :
    trail step note (k + n) s = trail step note k s ++ trail step note n t := by
  induction h with
  | refl s =>
    rw [Nat.zero_add]
    rfl
  | @head k s u t hs _ ih =>
    have hk : k + 1 + n = k + n + 1 := by omega
    rw [hk, trail_succ_of_next hs, trail_succ_of_next hs, ih, List.append_assoc]

/-- Whatever is read off a log piece by piece is the log of what is read off the notes. -/
theorem trail_hom {note' : σ → List α} {f : List β → List α} (hnil : f [] = [])
    (happend : ∀ a b, f (a ++ b) = f a ++ f b) (h : ∀ s, note' s = f (note s)) (n : ℕ) (s : σ) :
    trail step note' n s = f (trail step note n s) := by
  induction n generalizing s with
  | zero => exact hnil.symm
  | succ n ih =>
    rw [trail, trail, h, happend]
    cases hs : step s with
    | next t => rw [← ih]
    | done r => rw [hnil]
    | crash => rw [hnil]

theorem trail_congr {note' : σ → List α} {f : β → α} (h : ∀ s, note' s = (note s).map f)
    (n : ℕ) (s : σ) : trail step note' n s = (trail step note n s).map f :=
  trail_hom rfl (fun _ _ => List.map_append) h n s

theorem trail_eq_nil (h : ∀ s, note s = []) (n : ℕ) (s : σ) : trail step note n s = [] := by
  induction n generalizing s with
  | zero => rfl
  | succ n ih =>
    rw [trail, h, List.nil_append]
    cases step s with
    | next t => exact ih t
    | done r => rfl
    | crash => rfl

/-- A run that has returned notes nothing more. -/
theorem trail_of_run {r r' : ρ} (h : run step n s = some r) (h' : run step k s = some r') :
    trail step note n s = trail step note k s := by
  induction n generalizing k s with
  | zero => simp [run] at h
  | succ n ih =>
    cases k with
    | zero => simp [run] at h'
    | succ k =>
      rw [run] at h h'
      rw [trail, trail]
      cases hs : step s with
      | next t =>
        rw [hs] at h h'
        exact congrArg (note s ++ ·) (ih h h')
      | done r => rfl
      | crash => rfl

/-- Every note is that of a state the machine leaves. -/
theorem mem_trail {b : β} (hb : b ∈ trail step note n s) :
    ∃ m u, m < n ∧ Steps step m s u ∧ b ∈ note u := by
  induction n generalizing s with
  | zero => exact absurd hb List.not_mem_nil
  | succ n ih =>
    rw [trail] at hb
    rcases List.mem_append.mp hb with hb | hb
    · exact ⟨0, s, Nat.succ_pos n, .refl s, hb⟩
    · cases hs : step s with
      | next t =>
        rw [hs] at hb
        obtain ⟨m, u, hm, hu, hbu⟩ := ih hb
        exact ⟨m + 1, u, by omega, .head hs hu, hbu⟩
      | done r =>
        rw [hs] at hb
        exact absurd hb List.not_mem_nil
      | crash =>
        rw [hs] at hb
        exact absurd hb List.not_mem_nil

/-- The log does not influence the run. -/
theorem run_logged (n : ℕ) (s : σ) (l : List β) :
    run (logged step note) n (s, l) =
      (run step n s).map fun r => (r, l ++ trail step note n s) := by
  induction n generalizing s l with
  | zero => rfl
  | succ n ih =>
    rw [run, run, logged, trail]
    cases hs : step s with
    | next t =>
      dsimp only [Outcome.withLog]
      rw [ih, List.append_assoc]
    | done r =>
      dsimp only [Outcome.withLog]
      rw [List.append_nil]
      rfl
    | crash => rfl

theorem returns_logged_iff {l l' : List β} {r : ρ} :
    Returns (logged step note) (s, l) (r, l') ↔
      ∃ n, run step n s = some r ∧ l' = l ++ trail step note n s := by
  constructor
  · rintro ⟨n, h⟩
    rw [run_logged] at h
    obtain ⟨_, hr, heq⟩ := Option.map_eq_some_iff.mp h
    obtain ⟨rfl, rfl⟩ := Prod.mk.inj heq
    exact ⟨n, hr, rfl⟩
  · rintro ⟨n, h, rfl⟩
    exact ⟨n, by rw [run_logged, h, Option.map_some]⟩

theorem steps_logged_iff {l l' : List β} :
    Steps (logged step note) n (s, l) (t, l') ↔
      Steps step n s t ∧ l' = l ++ trail step note n s := by
  constructor
  · intro h
    generalize hu : (s, l) = u at h
    generalize hv : (t, l') = v at h
    induction h generalizing s l with
    | refl u =>
      obtain ⟨rfl, rfl⟩ := Prod.mk.inj (hu.trans hv.symm)
      exact ⟨.refl s, (List.append_nil l).symm⟩
    | @head n u w v hstep _ ih =>
      subst hu
      rw [logged] at hstep
      cases hs : step s with
      | next x =>
        rw [hs] at hstep
        obtain ⟨hrun, hlog⟩ := ih (Outcome.next.inj hstep) hv
        rw [trail_succ_of_next hs, ← List.append_assoc]
        exact ⟨.head hs hrun, hlog⟩
      | done r => simp [hs, Outcome.withLog] at hstep
      | crash => simp [hs, Outcome.withLog] at hstep
  · rintro ⟨h, rfl⟩
    induction h generalizing l with
    | refl s =>
      rw [trail, List.append_nil]
      exact .refl _
    | @head n s u t hs _ ih =>
      rw [trail_succ_of_next hs, ← List.append_assoc]
      refine .head ?_ (ih (l := l ++ note s))
      rw [logged, hs]
      rfl

end

/-- As `Matches`, with `L` between the notes of a step and those of the steps it matches. -/
def MatchesLogged (stepT : τ → Outcome ρ τ) (noteT : τ → List α) (stepS : σ → Outcome ρ σ)
    (noteS : σ → List β) (L : List α → List β → Prop) (R : τ → σ → Prop) : Prop :=
  ∀ t s, R t s →
    match stepT t with
    | .next t' => ∃ k s', Steps stepS k s s' ∧ R t' s' ∧ L (noteT t) (trail stepS noteS k s)
    | .done r => stepS s = .done r ∧ L (noteT t) (noteS s)
    | .crash => True

section
variable {stepT : τ → Outcome ρ τ} {noteT : τ → List α} {stepS : σ → Outcome ρ σ}
  {noteS : σ → List β} {L : List α → List β → Prop} {R : τ → σ → Prop} {n : ℕ} {t t' : τ} {s : σ}

/-- A relation of logs that is kept by appending holds of the logs of whole runs. -/
theorem MatchesLogged.reached (hm : MatchesLogged stepT noteT stepS noteS L R) (hnil : L [] [])
    (happend : ∀ a b a' b', L a b → L a' b' → L (a ++ a') (b ++ b')) (hR : R t s)
    (h : Steps stepT n t t') : ∃ k s', Steps stepS k s s' ∧ R t' s' ∧
      L (trail stepT noteT n t) (trail stepS noteS k s) := by
  induction h generalizing s with
  | refl t => exact ⟨0, s, .refl s, hR, hnil⟩
  | @head n t v t' hst _ ih =>
    have hts := hm t s hR
    rw [hst] at hts
    obtain ⟨k, s1, hk, hR1, hL⟩ := hts
    obtain ⟨k', s', hk', hR', hL'⟩ := ih hR1
    refine ⟨k + k', s', hk.trans hk', hR', ?_⟩
    rw [trail_succ_of_next hst, trail_add hk]
    exact happend _ _ _ _ hL hL'

theorem MatchesLogged.returns (hm : MatchesLogged stepT noteT stepS noteS L R) (hnil : L [] [])
    (happend : ∀ a b a' b', L a b → L a' b' → L (a ++ a') (b ++ b')) (hR : R t s) {r : ρ}
    (h : run stepT n t = some r) : ∃ k, run stepS k s = some r ∧
      L (trail stepT noteT n t) (trail stepS noteS k s) := by
  obtain ⟨m, v, hmn, hsteps, hdone⟩ := run_eq_some_iff.mp h
  obtain ⟨k, s', hk, hR', hL⟩ := hm.reached hnil happend hR hsteps
  have hlast := hm v s' hR'
  rw [hdone] at hlast
  obtain ⟨j, rfl⟩ := Nat.exists_eq_add_of_lt hmn
  have hlength : m + j + 1 = m + (j + 1) := by omega
  refine ⟨k + 1, ?_, ?_⟩
  · rw [run_add_of_steps hk, run, hlast.1]
  · rw [hlength, trail_add hsteps, trail_add hk, trail_succ_of_done hdone,
      trail_succ_of_done hlast.1]
    exact happend _ _ _ _ hL hlast.2

end

end Run
