import Mathlib.Logic.Function.Iterate
import Mathlib.Tactic.Common

/-! Deterministic machines that may return: runs, reachable states, invariants,
and the refinement of one machine by another that takes several steps at once. -/

inductive Outcome (ρ σ : Type*)
  | next (s : σ)
  | done (r : ρ)
  | crash

namespace Run
variable {ρ σ τ : Type*}

def run (step : σ → Outcome ρ σ) : ℕ → σ → Option ρ
  | 0, _ => none
  | n + 1, s =>
    match step s with
    | .next t => run step n t
    | .done r => some r
    | .crash => none

def Returns (step : σ → Outcome ρ σ) (s : σ) (r : ρ) : Prop := ∃ n, run step n s = some r

def after (step : σ → Outcome ρ σ) : ℕ → σ → Option σ
  | 0, s => some s
  | n + 1, s =>
    match step s with
    | .next t => after step n t
    | _ => none

/-- `n` consecutive steps, none of which returns. -/
inductive Steps (step : σ → Outcome ρ σ) : ℕ → σ → σ → Prop
  | refl (s : σ) : Steps step 0 s s
  | head {n : ℕ} {s t u : σ} : step s = .next t → Steps step n t u → Steps step (n + 1) s u

variable {step : σ → Outcome ρ σ} {n k : ℕ} {s t u : σ}

theorem Steps.trans (h : Steps step n s t) (h' : Steps step k t u) :
    Steps step (n + k) s u := by
  induction h with
  | refl s => simpa using h'
  | @head n s t' u' hs _ ih =>
    have hk : n + 1 + k = n + k + 1 := by omega
    rw [hk]
    exact .head hs (ih h')

theorem Steps.tail (h : Steps step n s t) (hs : step t = .next u) :
    Steps step (n + 1) s u :=
  h.trans (.head hs (.refl u))

theorem steps_of_after (h : after step n s = some t) : Steps step n s t := by
  induction n generalizing s with
  | zero =>
    obtain rfl : s = t := by simpa [after] using h
    exact .refl s
  | succ n ih =>
    rw [after] at h
    cases hs : step s with
    | next v =>
      rw [hs] at h
      exact .head hs (ih h)
    | done r => simp [hs] at h
    | crash => simp [hs] at h

/-- A property kept by every step holds in every reachable state. -/
theorem Steps.invariant {I : σ → Prop} (hstep : ∀ s t, I s → step s = .next t → I t)
    (h : Steps step n s t) (hs : I s) : I t := by
  induction h with
  | refl _ => exact hs
  | head h1 _ ih => exact ih (hstep _ _ hs h1)

/-- Every state but the last is left by a step that does not return. -/
theorem Steps.split (h : Steps step n s t) (m : ℕ) (hm : m ≤ n) :
    ∃ u, Steps step m s u ∧ Steps step (n - m) u t := by
  induction h generalizing m with
  | refl s =>
    obtain rfl : m = 0 := by omega
    exact ⟨s, .refl s, .refl s⟩
  | @head n s v t hs ht ih =>
    cases m with
    | zero => exact ⟨s, .refl s, .head hs ht⟩
    | succ m =>
      obtain ⟨u, hu, hu'⟩ := ih m (by omega)
      have hsub : n + 1 - (m + 1) = n - m := by omega
      exact ⟨u, .head hs hu, hsub ▸ hu'⟩

theorem run_add_of_steps (h : Steps step k s t) (n : ℕ) :
    run step (k + n) s = run step n t := by
  induction h with
  | refl s => simp
  | @head k s t u hs _ ih =>
    have hk : k + 1 + n = k + n + 1 := by omega
    rw [hk, run, hs]
    exact ih

theorem run_mono {r : ρ} (h : run step n s = some r) (hk : n ≤ k) : run step k s = some r := by
  induction n generalizing k s with
  | zero => simp [run] at h
  | succ n ih =>
    cases k with
    | zero => omega
    | succ k =>
      rw [run] at h ⊢
      cases hs : step s with
      | next t =>
        rw [hs] at h
        exact ih h (by omega)
      | done r' =>
        rw [hs] at h
        exact h
      | crash => simp [hs] at h

/-- However long it is run, the machine returns one result. -/
theorem run_unique {r r' : ρ} (h : run step n s = some r) (h' : run step k s = some r') :
    r = r' := by
  have hmax := run_mono h (Nat.le_max_left n k)
  rw [run_mono h' (Nat.le_max_right n k), Option.some.injEq] at hmax
  exact hmax.symm

/-- The rule for a loop: what each turn keeps, and what holds of the result when a turn
ends it, holds of every result. -/
theorem run_rule {I : σ → Prop} {Q : ρ → Prop} {r : ρ}
    (hnext : ∀ s t, I s → step s = .next t → I t) (hdone : ∀ s r, I s → step s = .done r → Q r)
    (h : run step n s = some r) (hs : I s) : Q r := by
  induction n generalizing s with
  | zero => simp [run] at h
  | succ n ih =>
    rw [run] at h
    cases hstep : step s with
    | next t =>
      rw [hstep] at h
      exact ih h (hnext s t hs hstep)
    | done r' =>
      rw [hstep] at h
      obtain rfl := Option.some.inj h
      exact hdone s r' hs hstep
    | crash => simp [hstep] at h

/-- The rule for a loop that does not end: a property of states from which every turn goes
on, and which every turn keeps. -/
theorem run_eq_none {I : σ → Prop} (hnext : ∀ s, I s → ∃ t, step s = .next t ∧ I t) (hs : I s)
    (n : ℕ) : run step n s = none := by
  induction n generalizing s with
  | zero => rfl
  | succ n ih =>
    obtain ⟨t, hstep, ht⟩ := hnext s hs
    rw [run, hstep]
    exact ih ht

theorem run_le_of_steps (h : Steps step k s t) (hn : n ≤ k) : run step n s = none := by
  induction h generalizing n with
  | refl s =>
    obtain rfl : n = 0 := by omega
    rfl
  | @head k s t u hs _ ih =>
    cases n with
    | zero => rfl
    | succ n =>
      rw [run, hs]
      exact ih (by omega)

/-- A run returns what the last of its steps returns. -/
theorem run_eq_some_iff {r : ρ} :
    run step n s = some r ↔ ∃ m t, m < n ∧ Steps step m s t ∧ step t = .done r := by
  constructor
  · intro h
    induction n generalizing s with
    | zero => simp [run] at h
    | succ n ih =>
      rw [run] at h
      cases hs : step s with
      | next u =>
        rw [hs] at h
        obtain ⟨m, t, hm, ht, hr⟩ := ih h
        exact ⟨m + 1, t, by omega, .head hs ht, hr⟩
      | done r' =>
        rw [hs] at h
        obtain rfl := Option.some.inj h
        exact ⟨0, s, by omega, .refl s, hs⟩
      | crash => simp [hs] at h
  · rintro ⟨m, t, hm, ht, hr⟩
    obtain ⟨k, rfl⟩ := Nat.exists_eq_add_of_lt hm
    have hlen : m + k + 1 = m + (k + 1) := by omega
    rw [hlen, run_add_of_steps ht, run, hr]

/-- A run that returns outlasts every block of steps that do not. -/
theorem run_after_steps {r : ρ} (h : Steps step k s t) (hr : run step n s = some r) :
    ∃ m, n = k + (m + 1) ∧ run step (m + 1) t = some r := by
  have hlt : k < n := by
    by_contra hle
    rw [run_le_of_steps h (by omega)] at hr
    exact absurd hr (by simp)
  obtain ⟨m, rfl⟩ := Nat.exists_eq_add_of_lt hlt
  have hkm : k + m + 1 = k + (m + 1) := by omega
  rw [hkm, run_add_of_steps h] at hr
  exact ⟨m, hkm, hr⟩

/-- A deterministic machine has one path: the shorter run is a prefix of the longer. -/
theorem Steps.drop (h : Steps step n s t) (hu : Steps step k s u) (hk : k ≤ n) :
    Steps step (n - k) u t := by
  induction hu generalizing n with
  | refl s => exact h
  | @head k s v u hs _ ih =>
    cases h with
    | refl _ => omega
    | @head n _ v' _ hs' ht =>
      obtain rfl : v' = v := by simpa using hs'.symm.trans hs
      have hsub : n + 1 - (k + 1) = n - k := by omega
      exact hsub ▸ ih ht (by omega)

theorem Steps.unique (h : Steps step n s t) (hu : Steps step n s u) : t = u := by
  have hrest := h.drop hu (Nat.le_refl n)
  rw [Nat.sub_self] at hrest
  cases hrest
  rfl

/-- A state that is not left by a step is where every run ends. -/
theorem Steps.eq_zero (h : Steps step n s t) (hs : ∀ u, step s ≠ .next u) : n = 0 ∧ t = s := by
  cases h with
  | refl _ => exact ⟨rfl, rfl⟩
  | head h1 _ => exact absurd h1 (hs _)

/-- `P` holds in every state the machine leaves during its first `n` steps. -/
def Along (step : σ → Outcome ρ σ) (P : σ → Prop) (n : ℕ) (s : σ) : Prop :=
  ∀ m, m < n → ∀ u, Steps step m s u → P u

/-- `P` holds in every state the machine reaches. -/
def Always (step : σ → Outcome ρ σ) (P : σ → Prop) (s : σ) : Prop :=
  ∀ n u, Steps step n s u → P u

section
variable {P I : σ → Prop}

theorem Always.now (h : Always step P s) : P s := h 0 s (.refl s)

theorem Always.next (h : Always step P s) (hs : step s = .next t) : Always step P t :=
  fun n u hu => h (n + 1) u (.head hs hu)

theorem always_of_done {r : ρ} (hs : step s = .done r) (h : P s) : Always step P s := by
  intro n u hu
  obtain ⟨_, rfl⟩ := hu.eq_zero (by simp [hs])
  exact h

theorem always_of_next (hs : step s = .next t) (h : P s) (ht : Always step P t) :
    Always step P s := by
  intro n u hu
  cases hu with
  | refl _ => exact h
  | @head n _ v _ hv hu =>
    obtain rfl : v = t := by simpa using hv.symm.trans hs
    exact ht n u hu

def check (step : σ → Outcome ρ σ) (p : σ → Bool) : ℕ → σ → Bool
  | 0, _ => false
  | n + 1, s => p s &&
    match step s with
    | .next t => check step p n t
    | _ => true

theorem always_of_check {p : σ → Bool} (h : check step p n s = true) :
    Always step (fun s => p s = true) s := by
  induction n generalizing s with
  | zero => exact absurd h Bool.noConfusion
  | succ n ih =>
    rw [check, Bool.and_eq_true] at h
    obtain ⟨hp, hrest⟩ := h
    cases hs : step s with
    | next t =>
      rw [hs] at hrest
      exact always_of_next hs hp (ih hrest)
    | done r => exact always_of_done hs hp
    | crash =>
      intro m u hu
      obtain ⟨_, rfl⟩ := hu.eq_zero (by simp [hs])
      exact hp

theorem along_zero : Along step P 0 s := fun _ hm => absurd hm (by omega)

theorem along_succ (hs : step s = .next t) (h : P s) (ht : Along step P n t) :
    Along step P (n + 1) s := by
  intro m hm u hu
  cases hu with
  | refl _ => exact h
  | @head m _ v _ hv hu =>
    obtain rfl : v = t := by simpa using hv.symm.trans hs
    exact ht m (by omega) u hu

/-- An invariant that the steps from states in `P` keep holds at the end of every run
that leaves only such states. -/
theorem Steps.invariant_along (hstep : ∀ s t, I s → P s → step s = .next t → I t)
    (h : Steps step n s t) (hP : Along step P n s) (hs : I s) : I t := by
  induction h with
  | refl _ => exact hs
  | head h1 _ ih =>
    apply ih
    · exact fun m hm u hu => hP (m + 1) (by omega) u (.head h1 hu)
    · exact hstep _ _ hs (hP 0 (by omega) _ (.refl _)) h1

end

/-- One step of `stepT` is matched by one or more steps of `stepS`, and both end
together. -/
def Matches (stepT : τ → Outcome ρ τ) (stepS : σ → Outcome ρ σ) (R : τ → σ → Prop) : Prop :=
  ∀ t s, R t s →
    match stepT t with
    | .next t' => ∃ k s', 0 < k ∧ Steps stepS k s s' ∧ R t' s'
    | .done r => stepS s = .done r
    | .crash => stepS s = .crash

section
variable {stepT : τ → Outcome ρ τ} {stepS : σ → Outcome ρ σ} {R : τ → σ → Prop}

theorem Matches.returns_of_run (hm : Matches stepT stepS R) {n : ℕ} {t : τ} {s : σ}
    (hR : R t s) {r : ρ} (hn : run stepT n t = some r) : Returns stepS s r := by
  induction n generalizing t s with
  | zero => simp [run] at hn
  | succ n ih =>
    have hts := hm t s hR
    rw [run] at hn
    cases hst : stepT t with
    | next t' =>
      rw [hst] at hn hts
      obtain ⟨k, s', _, hk, hR'⟩ := hts
      obtain ⟨m, hm'⟩ := ih hR' hn
      exact ⟨k + m, by rw [run_add_of_steps hk, hm']⟩
    | done r' =>
      rw [hst] at hn hts
      refine ⟨1, ?_⟩
      rw [run, hts]
      exact hn
    | crash => simp [hst] at hn

theorem Matches.returns_of_run_matched (hm : Matches stepT stepS R) {n : ℕ} {t : τ} {s : σ}
    (hR : R t s) {r : ρ} (hn : run stepS n s = some r) : Returns stepT t r := by
  -- Strong induction: one matched step uses up at least one step of the run.
  induction n using Nat.strongRecOn generalizing t s with
  | ind n ih =>
    have hts := hm t s hR
    cases hst : stepT t with
    | next t' =>
      rw [hst] at hts
      obtain ⟨k, s', hpos, hk, hR'⟩ := hts
      obtain ⟨m, hnm, hm'⟩ := run_after_steps hk hn
      obtain ⟨m', hm''⟩ := ih (m + 1) (by omega) hR' hm'
      exact ⟨m' + 1, by rw [run, hst]; exact hm''⟩
    | done r' =>
      rw [hst] at hts
      obtain ⟨m, _, hm'⟩ := run_after_steps (.refl s) hn
      rw [run, hts] at hm'
      exact ⟨1, by rw [run, hst]; exact hm'⟩
    | crash =>
      rw [hst] at hts
      obtain ⟨m, _, hm'⟩ := run_after_steps (.refl s) hn
      simp [run, hts] at hm'

/-- A machine whose every step is matched returns exactly when the matching
machine does, with the same result. -/
theorem Matches.returns_iff (hm : Matches stepT stepS R) {t : τ} {s : σ} (hR : R t s)
    (r : ρ) : Returns stepT t r ↔ Returns stepS s r :=
  ⟨fun ⟨_, hn⟩ => hm.returns_of_run hR hn, fun ⟨_, hn⟩ => hm.returns_of_run_matched hR hn⟩

/-- Every state the machine reaches is related to one the matching machine reaches. -/
theorem Matches.reached (hm : Matches stepT stepS R) {n : ℕ} {t t' : τ} {s : σ} (hR : R t s)
    (h : Steps stepT n t t') : ∃ k s', Steps stepS k s s' ∧ R t' s' := by
  induction h generalizing s with
  | refl t => exact ⟨0, s, .refl s, hR⟩
  | @head n t v t' hst _ ih =>
    have hts := hm t s hR
    rw [hst] at hts
    obtain ⟨k, s1, _, hk, hR1⟩ := hts
    obtain ⟨k', s', hk', hR'⟩ := ih hR1
    exact ⟨k + k', s', hk.trans hk', hR'⟩

/-- The matched machine keeps up: wherever the matching machine gets, it gets too,
a bounded number of steps further on. -/
theorem Matches.catches_up (hm : Matches stepT stepS R) {t : τ} {s s' : σ} (hR : R t s)
    {k : ℕ} (h : Steps stepS k s s') :
    ∃ n t' j s'', Steps stepT n t t' ∧ Steps stepS j s' s'' ∧ R t' s'' := by
  induction k using Nat.strongRecOn generalizing t s with
  | ind k ih =>
    have hts := hm t s hR
    cases hst : stepT t with
    | next t1 =>
      rw [hst] at hts
      obtain ⟨k1, s1, hpos, hk1, hR1⟩ := hts
      rcases Nat.le_total k1 k with hle | hle
      · obtain ⟨n, t', j, s'', hn, hj, hR'⟩ := ih (k - k1) (by omega) hR1 (h.drop hk1 hle)
        · exact ⟨n + 1, t', j, s'', .head hst hn, hj, hR'⟩
      · exact ⟨1, t1, k1 - k, s1, .head hst (.refl t1), hk1.drop h hle, hR1⟩
    | done r | crash =>
      rw [hst] at hts
      obtain ⟨_, rfl⟩ := h.eq_zero (by simp [hts])
      exact ⟨0, t, 0, s', .refl t, .refl s', hR⟩

end

end Run
