import MyMips.Lib.Run
import Mathlib.Tactic.SplitIfs

namespace Run
variable {ρ σ : Type*}

/-- The machine that also returns as soon as a step leads into `P`. -/
def stepUntil (P : σ → Prop) [DecidablePred P] (step : σ → Outcome ρ σ) (s : σ) :
    Outcome (ρ ⊕ σ) σ :=
  match step s with
  | .next t => if P t then .done (.inr t) else .next t
  | .done r => .done (.inl r)
  | .crash => .crash

/-- Step number `k`, counted from 1, returns or leads into `P`. -/
inductive StopsAt (P : σ → Prop) (step : σ → Outcome ρ σ) (s : σ) : ℕ → ρ ⊕ σ → Prop
  | returned {k : ℕ} {t : σ} {r : ρ} : Steps step k s t → step t = .done r →
      StopsAt P step s (k + 1) (.inl r)
  | entered {k : ℕ} {t u : σ} : Steps step k s t → step t = .next u → P u →
      StopsAt P step s (k + 1) (.inr u)

structure FirstStop (P : σ → Prop) (step : σ → Outcome ρ σ) (s : σ) (k : ℕ) (r : ρ ⊕ σ) :
    Prop where
  stops : StopsAt P step s k r
  least : ∀ j r', StopsAt P step s j r' → k ≤ j

section
variable {P : σ → Prop} {step : σ → Outcome ρ σ} {s t u : σ} {k m n : ℕ} {r r' : ρ ⊕ σ}

theorem StopsAt.pos (h : StopsAt P step s k r) : 0 < k := by
  cases h with
  | returned _ _ => exact Nat.succ_pos _
  | entered _ _ _ => exact Nat.succ_pos _

/-- No state in `P` is passed over. -/
theorem FirstStop.not_mem (h : FirstStop P step s k r) (hm : 0 < m) (hmk : m < k)
    (ht : Steps step m s t) : ¬ P t := by
  intro hP
  obtain ⟨j, rfl⟩ := Nat.exists_eq_succ_of_ne_zero (Nat.ne_of_gt hm)
  obtain ⟨v, hv, hlast⟩ := ht.split j (Nat.le_succ j)
  have hone : j + 1 - j = 0 + 1 := by omega
  rw [hone] at hlast
  cases hlast with
  | head hstep hrefl =>
    cases hrefl
    have hle := h.least (j + 1) (.inr t) (.entered hv hstep hP)
    omega

variable [DecidablePred P]

theorem stepUntil_eq_next : stepUntil P step s = .next t ↔ step s = .next t ∧ ¬ P t := by
  unfold stepUntil
  cases step s with
  | next v =>
    by_cases hv : P v
    · simp only [if_pos hv, Outcome.next.injEq, reduceCtorEq, false_iff, not_and, not_not]
      rintro rfl
      exact hv
    · simp only [if_neg hv, Outcome.next.injEq]
      constructor
      · rintro rfl
        exact ⟨rfl, hv⟩
      · exact And.left
  | done r => simp
  | crash => simp

theorem stopsAt_of_stepUntil (hrun : Steps step m s t) (hdone : stepUntil P step t = .done r) :
    StopsAt P step s (m + 1) r := by
  unfold stepUntil at hdone
  cases hstep : step t with
  | next u =>
    simp only [hstep] at hdone
    split_ifs at hdone with hP
    obtain rfl := Outcome.done.inj hdone
    exact .entered hrun hstep hP
  | done x =>
    simp only [hstep] at hdone
    obtain rfl := Outcome.done.inj hdone
    exact .returned hrun hstep
  | crash => simp [hstep] at hdone

theorem stepUntil_of_stopsAt (h : StopsAt P step s (m + 1) r) :
    ∃ t, Steps step m s t ∧ stepUntil P step t = .done r := by
  cases h with
  | returned hrun hdone => exact ⟨_, hrun, by simp only [stepUntil, hdone]⟩
  | entered hrun hnext hP => exact ⟨_, hrun, by simp only [stepUntil, hnext, if_pos hP]⟩

/-- The steps of the machine are steps outside of `P`. -/
theorem steps_stepUntil : Steps (stepUntil P step) m s t ↔
    Steps step m s t ∧ ∀ j u, 0 < j → j ≤ m → Steps step j s u → ¬ P u := by
  constructor
  · intro h
    induction h with
    | refl s => exact ⟨.refl s, fun j u hpos hle => by omega⟩
    | @head m s v t hs _ ih =>
      obtain ⟨hnext, hv⟩ := stepUntil_eq_next.mp hs
      obtain ⟨hrest, hout⟩ := ih
      refine ⟨.head hnext hrest, fun j u hpos hle hu => ?_⟩
      -- The first step leaves `P` aside by itself, the later ones by induction.
      cases hu with
      | refl _ => omega
      | @head j _ w _ hw hu =>
        obtain rfl : w = v := Outcome.next.inj (hw.symm.trans hnext)
        cases hu with
        | refl _ => exact hv
        | head hw' hu' => exact hout _ _ (Nat.succ_pos _) (by omega) (.head hw' hu')
  · rintro ⟨hrun, hout⟩
    induction hrun with
    | refl s => exact .refl s
    | @head m s v t hs _ ih =>
      have hv : ¬ P v := hout 1 v Nat.one_pos (by omega) (.head hs (.refl v))
      refine .head (stepUntil_eq_next.mpr ⟨hs, hv⟩) (ih fun j u hpos hle hu => ?_)
      exact hout (j + 1) u (Nat.succ_pos j) (by omega) (.head hs hu)

/-- The machine returns at the first stop and nowhere else. -/
theorem stepUntil_returns_iff :
    (∃ t, Steps (stepUntil P step) m s t ∧ stepUntil P step t = .done r) ↔
      FirstStop P step s (m + 1) r := by
  constructor
  · rintro ⟨t, hrun, hdone⟩
    obtain ⟨hsteps, hout⟩ := steps_stepUntil.mp hrun
    refine ⟨stopsAt_of_stepUntil hsteps hdone, fun j r' hj => ?_⟩
    by_contra hlt
    cases hj with
    | @returned j v x hv hx =>
      -- The run goes on behind `v`, whose step returns.
      have hzero := (hsteps.drop hv (by omega)).eq_zero (by simp [hx])
      omega
    | @entered j v u hv hu hP => exact hout (j + 1) u (Nat.succ_pos j) (by omega) (hv.tail hu) hP
  · intro h
    obtain ⟨t, hrun, hdone⟩ := stepUntil_of_stopsAt h.stops
    refine ⟨t, steps_stepUntil.mpr ⟨hrun, fun j u hpos hle hu => ?_⟩, hdone⟩
    exact h.not_mem hpos (by omega) hu

theorem run_stepUntil_iff : run (stepUntil P step) n s = some r ↔
    ∃ k, k ≤ n ∧ FirstStop P step s k r := by
  rw [run_eq_some_iff]
  constructor
  · rintro ⟨m, t, hm, hrun, hdone⟩
    exact ⟨m + 1, hm, stepUntil_returns_iff.mp ⟨t, hrun, hdone⟩⟩
  · rintro ⟨k, hk, hfirst⟩
    obtain ⟨m, rfl⟩ := Nat.exists_eq_succ_of_ne_zero (Nat.ne_of_gt hfirst.stops.pos)
    obtain ⟨t, hrun, hdone⟩ := stepUntil_returns_iff.mpr hfirst
    exact ⟨m, t, hk, hrun, hdone⟩

theorem FirstStop.unique (h : FirstStop P step s k r) (h' : FirstStop P step s m r') :
    k = m ∧ r = r' := by
  have hkm : k = m := Nat.le_antisymm (h.least m r' h'.stops) (h'.least k r h.stops)
  have hr := run_stepUntil_iff.mpr ⟨k, Nat.le_refl k, h⟩
  have hr' := run_stepUntil_iff.mpr ⟨m, Nat.le_refl m, h'⟩
  rw [← hkm, hr] at hr'
  exact ⟨hkm, Option.some.inj hr'⟩

end

/-- Two machines that take corresponding steps from related states keep step. -/
theorem Steps.lockstep {ρ' τ : Type*} {step : σ → Outcome ρ σ} {step' : τ → Outcome ρ' τ}
    {R : σ → τ → Prop}
    (hnext : ∀ s t s', R s t → step s = .next s' → ∃ t', step' t = .next t' ∧ R s' t')
    {n : ℕ} {s s' : σ} {t : τ} (hrun : Steps step n s s') (hR : R s t) :
    ∃ t', Steps step' n t t' ∧ R s' t' := by
  induction hrun generalizing t with
  | refl s => exact ⟨t, .refl t, hR⟩
  | @head n s v s' hs _ ih =>
    obtain ⟨t1, ht, hR1⟩ := hnext s t v hR hs
    obtain ⟨t', hrest, hR'⟩ := ih hR1
    exact ⟨t', .head ht hrest, hR'⟩

end Run
