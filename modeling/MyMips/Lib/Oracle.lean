import MyMips.Lib.Run
import Mathlib.Data.List.Infix

/-! Computations that consult an oracle and keep the history of what they have asked it. The
answers may depend on the history; a computation heeds it if it only adds to it and looks
at the answers only on the way to the history it leaves. -/
namespace Oracle

/-- `Agrees E h h'`: the oracles answer alike on the way to `E`. -/
class Agreement (ω : Type*) (ε : outParam (Type*)) where
  Agrees : List ε → ω → ω → Prop
  mono : ∀ {E E' : List ε} {h h' : ω}, E <:+ E' → Agrees E' h h' → Agrees E h h'

export Agreement (Agrees)

variable {ω ε ρ ρ' σ : Type*} [Agreement ω ε] {hist : ρ → List ε} {hist' : ρ' → List ε}
  {E : List ε} {F : ω → ρ}

/-- From the history `E` the computation leaves an extension of it, and any oracle that
agrees so far makes it do the same. -/
def Heeds (hist : ρ → List ε) (E : List ε) (F : ω → ρ) : Prop :=
  ∀ h, E <:+ hist (F h) ∧ ∀ h', Agrees (hist (F h)) h h' → F h' = F h

theorem heeds_const {r : ρ} (hr : E <:+ hist r) : Heeds hist E fun _ : ω => r :=
  fun _ => ⟨hr, fun _ _ => rfl⟩

/-- A computation that depends on the oracle at one history which it passes. -/
theorem heeds_query {E' : List ε} (hE : E <:+ E') (hF : ∀ h, E' <:+ hist (F h))
    (hsame : ∀ h h', Agrees E' h h' → F h' = F h) : Heeds hist E F :=
  fun h => ⟨hE.trans (hF h), fun h' hh => hsame h h' (Agreement.mono (hF h) hh)⟩

/-- A branch on something all agreeing oracles share. -/
theorem Heeds.ite {c : ω → Bool} (hc : ∀ {E : List ε} {h h'}, Agrees E h h' → c h' = c h)
    {G : ω → ρ} (hF : Heeds hist E F) (hG : Heeds hist E G) :
    Heeds hist E fun h => if c h then F h else G h := by
  intro h
  dsimp only
  cases hch : c h with
  | true =>
    simp only [if_true]
    refine ⟨(hF h).1, fun h' hh => ?_⟩
    rw [hc hh, hch, if_pos rfl]
    exact (hF h).2 h' hh
  | false =>
    simp only [Bool.false_eq_true, if_false]
    refine ⟨(hG h).1, fun h' hh => ?_⟩
    rw [hc hh, hch, if_neg Bool.false_ne_true]
    exact (hG h).2 h' hh

theorem Heeds.map (hF : Heeds hist E F) {g : ρ → ρ'} (hg : ∀ r, hist r <:+ hist' (g r)) :
    Heeds hist' E fun h => g (F h) := by
  intro h
  obtain ⟨hgrows, hsame⟩ := hF h
  refine ⟨hgrows.trans (hg _), fun h' hh => ?_⟩
  exact congrArg g (hsame h' (Agreement.mono (hg _) hh))

theorem Heeds.bind (hF : Heeds hist E F) {G : ρ → ω → ρ'}
    (hG : ∀ r, Heeds hist' (hist r) (G r)) : Heeds hist' E fun h => G (F h) h := by
  intro h
  obtain ⟨hgrows, hsame⟩ := hF h
  obtain ⟨hgrows', hsame'⟩ := hG (F h) h
  refine ⟨hgrows.trans hgrows', fun h' hh => ?_⟩
  have hfirst : F h' = F h := hsame h' (Agreement.mono hgrows' hh)
  calc G (F h') h' = G (F h) h' := congrArg (fun r => G r h') hfirst
    _ = G (F h) h := hsame' h' hh

section run
variable {histOf : σ → List ε} {histRet : ρ → List ε} {step : ω → σ → Outcome ρ σ} {h : ω}
  {s t : σ} {n : ℕ}

structure StepHeeds (histOf : σ → List ε) (histRet : ρ → List ε) (step : ω → σ → Outcome ρ σ) :
    Prop where
  next : ∀ {h s t}, step h s = .next t →
    histOf s <:+ histOf t ∧ ∀ h', Agrees (histOf t) h h' → step h' s = .next t
  done : ∀ {h s r}, step h s = .done r →
    histOf s <:+ histRet r ∧ ∀ h', Agrees (histRet r) h h' → step h' s = .done r

theorem StepHeeds.steps (hstep : StepHeeds histOf histRet step)
    (hrun : Run.Steps (step h) n s t) : histOf s <:+ histOf t ∧
      ∀ h', Agrees (histOf t) h h' → Run.Steps (step h') n s t := by
  induction hrun with
  | refl s => exact ⟨List.suffix_refl _, fun _ _ => .refl s⟩
  | head hs _ ih =>
    obtain ⟨hgrows, hsame⟩ := hstep.next hs
    refine ⟨hgrows.trans ih.1, fun h' hh => ?_⟩
    exact .head (hsame h' (Agreement.mono ih.1 hh)) (ih.2 h' hh)

theorem StepHeeds.run (hstep : StepHeeds histOf histRet step) {r : ρ}
    (hrun : Run.run (step h) n s = some r) : histOf s <:+ histRet r ∧
      ∀ h', Agrees (histRet r) h h' → Run.run (step h') n s = some r := by
  obtain ⟨m, t, hm, hsteps, hdone⟩ := Run.run_eq_some_iff.mp hrun
  obtain ⟨hgrows, hsame⟩ := hstep.steps hsteps
  obtain ⟨hlast, hreturn⟩ := hstep.done hdone
  refine ⟨hgrows.trans hlast, fun h' hh => ?_⟩
  exact Run.run_eq_some_iff.mpr ⟨m, t, hm, hsame h' (Agreement.mono hlast hh), hreturn h' hh⟩

end run

end Oracle
