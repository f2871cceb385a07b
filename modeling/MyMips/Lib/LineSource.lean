import Mathlib.Tactic.Common

/-! Sources that hand out characters one at a time. What is to come from one is a queue
of whole lines and errors; a source serves the queue when its characters are those of the
lines, each followed by a newline, with the errors between them and the end behind them. -/
namespace LineSource
variable {σ ε β γ : Type*}

inductive Pops (pop : σ → Except ε γ × σ) : σ → List γ → σ → Prop
  | nil (s : σ) : Pops pop s [] s
  | cons {s t u : σ} {c : γ} {cs : List γ} :
    pop s = (.ok c, t) → Pops pop t cs u → Pops pop s (c :: cs) u

/-- `R s queue` relates the states at the start of a line to what is still to come. -/
structure Serves (pop : σ → Except ε γ × σ) (encode : β → γ) (eof newline : γ)
    (R : σ → List (Except ε (List β)) → Prop) : Prop where
  line : ∀ s l queue, R s (.ok l :: queue) →
    ∃ t, Pops pop s (l.map encode ++ [newline]) t ∧ R t queue
  error : ∀ s e queue, R s (.error e :: queue) → ∃ t, pop s = (.error e, t) ∧ R t queue
  finish : ∀ s, R s [] → ∃ t, pop s = (.ok eof, t) ∧ R t []

section
variable {pop : σ → Except ε γ × σ} {s t u : σ} {c : γ} {cs ds : List γ}

theorem Pops.append (h : Pops pop s cs t) (h' : Pops pop t ds u) : Pops pop s (cs ++ ds) u := by
  induction h with
  | nil s => exact h'
  | cons hc _ ih => exact .cons hc (ih h')

theorem Pops.snoc (h : Pops pop s cs t) (hc : pop t = (.ok c, u)) : Pops pop s (cs ++ [c]) u :=
  h.append (.cons hc (.nil u))

/-- Only the first answer tells two states apart. -/
theorem Pops.of_eq (h : Pops pop s cs u) (hcs : cs ≠ []) (hpop : pop t = pop s) :
    Pops pop t cs u := by
  cases h with
  | nil => exact absurd rfl hcs
  | cons hc hrest => exact .cons (hpop.trans hc) hrest

theorem Pops.split (h : Pops pop s (cs ++ ds) u) : ∃ t, Pops pop s cs t ∧ Pops pop t ds u := by
  induction cs generalizing s with
  | nil => exact ⟨s, .nil s, h⟩
  | cons c cs ih =>
    cases h with
    | cons hc hcs =>
      obtain ⟨t, hs, ht⟩ := ih hcs
      exact ⟨t, .cons hc hs, ht⟩

end

end LineSource
