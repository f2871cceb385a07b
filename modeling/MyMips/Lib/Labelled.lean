import Mathlib.Data.List.Basic

namespace Labelled
variable {ε σ : Type*}

def runs (step : ε → σ → Option σ) : List ε → σ → Option σ
  | [], s => some s
  | e :: es, s => (step e s).bind (runs step es)

variable {step : ε → σ → Option σ} {es : List ε} {s t : σ}

theorem runs_cons_iff {e : ε} :
    runs step (e :: es) s = some t ↔ ∃ u, step e s = some u ∧ runs step es u = some t :=
  Option.bind_eq_some_iff

/-- What holds at the start and is kept by every event holds after every sequence; it may
speak of the events so far. -/
theorem runs_invariant {I : List ε → σ → Prop} (hstart : I [] s)
    (hstep : ∀ es u e v, I es u → step e u = some v → I (es ++ [e]) v)
    (hrun : runs step es s = some t) : I es t := by
  -- From the front: the events already taken are carried along.
  have hall : ∀ (fs : List ε) (past : List ε) (u : σ), I past u → runs step fs u = some t →
      I (past ++ fs) t := by
    intro fs
    induction fs with
    | nil =>
      intro past u hu hfs
      obtain rfl := Option.some.inj hfs
      rwa [List.append_nil]
    | cons e fs ih =>
      intro past u hu hfs
      obtain ⟨v, hv, hrest⟩ := runs_cons_iff.mp hfs
      have hnext := ih (past ++ [e]) v (hstep past u e v hu hv) hrest
      rwa [List.append_assoc] at hnext
  exact hall es [] s hstart hrun

end Labelled
