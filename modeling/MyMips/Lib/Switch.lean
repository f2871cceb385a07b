import Mathlib.Data.List.Nodup
import Mathlib.Data.Fintype.Basic

class SwitchLabels (α : Type) (w : outParam ℕ) where
  code : α → BitVec w
  all : List α
  mem_all : ∀ a, a ∈ all
  codes_nodup : (all.map code).Nodup

namespace Switch
variable {α : Type} {w : ℕ} [SwitchLabels α w]

/-- The label selected by the field value `f`; `none` is the `default` case. -/
def select (α : Type) {w : ℕ} [SwitchLabels α w] (f : BitVec w) : Option α :=
  (SwitchLabels.all (α := α)).find? (fun a => decide (SwitchLabels.code a = f))

theorem code_injective : Function.Injective (SwitchLabels.code : α → BitVec w) := by
  intro a b hab
  exact List.inj_on_of_nodup_map SwitchLabels.codes_nodup (SwitchLabels.mem_all a)
    (SwitchLabels.mem_all b) hab

theorem code_of_select {f : BitVec w} {a : α} (h : select α f = some a) :
    SwitchLabels.code a = f := by
  simpa using List.find?_some h

theorem select_eq_some_iff {f : BitVec w} {a : α} :
    select α f = some a ↔ SwitchLabels.code a = f := by
  refine ⟨code_of_select, ?_⟩
  rintro rfl
  cases hs : select α (SwitchLabels.code a) with
  | none =>
    have hn := List.find?_eq_none.mp hs a (SwitchLabels.mem_all a)
    exact False.elim (hn (by simp))
  | some b => rw [code_injective (code_of_select hs)]

@[simp] theorem select_code (a : α) : select α (SwitchLabels.code a) = some a :=
  select_eq_some_iff.mpr rfl

end Switch
