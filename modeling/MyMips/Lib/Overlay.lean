import Mathlib.Data.List.Perm.Basic
import Mathlib.Data.List.Pairwise
import Mathlib.Tactic.Common

namespace Overlay
variable {α β : Type*} {m : α → β} {f g : α → Option β} {fs gs : List (α → Option β)} {x : α}

def put (m : α → β) (f : α → Option β) : α → β := fun x => (f x).getD (m x)

/-- `m` with the maps of `fs` put over it, the first one first. -/
def paint (m : α → β) (fs : List (α → Option β)) : α → β := fs.foldl put m

/-- The value of the last of the maps that has one. -/
def top (fs : List (α → Option β)) (x : α) : Option β := fs.reverse.findSome? (· x)

def Apart (f g : α → Option β) : Prop := ∀ x, f x = none ∨ g x = none

instance : Std.Symm (@Apart α β) where
  symm _ _ h x := (h x).symm

theorem put_of_none (h : f x = none) : put m f x = m x := by rw [put, h, Option.getD_none]

theorem put_of_some {b : β} (h : f x = some b) : put m f x = b := by
  rw [put, h, Option.getD_some]

theorem put_comm (h : Apart f g) : put (put m f) g = put (put m g) f := by
  funext x
  rcases h x with hf | hg
  · rw [put_of_none hf]
    simp only [put, hf, Option.getD_none]
  · rw [put_of_none hg]
    simp only [put, hg, Option.getD_none]

/-- A point outside all domains keeps its value. -/
theorem paint_of_none (h : ∀ f ∈ fs, f x = none) : paint m fs x = m x := by
  induction fs generalizing m with
  | nil => rfl
  | cons f fs ih =>
    have hrest := ih (m := put m f) fun g hg => h g (List.mem_cons_of_mem f hg)
    exact hrest.trans (put_of_none (h f List.mem_cons_self))

/-- A point in one of several disjoint domains gets the value of that map. -/
theorem paint_of_mem (hfs : fs.Pairwise Apart) (hf : f ∈ fs) {b : β} (hx : f x = some b) :
    paint m fs x = b := by
  induction fs generalizing m with
  | nil => exact absurd hf List.not_mem_nil
  | cons g gs ih =>
    obtain ⟨hg, hgs⟩ := List.pairwise_cons.mp hfs
    rcases List.mem_cons.mp hf with rfl | hmem
    · -- The later maps have nothing here.
      have hlater : ∀ k ∈ gs, k x = none := by
        intro k hk
        exact (hg k hk x).resolve_left (by simp [hx])
      exact (paint_of_none hlater).trans (put_of_some hx)
    · exact ih hgs hmem

theorem paint_perm (h : fs.Perm gs) (hfs : fs.Pairwise Apart) : paint m fs = paint m gs := by
  apply h.foldl_eq'
  intro f hf g hg z
  by_cases hfg : f = g
  · rw [hfg]
  · exact put_comm (hfs.forall hf hg hfg)

end Overlay
