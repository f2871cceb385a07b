import Mathlib

/-! A buffer that is filled from the front and never freed. New contents go behind an
offset that only grows; what was stored before it is neither moved nor overwritten. -/
namespace Arena
variable {β : Type*}

structure Segment (β : Type*) where
  start : ℕ
  content : List β

namespace Segment

def cells (a : Segment β) : Set ℕ := Set.Ico a.start (a.start + a.content.length)

def HeldBy (a : Segment β) (buf : ℕ → β) : Prop :=
  ∀ k (hk : k < a.content.length), buf (a.start + k) = a.content[k]

/-- A segment is held by its own cells only. -/
theorem HeldBy.frame {a : Segment β} {buf buf' : ℕ → β} (h : a.HeldBy buf)
    (hsame : ∀ x ∈ a.cells, buf' x = buf x) : a.HeldBy buf' := by
  intro k hk
  rw [hsame (a.start + k) ⟨by omega, by omega⟩]
  exact h k hk

theorem disjoint_of_le {a b : Segment β} (h : a.start + a.content.length ≤ b.start) :
    Disjoint b.cells a.cells := by
  apply Set.disjoint_left.mpr
  intro x hx hx'
  exact absurd (hx'.2.trans_le h) (not_lt.mpr hx.1)

end Segment

/-- The segments stored so far: below the offset, apart from each other, as written. -/
structure Stores (buf : ℕ → β) (off : ℕ) (segments : List (Segment β)) : Prop where
  below : ∀ a ∈ segments, a.start + a.content.length ≤ off
  disjoint : segments.Pairwise fun a b => Disjoint a.cells b.cells
  held : ∀ a ∈ segments, a.HeldBy buf

section
variable {buf buf' : ℕ → β} {off : ℕ} {segments : List (Segment β)}

theorem stores_nil (buf : ℕ → β) (off : ℕ) : Stores buf off [] :=
  ⟨by simp, .nil, by simp⟩

/-- Writes behind the offset damage nothing. -/
theorem Stores.scribble (h : Stores buf off segments) (hsame : ∀ x < off, buf' x = buf x) :
    Stores buf' off segments := by
  refine { h with held := fun a ha => ?_ }
  apply (h.held a ha).frame
  intro x hx
  exact hsame x (hx.2.trans_le (h.below a ha))

/-- A segment written at the offset joins the others when the offset moves behind it. -/
theorem Stores.push (h : Stores buf off segments) (hsame : ∀ x < off, buf' x = buf x)
    {content : List β} (hnew : Segment.HeldBy ⟨off, content⟩ buf') :
    Stores buf' (off + content.length) (⟨off, content⟩ :: segments) := by
  have hkept := h.scribble hsame
  constructor
  · rw [List.forall_mem_cons]
    exact ⟨le_rfl, fun a ha => (h.below a ha).trans (Nat.le_add_right _ _)⟩
  · apply List.Pairwise.cons
    · intro a ha
      exact Segment.disjoint_of_le (h.below a ha)
    · exact h.disjoint
  · rw [List.forall_mem_cons]
    exact ⟨hnew, hkept.held⟩

end

end Arena
