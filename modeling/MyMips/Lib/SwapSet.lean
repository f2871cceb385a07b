import Mathlib.Data.Finset.Card
import Mathlib.Data.List.Perm.Basic

namespace SwapSet
variable {α : Type*} [DecidableEq α] {cap : ℕ} {l : List α} {S : Finset α} {a b : α}

/-- `a` at the end, unless it is there already or there are `cap` elements. -/
def insert (cap : ℕ) (a : α) (l : List α) : List α :=
  if a ∈ l then l else if cap ≤ l.length then l else l ++ [a]

/-- The last element in the place of the first one that is `a`, and one place less. -/
def remove (a : α) (l : List α) : List α :=
  match l.findIdx? (· == a) with
  | some i => (l.set i (l.getLastD a)).dropLast
  | none => l

def insertUpTo (cap : ℕ) (a : α) (S : Finset α) : Finset α :=
  if a ∈ S then S else if cap ≤ S.card then S else Insert.insert a S

omit [DecidableEq α] in
/-- Overwriting position `i` by the last element removes what was there. -/
theorem set_dropLast_perm {i : ℕ} (hi : i < l.length) (d : α) :
    (l.set i (l.getLastD d)).dropLast.Perm (l.eraseIdx i) := by
  rcases List.eq_nil_or_concat' l with rfl | ⟨init, x, rfl⟩
  · simp at hi
  · rw [List.getLastD_concat]
    by_cases hlt : i < init.length
    · rw [List.set_append_left i x hlt, List.dropLast_concat,
        List.eraseIdx_append_of_lt_length hlt]
      apply (List.set_perm_cons_eraseIdx hlt x).trans
      exact (List.perm_append_singleton x _).symm
    · -- The last element is the one that goes.
      have hlast : i = init.length := by
        rw [List.length_append, List.length_singleton] at hi
        omega
      subst hlast
      have herase : (init ++ [x]).eraseIdx init.length = init := by
        rw [List.eraseIdx_append_of_length_le le_rfl, Nat.sub_self]
        simp
      rw [herase]
      simp

theorem remove_perm (a : α) (l : List α) : (remove a l).Perm (l.erase a) := by
  rw [List.erase_eq_eraseIdx, List.idxOf?, remove]
  cases hfind : l.findIdx? (· == a) with
  | none => exact List.Perm.refl l
  | some i =>
    obtain ⟨hi, -⟩ := List.findIdx?_eq_some_iff_getElem.mp hfind
    exact set_dropLast_perm hi a

structure Represents (cap : ℕ) (l : List α) (S : Finset α) : Prop where
  nodup : l.Nodup
  mem : ∀ a, a ∈ l ↔ a ∈ S
  bounded : l.length ≤ cap

namespace Represents

omit [DecidableEq α] in
theorem nil (cap : ℕ) : Represents cap ([] : List α) ∅ :=
  ⟨List.nodup_nil, fun a => by simp, Nat.zero_le cap⟩

theorem length_eq (h : Represents cap l S) : l.length = S.card := by
  have hS : l.toFinset = S := by
    ext a
    rw [List.mem_toFinset, h.mem]
  rw [← hS, List.toFinset_card_of_nodup h.nodup]

theorem insert (h : Represents cap l S) (a : α) :
    Represents cap (SwapSet.insert cap a l) (insertUpTo cap a S) := by
  unfold SwapSet.insert insertUpTo
  rw [← h.length_eq]
  by_cases ha : a ∈ l
  · rwa [if_pos ha, if_pos ((h.mem a).mp ha)]
  · rw [if_neg ha, if_neg fun hS => ha ((h.mem a).mpr hS)]
    split_ifs with hcap
    · exact h
    · refine ⟨?_, ?_, ?_⟩
      · exact List.nodup_append_comm.mp (List.nodup_cons.mpr ⟨ha, h.nodup⟩)
      · intro b
        rw [List.mem_append, List.mem_singleton, Finset.mem_insert, h.mem, or_comm]
      · rw [List.length_append, List.length_singleton]
        omega

theorem remove (h : Represents cap l S) (a : α) :
    Represents cap (SwapSet.remove a l) (S.erase a) := by
  have hperm := remove_perm a l
  refine ⟨hperm.nodup_iff.mpr (h.nodup.erase a), fun b => ?_, ?_⟩
  · rw [hperm.mem_iff, h.nodup.mem_erase_iff, Finset.mem_erase, h.mem]
  · rw [hperm.length_eq]
    exact List.length_erase_le.trans h.bounded

end Represents

end SwapSet
