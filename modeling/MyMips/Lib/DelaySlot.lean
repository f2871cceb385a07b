import Mathlib.Data.List.Basic
import Mathlib.Tactic.Common

/-! The two-program-counter account of delayed transfers: `pc` is the address of
the instruction about to run, `npc` the address of the one after it. A transfer
replaces the address that follows `npc`, so exactly one instruction separates
it from its target. -/

structure TwoPc (α : Type*) where
  pc : α
  npc : α

namespace TwoPc
variable {α : Type*} (next : α → α)

/-- One instruction; `some target` when it transfers control. -/
def step (p : TwoPc α) (transfer : Option α) : TwoPc α :=
  ⟨p.npc, transfer.getD (next p.npc)⟩

def run (p : TwoPc α) (transfers : List (Option α)) : TwoPc α :=
  transfers.foldl (step next) p

variable (p : TwoPc α) (t : Option α) (ts : List (Option α))

@[simp] theorem run_nil : run next p [] = p := rfl
@[simp] theorem run_cons : run next p (t :: ts) = run next (step next p t) ts := rfl

@[simp] theorem step_pc : (step next p t).pc = p.npc := rfl

end TwoPc
