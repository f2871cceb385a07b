import MyMips.Dbg
import MyMips.Lib.SwapSet

namespace MyMips

structure BpTable where
  slots : ℕ → Word
  count : BitVec 64

namespace BpTable

def empty : BpTable where
  slots := fun _ => 0
  count := 0

def entries (t : BpTable) : List Word := (List.range t.count.toNat).map t.slots

/-- The index at which a loop over the entries that looks for `addr` ends early. -/
def find (addr : Word) (t : BpTable) : Option ℕ := t.entries.findIdx? (· == addr)

def bpContains (addr : Word) (t : BpTable) : Bool := (t.find addr).isSome

/-- `breakpoints[i]`; `none` is an access behind the array. -/
def load (i : ℕ) (t : BpTable) : Option Word :=
  if i < MAX_BREAKPOINTS then some (t.slots i) else none

def store (i : ℕ) (v : Word) (t : BpTable) : Option BpTable :=
  if i < MAX_BREAKPOINTS then some { t with slots := Function.update t.slots i v } else none

def bpAdd (addr : Word) (t : BpTable) : Option BpTable :=
  if t.bpContains addr then some t
  else if MAX_BREAKPOINTS ≤ t.count.toNat then some t
  else store t.count.toNat addr { t with count := t.count + 1 }

/-- `--nbreakpoints` is modulo 2^64. -/
def bpDelete (addr : Word) (t : BpTable) : Option BpTable :=
  match t.find addr with
  | none => some t
  | some i =>
    let t := { t with count := t.count - 1 }
    (t.load t.count.toNat).bind fun last => t.store i last

end BpTable

inductive BpCall
  | add (addr : Word)
  | delete (addr : Word)

def BpCall.run : BpCall → BpTable → Option BpTable
  | .add addr, t => t.bpAdd addr
  | .delete addr, t => t.bpDelete addr

def BpCall.replay : BpCall → Finset Word → Finset Word
  | .add addr, S => SwapSet.insertUpTo MAX_BREAKPOINTS addr S
  | .delete addr, S => S.erase addr

/-- One call after the other from the empty table; `none` once an access has left the array. -/
def runCalls (calls : List BpCall) : Option BpTable :=
  calls.foldl (fun t c => t.bind c.run) (some .empty)

def replayCalls (calls : List BpCall) : Finset Word :=
  calls.foldl (fun S c => c.replay S) ∅

section table
variable {t : BpTable} {addr : Word}

theorem BpTable.length_entries (t : BpTable) : t.entries.length = t.count.toNat := by
  rw [BpTable.entries, List.length_map, List.length_range]

theorem BpTable.bpContains_iff : t.bpContains addr = true ↔ addr ∈ t.entries := by
  simp [BpTable.bpContains, BpTable.find]

/-- A call keeps to the array and does to the entries what the bounded set does. -/
theorem BpTable.bpAdd_entries (addr : Word) (t : BpTable) :
    ∃ t', t.bpAdd addr = some t' ∧
      t'.entries = SwapSet.insert MAX_BREAKPOINTS addr t.entries := by
  unfold BpTable.bpAdd SwapSet.insert
  rw [BpTable.length_entries]
  by_cases hc : addr ∈ t.entries
  · rw [if_pos (BpTable.bpContains_iff.mpr hc), if_pos hc]
    exact ⟨t, rfl, rfl⟩
  · rw [if_neg fun h => hc (BpTable.bpContains_iff.mp h), if_neg hc]
    split_ifs with hfull
    · exact ⟨t, rfl, rfl⟩
    · -- The count is below 128: it does not wrap, and the new slot is behind the entries.
      have hcount : (t.count + 1).toNat = t.count.toNat + 1 := by
        have hmax : MAX_BREAKPOINTS = 128 := rfl
        rw [BitVec.toNat_add]
        exact Nat.mod_eq_of_lt (by simp; omega)
      have hold : (List.range t.count.toNat).map (Function.update t.slots t.count.toNat addr) =
          t.entries := by
        apply List.map_congr_left
        intro i hi
        exact Function.update_of_ne (Nat.ne_of_lt (List.mem_range.mp hi)) _ _
      refine ⟨_, if_pos (not_le.mp hfull), ?_⟩
      rw [BpTable.entries]
      simp only [hcount, List.range_succ, List.map_append, hold, List.map_singleton,
        Function.update_self]

theorem BpTable.bpDelete_entries (hb : t.count.toNat ≤ MAX_BREAKPOINTS) (addr : Word) :
    ∃ t', t.bpDelete addr = some t' ∧ t'.entries = SwapSet.remove addr t.entries := by
  unfold BpTable.bpDelete SwapSet.remove BpTable.find
  cases hfind : t.entries.findIdx? (· == addr) with
  | none => exact ⟨t, rfl, rfl⟩
  | some i =>
    obtain ⟨hi, -⟩ := List.findIdx?_eq_some_iff_getElem.mp hfind
    rw [BpTable.length_entries] at hi
    -- An entry has been found, so the count is not zero.
    obtain ⟨m, hm⟩ : ∃ m, t.count.toNat = m + 1 := ⟨t.count.toNat - 1, by omega⟩
    have hcount : (t.count - 1).toNat = m := by
      bv_omega
    have hmax : m < MAX_BREAKPOINTS := by omega
    have hlast : t.entries.getLastD addr = t.slots m := by
      rw [BpTable.entries, hm, List.range_succ, List.map_append, List.map_singleton,
        List.getLastD_concat]
    have hset : t.entries.set i (t.slots m) =
        (List.range (m + 1)).map (Function.update t.slots i (t.slots m)) := by
      apply List.ext_getElem
      · simp [BpTable.entries, hm]
      · intro k hk hk'
        by_cases hki : k = i
        · simp [hki]
        · have hik : ¬ i = k := fun h => hki h.symm
          simp [BpTable.entries, hik, hki]
    refine ⟨{ slots := Function.update t.slots i (t.slots m), count := t.count - 1 }, ?_, ?_⟩
    · have hload : BpTable.load m { t with count := t.count - 1 } = some (t.slots m) :=
        if_pos hmax
      simp only [hcount, hload, Option.bind_some]
      exact if_pos (by omega)
    · simp only [hlast, hset, List.range_succ, List.map_append, List.map_singleton,
        List.dropLast_concat]
      rw [BpTable.entries, hcount]

end table

theorem runCalls_append (calls : List BpCall) (c : BpCall) :
    runCalls (calls ++ [c]) = (runCalls calls).bind c.run := by
  rw [runCalls, List.foldl_append]
  rfl

theorem replayCalls_append (calls : List BpCall) (c : BpCall) :
    replayCalls (calls ++ [c]) = c.replay (replayCalls calls) := by
  rw [replayCalls, List.foldl_append]
  rfl

/-- After every sequence of calls the entries are the set of the replayed calls. -/
theorem runCalls_represents (calls : List BpCall) : ∃ t, runCalls calls = some t ∧
    SwapSet.Represents MAX_BREAKPOINTS t.entries (replayCalls calls) := by
  induction calls using List.reverseRecOn with
  | nil => exact ⟨.empty, rfl, .nil MAX_BREAKPOINTS⟩
  | append_singleton calls c ih =>
    obtain ⟨t, hrun, hrep⟩ := ih
    rw [runCalls_append, hrun, Option.bind_some, replayCalls_append]
    cases c with
    | add addr =>
      obtain ⟨t', hadd, hentries⟩ := t.bpAdd_entries addr
      exact ⟨t', hadd, hentries ▸ hrep.insert addr⟩
    | delete addr =>
      have hb : t.count.toNat ≤ MAX_BREAKPOINTS := t.length_entries ▸ hrep.bounded
      obtain ⟨t', hdelete, hentries⟩ := BpTable.bpDelete_entries hb addr
      exact ⟨t', hdelete, hentries ▸ hrep.remove addr⟩

/-- The table is a set of at most 128 addresses: after every sequence of calls the entries
are distinct, the count is the size of the set, the lookup is membership in it, and one
deletion takes out one address. -/
theorem bpTable_bounded_set (calls : List BpCall) : ∃ t, runCalls calls = some t ∧
    t.entries.Nodup ∧ t.count.toNat ≤ 128 ∧ t.count.toNat = (replayCalls calls).card ∧
    (∀ addr, t.bpContains addr = true ↔ addr ∈ replayCalls calls) ∧
    ∀ addr, ∃ t', t.bpDelete addr = some t' ∧ t'.entries.Perm (t.entries.erase addr) := by
  obtain ⟨t, hrun, hrep⟩ := runCalls_represents calls
  have hb : t.count.toNat ≤ MAX_BREAKPOINTS := t.length_entries ▸ hrep.bounded
  refine ⟨t, hrun, hrep.nodup, hb, ?_, ?_, ?_⟩
  · rw [← t.length_entries]
    exact hrep.length_eq
  · intro addr
    rw [BpTable.bpContains_iff, hrep.mem]
  · intro addr
    obtain ⟨t', hdelete, hentries⟩ := BpTable.bpDelete_entries hb addr
    exact ⟨t', hdelete, hentries ▸ SwapSet.remove_perm addr t.entries⟩

section debugger
variable (addr : Word) (d : Dbg)

theorem bpContains_iff : bpContains addr d = true ↔ addr ∈ d.breakpoints := by
  simp [bpContains]

theorem bpAdd_breakpoints :
    (bpAdd addr d).breakpoints = SwapSet.insert MAX_BREAKPOINTS addr d.breakpoints := by
  unfold bpAdd SwapSet.insert
  by_cases hc : addr ∈ d.breakpoints
  · rw [if_pos ((bpContains_iff addr d).mpr hc), if_pos hc]
  · rw [if_neg fun h => hc ((bpContains_iff addr d).mp h), if_neg hc]
    split_ifs <;> rfl

theorem bpDelete_breakpoints :
    (bpDelete addr d).breakpoints = SwapSet.remove addr d.breakpoints := by
  unfold bpDelete SwapSet.remove
  cases hfind : d.breakpoints.findIdx? (· == addr) with
  | none => rfl
  | some i =>
    have hlast : d.breakpoints.getLastD 0 = d.breakpoints.getLastD addr := by
      obtain ⟨hi, -⟩ := List.findIdx?_eq_some_iff_getElem.mp hfind
      rcases List.eq_nil_or_concat' d.breakpoints with hnil | ⟨init, x, hinit⟩
      · simp [hnil] at hi
      · rw [hinit, List.getLastD_concat, List.getLastD_concat]
    simp only [Dbg.print_breakpoints, hlast]

def BpCall.command : BpCall → Dbg → Dbg
  | .add addr, d => bpAdd addr d
  | .delete addr, d => bpDelete addr d

/-- The commands of a debugger that starts without breakpoints leave it with the entries
of the table. -/
theorem breakpoints_eq_entries (calls : List BpCall) (hd : d.breakpoints = []) :
    (calls.foldl (fun d c => c.command d) d).breakpoints =
      ((runCalls calls).getD .empty).entries := by
  induction calls using List.reverseRecOn with
  | nil => exact hd
  | append_singleton calls c ih =>
    obtain ⟨t, hrun, hrep⟩ := runCalls_represents calls
    rw [hrun, Option.getD_some] at ih
    rw [List.foldl_append, runCalls_append, hrun, Option.bind_some]
    cases c with
    | add addr =>
      obtain ⟨t', hadd, hentries⟩ := t.bpAdd_entries addr
      have hcall : (BpCall.add addr).run t = some t' := hadd
      rw [hcall, Option.getD_some, hentries, ← ih]
      exact bpAdd_breakpoints addr _
    | delete addr =>
      have hb : t.count.toNat ≤ MAX_BREAKPOINTS := t.length_entries ▸ hrep.bounded
      obtain ⟨t', hdelete, hentries⟩ := BpTable.bpDelete_entries hb addr
      have hcall : (BpCall.delete addr).run t = some t' := hdelete
      rw [hcall, Option.getD_some, hentries, ← ih]
      exact bpDelete_breakpoints addr _

end debugger

end MyMips
