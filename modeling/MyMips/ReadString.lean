import MyMips.SyscallBounds
import Mathlib.Data.List.GetD
import Mathlib.Data.List.TakeWhile

namespace MyMips

/-- The bytes of `p` at the offsets from `a` on, and a NUL behind them. -/
def HoldsString (m : Memory) (a : ℕ) (p : List Byte) : Prop :=
  ∀ k ≤ p.length, m (BitVec.ofNat 32 (a + k)) = p.getD k 0

/-- The host has `input` on the standard input and delivers what fits the buffer. -/
def Delivers (h : Host) (input : List Byte) (s : State) : Prop :=
  h.readStdin (.readString (s.reg A0).toNat (s.reg A1).toNat :: s.events) =
    some (input.take (s.reg A1).toNat)

/-- The buffer holds a terminated prefix of the input, nothing else has changed, and
`print_string` at the same address prints that prefix. -/
def StoresString (h : Host) (input : List Byte) (s : State) : Prop :=
  let a := (s.reg A0).toNat
  let n := (s.reg A1).toNat
  let t := (callSyscall h s).2
  ∃ p, p <+: input ∧ p.length < n ∧ HoldsString t.memory a p ∧
    (∀ x : Word, x.toNat < a ∨ a + n ≤ x.toNat → t.memory x = s.memory x) ∧
    ∀ (h' : Host) (u : State), u.memory = t.memory → u.reg A0 = s.reg A0 → u.reg V0 = 4 →
      callSyscall h' u = (false, u.record (.printString a (some p)))

section strings
variable {m : Memory} {a n : ℕ} {p : List Byte}

/-- The scan of `print_string` finds a string that is there. -/
theorem cString_of_holdsString (hm : HoldsString m a p) (hp : 0 ∉ p) (hn : p.length < n) :
    cString m n a = some p := by
  induction p generalizing a n with
  | nil =>
    obtain ⟨n, rfl⟩ := Nat.exists_eq_add_of_lt hn
    have hnul : m (BitVec.ofNat 32 a) = 0 := hm 0 (Nat.zero_le _)
    simp [cString, hnul]
  | cons b p ih =>
    obtain ⟨n, rfl⟩ : ∃ n', n = n' + 1 := ⟨n - 1, by simp at hn; omega⟩
    have hb : m (BitVec.ofNat 32 a) = b := hm 0 (Nat.zero_le _)
    have hb0 : b ≠ 0 := fun h0 => hp (h0 ▸ List.mem_cons_self)
    have htail : HoldsString m (a + 1) p := by
      intro k hk
      have hnext := hm (k + 1) (by simpa using hk)
      rw [Nat.add_assoc, Nat.add_comm 1 k, hnext, List.getD_cons_succ]
    have hrest := ih htail (fun h0 => hp (List.mem_cons_of_mem b h0)) (by simpa using hn)
    simp only [cString, hb, if_neg hb0, hrest, Option.map_some]

/-- Without NULs the copy is the input, padded as far as the buffer goes. -/
theorem strncpy_take (input : List Byte) (hin : 0 ∉ input) (n : ℕ) :
    strncpy (input.take n) n = input.take n ++ List.replicate (n - input.length) 0 := by
  have hall : (input.take n).takeWhile (· ≠ 0) = input.take n := by
    apply List.takeWhile_eq_self_iff.mpr
    intro b hb
    have hb0 : b ≠ 0 := fun h0 => hin (h0 ▸ List.mem_of_mem_take hb)
    simpa using hb0
  have hlen : n - min n input.length = n - input.length := by omega
  simp only [strncpy, hall, List.length_take, hlen]

/-- What the buffer holds byte by byte. -/
theorem copyIn_strncpy (m : Memory) {a k n : ℕ} (input : List Byte) (hin : 0 ∉ input)
    (hk : k < n) (hbound : a + n ≤ MEM_SIZE) :
    copyIn m a (strncpy (input.take n) n) (BitVec.ofNat 32 (a + k)) = input.getD k 0 := by
  have hx : (BitVec.ofNat 32 (a + k)).toNat = a + k := toNat_ofNat_of_lt (by omega)
  have hsub : a + k - a = k := Nat.add_sub_cancel_left a k
  rw [copyIn, hx, if_pos (Nat.le_add_right a k), hsub, strncpy_take input hin,
    List.getD_eq_getElem?_getD]
  rcases Nat.lt_or_ge k input.length with hlt | hge
  · rw [List.getElem?_append_left (by simp; omega), List.getElem?_take_of_lt hk,
      List.getElem?_eq_getElem hlt]
    rfl
  · -- Behind the input the buffer is padded.
    rw [List.getElem?_append_right (by simp; omega), List.getElem?_replicate_of_lt (by simp; omega),
      List.getElem?_eq_none hge]
    rfl

end strings

section syscall
variable {h : Host} {s : State} {input : List Byte}

theorem callSyscall_readString (hv : s.reg V0 = 8) (hd : Delivers h input s) :
    (callSyscall h s).2.memory = copyIn s.memory (s.reg A0).toNat
      (strncpy (input.take (s.reg A1).toNat) (s.reg A1).toNat) := by
  have hn : Switch.select Syscall (s.reg V0) = some .readString := by
    rw [hv]
    decide
  simp only [callSyscall, hn, readString, State.record]
  rw [Delivers] at hd
  rw [hd]
  simp only [List.take_take, min_self]

theorem callSyscall_printString (h : Host) {u : State} (hv : u.reg V0 = 4) :
    callSyscall h u = (false, u.record (.printString (u.reg A0).toNat
      (guestString u.memory (u.reg A0).toNat))) := by
  have hn : Switch.select Syscall (u.reg V0) = some .printString := by
    rw [hv]
    decide
  simp only [callSyscall, hn, printString]

/-- An input with room for the NUL is stored whole. -/
theorem storesString_of_lt (hv : s.reg V0 = 8)
    (hbound : (s.reg A0).toNat + (s.reg A1).toNat ≤ MEM_SIZE) (hin : 0 ∉ input)
    (hd : Delivers h input s) (hlt : input.length < (s.reg A1).toNat) :
    StoresString h input s := by
  have hmem := callSyscall_readString hv hd
  have hholds : HoldsString (callSyscall h s).2.memory (s.reg A0).toNat input := by
    intro k hk
    rw [hmem]
    exact copyIn_strncpy s.memory input hin (by omega) hbound
  refine ⟨input, List.prefix_rfl, hlt, hholds, ?_, ?_⟩
  · intro x hx
    rw [hmem]
    apply copyIn_of_not_mem
    rw [length_strncpy (List.length_take_le _ _)]
    omega
  · intro h' u hum hua huv
    have hstr : guestString u.memory (s.reg A0).toNat = some input := by
      rw [hum]
      exact cString_of_holdsString hholds hin (by omega)
    rw [callSyscall_printString h' huv, hua, hstr]

/-- An input that fills the buffer leaves no room for the NUL. -/
theorem length_lt_of_storesString (hv : s.reg V0 = 8)
    (hbound : (s.reg A0).toNat + (s.reg A1).toNat ≤ MEM_SIZE) (hin : 0 ∉ input)
    (hd : Delivers h input s) (hs : StoresString h input s) :
    input.length < (s.reg A1).toNat := by
  obtain ⟨p, -, hp, hholds, -⟩ := hs
  by_contra hge
  have hnul := hholds p.length le_rfl
  have hlt : p.length < input.length := by omega
  rw [callSyscall_readString hv hd, copyIn_strncpy s.memory input hin hp hbound,
    List.getD_eq_getElem _ _ hlt, List.getD_eq_default _ _ le_rfl] at hnul
  exact hin (hnul ▸ List.getElem_mem hlt)

end syscall

/-- `read_string` stores a proper string exactly when the input is shorter than the
buffer. -/
theorem readString_iff (h : Host) (s : State) (input : List Byte) (hv : s.reg V0 = 8)
    (hbound : (s.reg A0).toNat + (s.reg A1).toNat ≤ MEM_SIZE) (hin : 0 ∉ input)
    (hd : Delivers h input s) : StoresString h input s ↔ input.length < (s.reg A1).toNat :=
  ⟨length_lt_of_storesString hv hbound hin hd, storesString_of_lt hv hbound hin hd⟩

def stdinHost (input : List Byte) : Host :=
  { nullHost with
    readStdin := fun events => match events with
      | .readString _ len :: _ => some (input.take len)
      | _ => some [] }

/-- `read_string(0x4000, 4)` on a memory that is nowhere zero. -/
def readFour : State :=
  (((resetState (fun _ => 0x58) 0).setReg V0 8).setReg A0 0x4000).setReg A1 4

theorem readString_three :
    StoresString (stdinHost [0x61, 0x62, 0x63]) [0x61, 0x62, 0x63] readFour :=
  (readString_iff (stdinHost [0x61, 0x62, 0x63]) readFour [0x61, 0x62, 0x63] rfl (by decide)
    (by decide) rfl).mpr (by decide)

/-- Four letters fill the buffer, and the string goes on behind it. -/
theorem readString_counterexample :
    ¬ ∀ (h : Host) (s : State) (input : List Byte), s.reg V0 = 8 → 1 ≤ (s.reg A1).toNat →
      (s.reg A0).toNat + (s.reg A1).toNat ≤ MEM_SIZE → 0 ∉ input → Delivers h input s →
      StoresString h input s := by
  intro hall
  let input : List Byte := [0x61, 0x62, 0x63, 0x64]
  have hin : 0 ∉ input := by decide
  have hd : Delivers (stdinHost input) input readFour := rfl
  have hs := hall (stdinHost input) readFour input rfl (by decide) (by decide) hin hd
  exact absurd (length_lt_of_storesString rfl (by decide) hin hd hs) (by decide)

end MyMips
