import MyMips.Syscalls
import Mathlib.Tactic.SplitIfs
import Mathlib.Tactic.ByContra

namespace MyMips

/-- The host byte at offset `x` from `glob->memory`; `behind` is whatever the host
has behind the mapping. -/
def hostByte (behind : ℕ → Byte) (m : Memory) (x : ℕ) : Byte :=
  if x < MEM_SIZE then m (BitVec.ofNat 32 x) else behind x

def Scans (behind : ℕ → Byte) (m : Memory) (a x : ℕ) : Prop :=
  a ≤ x ∧ ∀ y, a ≤ y → y < x → hostByte behind m y ≠ 0

def delivered (h : Host) (s : State) : ℕ :=
  let start := (s.reg A1).toNat
  let len := (s.reg A2).toNat
  ((h.readFile (.readFile (s.reg A0) start len :: s.events)).2.take len).length

def readsString (h : Host) (s : State) : Bool :=
  (h.readStdin (.readString (s.reg A0).toNat (s.reg A1).toNat :: s.events)).isSome

/-- The syscall reads or writes the host byte at offset `x` from `glob->memory`. -/
def Touches (h : Host) (behind : ℕ → Byte) (s : State) (x : ℕ) : Prop :=
  match Switch.select Syscall (s.reg V0) with
  | some .printString | some .openFile => Scans behind s.memory (s.reg A0).toNat x
  | some .readString =>
    readsString h s = true ∧ (s.reg A0).toNat ≤ x ∧ x < (s.reg A0).toNat + (s.reg A1).toNat
  | some .readFile => (s.reg A1).toNat ≤ x ∧ x < (s.reg A1).toNat + delivered h s
  | some .writeFile => (s.reg A1).toNat ≤ x ∧ x < (s.reg A1).toNat + (s.reg A2).toNat
  | _ => False

def Terminated (m : Memory) (a : Word) : Prop := ∃ y, a ≤ y ∧ m y = 0

/-- The string of the syscall ends, or its buffer as far as it is used lies, inside
guest memory. -/
def InBounds (h : Host) (s : State) : Prop :=
  match Switch.select Syscall (s.reg V0) with
  | some .printString | some .openFile => Terminated s.memory (s.reg A0)
  | some .readString =>
    readsString h s = true → (s.reg A0).toNat + (s.reg A1).toNat ≤ MEM_SIZE
  | some .readFile => (s.reg A1).toNat + delivered h s ≤ MEM_SIZE
  | some .writeFile => (s.reg A1).toNat + (s.reg A2).toNat ≤ MEM_SIZE
  | _ => True

/-- The same for the whole buffer, whatever the host answers. -/
def Fits (s : State) : Prop :=
  match Switch.select Syscall (s.reg V0) with
  | some .printString | some .openFile => Terminated s.memory (s.reg A0)
  | some .readString => (s.reg A0).toNat + (s.reg A1).toNat ≤ MEM_SIZE
  | some .readFile | some .writeFile => (s.reg A1).toNat + (s.reg A2).toNat ≤ MEM_SIZE
  | _ => True

section
variable (behind : ℕ → Byte) (m : Memory)

theorem hostByte_toNat (y : Word) : hostByte behind m y.toNat = m y := by
  rw [hostByte, if_pos (toNat_lt_memSize y), BitVec.ofNat_toNat, BitVec.setWidth_eq]

/-- A scan stays inside the mapping exactly when it meets a NUL there. -/
theorem scans_lt_iff (a : Word) :
    (∀ x, Scans behind m a.toNat x → x < MEM_SIZE) ↔ Terminated m a := by
  constructor
  · intro hall
    by_contra hnul
    -- Without a NUL the scan reads the first byte behind the mapping.
    have hend : Scans behind m a.toNat MEM_SIZE := by
      refine ⟨(toNat_lt_memSize a).le, fun y hay hy h0 => hnul ⟨BitVec.ofNat 32 y, ?_, ?_⟩⟩
      · rw [BitVec.le_def, toNat_ofNat_of_lt hy]
        exact hay
      · rw [hostByte, if_pos hy] at h0
        exact h0
    exact absurd (hall MEM_SIZE hend) (lt_irrefl _)
  · rintro ⟨y, hay, hy⟩ x ⟨_, hscan⟩
    by_contra hx
    have hlt : y.toNat < x := lt_of_lt_of_le (toNat_lt_memSize y) (not_lt.mp hx)
    exact hscan y.toNat (BitVec.le_def.mp hay) hlt ((hostByte_toNat behind m y).trans hy)

end

/-- A range that starts inside the mapping stays inside it exactly when its end does. -/
theorem range_lt_iff (a : Word) (n : ℕ) :
    (∀ x, a.toNat ≤ x ∧ x < a.toNat + n → x < MEM_SIZE) ↔ a.toNat + n ≤ MEM_SIZE := by
  have ha : a.toNat < MEM_SIZE := toNat_lt_memSize a
  constructor
  · intro hall
    by_contra hlt
    exact absurd (hall MEM_SIZE ⟨ha.le, not_le.mp hlt⟩) (lt_irrefl _)
  · intro hle x hx
    omega

theorem touches_lt_iff (h : Host) (behind : ℕ → Byte) (s : State) :
    (∀ x, Touches h behind s x → x < MEM_SIZE) ↔ InBounds h s := by
  unfold Touches InBounds
  cases hn : Switch.select Syscall (s.reg V0) with
  | none => simp
  | some n =>
    cases n with
    | printString | openFile => exact scans_lt_iff behind s.memory (s.reg A0)
    | readString =>
      have hr := range_lt_iff (s.reg A0) (s.reg A1).toNat
      exact ⟨fun hall hok => hr.mp fun x hx => hall x ⟨hok, hx⟩,
        fun hin x hx => hr.mpr (hin hx.1) x hx.2⟩
    | readFile => exact range_lt_iff (s.reg A1) (delivered h s)
    | writeFile => exact range_lt_iff (s.reg A1) (s.reg A2).toNat
    | _ => simp

def generousHost : Host :=
  { nullHost with
    readFile := fun events => match events with
      | .readFile _ _ len :: _ => (BitVec.ofNat 32 len, List.replicate len 0)
      | _ => (0, []) }

theorem generousHost_delivered (s : State) : delivered generousHost s = (s.reg A2).toNat := by
  simp [delivered, generousHost]

theorem delivered_le (h : Host) (s : State) : delivered h s ≤ (s.reg A2).toNat :=
  List.length_take_le _ _

theorem Fits.inBounds {s : State} (hs : Fits s) (h : Host) : InBounds h s := by
  have hdel := delivered_le h s
  unfold Fits at hs
  unfold InBounds
  cases hn : Switch.select Syscall (s.reg V0) with
  | none => trivial
  | some n =>
    rw [hn] at hs
    cases n with
    | readString => exact fun _ => hs
    | readFile =>
      dsimp only at hs ⊢
      omega
    | _ => exact hs

theorem fits_of_generousHost {s : State} (hs : InBounds generousHost s) : Fits s := by
  unfold InBounds at hs
  unfold Fits
  cases hn : Switch.select Syscall (s.reg V0) with
  | none => trivial
  | some n =>
    rw [hn] at hs
    cases n with
    | readString => exact hs rfl
    | readFile => simpa only [generousHost_delivered] using hs
    | _ => exact hs

section footprint
variable {m m' : Memory}

theorem cString_congr {n a : ℕ}
    (h : ∀ k < n, (∀ j < k, m (BitVec.ofNat 32 (a + j)) ≠ 0) →
      m' (BitVec.ofNat 32 (a + k)) = m (BitVec.ofNat 32 (a + k))) :
    cString m' n a = cString m n a := by
  induction n generalizing a with
  | zero => rfl
  | succ n ih =>
    have h0 : m' (BitVec.ofNat 32 a) = m (BitVec.ofNat 32 a) :=
      h 0 (by omega) (fun j hj => absurd hj (Nat.not_lt_zero j))
    simp only [cString, h0]
    split_ifs with hc
    · rfl
    · congr 1
      apply ih
      intro k hk hscan
      have hshift (j : ℕ) : a + 1 + j = a + (j + 1) := by omega
      rw [hshift]
      apply h (k + 1) (by omega)
      intro j hj
      cases j with
      | zero => exact hc
      | succ j => simpa only [hshift] using hscan j (by omega)

/-- The string at `a` depends on the bytes its scan reads. -/
theorem guestString_congr {behind : ℕ → Byte} {a : Word}
    (h : ∀ x : Word, Scans behind m a.toNat x.toNat → m' x = m x) :
    guestString m' a.toNat = guestString m a.toNat := by
  apply cString_congr
  intro k hk hscan
  have ha := toNat_lt_memSize a
  apply h
  rw [toNat_ofNat_of_lt (by omega)]
  refine ⟨by omega, fun y hay hy => ?_⟩
  obtain ⟨j, rfl⟩ := Nat.exists_eq_add_of_le hay
  rw [hostByte, if_pos (by omega)]
  exact hscan j (by omega)

theorem copyIn_of_not_mem (start : ℕ) (bytes : List Byte) (x : Word)
    (hx : ¬ (start ≤ x.toNat ∧ x.toNat < start + bytes.length)) :
    copyIn m start bytes x = m x := by
  unfold copyIn
  split_ifs with hle
  · have hout : bytes.length ≤ x.toNat - start := by omega
    rw [List.getElem?_eq_none hout, Option.getD_none]
  · rfl

theorem copyIn_of_mem (start : ℕ) (bytes : List Byte) (x : Word)
    (hx : start ≤ x.toNat ∧ x.toNat < start + bytes.length) :
    copyIn m' start bytes x = copyIn m start bytes x := by
  have hin : x.toNat - start < bytes.length := by omega
  simp only [copyIn, if_pos hx.1, List.getElem?_eq_getElem hin, Option.getD_some]

theorem copyOut_congr {start len : ℕ}
    (h : ∀ x : Word, start ≤ x.toNat ∧ x.toNat < start + len → m' x = m x) :
    copyOut m' start len = copyOut m start len := by
  apply List.map_congr_left
  intro k hk
  have hlt := List.mem_range.mp hk
  apply h
  rw [toNat_ofNat_of_lt (by omega)]
  omega

theorem length_strncpy {buf : List Byte} {n : ℕ} (h : buf.length ≤ n) :
    (strncpy buf n).length = n := by
  have ht : (buf.takeWhile (· ≠ 0)).length ≤ buf.length :=
    (List.takeWhile_prefix _).length_le
  rw [strncpy, List.length_append, List.length_replicate]
  omega

end footprint

section footprint
variable (h : Host) (behind : ℕ → Byte) (s : State)

/-- A syscall changes no byte it does not touch. -/
theorem callSyscall_memory (x : Word) (hx : ¬ Touches h behind s x.toNat) :
    (callSyscall h s).2.memory x = s.memory x := by
  unfold Touches at hx
  unfold callSyscall
  cases hn : Switch.select Syscall (s.reg V0) with
  | none => rfl
  | some n =>
    rw [hn] at hx
    cases n with
    | readString =>
      simp only [readString, State.record]
      cases hr : h.readStdin (.readString (s.reg A0).toNat (s.reg A1).toNat :: s.events) with
      | none => rfl
      | some bytes =>
        apply copyIn_of_not_mem
        rw [length_strncpy (List.length_take_le _ _)]
        exact fun hin => hx ⟨by simp only [readsString, hr, Option.isSome_some], hin⟩
    | readFile => exact copyIn_of_not_mem _ _ x hx
    | _ => rfl

/-- Two syscall outcomes that differ at most in memory bytes outside `T`. -/
structure SameOutcome (T : ℕ → Prop) (r r' : Bool × State) : Prop where
  stop : r'.1 = r.1
  state : r'.2 = { r.2 with memory := r'.2.memory }
  memory : ∀ x : Word, T x.toNat → r'.2.memory x = r.2.memory x

/-- The outcome depends on no other byte either: on a memory with the same touched
bytes the syscall does the same and leaves the same touched bytes. -/
theorem callSyscall_congr (m' : Memory)
    (hm : ∀ x : Word, Touches h behind s x.toNat → m' x = s.memory x) :
    SameOutcome (Touches h behind s) (callSyscall h s)
      (callSyscall h { s with memory := m' }) := by
  -- Most syscalls write no memory.
  have hkeep (b : Bool) (u : State) (hu : u.memory = s.memory) :
      SameOutcome (Touches h behind s) (b, u) (b, { u with memory := m' }) :=
    ⟨rfl, rfl, fun x hx => (hm x hx).trans (congrFun hu x).symm⟩
  cases hn : Switch.select Syscall (s.reg V0) with
  | none =>
    simp only [callSyscall, hn]
    exact hkeep true (s.record _) rfl
  | some n =>
    have htouched := hm
    simp only [Touches, hn] at htouched
    cases n with
    | exit | exit2 =>
      simp only [callSyscall, hn]
      exact hkeep true s rfl
    | printInt =>
      simp only [callSyscall, hn]
      exact hkeep false (printInt s) rfl
    | printChar =>
      simp only [callSyscall, hn]
      exact hkeep false (printChar s) rfl
    | readInt =>
      simp only [callSyscall, hn]
      exact hkeep false (readInt h s) rfl
    | readChar =>
      simp only [callSyscall, hn]
      exact hkeep false (readChar h s) rfl
    | closeFile =>
      simp only [callSyscall, hn]
      exact hkeep false (closeFile s) rfl
    | printString =>
      have hstr : guestString m' (s.reg A0).toNat = guestString s.memory (s.reg A0).toNat :=
        guestString_congr htouched
      simp only [callSyscall, hn, printString, hstr]
      exact hkeep false (s.record _) rfl
    | openFile =>
      have hstr : guestString m' (s.reg A0).toNat = guestString s.memory (s.reg A0).toNat :=
        guestString_congr htouched
      simp only [callSyscall, hn, openFile, hstr]
      exact hkeep false ((s.record _).setReg V0 _) rfl
    | writeFile =>
      have hout := copyOut_congr htouched
      simp only [callSyscall, hn, writeFile, hout]
      exact hkeep false ((s.record _).setReg V0 _) rfl
    | readFile =>
      simp only [callSyscall, hn, readFile]
      refine ⟨rfl, rfl, fun x hx => ?_⟩
      simp only [Touches, hn] at hx
      exact copyIn_of_mem _ _ x hx
    | readString =>
      simp only [callSyscall, hn, readString, State.record]
      cases hr : h.readStdin (.readString (s.reg A0).toNat (s.reg A1).toNat :: s.events) with
      | none => exact hkeep false (s.record _) rfl
      | some bytes =>
        refine ⟨rfl, rfl, fun x hx => ?_⟩
        simp only [Touches, hn] at hx
        apply copyIn_of_mem
        rw [length_strncpy (List.length_take_le _ _)]
        exact hx.2

end footprint

/-- A syscall touches nothing behind guest memory exactly when its string ends, or its
buffer lies, inside guest memory; with any answer of the host it does so exactly when
the whole buffer fits. -/
theorem syscall_bounds (behind : ℕ → Byte) (s : State) :
    (∀ h, (∀ x, Touches h behind s x → x < MEM_SIZE) ↔ InBounds h s) ∧
    ((∀ h x, Touches h behind s x → x < MEM_SIZE) ↔ Fits s) := by
  refine ⟨fun h => touches_lt_iff h behind s, ?_⟩
  constructor
  · intro hall
    exact fits_of_generousHost ((touches_lt_iff generousHost behind s).mp (hall generousHost))
  · intro hs h
    exact (touches_lt_iff h behind s).mpr (hs.inBounds h)

/-- `write(1, 0xFFFFFFFF, 2)`. -/
def edgeWrite : State :=
  (((resetState (fun _ => 0) 0).setReg V0 15).setReg A1 0xFFFFFFFF#32).setReg A2 2

/-- Its second byte lies behind the mapping. -/
theorem syscall_bounds_fails :
    ¬ ∀ (h : Host) (behind : ℕ → Byte) (s : State) (x : ℕ),
      Touches h behind s x → x < MEM_SIZE := by
  intro hall
  let behind : ℕ → Byte := fun _ => 0
  have ht : Touches nullHost behind edgeWrite MEM_SIZE := by
    change 0xFFFFFFFF ≤ MEM_SIZE ∧ MEM_SIZE < 0xFFFFFFFF + 2
    decide
  exact absurd (hall nullHost behind edgeWrite MEM_SIZE ht) (lt_irrefl _)

end MyMips
