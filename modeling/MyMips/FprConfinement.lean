import MyMips.NativeRun
import MyMips.Pipeline

/-! The FPR file. A double-precision operand is the pair `n`, `n + 1`, with `n` straight
from a five-bit field; for `n = 31` the second half is the word behind `fpr[]`, which is
`fp_cond`. Without such an operand the file is closed and the flag two-valued. -/
namespace MyMips

/-- The registers an instruction names as single words, and those it names as the first
half of a pair. -/
abbrev FprFields := List ℕ × List ℕ

def fpSingleFields (i : Word) : FprFields :=
  match fpFunct i with
  | some .add | some .sub | some .mul | some .div => ([fd i, fs i, ft i], [])
  | some .sqrt | some .abs | some .mov | some .neg | some .cvtW => ([fd i, fs i], [])
  | some .cvtD => ([fs i], [fd i])
  | some .cEq | some .cLt | some .cLe => ([fs i, ft i], [])
  | some .cvtS | none => ([], [])

def fpDoubleFields (i : Word) : FprFields :=
  match fpFunct i with
  | some .add | some .sub | some .mul | some .div => ([], [fd i, fs i, ft i])
  | some .sqrt | some .abs | some .mov | some .neg => ([], [fd i, fs i])
  | some .cvtS | some .cvtW => ([fd i], [fs i])
  | some .cEq | some .cLt | some .cLe => ([], [fs i, ft i])
  | some .cvtD | none => ([], [])

def fpWordFields (i : Word) : FprFields :=
  match fpFunct i with
  | some .cvtS => ([fd i, fs i], [])
  | some .cvtD => ([fs i], [fd i])
  | _ => ([], [])

def cop1Fields (i : Word) : FprFields :=
  match fmt i with
  | some .MFC1 | some .MTC1 => ([fs i], [])
  | some .S => fpSingleFields i
  | some .D => fpDoubleFields i
  | some .W => fpWordFields i
  | some .BC1 | none => ([], [])

def fprFields (i : Word) : FprFields :=
  match opcode i with
  | some .LWC1 | some .SWC1 => ([ft i], [])
  | some .LDC1 | some .SDC1 => ([], [ft i])
  | some .OP_COP1 => cop1Fields i
  | _ => ([], [])

def indices (F : FprFields) : List ℕ := F.1 ++ F.2.flatMap fun n => [n, n + 1]

def fprIndices (i : Word) : List ℕ := indices (fprFields i)

def setsCond (i : Word) : Bool :=
  fpFunct i == some .cEq || fpFunct i == some .cLt || fpFunct i == some .cLe

def isCompare (i : Word) : Bool :=
  opcode i == some .OP_COP1 && (fmt i == some .S || fmt i == some .D) && setsCond i

def namesCond (i : Word) : Bool :=
  isCompare i || opcode i == some .OP_COP1 && fmt i == some .BC1

/-- The named registers are registers. -/
theorem fprFields_lt (i : Word) : ∀ n, n ∈ (fprFields i).1 ∨ n ∈ (fprFields i).2 → n < 32 := by
  have hs := fs_lt i
  have ht := ft_lt i
  have hd := fd_lt i
  -- Every field has five bits, whatever the function makes of it.
  have harith : ∀ F ∈ [fpSingleFields i, fpDoubleFields i, fpWordFields i], ∀ n,
      n ∈ F.1 ∨ n ∈ F.2 → n < 32 := by
    intro F hF
    simp only [List.mem_cons, List.not_mem_nil, or_false] at hF
    rcases hF with rfl | rfl | rfl
    · unfold fpSingleFields
      split <;> simp <;> omega
    · unfold fpDoubleFields
      split <;> simp <;> omega
    · unfold fpWordFields
      split <;> simp <;> omega
  unfold fprFields
  split
  case h_5 =>
    unfold cop1Fields
    split
    case h_3 => exact harith _ (by simp)
    case h_4 => exact harith _ (by simp)
    case h_5 => exact harith _ (by simp)
    all_goals simp <;> omega
  all_goals simp <;> omega

/-- The indices of a word stay inside the file exactly if no pair starts at register 31. -/
theorem fprIndices_lt_iff (i : Word) : (∀ n ∈ fprIndices i, n < 32) ↔ 31 ∉ (fprFields i).2 := by
  have hlt := fprFields_lt i
  simp only [fprIndices, indices, List.mem_append, List.mem_flatMap, List.mem_cons, List.not_mem_nil,
    or_false]
  constructor
  · intro hall hmem
    have h32 := hall 32 (.inr ⟨31, hmem, .inr rfl⟩)
    omega
  · rintro hno n (hn | ⟨k, hk, rfl | rfl⟩)
    · exact hlt n (.inl hn)
    · exact hlt n (.inr hk)
    · have hk32 := hlt k (.inr hk)
      have hne : k ≠ 31 := fun h => hno (h ▸ hk)
      omega

section commute
variable {n k : ℕ} (v w : Word) (s : State)

theorem setFpr_comm (hn : n ≤ 32) (hk : k ≤ 32) (hne : n ≠ k) :
    (s.setFpr n v).setFpr k w = (s.setFpr k w).setFpr n v := by
  have hofNat (h1 : n < 32) (h2 : k < 32) : BitVec.ofNat 5 n ≠ BitVec.ofNat 5 k := by
    intro heq
    have hnat := congrArg BitVec.toNat heq
    simp only [BitVec.toNat_ofNat] at hnat
    omega
  unfold State.setFpr
  by_cases h1 : n < 32 <;> by_cases h2 : k < 32
  · simp only [h1, h2, if_true]
    rw [Function.update_comm (hofNat h1 h2)]
  · simp [h1, h2]
  · simp [h1, h2]
  · omega

theorem getf_setFpr (hn : n ≤ 32) (hk : k < 32) (hne : n ≠ k) :
    getf k (s.setFpr n v) = getf k s := getFpr_setFpr s v hn hk.le hne

theorem setf_setFpr (hn : n ≤ 32) (hk : k < 32) (hne : n ≠ k) :
    setf k w (s.setFpr n v) = (setf k w s).setFpr n v := setFpr_comm v w s hn hk.le hne

theorem getd_setFpr (hn : n ≤ 32) (hk : k < 32) (hne : n ≠ k ∧ n ≠ k + 1) :
    getd k (s.setFpr n v) = getd k s := by
  rw [getd, getFpr_setFpr _ _ hn (by omega) hne.1, getFpr_setFpr _ _ hn (by omega) hne.2, getd]

theorem setd_setFpr (d : DWord) (hn : n ≤ 32) (hk : k < 32) (hne : n ≠ k ∧ n ≠ k + 1) :
    setd k d (s.setFpr n v) = (setd k d s).setFpr n v := by
  rw [setd, setFpr_comm _ _ _ hn (by omega) hne.1, setFpr_comm _ _ _ hn (by omega) hne.2, setd]

theorem setCond_setFpr (c : Bool) (hn : n < 32) :
    setCond c (s.setFpr n v) = (setCond c s).setFpr n v := by
  simp [setCond, State.setFpr, hn]

theorem loadWord_setFpr (h : Host) (a : Word) :
    loadWord h a (s.setFpr n v) = ((loadWord h a s).1, (loadWord h a s).2.setFpr n v) := by
  unfold loadWord deviceLoadWord State.setFpr
  split_ifs <;> rfl

theorem gpuFlush_setFpr (h : Host) : gpuFlush h (s.setFpr n v) = (gpuFlush h s).setFpr n v := by
  unfold gpuFlush State.setFpr
  dsimp only [State.record]
  split_ifs <;> rfl

theorem storeWord_setFpr (h : Host) (a x : Word) :
    storeWord h a x (s.setFpr n v) = (storeWord h a x s).setFpr n v := by
  unfold storeWord deviceStoreWord
  by_cases ha : a = GPU_FLUSH
  · simp only [if_pos ha]
    split_ifs
    · exact gpuFlush_setFpr v s h
    · unfold State.setFpr
      split_ifs <;> rfl
  · simp only [if_neg ha]
    unfold State.setFpr
    split_ifs <;> rfl

/-! In each group the entry `n` is none of the operands (`hout`); where the word names
`fp_cond`, it is also a register (`hcond`). -/

section groups
variable (u : FpUnit) (h : Host) (i : Word) (hn : n ≤ 32)
include hn

theorem fpSingle_setFpr (hout : n ∉ indices (fpSingleFields i))
    (hcond : setsCond i = true → n < 32) :
    fpSingle u i (s.setFpr n v) = ((fpSingle u i s).1, (fpSingle u i s).2.setFpr n v) := by
  have hs := fs_lt i
  have ht := ft_lt i
  have hd := fd_lt i
  cases hf : fpFunct i with
  | none => simp only [fpSingle, hf]
  | some f =>
    cases f with
    | add | sub | mul | div =>
      obtain ⟨h1, h2, h3⟩ : n ≠ fd i ∧ n ≠ fs i ∧ n ≠ ft i := by
        simpa [indices, fpSingleFields, hf] using hout
      simp only [fpSingle, hf]
      rw [getf_setFpr v s hn hs h2, getf_setFpr v s hn ht h3, setf_setFpr v _ s hn hd h1]
    | sqrt | abs | mov | neg =>
      obtain ⟨h1, h2⟩ : n ≠ fd i ∧ n ≠ fs i := by
        simpa [indices, fpSingleFields, hf] using hout
      simp only [fpSingle, hf]
      rw [getf_setFpr v s hn hs h2, setf_setFpr v _ s hn hd h1]
    | cvtW =>
      obtain ⟨h1, h2⟩ : n ≠ fd i ∧ n ≠ fs i := by
        simpa [indices, fpSingleFields, hf] using hout
      simp only [fpSingle, hf]
      rw [getf_setFpr v s hn hs h2, setw, setFpr_comm v _ s hn hd.le h1, setw]
    | cvtD =>
      obtain ⟨h2, h1⟩ : n ≠ fs i ∧ n ≠ fd i ∧ n ≠ fd i + 1 := by
        simpa [indices, fpSingleFields, hf] using hout
      simp only [fpSingle, hf]
      rw [getf_setFpr v s hn hs h2, setd_setFpr v s _ hn hd h1]
    | cEq | cLt | cLe =>
      obtain ⟨h2, h3⟩ : n ≠ fs i ∧ n ≠ ft i := by
        simpa [indices, fpSingleFields, hf] using hout
      simp only [fpSingle, hf]
      rw [getf_setFpr v s hn hs h2, getf_setFpr v s hn ht h3,
        setCond_setFpr v s _ (hcond (by simp [setsCond, hf]))]
    | cvtS => simp only [fpSingle, hf]

theorem fpDouble_setFpr (hout : n ∉ indices (fpDoubleFields i))
    (hcond : setsCond i = true → n < 32) :
    fpDouble u i (s.setFpr n v) = ((fpDouble u i s).1, (fpDouble u i s).2.setFpr n v) := by
  have hs := fs_lt i
  have ht := ft_lt i
  have hd := fd_lt i
  cases hf : fpFunct i with
  | none => simp only [fpDouble, hf]
  | some f =>
    cases f with
    | add | sub | mul | div =>
      obtain ⟨h1, h2, h3⟩ : (n ≠ fd i ∧ n ≠ fd i + 1) ∧ (n ≠ fs i ∧ n ≠ fs i + 1) ∧
          n ≠ ft i ∧ n ≠ ft i + 1 := by
        simpa [indices, fpDoubleFields, hf, and_assoc] using hout
      simp only [fpDouble, hf]
      rw [getd_setFpr v s hn hs h2, getd_setFpr v s hn ht h3, setd_setFpr v s _ hn hd h1]
    | sqrt | abs | mov | neg =>
      obtain ⟨h1, h2⟩ : (n ≠ fd i ∧ n ≠ fd i + 1) ∧ n ≠ fs i ∧ n ≠ fs i + 1 := by
        simpa [indices, fpDoubleFields, hf, and_assoc] using hout
      simp only [fpDouble, hf]
      rw [getd_setFpr v s hn hs h2, setd_setFpr v s _ hn hd h1]
    | cvtS =>
      obtain ⟨h1, h2⟩ : n ≠ fd i ∧ n ≠ fs i ∧ n ≠ fs i + 1 := by
        simpa [indices, fpDoubleFields, hf] using hout
      simp only [fpDouble, hf]
      rw [getd_setFpr v s hn hs h2, setf_setFpr v _ s hn hd h1]
    | cvtW =>
      obtain ⟨h1, h2⟩ : n ≠ fd i ∧ n ≠ fs i ∧ n ≠ fs i + 1 := by
        simpa [indices, fpDoubleFields, hf] using hout
      simp only [fpDouble, hf]
      rw [getd_setFpr v s hn hs h2, setw, setFpr_comm v _ s hn hd.le h1, setw]
    | cEq | cLt | cLe =>
      obtain ⟨h2, h3⟩ : (n ≠ fs i ∧ n ≠ fs i + 1) ∧ n ≠ ft i ∧ n ≠ ft i + 1 := by
        simpa [indices, fpDoubleFields, hf, and_assoc] using hout
      simp only [fpDouble, hf]
      rw [getd_setFpr v s hn hs h2, getd_setFpr v s hn ht h3,
        setCond_setFpr v s _ (hcond (by simp [setsCond, hf]))]
    | cvtD => simp only [fpDouble, hf]

theorem fpWord_setFpr (hout : n ∉ indices (fpWordFields i)) :
    fpWord u i (s.setFpr n v) = ((fpWord u i s).1, (fpWord u i s).2.setFpr n v) := by
  have hs := fs_lt i
  have hd := fd_lt i
  cases hf : fpFunct i with
  | none => simp only [fpWord, hf]
  | some f =>
    cases f with
    | cvtS =>
      obtain ⟨h1, h2⟩ : n ≠ fd i ∧ n ≠ fs i := by
        simpa [indices, fpWordFields, hf] using hout
      simp only [fpWord, hf]
      rw [getw, getFpr_setFpr s v hn hs.le h2, setf_setFpr v _ s hn hd h1, getw]
    | cvtD =>
      obtain ⟨h2, h1⟩ : n ≠ fs i ∧ n ≠ fd i ∧ n ≠ fd i + 1 := by
        simpa [indices, fpWordFields, hf] using hout
      simp only [fpWord, hf]
      rw [getw, getFpr_setFpr s v hn hs.le h2, setd_setFpr v s _ hn hd h1, getw]
    | _ => simp only [fpWord, hf]

theorem execCop1_setFpr (ho : opcode i = some .OP_COP1) (hout : n ∉ fprIndices i)
    (hcond : namesCond i = true → n < 32) :
    execCop1 u i (s.setFpr n v) = ((execCop1 u i s).1, (execCop1 u i s).2.setFpr n v) := by
  have hs := fs_lt i
  rw [fprIndices, fprFields, ho] at hout
  simp only at hout
  cases hc : fmt i with
  | none => simp only [execCop1, hc]
  | some c =>
    cases c with
    | MFC1 =>
      have hne : n ≠ fs i := by simpa [indices, cop1Fields, hc] using hout
      -- MFC1 reads the array directly, so its index is one of the 32 registers.
      have hget := getFpr_setFpr s v hn hs.le hne
      have hrd (t : State) : t.getFpr (fs i) = t.fpr (rd i) := by
        have hlt : (rd i).toNat < 32 := (rd i).isLt
        simp [State.getFpr, fs, hlt]
      simp only [execCop1, hc]
      rw [← hrd, hget, hrd, State.setFpr]
      unfold State.setFpr
      split_ifs <;> rfl
    | MTC1 =>
      have hne : n ≠ fs i := by simpa [indices, cop1Fields, hc] using hout
      simp only [execCop1, hc, State.setFpr_reg]
      rw [setFpr_comm v _ s hn hs.le hne]
    | BC1 =>
      have hlt : n < 32 := hcond (by simp [namesCond, ho, hc])
      simp only [execCop1, hc, State.setFpr_fpCond_of_lt _ _ _ hlt]
      split
      · simp [branchDest, State.scheduleBranch, State.setFpr, hlt]
      · rfl
    | S =>
      simp only [execCop1, hc]
      exact fpSingle_setFpr v s u i hn (by simpa only [cop1Fields, hc] using hout)
        fun h => hcond (by simp [namesCond, isCompare, ho, hc, h])
    | D =>
      simp only [execCop1, hc]
      exact fpDouble_setFpr v s u i hn (by simpa only [cop1Fields, hc] using hout)
        fun h => hcond (by simp [namesCond, isCompare, ho, hc, h])
    | W =>
      simp only [execCop1, hc]
      exact fpWord_setFpr v s u i hn (by simpa only [cop1Fields, hc] using hout)

theorem execCop1Ldst_setFpr (hout : n ∉ fprIndices i) :
    execCop1Ldst h i (s.setFpr n v) =
      ((execCop1Ldst h i s).1, (execCop1Ldst h i s).2.setFpr n v) := by
  have ht := ft_lt i
  have hmem (t : State) : memAddr i (t.setFpr n v) = memAddr i t := by
    rw [memAddr, State.setFpr_reg, memAddr]
  cases ho : opcode i with
  | none => simp only [execCop1Ldst, ho]
  | some o =>
    cases o with
    | LWC1 =>
      have hne : n ≠ ft i := by simpa [fprIndices, indices, fprFields, ho] using hout
      simp only [execCop1Ldst, ho, hmem, loadWord_setFpr]
      rw [setFpr_comm v _ _ hn ht.le hne]
    | SWC1 =>
      have hne : n ≠ ft i := by simpa [fprIndices, indices, fprFields, ho] using hout
      simp only [execCop1Ldst, ho, hmem]
      rw [getFpr_setFpr s v hn ht.le hne, storeWord_setFpr]
    | LDC1 =>
      obtain ⟨hne, hne'⟩ : n ≠ ft i ∧ n ≠ ft i + 1 := by
        simpa [fprIndices, indices, fprFields, ho] using hout
      simp only [execCop1Ldst, ho, hmem, loadWord_setFpr]
      rw [setFpr_comm v _ _ hn ht.le hne, setFpr_comm v _ _ hn (by omega) hne']
    | SDC1 =>
      obtain ⟨hne, hne'⟩ : n ≠ ft i ∧ n ≠ ft i + 1 := by
        simpa [fprIndices, indices, fprFields, ho] using hout
      simp only [execCop1Ldst, ho, hmem]
      rw [getFpr_setFpr s v hn ht.le hne, storeWord_setFpr,
        getFpr_setFpr _ v hn (by omega) hne', storeWord_setFpr]
    | _ => simp only [execCop1Ldst, ho]

end groups

end commute

def isFpu (i : Word) : Bool :=
  opcode i == some .OP_COP1 || opcode i == some .LWC1 || opcode i == some .LDC1 ||
    opcode i == some .SWC1 || opcode i == some .SDC1

section
variable (h : Host) (i : Word) (s : State)

theorem execInst_cop1 (ho : opcode i = some .OP_COP1) : execInst h i s = execCop1 h.fp i s :=
  execInst_of_opcode h ho (by decide) s

/-- An entry outside `fprIndices` is neither read nor written: a write to it commutes
with the execution of the word. -/
theorem execInst_setFpr (hi : isFpu i = true) {n : ℕ} (v : Word) (hn : n ≤ 32)
    (hout : n ∉ fprIndices i) (hcond : namesCond i = true → n < 32) :
    execInst h i (s.setFpr n v) = ((execInst h i s).1, (execInst h i s).2.setFpr n v) := by
  by_cases ho : opcode i = some .OP_COP1
  · rw [execInst_cop1 h i _ ho, execInst_cop1 h i s ho]
    exact execCop1_setFpr v s h.fp i hn ho hout hcond
  · have hldst : opcode i = some .LWC1 ∨ opcode i = some .LDC1 ∨ opcode i = some .SWC1 ∨
        opcode i = some .SDC1 := by
      simpa [isFpu, ho, or_assoc] using hi
    have hexec (t : State) : execInst h i t = execCop1Ldst h i t := by
      rcases hldst with ho | ho | ho | ho <;> exact execInst_of_opcode h ho (by decide) t
    rw [hexec, hexec]
    exact execCop1Ldst_setFpr v s h i hn hout

/-- Whatever is not an instruction of `fpu.c` leaves the flag alone. -/
theorem execInst_fpCond_of_not_fpu (hi : isFpu i = false) :
    (execInst h i s).2.fpCond = s.fpCond := by
  apply execInst_rule h (P := fun r => r.2.fpCond = s.fpCond)
  case hnop => exact fun _ => rfl
  case hsyscall =>
    intro _ _
    obtain ⟨v, m, e, he⟩ := callSyscall_frame h s
    simp only [he]
  case hbreak => exact fun _ _ => rfl
  case hregister =>
    intro _ _ _
    obtain ⟨reg, hi, lo, p, t, he⟩ := execRegister_frame i s
    simp only [he]
  case hspecial2 =>
    intro _
    obtain ⟨reg, hi, lo, he⟩ := execSpecial2_frame i s
    simp only [he]
  case hcop1 =>
    intro ho
    simp [isFpu, ho] at hi
  case hldst =>
    rintro (ho | ho | ho | ho) <;> simp [isFpu, ho] at hi
  case hjump =>
    intro _
    obtain ⟨reg, p, t, he⟩ := execJump_frame i s
    simp only [he]
  case himm =>
    intro _
    obtain ⟨reg, p, t, m, r, k, e, he⟩ := execImmediate_frame h i s
    simp only [he]

/-- No operand of `i` is a register pair that starts at register 31. -/
def InFile (i : Word) : Prop := 31 ∉ (fprFields i).2

def TwoValued (c : Word) : Prop := c = 0 ∨ c = 1

/-- `i` left the flag alone, or is a comparison that set it. -/
def FlagStep (i : Word) (s t : State) : Prop :=
  t.fpCond = s.fpCond ∨ isCompare i = true ∧ TwoValued t.fpCond

theorem FlagStep.twoValued {i : Word} {s t : State} (hstep : FlagStep i s t)
    (hs : TwoValued s.fpCond) : TwoValued t.fpCond := by
  rcases hstep with heq | ⟨_, ht⟩
  · rwa [heq]
  · exact ht

theorem setCond_twoValued (c : Bool) (t : State) : TwoValued (setCond c t).fpCond := by
  cases c
  · exact .inl rfl
  · exact .inr rfl

theorem execInst_compare (hi : isCompare i = true) :
    TwoValued (execInst h i s).2.fpCond := by
  simp only [isCompare, Bool.and_eq_true, Bool.or_eq_true, beq_iff_eq, setsCond] at hi
  obtain ⟨⟨ho, hfmt⟩, hset⟩ := hi
  rw [execInst_cop1 h i s ho]
  rcases hfmt with hc | hc <;> rcases hset with (hf | hf) | hf
  all_goals
    simp only [execCop1, fpSingle, fpDouble, hc, hf]
    apply setCond_twoValued

theorem execInst_bc1 (ho : opcode i = some .OP_COP1) (hc : fmt i = some .BC1) :
    (execInst h i s).2 = if s.fpCond = bc1Sense i then s.scheduleBranch (branchDest i s) else s := by
  rw [execInst_cop1 h i s ho]
  simp only [execCop1, hc]

theorem execInst_flag (hin : InFile i) : FlagStep i s (execInst h i s).2 := by
  cases hi : isFpu i with
  | false => exact .inl (execInst_fpCond_of_not_fpu h i s hi)
  | true =>
    by_cases hcmp : isCompare i = true
    · exact .inr ⟨hcmp, execInst_compare h i s hcmp⟩
    by_cases hbc : opcode i = some .OP_COP1 ∧ fmt i = some .BC1
    · left
      rw [execInst_bc1 h i s hbc.1 hbc.2]
      split_ifs <;> rfl
    -- The word does not name the flag, so its execution commutes with writing the flag back.
    have hself : s.setFpr 32 s.fpCond = s := rfl
    have hout : 32 ∉ fprIndices i := fun hmem =>
      absurd ((fprIndices_lt_iff i).mpr hin 32 hmem) (by omega)
    have hcomm := execInst_setFpr h i s hi s.fpCond (le_refl 32) hout (by simp_all [namesCond])
    rw [hself] at hcomm
    left
    rw [hcomm]
    rfl

theorem stepInstruction_flag (hin : InFile (wordAt s.memory s.pc)) :
    FlagStep (wordAt s.memory s.pc) s (stepInstruction h s).2 := by
  obtain ⟨pc, hstep⟩ := stepInstruction_frame h s
  rw [hstep]
  exact execInst_flag h _ { s with branchPending := false } hin

theorem executeStep_flag (hin : InFile (wordAt s.memory s.pc)) :
    (∀ v, executeStep h s = .next v → FlagStep (wordAt s.memory s.pc) s v) ∧
      ∀ r, executeStep h s = .done r → FlagStep (wordAt s.memory s.pc) s r.2 := by
  have hflag := stepInstruction_flag h s hin
  constructor
  · intro v hv
    rwa [executeStep_next hv] at hflag
  · intro r hr
    rwa [executeStep_done hr] at hflag

theorem nativeStep_flag (f : Surroundings) (u : JitState)
    (hin : InFile (wordAt u.guest.memory u.guest.pc)) :
    (∀ v, nativeStep f h u = .next v →
      FlagStep (wordAt u.guest.memory u.guest.pc) u.guest v.guest) ∧
      ∀ r, nativeStep f h u = .done r →
        FlagStep (wordAt u.guest.memory u.guest.pc) u.guest r.2 := by
  obtain ⟨hnext, hdone⟩ := executeStep_flag h u.guest hin
  constructor
  · intro v hv
    rcases nativeStep_next hv with ⟨reg, hi, lo, pc, hblock⟩ | hstep
    · rw [hblock]
      exact .inl rfl
    · exact hnext _ hstep
  · intro r hr
    exact hdone r (dispatchStep_done hr)

end

/-- The transfer the pipeline owes after `i`, executed where `s` stands. -/
def branchOf (h : Host) (i : Word) (s : State) : Option Word :=
  (execInst h i { s with branchPending := false }).2.latch

def IsBc1 (sense i : Word) : Prop :=
  opcode i = some .OP_COP1 ∧ fmt i = some .BC1 ∧ bc1Sense i = sense

/-- Of `bc1t` and `bc1f` with the same offset exactly one is taken. -/
def OneTaken (h : Host) (s : State) : Prop :=
  ∀ i j, IsBc1 1 i → IsBc1 0 j → imm16 i = imm16 j →
    branchOf h i s = some (branchDest i s) ∧ branchOf h j s = none ∨
      branchOf h i s = none ∧ branchOf h j s = some (branchDest i s)

theorem branchOf_bc1 (h : Host) {sense i : Word} (hi : IsBc1 sense i) (s : State) :
    branchOf h i s = if s.fpCond = sense then some (branchDest i s) else none := by
  obtain ⟨ho, hc, rfl⟩ := hi
  rw [branchOf, execInst_bc1 h i _ ho hc]
  by_cases hcond : s.fpCond = bc1Sense i
  · simp only [hcond, if_true]
    rfl
  · simp only [hcond, if_false]
    rfl

theorem oneTaken (h : Host) {s : State} (hs : TwoValued s.fpCond) : OneTaken h s := by
  intro i j hi hj himm
  have hdest : branchDest j s = branchDest i s := by simp only [branchDest, simm, himm]
  rw [branchOf_bc1 h hi, branchOf_bc1 h hj, hdest]
  rcases hs with hs | hs
  · right
    simp [hs]
  · left
    simp [hs]

/-- The register file is confined, and the flag two-valued, as long as no executed word
has a register pair at 31. For a single word: the indices it accesses (a write to any
other entry commutes with it) stay in the file exactly under that condition. For runs,
interpreted or under the JIT, through words that meet the condition: in every state the
flag is 0 or 1 and selects one of the two branches, and only a comparison changes it. -/
theorem fpr_confinement (h : Host) (f : Surroundings) (mmap : Option (ℕ → Byte)) (s : State)
    (hs : TwoValued s.fpCond) :
    (∀ i, isFpu i = true →
      ((∀ n ∈ fprIndices i, n < 32) ↔ InFile i) ∧
      ∀ t n v, n ≤ 32 → n ∉ fprIndices i → (namesCond i = true → n < 32) →
        execInst h i (t.setFpr n v) = ((execInst h i t).1, (execInst h i t).2.setFpr n v)) ∧
    (∀ n t, Run.Steps (executeStep h) n s t →
      Run.Along (executeStep h) (fun t => InFile (wordAt t.memory t.pc)) n s →
      TwoValued t.fpCond ∧ OneTaken h t ∧ (InFile (wordAt t.memory t.pc) →
        (∀ v, executeStep h t = .next v → FlagStep (wordAt t.memory t.pc) t v) ∧
          ∀ r, executeStep h t = .done r → FlagStep (wordAt t.memory t.pc) t r.2)) ∧
    (∀ n u, Run.Steps (nativeStep f h) n ⟨emitInit mmap, s⟩ u →
      Run.Along (nativeStep f h) (fun u => InFile (wordAt u.guest.memory u.guest.pc)) n
        ⟨emitInit mmap, s⟩ →
      TwoValued u.guest.fpCond ∧ OneTaken h u.guest ∧
      (InFile (wordAt u.guest.memory u.guest.pc) →
        (∀ v, nativeStep f h u = .next v →
          FlagStep (wordAt u.guest.memory u.guest.pc) u.guest v.guest) ∧
        ∀ r, nativeStep f h u = .done r →
          FlagStep (wordAt u.guest.memory u.guest.pc) u.guest r.2)) := by
  refine ⟨fun i hi => ⟨fprIndices_lt_iff i, fun t n v hn hout hcond =>
    execInst_setFpr h i t hi v hn hout hcond⟩, ?_, ?_⟩
  · intro n t hrun halong
    -- Two-valued is the invariant; the condition on the words is needed at every step.
    have ht : TwoValued t.fpCond := by
      refine hrun.invariant_along (I := fun t => TwoValued t.fpCond) ?_ halong hs
      intro a b ha hin hab
      exact ((executeStep_flag h a hin).1 b hab).twoValued ha
    exact ⟨ht, oneTaken h ht, executeStep_flag h t⟩
  · intro n u hrun halong
    have hu : TwoValued u.guest.fpCond := by
      refine hrun.invariant_along (I := fun u => TwoValued u.guest.fpCond) ?_ halong hs
      intro a b ha hin hab
      exact ((nativeStep_flag h f a hin).1 b hab).twoValued ha
    exact ⟨hu, oneTaken h hu, nativeStep_flag h f u⟩

/-- `ldc1 f31, 0(r0)`, which also reads the 2 behind it. -/
def pairProgram : State := resetState (flatImage [0xD41F0000#32, 2#32]) 0

/-- The pair of `ldc1 f31` ends in `fp_cond`: the load leaves 2 there, without being a
comparison, and then neither `bc1t` nor `bc1f` branches. -/
theorem fpr_confinement_fails :
    ¬ (∀ i, isFpu i = true → ∀ n ∈ fprIndices i, n < 32) ∧
    ∃ t, Run.Steps (executeStep nullHost) 1 pairProgram t ∧ ¬ TwoValued t.fpCond ∧
      ¬ FlagStep (wordAt pairProgram.memory pairProgram.pc) pairProgram t ∧
      ¬ OneTaken nullHost t := by
  refine ⟨fun hall => ?_, (stepInstruction nullHost pairProgram).2, ?_, ?_, ?_, fun hone => ?_⟩
  · have h32 : 32 ∈ fprIndices 0xD41F0000#32 := by decide
    exact absurd (hall _ (by decide) 32 h32) (by decide)
  · exact .head rfl (.refl _)
  · unfold TwoValued
    decide
  · unfold FlagStep TwoValued
    decide
  · have hnone := hone 0x45010000#32 0x45000000#32 (by unfold IsBc1; decide)
      (by unfold IsBc1; decide) (by decide)
    revert hnone
    decide

/-- `c.eq.s f0, f0` in front of a word that is no instruction. -/
def compareProgram : State :=
  { resetState (flatImage [0x46000032#32, 2#32]) 0 with fpCond := 1 }

theorem fpr_confinement_compare :
    ∃ t, Run.Steps (executeStep nullHost) 1 compareProgram t ∧ TwoValued t.fpCond ∧
      OneTaken nullHost t := by
  have hs : TwoValued compareProgram.fpCond := .inr rfl
  obtain ⟨-, hruns, -⟩ := fpr_confinement nullHost demoSurroundings none compareProgram hs
  have hin : InFile (wordAt compareProgram.memory compareProgram.pc) := by
    unfold InFile
    decide
  have hrun : Run.Steps (executeStep nullHost) 1 compareProgram
      (stepInstruction nullHost compareProgram).2 := .head rfl (.refl _)
  obtain ⟨htwo, hone, -⟩ := hruns 1 _ hrun (Run.along_succ rfl hin Run.along_zero)
  exact ⟨_, hrun, htwo, hone⟩

end MyMips
