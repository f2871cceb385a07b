import MyMips.Functions

namespace MyMips

/-- `glob->fpr[n]` for the indices the executor forms (0..32). The array has 32
entries; the field that follows it in `struct global` is `fp_cond`. -/
def State.getFpr (s : State) (n : ℕ) : Word :=
  if n < 32 then s.fpr (BitVec.ofNat 5 n) else s.fpCond

def State.setFpr (s : State) (n : ℕ) (v : Word) : State :=
  if n < 32 then { s with fpr := Function.update s.fpr (BitVec.ofNat 5 n) v }
  else { s with fpCond := v }

section
variable (s : State) (n : ℕ) (v : Word)

/-- A write through the array changes the registers or, past their end, the flag. -/
theorem State.setFpr_frame : ∃ f c, s.setFpr n v = { s with fpr := f, fpCond := c } := by
  unfold State.setFpr
  split
  · exact ⟨_, s.fpCond, rfl⟩
  · exact ⟨s.fpr, v, rfl⟩

@[simp] theorem State.setFpr_reg : (s.setFpr n v).reg = s.reg := by
  obtain ⟨f, c, he⟩ := s.setFpr_frame n v; rw [he]
@[simp] theorem State.setFpr_memory : (s.setFpr n v).memory = s.memory := by
  obtain ⟨f, c, he⟩ := s.setFpr_frame n v; rw [he]
@[simp] theorem State.setFpr_branchPending :
    (s.setFpr n v).branchPending = s.branchPending := by
  obtain ⟨f, c, he⟩ := s.setFpr_frame n v; rw [he]
@[simp] theorem State.setFpr_branchTarget :
    (s.setFpr n v).branchTarget = s.branchTarget := by
  obtain ⟨f, c, he⟩ := s.setFpr_frame n v; rw [he]
@[simp] theorem State.setFpr_lastKey : (s.setFpr n v).lastKey = s.lastKey := by
  obtain ⟨f, c, he⟩ := s.setFpr_frame n v; rw [he]
theorem State.setFpr_fpCond_of_lt (hn : n < 32) : (s.setFpr n v).fpCond = s.fpCond := by
  simp [State.setFpr, hn]

theorem getFpr_setFpr_self : (s.setFpr n v).getFpr n = v := by
  unfold State.setFpr State.getFpr
  by_cases h : n < 32 <;> simp [h]

theorem getFpr_setFpr {n k : ℕ} (hn : n ≤ 32) (hk : k ≤ 32) (hne : n ≠ k) :
    (s.setFpr n v).getFpr k = s.getFpr k := by
  have hofNat (h1 : n < 32) (h2 : k < 32) : BitVec.ofNat 5 k ≠ BitVec.ofNat 5 n := by
    intro heq
    have hnat := congrArg BitVec.toNat heq
    simp only [BitVec.toNat_ofNat] at hnat
    omega
  unfold State.setFpr State.getFpr
  by_cases h1 : n < 32 <;> by_cases h2 : k < 32
  · simp [h1, h2, Function.update_of_ne (hofNat h1 h2)]
  · simp [h1, h2]
  · simp [h1, h2]
  · omega

end

def getf (n : ℕ) (s : State) : Word := s.getFpr n
def setf (n : ℕ) (f : Word) (s : State) : State := s.setFpr n f
def getw (n : ℕ) (s : State) : Word := s.getFpr n
def setw (n : ℕ) (w : Word) (s : State) : State := s.setFpr n w

def getd (n : ℕ) (s : State) : DWord := s.getFpr (n + 1) ++ s.getFpr n

def setd (n : ℕ) (d : DWord) (s : State) : State :=
  (s.setFpr n (d.setWidth 32)).setFpr (n + 1) ((d >>> 32).setWidth 32)

def setCond (c : Bool) (s : State) : State := { s with fpCond := if c then 1 else 0 }

def fd (i : Word) : ℕ := (shamt i).toNat
def fs (i : Word) : ℕ := (rd i).toNat
def ft (i : Word) : ℕ := (rt i).toNat

theorem fs_lt (i : Word) : fs i < 32 := (rd i).isLt
theorem ft_lt (i : Word) : ft i < 32 := (rt i).isLt
theorem fd_lt (i : Word) : fd i < 32 := (shamt i).isLt

def fpSingle (u : FpUnit) (i : Word) (s : State) : Ret × State :=
  match fpFunct i with
  | some .add => (.ok, setf (fd i) (u.addS (getf (fs i) s) (getf (ft i) s)) s)
  | some .sub => (.ok, setf (fd i) (u.subS (getf (fs i) s) (getf (ft i) s)) s)
  | some .mul => (.ok, setf (fd i) (u.mulS (getf (fs i) s) (getf (ft i) s)) s)
  | some .div => (.ok, setf (fd i) (u.divS (getf (fs i) s) (getf (ft i) s)) s)
  | some .sqrt => (.ok, setf (fd i) (u.sqrtS (getf (fs i) s)) s)
  | some .abs => (.ok, setf (fd i) (u.absS (getf (fs i) s)) s)
  | some .mov => (.ok, setf (fd i) (getf (fs i) s) s)
  | some .neg => (.ok, setf (fd i) (u.negS (getf (fs i) s)) s)
  | some .cvtD => (.ok, setd (fd i) (u.cvtDS (getf (fs i) s)) s)
  | some .cvtW => (.ok, setw (fd i) (u.cvtWS (getf (fs i) s)) s)
  | some .cEq => (.ok, setCond (u.eqS (getf (fs i) s) (getf (ft i) s)) s)
  | some .cLt => (.ok, setCond (u.ltS (getf (fs i) s) (getf (ft i) s)) s)
  | some .cLe => (.ok, setCond (u.leS (getf (fs i) s) (getf (ft i) s)) s)
  | some .cvtS | none => (.err, s)

def fpDouble (u : FpUnit) (i : Word) (s : State) : Ret × State :=
  match fpFunct i with
  | some .add => (.ok, setd (fd i) (u.addD (getd (fs i) s) (getd (ft i) s)) s)
  | some .sub => (.ok, setd (fd i) (u.subD (getd (fs i) s) (getd (ft i) s)) s)
  | some .mul => (.ok, setd (fd i) (u.mulD (getd (fs i) s) (getd (ft i) s)) s)
  | some .div => (.ok, setd (fd i) (u.divD (getd (fs i) s) (getd (ft i) s)) s)
  | some .sqrt => (.ok, setd (fd i) (u.sqrtD (getd (fs i) s)) s)
  | some .abs => (.ok, setd (fd i) (u.absD (getd (fs i) s)) s)
  | some .mov => (.ok, setd (fd i) (getd (fs i) s) s)
  | some .neg => (.ok, setd (fd i) (u.negD (getd (fs i) s)) s)
  | some .cvtS => (.ok, setf (fd i) (u.cvtSD (getd (fs i) s)) s)
  | some .cvtW => (.ok, setw (fd i) (u.cvtWD (getd (fs i) s)) s)
  | some .cEq => (.ok, setCond (u.eqD (getd (fs i) s) (getd (ft i) s)) s)
  | some .cLt => (.ok, setCond (u.ltD (getd (fs i) s) (getd (ft i) s)) s)
  | some .cLe => (.ok, setCond (u.leD (getd (fs i) s) (getd (ft i) s)) s)
  | some .cvtD | none => (.err, s)

def fpWord (u : FpUnit) (i : Word) (s : State) : Ret × State :=
  match fpFunct i with
  | some .cvtS => (.ok, setf (fd i) (u.cvtSW (getw (fs i) s)) s)
  | some .cvtD => (.ok, setd (fd i) (u.cvtDW (getw (fs i) s)) s)
  | _ => (.err, s)

def branchDest (i : Word) (s : State) : Word := s.pc + 4 + (simm i <<< 2)

def bc1Sense (i : Word) : Word := (i >>> 16) &&& 1

def execCop1 (u : FpUnit) (i : Word) (s : State) : Ret × State :=
  match fmt i with
  | some .MFC1 => (.ok, (s.setReg (rt i) (s.fpr (rd i))).setReg R0 0)
  | some .MTC1 => (.ok, s.setFpr (fs i) (s.reg (rt i)))
  | some .BC1 =>
    (.ok, if s.fpCond = bc1Sense i then s.scheduleBranch (branchDest i s) else s)
  | some .S => fpSingle u i s
  | some .D => fpDouble u i s
  | some .W => fpWord u i s
  | none => (.err, s)

def memAddr (i : Word) (s : State) : Word := s.reg (rs i) + simm i

def execCop1Ldst (h : Host) (i : Word) (s : State) : Ret × State :=
  let addr := memAddr i s
  match opcode i with
  | some .LWC1 =>
    let r := loadWord h addr s
    (.ok, r.2.setFpr (ft i) r.1)
  | some .SWC1 => (.ok, storeWord h addr (s.getFpr (ft i)) s)
  | some .LDC1 =>
    let r := loadWord h addr s
    let s1 := r.2.setFpr (ft i) r.1
    let r := loadWord h (addr + 4) s1
    (.ok, r.2.setFpr (ft i + 1) r.1)
  | some .SDC1 =>
    let s1 := storeWord h addr (s.getFpr (ft i)) s
    (.ok, storeWord h (addr + 4) (s1.getFpr (ft i + 1)) s1)
  | _ => (.err, s)

end MyMips
