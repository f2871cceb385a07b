import MyMips.Lib.X86
import MyMips.JitRefine
import MyMips.ZeroReg

/-! The emitted machine code, run on the x86-64 machine. The registers, HI and LO of
the guest are words of `struct global`, which `r15` points to; a translated instruction
changes those words as the executor changes the state, and no other byte. -/
namespace MyMips
open X86 (Machine Runs rax rcx rdx rsp r15)

/-- The address of the byte at offset `d` of `struct global`. -/
def field (glob : DWord) (d : ℕ) : DWord := glob + BitVec.ofNat 64 d

/-- Memory holds the integer state of the guest in the `struct global` at `glob`. -/
structure Represents (glob : DWord) (s : State) (mem : Bytes.Store 64) : Prop where
  reg : ∀ r : Reg, Bytes.load32 mem (field glob (4 * r.toNat)) = s.reg r
  hi : Bytes.load32 mem (field glob 128) = s.hi
  lo : Bytes.load32 mem (field glob 132) = s.lo

def INT_SIZE : ℕ := 136

section memory
variable {glob : DWord} {s : State} {mem mem' : Bytes.Store 64}

/-- Equal bytes of the structure represent equal states. -/
theorem Represents.congr (hs : Represents glob s mem)
    (h : ∀ a, (a - glob).toNat < INT_SIZE → mem' a = mem a) : Represents glob s mem' := by
  have hword (d : ℕ) (hd : d + 4 ≤ INT_SIZE) :
      Bytes.load32 mem' (field glob d) = Bytes.load32 mem (field glob d) := by
    apply Bytes.load32_congr
    intro k hk
    apply h
    rw [field, Bytes.ofNat_add_ofNat, Bytes.toNat_offset glob (by unfold INT_SIZE at hd; omega)]
    omega
  refine ⟨fun r => ?_, ?_, ?_⟩
  · have hr := r.isLt
    rw [hword _ (by unfold INT_SIZE; omega), hs.reg]
  · rw [hword _ (by decide), hs.hi]
  · rw [hword _ (by decide), hs.lo]

theorem load32_store32_field (v : Word) {d e : ℕ} (hd : d + 4 ≤ INT_SIZE) (he : e + 4 ≤ INT_SIZE)
    (hne : e + 4 ≤ d ∨ d + 4 ≤ e) :
    Bytes.load32 (Bytes.store32 mem (field glob d) v) (field glob e) =
      Bytes.load32 mem (field glob e) := by
  unfold INT_SIZE at hd he
  exact Bytes.load32_store32_offset mem glob v (by omega) (by omega) hne

theorem Represents.setReg (hs : Represents glob s mem) (r : Reg) (v : Word) :
    Represents glob (s.setReg r v) (Bytes.store32 mem (field glob (4 * r.toNat)) v) := by
  have hr := r.isLt
  refine ⟨fun r' => ?_, ?_, ?_⟩
  · have hr' := r'.isLt
    by_cases hrr : r' = r
    · subst hrr
      rw [field, Bytes.load32_store32_self _ _ _ (by decide), State.setReg_reg_self]
    · have hne : r'.toNat ≠ r.toNat := fun h => hrr (BitVec.eq_of_toNat_eq h)
      rw [load32_store32_field v (by unfold INT_SIZE; omega) (by unfold INT_SIZE; omega) (by omega),
        hs.reg, State.setReg_reg_of_ne _ _ _ _ hrr]
  · rw [load32_store32_field v (by unfold INT_SIZE; omega) (by decide) (by omega), hs.hi,
      State.setReg_hi]
  · rw [load32_store32_field v (by unfold INT_SIZE; omega) (by decide) (by omega), hs.lo,
      State.setReg_lo]

theorem Represents.setHi (hs : Represents glob s mem) (v : Word) :
    Represents glob { s with hi := v } (Bytes.store32 mem (field glob 128) v) := by
  refine ⟨fun r => ?_, ?_, ?_⟩
  · have hr := r.isLt
    rw [load32_store32_field v (by decide) (by unfold INT_SIZE; omega) (by omega), hs.reg]
  · rw [field, Bytes.load32_store32_self _ _ _ (by decide)]
  · rw [load32_store32_field v (by decide) (by decide) (by omega), hs.lo]

theorem Represents.setLo (hs : Represents glob s mem) (v : Word) :
    Represents glob { s with lo := v } (Bytes.store32 mem (field glob 132) v) := by
  refine ⟨fun r => ?_, ?_, ?_⟩
  · have hr := r.isLt
    rw [load32_store32_field v (by decide) (by unfold INT_SIZE; omega) (by omega), hs.reg]
  · rw [load32_store32_field v (by decide) (by decide) (by omega), hs.hi]
  · rw [field, Bytes.load32_store32_self _ _ _ (by decide)]

end memory

structure Scratch (m m' : Machine) : Prop where
  mem : m'.mem = m.mem
  gpr : ∀ r, r ≠ rax → r ≠ rcx → r ≠ rdx → m'.gpr r = m.gpr r

namespace Scratch
variable {m m' m'' : Machine}

theorem refl (m : Machine) : Scratch m m := ⟨rfl, fun _ _ _ _ => rfl⟩

theorem trans (h : Scratch m m') (h' : Scratch m' m'') : Scratch m m'' :=
  ⟨h'.mem.trans h.mem, fun r h1 h2 h3 => (h'.gpr r h1 h2 h3).trans (h.gpr r h1 h2 h3)⟩

theorem setReg32 (m : Machine) {r : X86.Gpr} (hr : r = rax ∨ r = rcx ∨ r = rdx) (v : Word) :
    Scratch m (m.setReg32 r v) := by
  refine ⟨rfl, fun r' h1 h2 h3 => X86.setReg32_gpr_of_ne m r r' v ?_⟩
  rcases hr with rfl | rfl | rfl
  · exact h1
  · exact h2
  · exact h3

theorem setFlags (m : Machine) (f : X86.Flags) : Scratch m (m.setFlags f) :=
  ⟨rfl, fun _ _ _ _ => rfl⟩

theorem r15 (h : Scratch m m') : m'.gpr r15 = m.gpr r15 :=
  h.gpr _ (by decide) (by decide) (by decide)

end Scratch

def slot (m : Machine) (r : Reg) : Word := Bytes.load32 m.mem (field (m.gpr r15) (4 * r.toNat))

theorem Scratch.slot {m m' : Machine} (h : Scratch m m') (r : Reg) : slot m' r = slot m r := by
  rw [MyMips.slot, MyMips.slot, h.mem, h.r15]

/-- The displacement byte `m * 4` does not reach its sign bit. -/
theorem disp_reg (r : Reg) :
    (r.setWidth 8 * 4 : Byte).signExtend 64 = BitVec.ofNat 64 (4 * r.toNat) := by
  revert r
  decide

theorem imm32_e32 (v : Word) :
    X86.imm32 (v.setWidth 8) ((v >>> 8).setWidth 8) ((v >>> 16).setWidth 8)
      ((v >>> 24).setWidth 8) = v :=
  Bytes.append_le32 v

section primitives
variable (m : Machine) (r : Reg) (v : Word)

theorem read_slot : m.read (.mem r15 ((r.setWidth 8 * 4 : Byte).signExtend 64)) = slot m r := by
  rw [disp_reg]
  rfl

theorem runs_ld_eax : Runs (ld EAX r) m (m.setReg32 rax (slot m r)) := by
  rw [← read_slot]
  exact X86.runs_instr (i := .mov rax (.mem r15 ((r.setWidth 8 * 4 : Byte).signExtend 64)))
    (fun _ => rfl) (fun _ => rfl)

theorem runs_ld_ecx : Runs (ld ECX r) m (m.setReg32 rcx (slot m r)) := by
  rw [← read_slot]
  exact X86.runs_instr (i := .mov rcx (.mem r15 ((r.setWidth 8 * 4 : Byte).signExtend 64)))
    (fun _ => rfl) (fun _ => rfl)

theorem runs_ld_edx : Runs (ld EDX r) m (m.setReg32 rdx (slot m r)) := by
  rw [← read_slot]
  exact X86.runs_instr (i := .mov rdx (.mem r15 ((r.setWidth 8 * 4 : Byte).signExtend 64)))
    (fun _ => rfl) (fun _ => rfl)

/-- `hdec` says which operation the opcode byte stands for. -/
theorem runs_aluRr {b : Byte} {o : X86.Alu}
    (hdec : ∀ k, X86.decode (aluRr b r ++ k) =
      some (.alu o rax (.mem r15 ((r.setWidth 8 * 4 : Byte).signExtend 64)), k)) :
    Runs (aluRr b r) m (m.alu o rax (slot m r)) := by
  rw [← read_slot]
  apply X86.runs_instr hdec
  intro k
  cases o <;> rfl

theorem runs_aluImm {b : Byte} {o : X86.Alu}
    (hdec : ∀ k, X86.decode (b :: e32 v ++ k) =
      some (.aluImm o (X86.imm32 (v.setWidth 8) ((v >>> 8).setWidth 8) ((v >>> 16).setWidth 8)
        ((v >>> 24).setWidth 8)), k)) :
    Runs (b :: e32 v) m (m.alu o rax v) := by
  rw [imm32_e32] at hdec
  apply X86.runs_instr hdec
  intro k
  cases o <;> rfl

theorem runs_st (hr : r ≠ 0) : Runs (st r) m
    (m.setMem (Bytes.store32 m.mem (field (m.gpr r15) (4 * r.toNat)) (m.reg32 rax))) := by
  rw [st, if_neg hr, field, ← disp_reg]
  exact X86.runs_instr (i := .movTo (.mem r15 ((r.setWidth 8 * 4 : Byte).signExtend 64)) rax)
    (fun _ => rfl) (fun _ => rfl)

theorem runs_ldOff_hi :
    Runs (ldOff HI_OFFSET) m (m.setReg32 rax (Bytes.load32 m.mem (field (m.gpr r15) 128))) :=
  X86.runs_instr (i := .mov rax (.mem r15 128)) (fun _ => rfl) (fun _ => rfl)

theorem runs_ldOff_lo :
    Runs (ldOff LO_OFFSET) m (m.setReg32 rax (Bytes.load32 m.mem (field (m.gpr r15) 132))) :=
  X86.runs_instr (i := .mov rax (.mem r15 132)) (fun _ => rfl) (fun _ => rfl)

theorem runs_stOff_hi : Runs (stOff HI_OFFSET) m
    (m.setMem (Bytes.store32 m.mem (field (m.gpr r15) 128) (m.reg32 rax))) :=
  X86.runs_instr (i := .movTo (.mem r15 128) rax) (fun _ => rfl) (fun _ => rfl)

theorem runs_stOff_lo : Runs (stOff LO_OFFSET) m
    (m.setMem (Bytes.store32 m.mem (field (m.gpr r15) 132) (m.reg32 rax))) :=
  X86.runs_instr (i := .movTo (.mem r15 132) rax) (fun _ => rfl) (fun _ => rfl)

/-- `setcc al; movzx eax, al` for a condition whose flags are defined. -/
theorem runs_setFlag {cc : Byte} {c : X86.Cond} {t : Bool}
    (hdec : ∀ k, X86.decode ([0x0F, cc, 0xC0] ++ k) = some (.set c rax, k))
    (ht : c.eval m.flags = some t) :
    ∃ m', Runs (setFlag cc) m m' ∧ Scratch m m' ∧ m'.reg32 rax = flag t := by
  let m1 := m.setReg rax ((m.gpr rax &&& ~~~0xFF#64) ||| if t then 1 else 0)
  have h1 : Runs [0x0F, cc, 0xC0] m m1 := by
    apply X86.runs_instr hdec
    intro k
    simp only [X86.exec, X86.goto_flags, ht]
    rfl
  have h2 : Runs [0x0F, 0xB6, 0xC0] m1
      (m1.setReg32 rax (((m1.gpr rax).setWidth 8).setWidth 32)) :=
    X86.runs_instr (i := .movzx rax rax) (fun _ => rfl) (fun _ => rfl)
  refine ⟨_, h1.append h2, ⟨rfl, fun r hr _ _ => ?_⟩, ?_⟩
  · rw [X86.setReg32_gpr_of_ne _ _ _ _ hr, X86.setReg_gpr_of_ne _ _ _ _ hr]
  · rw [X86.setReg32_reg32_self, X86.setReg_gpr_self, X86.set_movzx]
    rfl

theorem runs_not : Runs [0xF7, 0xD0] m (m.setReg32 rax (~~~(m.reg32 rax))) :=
  X86.runs_instr (i := .not (.reg rax)) (fun _ => rfl) (fun _ => rfl)

/-- A shift of `eax`, by an immediate or by `cl`. -/
theorem runs_shift {c : List Byte} {o : X86.Shift} {count : Option Byte}
    (hdec : ∀ k, X86.decode (c ++ k) = some (.shift o (.reg rax) count, k)) :
    Runs c m (m.shift o (.reg rax) (m.shiftCount count)) :=
  X86.runs_instr hdec (fun _ => by cases count <;> rfl)

/-- `test ecx, ecx` and a conditional move from `edx` to `eax`. -/
theorem runs_cmov {cc : Byte} {c : X86.Cond} {t : Bool}
    (hdec : ∀ k, X86.decode ([0x0F, cc, 0xC2] ++ k) = some (.cmov c rax (.reg rdx), k))
    (ht : c.eval (X86.logicFlags (m.reg32 rcx)) = some t) :
    ∃ m', Runs ([0x85, 0xC9] ++ [0x0F, cc, 0xC2]) m m' ∧ Scratch m m' ∧
      m'.reg32 rax = if t then m.reg32 rdx else m.reg32 rax := by
  let m1 := m.setFlags (X86.logicFlags (m.reg32 rcx &&& m.reg32 rcx))
  have h1 : Runs [0x85, 0xC9] m m1 :=
    X86.runs_instr (i := .test (.reg rcx) rcx) (fun _ => rfl) (fun _ => rfl)
  have h2 : Runs [0x0F, cc, 0xC2] m1
      (m1.setReg32 rax (if t then m1.reg32 rdx else m1.reg32 rax)) := by
    apply X86.runs_instr hdec
    intro k
    simp only [X86.exec, X86.goto_flags, m1, X86.setFlags_flags, BitVec.and_self, ht]
    rfl
  refine ⟨_, h1.append h2, ⟨rfl, fun r hr _ _ => ?_⟩, ?_⟩
  · rw [X86.setReg32_gpr_of_ne _ _ _ _ hr]
    rfl
  · rw [X86.setReg32_reg32_self]
    rfl

end primitives

/-- The code leaves `v` in `eax` and otherwise changes scratch registers only. -/
def Computes (m : Machine) (c : List Byte) (v : Word) : Prop :=
  ∃ m', Runs c m m' ∧ Scratch m m' ∧ m'.reg32 rax = v

section computes
variable {m : Machine} {c c' : List Byte} {v v' : Word}

theorem Computes.append (h : Computes m c v)
    (h' : ∀ m1, Scratch m m1 → m1.reg32 rax = v → Computes m1 c' v') :
    Computes m (c ++ c') v' := by
  obtain ⟨m1, hc, hs, hv⟩ := h
  obtain ⟨m2, hc', hs', hv'⟩ := h' m1 hs hv
  exact ⟨m2, hc.append hc', hs.trans hs', hv'⟩

variable (m) (r r' : Reg)

theorem scratch_alu (op : X86.Alu) (b : Word) : Scratch m (m.alu op rax b) :=
  ⟨X86.alu_mem m rax op b, fun r hr _ _ => X86.alu_gpr_of_ne m rax r op b hr⟩

theorem computes_ld : Computes m (ld EAX r) (slot m r) :=
  ⟨_, runs_ld_eax m r, Scratch.setReg32 m (.inl rfl) _, X86.setReg32_reg32_self _ _ _⟩

theorem computes_hi : Computes m (ldOff HI_OFFSET) (Bytes.load32 m.mem (field (m.gpr r15) 128)) :=
  ⟨_, runs_ldOff_hi m, Scratch.setReg32 m (.inl rfl) _, X86.setReg32_reg32_self _ _ _⟩

theorem computes_lo : Computes m (ldOff LO_OFFSET) (Bytes.load32 m.mem (field (m.gpr r15) 132)) :=
  ⟨_, runs_ldOff_lo m, Scratch.setReg32 m (.inl rfl) _, X86.setReg32_reg32_self _ _ _⟩

theorem computes_not : Computes m [0xF7, 0xD0] (~~~(m.reg32 rax)) :=
  ⟨_, runs_not m, Scratch.setReg32 m (.inl rfl) _, X86.setReg32_reg32_self _ _ _⟩

section alu
variable {b : Byte} {o : X86.Alu}
  (hdec : ∀ r k, X86.decode (aluRr b r ++ k) =
    some (.alu o rax (.mem r15 ((r.setWidth 8 * 4 : Byte).signExtend 64)), k))
include hdec

/-- `ld(EAX, r); alu_rr(b, r')` -/
theorem computes_alu (hv : (o.eval (slot m r) (slot m r')).1 = some v) :
    Computes m (ld EAX r ++ aluRr b r') v := by
  refine (computes_ld m r).append fun m1 hs hm1 => ?_
  refine ⟨_, runs_aluRr m1 r' (hdec r'), scratch_alu m1 o _, ?_⟩
  apply X86.alu_reg32
  rw [hm1, hs.slot]
  exact hv

end alu

section aluImm
variable {b : Byte} {o : X86.Alu}
  (hdec : ∀ v k, X86.decode (b :: e32 v ++ k) =
    some (.aluImm o (X86.imm32 (v.setWidth 8) ((v >>> 8).setWidth 8) ((v >>> 16).setWidth 8)
      ((v >>> 24).setWidth 8)), k))
include hdec

theorem computes_aluImm (imm : Word) (hv : (o.eval (slot m r) imm).1 = some v) :
    Computes m (ld EAX r ++ (b :: e32 imm)) v := by
  refine (computes_ld m r).append fun m1 _ hm1 => ?_
  refine ⟨_, runs_aluImm m1 imm (hdec imm), scratch_alu m1 o _, ?_⟩
  apply X86.alu_reg32
  rw [hm1]
  exact hv

end aluImm

section compare
variable {cc : Byte} {q : X86.Cond} {t : Bool}
  (hdec : ∀ k, X86.decode ([0x0F, cc, 0xC0] ++ k) = some (.set q rax, k))
include hdec

/-- A comparison with a register, and its condition as 0 or 1. -/
theorem computes_cmp (ht : q.eval (X86.subFlags (slot m r) (slot m r')) = some t) :
    Computes m (ld EAX r ++ aluRr 0x3B r' ++ setFlag cc) (flag t) := by
  rw [List.append_assoc]
  refine (computes_ld m r).append fun m1 hs hm1 => ?_
  have hcmp := runs_aluRr m1 r' (b := 0x3B) (o := .cmp) (fun _ => rfl)
  have hflags : q.eval (m1.alu .cmp rax (slot m1 r')).flags = some t := by
    rw [X86.alu_flags, hm1, hs.slot]
    exact ht
  obtain ⟨m2, hset, hs2, hv⟩ := runs_setFlag _ hdec hflags
  exact ⟨m2, hcmp.append hset, (scratch_alu m1 .cmp _).trans hs2, hv⟩

theorem computes_cmpImm (imm : Word) (ht : q.eval (X86.subFlags (slot m r) imm) = some t) :
    Computes m (ld EAX r ++ (0x3D :: e32 imm) ++ setFlag cc) (flag t) := by
  rw [List.append_assoc]
  refine (computes_ld m r).append fun m1 _ hm1 => ?_
  have hcmp := runs_aluImm m1 imm (b := 0x3D) (o := .cmp) (fun _ => rfl)
  have hflags : q.eval (m1.alu .cmp rax imm).flags = some t := by
    rw [X86.alu_flags, hm1]
    exact ht
  obtain ⟨m2, hset, hs2, hv⟩ := runs_setFlag _ hdec hflags
  exact ⟨m2, hcmp.append hset, (scratch_alu m1 .cmp _).trans hs2, hv⟩

end compare

theorem scratch_shift (o : X86.Shift) (n : ℕ) : Scratch m (m.shift o (.reg rax) n) :=
  (Scratch.setReg32 m (.inl rfl) _).trans (Scratch.setFlags _ _)

theorem shift_reg32 (o : X86.Shift) (n : ℕ) :
    (m.shift o (.reg rax) n).reg32 rax = (o.eval (m.reg32 rax) n).1 := by
  rw [Machine.shift, X86.setFlags_reg32]
  exact X86.setReg32_reg32_self m rax _

/-- A shift amount of five bits survives the masking. -/
theorem shamt_masked (n : BitVec 5) : (n.setWidth 8 &&& 0x1F#8).toNat = n.toNat := by
  revert n
  decide

theorem computes_shift {code : Byte} {o : X86.Shift} (n : BitVec 5)
    (hdec : ∀ d k, X86.decode ([0xC1, code, d] ++ k) = some (.shift o (.reg rax) (some d), k)) :
    Computes m (ld EAX r ++ [0xC1, code, n.setWidth 8]) (o.eval (slot m r) n.toNat).1 := by
  refine (computes_ld m r).append fun m1 _ hm1 => ?_
  refine ⟨_, runs_shift m1 (hdec _), scratch_shift m1 o _, ?_⟩
  rw [shift_reg32, hm1, Machine.shiftCount, shamt_masked]

/-- `cl` holds the low byte of the guest register loaded into `ecx`. -/
theorem count_masked (w : Word) :
    ((w.setWidth 64).setWidth 8 &&& 0x1F#8).toNat = (w &&& 0x1F#32).toNat := by
  simp only [BitVec.toNat_and, BitVec.toNat_setWidth, BitVec.toNat_ofNat]
  rw [show 31 % 2 ^ 8 = 2 ^ 5 - 1 from rfl, show 31 % 2 ^ 32 = 2 ^ 5 - 1 from rfl,
    Nat.and_two_pow_sub_one_eq_mod, Nat.and_two_pow_sub_one_eq_mod]
  omega

theorem computes_shiftv {code : Byte} {o : X86.Shift}
    (hdec : ∀ k, X86.decode ([0xD3, code] ++ k) = some (.shift o (.reg rax) none, k)) :
    Computes m (ld EAX r ++ ld ECX r' ++ [0xD3, code])
      (o.eval (slot m r) (slot m r' &&& 0x1F#32).toNat).1 := by
  rw [List.append_assoc]
  refine (computes_ld m r).append fun m1 hs hm1 => ?_
  let m2 := m1.setReg32 rcx (slot m1 r')
  have hcount : m2.shiftCount none = (slot m r' &&& 0x1F#32).toNat := by
    rw [← hs.slot, ← count_masked]
    simp only [m2, Machine.shiftCount, Machine.setReg32, X86.setReg_gpr_self]
  refine ⟨_, (runs_ld_ecx m1 r').append (runs_shift m2 hdec),
    (Scratch.setReg32 m1 (.inr (.inl rfl)) _).trans (scratch_shift m2 o _), ?_⟩
  rw [shift_reg32, hcount, X86.setReg32_reg32_of_ne _ _ _ _ (by decide), hm1]

/-- The three loads of MOVZ and MOVN and the conditional move. -/
theorem computes_cmov (rt : Reg) {cc : Byte} {q : X86.Cond} {t : Bool}
    (hdec : ∀ k, X86.decode ([0x0F, cc, 0xC2] ++ k) = some (.cmov q rax (.reg rdx), k))
    (ht : q.eval (X86.logicFlags (slot m rt)) = some t) :
    Computes m (ld EAX r ++ ld EDX r' ++ ld ECX rt ++ [0x85, 0xC9] ++ [0x0F, cc, 0xC2])
      (if t then slot m r' else slot m r) := by
  simp only [List.append_assoc]
  refine (computes_ld m r).append fun m1 hs hm1 => ?_
  let m2 := m1.setReg32 rdx (slot m1 r')
  let m3 := m2.setReg32 rcx (slot m2 rt)
  have hs2 : Scratch m1 m2 := Scratch.setReg32 m1 (.inr (.inr rfl)) _
  have hs3 : Scratch m2 m3 := Scratch.setReg32 m2 (.inr (.inl rfl)) _
  have hecx : m3.reg32 rcx = slot m rt := by
    rw [X86.setReg32_reg32_self, hs2.slot, hs.slot]
  have hedx : m3.reg32 rdx = slot m r' := by
    rw [X86.setReg32_reg32_of_ne _ _ _ _ (by decide), X86.setReg32_reg32_self, hs.slot]
  have heax : m3.reg32 rax = slot m r := by
    rw [X86.setReg32_reg32_of_ne _ _ _ _ (by decide),
      X86.setReg32_reg32_of_ne _ _ _ _ (by decide), hm1]
  obtain ⟨m4, hcmov, hs4, hv⟩ := runs_cmov m3 hdec (by rw [hecx]; exact ht)
  refine ⟨m4, (runs_ld_edx m1 r').append ((runs_ld_ecx m2 rt).append hcmov),
    hs2.trans (hs3.trans hs4), ?_⟩
  rw [hv, hedx, heax]

end computes

/-- From every machine that represents `s`, the code falls through to one that represents
`s'`, having changed scratch registers and the integer part of the structure only. -/
def Implements (glob : DWord) (c : List Byte) (s s' : State) : Prop :=
  ∀ m : Machine, m.gpr r15 = glob → Represents glob s m.mem →
    ∃ m', Runs c m m' ∧ Represents glob s' m'.mem ∧
      (∀ r, r ≠ rax → r ≠ rcx → r ≠ rdx → m'.gpr r = m.gpr r) ∧
      ∀ a, INT_SIZE ≤ (a - glob).toNat → m'.mem a = m.mem a

section implements
variable {glob : DWord} {s s' s'' : State} {c c' : List Byte} {v : Word}

theorem Implements.refl (glob : DWord) (s : State) : Implements glob [] s s :=
  fun m _ hs => ⟨m, .nil m, hs, fun _ _ _ _ => rfl, fun _ _ => rfl⟩

theorem Implements.append (h : Implements glob c s s') (h' : Implements glob c' s' s'') :
    Implements glob (c ++ c') s s'' := by
  intro m hm hs
  obtain ⟨m1, hc, hs1, hgpr, hmem⟩ := h m hm hs
  have hm1 : m1.gpr r15 = glob := by
    rw [hgpr _ (by decide) (by decide) (by decide), hm]
  obtain ⟨m2, hc', hs2, hgpr', hmem'⟩ := h' m1 hm1 hs1
  refine ⟨m2, hc.append hc', hs2, ?_, ?_⟩
  · intro r h1 h2 h3
    rw [hgpr' r h1 h2 h3, hgpr r h1 h2 h3]
  · intro a ha
    rw [hmem' a ha, hmem a ha]

theorem Represents.setReg_R0 {mem : Bytes.Store 64} (hs : Represents glob s mem)
    (h0 : s.reg 0 = 0) : Represents glob (s.setReg R0 0) mem := by
  rwa [setReg_R0_self h0]

/-- Code that computes the value of guest register `r`, and its store. -/
theorem implements_reg (h0 : s.reg 0 = 0) (r : Reg)
    (hc : ∀ m : Machine, m.gpr r15 = glob → Represents glob s m.mem → Computes m c v) :
    Implements glob (c ++ st r) s ((s.setReg r v).setReg R0 0) := by
  intro m hm hs
  obtain ⟨m1, hrun, hscratch, hv⟩ := hc m hm hs
  have hs1 : Represents glob s m1.mem := hscratch.mem ▸ hs
  by_cases hr : r = 0
  · -- The store is omitted, and the executor undoes its own.
    subst hr
    have hsame : (s.setReg 0 v).setReg R0 0 = s := by
      rw [State.setReg, State.setReg, R0, Function.update_idem]
      exact setReg_R0_self h0
    rw [hsame]
    refine ⟨m1, ?_, hs1, hscratch.gpr, fun a _ => by rw [hscratch.mem]⟩
    simpa [st] using hrun
  · have hst := runs_st m1 r hr
    rw [hv, hscratch.r15, hm] at hst
    -- The executor clears `$0` once more, which has no effect.
    have hzero : (s.setReg r v).reg 0 = 0 := by
      rw [State.setReg_reg_of_ne _ _ _ _ (Ne.symm hr), h0]
    refine ⟨_, hrun.append hst, (hs1.setReg r v).setReg_R0 hzero, hscratch.gpr, ?_⟩
    intro a ha
    have hlt := r.isLt
    unfold INT_SIZE at ha
    rw [← hscratch.mem]
    exact Bytes.store32_offset_of_ne m1.mem glob v a (by omega) (by omega)

theorem implements_hi (h0 : s.reg 0 = 0)
    (hc : ∀ m : Machine, m.gpr r15 = glob → Represents glob s m.mem → Computes m c v) :
    Implements glob (c ++ stOff HI_OFFSET) s ({ s with hi := v }.setReg R0 0) := by
  intro m hm hs
  obtain ⟨m1, hrun, hscratch, hv⟩ := hc m hm hs
  have hs1 : Represents glob s m1.mem := hscratch.mem ▸ hs
  have hst := runs_stOff_hi m1
  rw [hv, hscratch.r15, hm] at hst
  refine ⟨_, hrun.append hst, (hs1.setHi v).setReg_R0 h0, hscratch.gpr, ?_⟩
  intro a ha
  unfold INT_SIZE at ha
  rw [← hscratch.mem]
  exact Bytes.store32_offset_of_ne m1.mem glob v a (by decide) (by omega)

theorem implements_lo (h0 : s.reg 0 = 0)
    (hc : ∀ m : Machine, m.gpr r15 = glob → Represents glob s m.mem → Computes m c v) :
    Implements glob (c ++ stOff LO_OFFSET) s ({ s with lo := v }.setReg R0 0) := by
  intro m hm hs
  obtain ⟨m1, hrun, hscratch, hv⟩ := hc m hm hs
  have hs1 : Represents glob s m1.mem := hscratch.mem ▸ hs
  have hst := runs_stOff_lo m1
  rw [hv, hscratch.r15, hm] at hst
  refine ⟨_, hrun.append hst, (hs1.setLo v).setReg_R0 h0, hscratch.gpr, ?_⟩
  intro a ha
  unfold INT_SIZE at ha
  rw [← hscratch.mem]
  exact Bytes.store32_offset_of_ne m1.mem glob v a (by decide) (by omega)

/-- `mov dword [r15+rt*4], imm`, omitted for `$0`. -/
theorem implements_lui (h0 : s.reg 0 = 0) (r : Reg) (imm : Word) :
    Implements glob (if r ≠ 0 then [0x41, 0xC7, 0x47, r.setWidth 8 * 4] ++ e32 imm else [])
      s ((s.setReg r imm).setReg R0 0) := by
  intro m hm hs
  by_cases hr : r = 0
  · subst hr
    have hsame : (s.setReg 0 imm).setReg R0 0 = s := by
      rw [State.setReg, State.setReg, R0, Function.update_idem]
      exact setReg_R0_self h0
    rw [if_neg (by simp), hsame]
    exact Implements.refl glob s m hm hs
  · have hst : Runs ([0x41, 0xC7, 0x47, r.setWidth 8 * 4] ++ e32 imm) m
        (m.setMem (Bytes.store32 m.mem (field glob (4 * r.toNat)) imm)) := by
      have himm := imm32_e32 imm
      apply X86.runs_instr (i := .movImm (.mem r15 ((r.setWidth 8 * 4 : Byte).signExtend 64))
        (X86.imm32 (imm.setWidth 8) ((imm >>> 8).setWidth 8) ((imm >>> 16).setWidth 8)
          ((imm >>> 24).setWidth 8))) (fun _ => rfl)
      intro k
      rw [himm, disp_reg, ← hm]
      rfl
    have hzero : (s.setReg r imm).reg 0 = 0 := by
      rw [State.setReg_reg_of_ne _ _ _ _ (Ne.symm hr), h0]
    rw [if_pos hr]
    refine ⟨_, hst, (hs.setReg r imm).setReg_R0 hzero, fun _ _ _ _ => rfl, ?_⟩
    intro a ha
    have hlt := r.isLt
    unfold INT_SIZE at ha
    exact Bytes.store32_offset_of_ne m.mem glob imm a (by omega) (by omega)

/-- A skipped move stores the old value back. -/
theorem setReg_keep {p : Prop} [Decidable p] {b : Bool} (hb : b = true ↔ p) (r : Reg) :
    (if p then s.setReg r v else s) = s.setReg r (if b = true then v else s.reg r) := by
  by_cases hp : p
  · rw [if_pos hp, if_pos (hb.mpr hp)]
  · rw [if_neg hp, if_neg (mt hb.mp hp), State.setReg, Function.update_eq_self]

/-- The values an executor reads are those the code reads. -/
theorem slot_eq {m : Machine} (hm : m.gpr r15 = glob) (hs : Represents glob s m.mem) (r : Reg) :
    slot m r = s.reg r := by
  rw [slot, hm, hs.reg]

section groups
variable (h0 : s.reg 0 = 0) (n a b : Reg) {cc : Byte}
include h0

theorem implements_alu {o : X86.Alu}
    (hdec : ∀ r k, X86.decode (aluRr cc r ++ k) =
      some (.alu o rax (.mem r15 ((r.setWidth 8 * 4 : Byte).signExtend 64)), k))
    (hv : (o.eval (s.reg a) (s.reg b)).1 = some v) :
    Implements glob (ld EAX a ++ aluRr cc b ++ st n) s ((s.setReg n v).setReg R0 0) := by
  refine implements_reg h0 n fun m hm hs => ?_
  rw [← slot_eq hm hs, ← slot_eq hm hs] at hv
  exact computes_alu m a b hdec hv

theorem implements_cmp {q : X86.Cond} {t : Bool}
    (hdec : ∀ k, X86.decode ([0x0F, cc, 0xC0] ++ k) = some (.set q rax, k))
    (ht : q.eval (X86.subFlags (s.reg a) (s.reg b)) = some t) :
    Implements glob (ld EAX a ++ aluRr 0x3B b ++ setFlag cc ++ st n) s
      ((s.setReg n (flag t)).setReg R0 0) := by
  refine implements_reg h0 n fun m hm hs => ?_
  rw [← slot_eq hm hs, ← slot_eq hm hs] at ht
  exact computes_cmp m a b hdec ht

theorem implements_shift {o : X86.Shift} (d : BitVec 5)
    (hdec : ∀ d k, X86.decode ([0xC1, cc, d] ++ k) = some (.shift o (.reg rax) (some d), k)) :
    Implements glob (ld EAX a ++ [0xC1, cc, d.setWidth 8] ++ st n) s
      ((s.setReg n (o.eval (s.reg a) d.toNat).1).setReg R0 0) := by
  refine implements_reg h0 n fun m hm hs => ?_
  rw [← slot_eq hm hs]
  exact computes_shift m a d hdec

theorem implements_shiftv {o : X86.Shift}
    (hdec : ∀ k, X86.decode ([0xD3, cc] ++ k) = some (.shift o (.reg rax) none, k)) :
    Implements glob (ld EAX a ++ ld ECX b ++ [0xD3, cc] ++ st n) s
      ((s.setReg n (o.eval (s.reg a) (s.reg b &&& 0x1F#32).toNat).1).setReg R0 0) := by
  refine implements_reg h0 n fun m hm hs => ?_
  rw [← slot_eq hm hs, ← slot_eq hm hs]
  exact computes_shiftv m a b hdec

/-- The executor skips the move where the code stores the old value back. -/
theorem implements_cmov {q : X86.Cond} {p : Prop} [Decidable p] {t : Bool}
    (hdec : ∀ k, X86.decode ([0x0F, cc, 0xC2] ++ k) = some (.cmov q rax (.reg rdx), k))
    (ht : q.eval (X86.logicFlags (s.reg b)) = some t) (hp : t = true ↔ p) :
    Implements glob (ld EAX n ++ ld EDX a ++ ld ECX b ++ [0x85, 0xC9] ++ [0x0F, cc, 0xC2] ++ st n)
      s ((if p then s.setReg n (s.reg a) else s).setReg R0 0) := by
  rw [setReg_keep hp]
  refine implements_reg h0 n fun m hm hs => ?_
  rw [← slot_eq hm hs] at ht
  rw [← slot_eq hm hs a, ← slot_eq hm hs n]
  exact computes_cmov m n a b hdec ht

theorem implements_aluImm {o : X86.Alu} (imm : Word)
    (hdec : ∀ v k, X86.decode (cc :: e32 v ++ k) =
      some (.aluImm o (X86.imm32 (v.setWidth 8) ((v >>> 8).setWidth 8) ((v >>> 16).setWidth 8)
        ((v >>> 24).setWidth 8)), k))
    (hv : (o.eval (s.reg a) imm).1 = some v) :
    Implements glob (ld EAX a ++ (cc :: e32 imm) ++ st n) s ((s.setReg n v).setReg R0 0) := by
  refine implements_reg h0 n fun m hm hs => ?_
  rw [← slot_eq hm hs] at hv
  exact computes_aluImm m a hdec imm hv

theorem implements_cmpImm {q : X86.Cond} {t : Bool} (imm : Word)
    (hdec : ∀ k, X86.decode ([0x0F, cc, 0xC0] ++ k) = some (.set q rax, k))
    (ht : q.eval (X86.subFlags (s.reg a) imm) = some t) :
    Implements glob (ld EAX a ++ (0x3D :: e32 imm) ++ setFlag cc ++ st n) s
      ((s.setReg n (flag t)).setReg R0 0) := by
  refine implements_reg h0 n fun m hm hs => ?_
  rw [← slot_eq hm hs] at ht
  exact computes_cmpImm m a hdec imm ht

end groups

end implements

section jitEmit
variable (glob : DWord) (h : Host) (i : Word) (s : State)

/-- SPECIAL words, except for the nop, which the executor does not decode. -/
theorem special_implements (ho : opcode i = some .OP_SPECIAL) (hi : (jitEmit i).1 = true)
    (h0 : s.reg 0 = 0) : Implements glob (jitEmit i).2 s (execRegister i s).2 := by
  cases hf : special i with
  | none => simp [jitEmit, ho, hf] at hi
  | some f =>
    cases f with
    | ADDU =>
      simp only [jitEmit, ho, hf, execRegister, retire_snd]
      exact implements_alu h0 _ _ _ (o := .add) (fun _ _ => rfl) rfl
    | SUBU =>
      simp only [jitEmit, ho, hf, execRegister, retire_snd]
      exact implements_alu h0 _ _ _ (o := .sub) (fun _ _ => rfl) rfl
    | AND =>
      simp only [jitEmit, ho, hf, execRegister, retire_snd]
      exact implements_alu h0 _ _ _ (o := .and) (fun _ _ => rfl) rfl
    | OR =>
      simp only [jitEmit, ho, hf, execRegister, retire_snd]
      exact implements_alu h0 _ _ _ (o := .or) (fun _ _ => rfl) rfl
    | XOR =>
      simp only [jitEmit, ho, hf, execRegister, retire_snd]
      exact implements_alu h0 _ _ _ (o := .xor) (fun _ _ => rfl) rfl
    | NOR =>
      simp only [jitEmit, ho, hf, execRegister, retire_snd]
      refine implements_reg h0 (rd i) fun m hm hs => ?_
      have hor : Computes m (ld EAX (rs i) ++ aluRr 0x0B (rt i)) (s.reg (rs i) ||| s.reg (rt i)) :=
        computes_alu m (rs i) (rt i) (o := .or) (fun _ _ => rfl)
          (by rw [slot_eq hm hs, slot_eq hm hs]; rfl)
      exact hor.append fun m1 _ hv => hv ▸ computes_not m1
    | SLT =>
      simp only [jitEmit, ho, hf, execRegister, retire_snd]
      exact implements_cmp h0 _ _ _ (q := .l) (fun _ => rfl) (X86.eval_l_sub _ _)
    | SLTU =>
      simp only [jitEmit, ho, hf, execRegister, retire_snd]
      exact implements_cmp h0 _ _ _ (q := .b) (fun _ => rfl) (X86.eval_b_sub _ _)
    | SLL =>
      simp only [jitEmit, ho, hf, execRegister, retire_snd]
      exact implements_shift h0 _ _ (o := .shl) (shamt i) (fun _ _ => rfl)
    | SRL =>
      simp only [jitEmit, ho, hf, execRegister, retire_snd]
      exact implements_shift h0 _ _ (o := .shr) (shamt i) (fun _ _ => rfl)
    | SRA =>
      simp only [jitEmit, ho, hf, execRegister, retire_snd]
      exact implements_shift h0 _ _ (o := .sar) (shamt i) (fun _ _ => rfl)
    | SLLV =>
      simp only [jitEmit, ho, hf, execRegister, retire_snd]
      exact implements_shiftv h0 _ _ _ (o := .shl) (fun _ => rfl)
    | SRLV =>
      simp only [jitEmit, ho, hf, execRegister, retire_snd]
      exact implements_shiftv h0 _ _ _ (o := .shr) (fun _ => rfl)
    | SRAV =>
      simp only [jitEmit, ho, hf, execRegister, retire_snd]
      exact implements_shiftv h0 _ _ _ (o := .sar) (fun _ => rfl)
    | MFHI =>
      simp only [jitEmit, ho, hf, execRegister, retire_snd]
      refine implements_reg h0 (rd i) fun m hm hs => ?_
      rw [← hs.hi, ← hm]
      exact computes_hi m
    | MFLO =>
      simp only [jitEmit, ho, hf, execRegister, retire_snd]
      refine implements_reg h0 (rd i) fun m hm hs => ?_
      rw [← hs.lo, ← hm]
      exact computes_lo m
    | MTHI =>
      simp only [jitEmit, ho, hf, execRegister, retire_snd]
      refine implements_hi h0 fun m hm hs => ?_
      rw [← slot_eq hm hs]
      exact computes_ld m (rs i)
    | MTLO =>
      simp only [jitEmit, ho, hf, execRegister, retire_snd]
      refine implements_lo h0 fun m hm hs => ?_
      rw [← slot_eq hm hs]
      exact computes_ld m (rs i)
    | MOVZ =>
      simp only [jitEmit, ho, hf, execRegister, retire_snd]
      exact implements_cmov h0 _ _ _ (q := .e) (fun _ => rfl) (X86.eval_e_logic _) beq_iff_eq
    | MOVN =>
      simp only [jitEmit, ho, hf, execRegister, retire_snd]
      exact implements_cmov h0 _ _ _ (q := .ne) (fun _ => rfl) (X86.eval_ne_logic _) bne_iff_ne
    | _ => simp [jitEmit, ho, hf] at hi

theorem immediate_implements {o : Opcode} (ho : opcode i = some o) (hi : o ∈ inlinedImmediate)
    (h0 : s.reg 0 = 0) : Implements glob (jitEmit i).2 s (execImmediate h i s).2 := by
  simp only [inlinedImmediate, List.mem_cons, List.not_mem_nil, or_false] at hi
  rcases hi with rfl | rfl | rfl | rfl | rfl | rfl | rfl <;>
    simp only [jitEmit, ho, execImmediate, retire_snd]
  · exact implements_aluImm h0 _ _ (o := .add) (simm i) (fun _ _ => rfl) rfl
  · exact implements_aluImm h0 _ _ (o := .and) _ (fun _ _ => rfl) rfl
  · exact implements_aluImm h0 _ _ (o := .or) _ (fun _ _ => rfl) rfl
  · exact implements_aluImm h0 _ _ (o := .xor) _ (fun _ _ => rfl) rfl
  · exact implements_cmpImm h0 _ _ (q := .l) (simm i) (fun _ => rfl) (X86.eval_l_sub _ _)
  · exact implements_cmpImm h0 _ _ (q := .b) (simm i) (fun _ => rfl) (X86.eval_b_sub _ _)
  · exact implements_lui h0 (rt i) _

/-- The code of a translated word does what the executor does to the integer state. -/
theorem jitEmit_implements (hi : (jitEmit i).1 = true) (h0 : s.reg 0 = 0) :
    Implements glob (jitEmit i).2 s (execInst h i s).2 := by
  cases ho : opcode i with
  | none => simp [jitEmit, ho] at hi
  | some o =>
    cases o with
    | OP_SPECIAL =>
      have himpl := special_implements glob i s ho hi h0
      by_cases hz : i = 0
      · -- The nop is an `sll` of `$0` into `$0`.
        subst hz
        have hsll : (execRegister 0 s).2 = s := by
          have hf : special 0 = some .SLL := by decide
          simp only [execRegister, hf, retire_snd]
          rw [State.setReg, State.setReg, show rd 0 = R0 by decide, Function.update_idem]
          exact setReg_R0_self h0
        rw [hsll] at himpl
        simpa [execInst] using himpl
      · cases hf : special i with
        | none => simp [jitEmit, ho, hf] at hi
        | some f =>
          have hs : f ≠ .SYSCALL := by rintro rfl; simp [jitEmit, ho, hf] at hi
          have hb : f ≠ .BREAK := by rintro rfl; simp [jitEmit, ho, hf] at hi
          rwa [execInst_register h hz ho hf hs hb s]
    | ADDIU | ANDI | ORI | XORI | SLTI | SLTIU | LUI =>
      rw [execInst_immediate h i s ho (by decide)]
      exact immediate_implements glob h i s ho (by decide) h0
    | _ => simp [jitEmit, ho] at hi

end jitEmit

def GLOBAL_SIZE : ℕ := 1200

/-- The two stack slots of a call (the return address and the saved `r15`) that lie below
`top` are not part of the structure. -/
def StackClear (glob top : DWord) : Prop :=
  ∀ k < 16, GLOBAL_SIZE ≤ (top - 16 + BitVec.ofNat 64 k - glob).toNat

section stack
variable {glob top : DWord} (hclear : StackClear glob top)
include hclear

/-- A byte of the structure is in neither slot. -/
theorem StackClear.slots (a : DWord) (ha : (a - glob).toNat < GLOBAL_SIZE) :
    16 ≤ (a - (top - 16)).toNat := by
  by_contra hlt
  have hk := hclear (a - (top - 16)).toNat (by omega)
  have ha' : top - 16 + BitVec.ofNat 64 (a - (top - 16)).toNat = a := by
    rw [BitVec.ofNat_toNat, BitVec.setWidth_eq]
    bv_omega
  rw [ha'] at hk
  omega

/-- The writes to the slots leave the structure alone. -/
theorem StackClear.struct (mem : Bytes.Store 64) (x y : DWord) (a : DWord)
    (ha : (a - glob).toNat < GLOBAL_SIZE) :
    Bytes.store64 (Bytes.store64 mem (top - 8) x) (top - 16) y a = mem a := by
  have hslots := hclear.slots a ha
  have hupper : 8 ≤ (a - (top - 8)).toNat := by bv_omega
  rw [Bytes.store64_of_le _ _ _ _ (by decide) (by omega),
    Bytes.store64_of_le _ _ _ _ (by decide) hupper]

/-- Memory that agrees outside the structure has the same words in the slots. -/
theorem StackClear.load (mem mem' : Bytes.Store 64)
    (h : ∀ a, GLOBAL_SIZE ≤ (a - glob).toNat → mem' a = mem a) :
    Bytes.load64 mem' (top - 16) = Bytes.load64 mem (top - 16) ∧
      Bytes.load64 mem' (top - 8) = Bytes.load64 mem (top - 8) := by
  refine ⟨Bytes.load64_congr _ _ _ fun k hk => h _ (hclear k (by omega)),
    Bytes.load64_congr _ _ _ fun k hk => h _ ?_⟩
  have hk8 := hclear (8 + k) (by omega)
  have heq : top - 16 + BitVec.ofNat 64 (8 + k) = top - 8 + BitVec.ofNat 64 k := by
    rw [BitVec.ofNat_add]
    bv_omega
  rwa [heq] at hk8

end stack

/-- Both slots can be read back. -/
theorem load64_slots (mem : Bytes.Store 64) (top x y : DWord) :
    let mem' := Bytes.store64 (Bytes.store64 mem (top - 8) x) (top - 16) y
    Bytes.load64 mem' (top - 16) = y ∧ Bytes.load64 mem' (top - 8) = x := by
  intro mem'
  refine ⟨Bytes.load64_store64_self _ _ _ (by decide), ?_⟩
  have hframe : Bytes.load64 mem' (top - 8) =
      Bytes.load64 (Bytes.store64 mem (top - 8) x) (top - 8) := by
    apply Bytes.load64_congr
    intro k hk
    apply Bytes.store64_of_le _ _ _ _ (by decide)
    have hoff : (top - 8 + BitVec.ofNat 64 k - (top - 16)).toNat = 8 + k := by bv_omega
    omega
  rw [hframe]
  exact Bytes.load64_store64_self _ _ _ (by decide)

theorem imm64_e64 (v : DWord) :
    X86.imm32 ((v >>> 32).setWidth 32 |>.setWidth 8) (((v >>> 32).setWidth 32 >>> 8 : Word).setWidth 8)
        (((v >>> 32).setWidth 32 >>> 16 : Word).setWidth 8)
        (((v >>> 32).setWidth 32 >>> 24 : Word).setWidth 8) ++
      X86.imm32 ((v.setWidth 32).setWidth 8) ((v.setWidth 32 >>> 8 : Word).setWidth 8)
        ((v.setWidth 32 >>> 16 : Word).setWidth 8) ((v.setWidth 32 >>> 24 : Word).setWidth 8) = v := by
  rw [imm32_e32, imm32_e32]
  exact Bytes.append_halves v

section block
variable (glob : DWord) (m : Machine)

theorem runs_prologue : Runs (prologue glob) m
    (((m.setReg rsp (m.gpr rsp - 8)).setMem
      (Bytes.store64 m.mem (m.gpr rsp - 8) (m.gpr r15))).setReg r15 glob) := by
  have hpush : Runs [0x41, 0x57] m ((m.setReg rsp (m.gpr rsp - 8)).setMem
      (Bytes.store64 m.mem (m.gpr rsp - 8) (m.gpr r15))) :=
    X86.runs_instr (i := .push r15) (fun _ => rfl) (fun _ => rfl)
  have hmov (m : Machine) : Runs ([0x49, 0xBF] ++ e64 glob) m (m.setReg r15 glob) := by
    apply X86.runs_instr (i := .movabs r15 glob)
    · intro k
      refine Eq.trans (b := some (.movabs r15 _, k)) rfl ?_
      rw [imm64_e64]
    · exact fun _ => rfl
  exact hpush.append (hmov _)

/-- The epilogue up to its `ret`. -/
theorem runs_epilogue (pc : Word) :
    Runs ([0x48, 0xB8] ++ e64 (glob + PC_OFFSET) ++ ([0xC7, 0x00] ++ e32 pc) ++ [0x41, 0x5F]) m
      ((((m.setReg rax (glob + PC_OFFSET)).setMem
          (Bytes.store32 m.mem (field glob 1088) pc)).setReg rsp (m.gpr rsp + 8)).setReg r15
        (Bytes.load64 (Bytes.store32 m.mem (field glob 1088) pc) (m.gpr rsp))) := by
  have hmov : Runs ([0x48, 0xB8] ++ e64 (glob + PC_OFFSET)) m (m.setReg rax (glob + PC_OFFSET)) := by
    apply X86.runs_instr (i := .movabs rax (glob + PC_OFFSET))
    · intro k
      refine Eq.trans (b := some (.movabs rax _, k)) rfl ?_
      rw [imm64_e64]
    · exact fun _ => rfl
  have hst (m : Machine) : Runs ([0xC7, 0x00] ++ e32 pc) m
      (m.setMem (Bytes.store32 m.mem (m.gpr rax) pc)) := by
    apply X86.runs_instr (i := .movImm (.mem rax 0) pc)
    · intro k
      refine Eq.trans (b := some (.movImm (.mem rax 0) _, k)) rfl ?_
      rw [imm32_e32]
    · intro k
      have hdisp : m.gpr rax + 0 = m.gpr rax := BitVec.add_zero _
      simp only [X86.exec, Machine.write, X86.goto_gpr, hdisp]
      rfl
  have hpop (m : Machine) : Runs [0x41, 0x5F] m
      ((m.setReg rsp (m.gpr rsp + 8)).setReg r15 (Bytes.load64 m.mem (m.gpr rsp))) :=
    X86.runs_instr (i := .pop r15) (fun _ => rfl) (fun _ => rfl)
  -- `rax` has the address of `pc` in between.
  have hall := (hmov.append (hst _)).append (hpop _)
  rw [X86.setReg_gpr_self] at hall
  exact hall

end block

section words
variable (glob : DWord) (h : Host)

theorem runWords_implements {words : List Word} (hw : ∀ i ∈ words, (jitEmit i).1 = true)
    (s : State) (h0 : s.reg 0 = 0) :
    Implements glob (words.flatMap fun i => (jitEmit i).2) s (runWords h words s) := by
  induction words generalizing s with
  | nil => exact Implements.refl glob s
  | cons i words ih =>
    rw [List.flatMap_cons, runWords_cons]
    have hi := hw i (List.mem_cons_self ..)
    have hrest := ih (fun k hk => hw k (List.mem_cons_of_mem i hk)) (execInst h i s).2
      (execInst_reg_zero h i s h0)
    exact (jitEmit_implements glob h i s hi h0).append hrest

/-- What calling the native code of a block does, whatever code follows it: the effect of
the block on the integer state and on `pc`, `r15` and the stack pointer back, and nothing
else written but the stack below it. -/
structure CallEffect (s' : State) (m m' : Machine) : Prop where
  rep : Represents glob s' m'.mem
  pc : Bytes.load32 m'.mem (field glob 1088) = s'.pc
  r15 : m'.gpr r15 = m.gpr r15
  rsp : m'.gpr rsp = m.gpr rsp
  frame : ∀ a, 16 ≤ (a - (m.gpr X86.rsp - 16)).toNat → INT_SIZE ≤ (a - glob).toNat →
    ((a - glob).toNat < 1088 ∨ 1092 ≤ (a - glob).toNat) → m'.mem a = m.mem a

theorem block_call (b : Block) (s : State) (h0 : s.reg 0 = 0) (m : Machine) (addr : DWord)
    (rest : List Byte) (hs : Represents glob s m.mem) (hclear : StackClear glob (m.gpr rsp)) :
    ∃ m', Run.run X86.step (b.code glob).length (m.call addr (b.code glob ++ rest)) =
        some (.returned addr m') ∧ m'.code = rest ∧
      CallEffect glob (blockEffect h b s) m m' := by
  let top := m.gpr rsp
  let pc := b.pc + BitVec.ofNat 32 (4 * b.words.length)
  -- After the prologue: both slots written, `r15` at the structure.
  let mem1 := Bytes.store64 (Bytes.store64 m.mem (top - 8) addr) (top - 16) (m.gpr r15)
  let m0 := m.call addr []
  have htop : m0.gpr rsp = top - 8 := X86.setReg_gpr_self m rsp (m.gpr rsp - 8)
  have hsub : top - 8 - 8 = top - 16 := by bv_omega
  have h15 : m0.gpr r15 = m.gpr r15 := X86.setReg_gpr_of_ne m rsp r15 (m.gpr rsp - 8) (by decide)
  have hpro := runs_prologue glob m0
  rw [htop, hsub, h15] at hpro
  let m1 := ((m0.setReg rsp (top - 16)).setMem mem1).setReg r15 glob
  have hrep1 : Represents glob s m1.mem :=
    hs.congr fun a ha => hclear.struct m.mem addr (m.gpr r15) a (lt_trans ha (by decide))
  -- The body.
  obtain ⟨m2, hbody, hrep2, hgpr2, hmem2⟩ := runWords_implements glob h b.inlined s h0 m1
    (X86.setReg_gpr_self _ r15 glob) hrep1
  have hsp2 : m2.gpr rsp = top - 16 := by
    rw [hgpr2 _ (by decide) (by decide) (by decide)]
    exact (X86.setReg_gpr_of_ne _ r15 rsp glob (by decide)).trans (X86.setReg_gpr_self m0 rsp _)
  -- The epilogue stores `pc` and reads the slots back.
  have hepi := runs_epilogue glob m2 pc
  rw [hsp2] at hepi
  let mem3 := Bytes.store32 m2.mem (field glob 1088) pc
  have hpcfield (a : DWord) (ha : (a - glob).toNat < 1088 ∨ 1092 ≤ (a - glob).toNat) :
      mem3 a = m2.mem a := Bytes.store32_offset_of_ne m2.mem glob pc a (by decide) ha
  have hslots : Bytes.load64 mem3 (top - 16) = m.gpr r15 ∧ Bytes.load64 mem3 (top - 8) = addr := by
    obtain ⟨hl, hu⟩ := hclear.load mem1 mem3 fun a ha => by
      rw [hpcfield a (.inr (le_trans (by decide) ha)), hmem2 a (le_trans (by decide) ha)]
      rfl
    obtain ⟨hl', hu'⟩ := load64_slots m.mem top addr (m.gpr r15)
    exact ⟨hl.trans hl', hu.trans hu'⟩
  have hsp3 : top - 16 + 8 = top - 8 := by bv_omega
  rw [hslots.1, hsp3] at hepi
  let m3 := (((m2.setReg rax (glob + PC_OFFSET)).setMem mem3).setReg rsp (top - 8)).setReg r15
    (m.gpr r15)
  have hspret : m3.gpr rsp = top - 8 :=
    (X86.setReg_gpr_of_ne _ r15 rsp _ (by decide)).trans (X86.setReg_gpr_self _ rsp _)
  -- The whole run, up to and including the `ret`.
  obtain ⟨n, hle, hrun⟩ := ((hpro.append hbody).append hepi) (0xC3 :: rest)
  have hret : X86.step (m3.goto (0xC3 :: rest)) =
      .done (.returned addr ((m3.goto rest).setReg rsp top)) := by
    have hdecode : X86.decode (0xC3 :: rest) = some (.ret, rest) := rfl
    rw [X86.step_of_decode m3 hdecode]
    have hend : top - 8 + 8 = top := by bv_omega
    simp only [X86.exec, X86.goto_gpr, X86.goto_mem, hspret, hend]
    rw [show m3.mem = mem3 from rfl, hslots.2]
  have hcode : b.code glob =
      prologue glob ++ b.words.flatMap (fun i => (jitEmit i).2) ++
        ([0x48, 0xB8] ++ e64 (glob + PC_OFFSET) ++ ([0xC7, 0x00] ++ e32 pc) ++ [0x41, 0x5F]) ++
          [0xC3] := by
    simp [Block.code, blockCode, epilogue, pc]
  refine ⟨(m3.goto rest).setReg rsp top, ?_, rfl, ?_⟩
  · have hall : Run.run X86.step (n + 1) (m.call addr (b.code glob ++ rest)) =
        some (.returned addr ((m3.goto rest).setReg rsp top)) := by
      rw [hcode, List.append_assoc _ [0xC3] rest, List.singleton_append]
      rw [show m.call addr _ = m0.goto _ from rfl, Run.run_add_of_steps hrun, Run.run, hret]
    refine Run.run_mono hall ?_
    rw [hcode, List.length_append]
    exact Nat.add_le_add_right hle 1
  · refine ⟨?_, ?_, ?_, ?_, ?_⟩
    · have hrep3 : Represents glob (runWords h b.words s) mem3 :=
        hrep2.congr fun a ha => hpcfield a (.inl (lt_trans ha (by decide)))
      exact ⟨hrep3.reg, hrep3.hi, hrep3.lo⟩
    · exact Bytes.load32_store32_self _ _ _ (by decide)
    · rw [X86.setReg_gpr_of_ne _ _ _ _ (by decide)]
      have h15ret : m3.gpr r15 = m.gpr r15 := X86.setReg_gpr_self _ r15 (m.gpr r15)
      exact h15ret
    · exact X86.setReg_gpr_self (m3.goto rest) rsp top
    · intro a hstack hint hpc
      change mem3 a = m.mem a
      have hupper : 8 ≤ (a - (top - 8)).toNat := by
        have hst : 16 ≤ (a - (top - 16)).toNat := hstack
        bv_omega
      rw [hpcfield a hpc, hmem2 a hint]
      have hlower : 8 ≤ (a - (top - 16)).toNat := le_trans (by decide) hstack
      have hold : mem1 a = Bytes.store64 m.mem (top - 8) addr a :=
        Bytes.store64_of_le _ _ _ _ (by decide) hlower
      exact hold.trans (Bytes.store64_of_le _ _ _ _ (by decide) hupper)

end words

def nativeCode (j : Jit) (b : Block) : List Byte :=
  match j.codeBuf with
  | some buf => (List.range (min j.codeOff j.codeCap - b.fn)).map fun k => buf (b.fn + k)
  | none => []

theorem map_range_of_holdsAt {buf : ℕ → Byte} {fn : ℕ} {bytes : List Byte}
    (h : HoldsAt buf fn bytes) : (List.range bytes.length).map (fun k => buf (fn + k)) = bytes := by
  apply List.ext_getElem
  · simp
  · intro k hk hk'
    simpa using h k hk'

section native
variable {glob : DWord} {j : Jit} {b : Block}

theorem nativeCode_eq (hb : b.Intact glob j) (hin : b.Inside glob j) :
    ∃ rest, nativeCode j b = b.code glob ++ rest := by
  obtain ⟨buf, hbuf, hheld⟩ := hb.whole hin
  have hsplit : min j.codeOff j.codeCap - b.fn =
      (b.code glob).length + (min j.codeOff j.codeCap - b.fn - (b.code glob).length) := by
    have hle := hb.1
    unfold Block.Inside at hin
    omega
  rw [nativeCode, hbuf]
  dsimp only
  rw [hsplit, List.range_add, List.map_append, map_range_of_holdsAt hheld]
  exact ⟨_, rfl⟩

/-- Of a block that runs over its end the buffer has a proper part. -/
theorem nativeCode_cut (hb : b.Intact glob j) (hin : ¬ b.Inside glob j) :
    ∃ cut, b.code glob = nativeCode j b ++ cut ∧ cut ≠ [] := by
  obtain ⟨hle, buf, hbuf, hheld⟩ := hb
  unfold Block.Inside at hin
  have hlength : ((b.code glob).take (j.codeCap - b.fn)).length =
      min j.codeOff j.codeCap - b.fn := by
    rw [List.length_take]
    omega
  have hpart : nativeCode j b = (b.code glob).take (j.codeCap - b.fn) := by
    rw [nativeCode, hbuf]
    dsimp only
    rw [← hlength, map_range_of_holdsAt hheld]
  refine ⟨(b.code glob).drop (j.codeCap - b.fn), ?_, ?_⟩
  · rw [hpart, List.take_append_drop]
  · intro hnil
    have hpos : 0 < (b.code glob).length := by simp [Block.code, blockCode, prologue]
    have hdrop := congrArg List.length hnil
    rw [List.length_drop, List.length_nil] at hdrop
    omega

/-- A call of a block comes back exactly when the whole block is in the buffer, and then with
the effect of its instructions. -/
theorem native_call (h : Host) (hb : b.Intact glob j) {s : State} (h0 : s.reg 0 = 0)
    {m : Machine} (addr : DWord) (hs : Represents glob s m.mem)
    (hclear : StackClear glob (m.gpr rsp)) :
    (b.Inside glob j → ∃ m',
      Run.run X86.step (nativeCode j b).length (m.call addr (nativeCode j b)) =
        some (.returned addr m') ∧ CallEffect glob (blockEffect h b s) m m') ∧
    (¬ b.Inside glob j → ∀ n a m',
      Run.run X86.step n (m.call addr (nativeCode j b)) ≠ some (.returned a m')) := by
  constructor
  · intro hin
    obtain ⟨rest, hcode⟩ := nativeCode_eq hb hin
    obtain ⟨m', hrun, _, heffect⟩ := block_call glob h b s h0 m addr rest hs hclear
    rw [← hcode] at hrun
    exact ⟨m', Run.run_mono hrun (by simp [hcode]), heffect⟩
  · intro hin n a m'
    obtain ⟨cut, hcode, hcut⟩ := nativeCode_cut hb hin
    obtain ⟨m'', hrun, hend, _⟩ := block_call glob h b s h0 m addr [] hs hclear
    rw [List.append_nil, hcode] at hrun
    exact X86.not_returned_of_cut hrun hend hcut

/-- A new block, called where it was compiled for: it takes as many steps of the interpreter
as it has words, if there was room for it. -/
theorem native_call_compiled (h : Host) {mem : Memory} {startPc : Word} {j' : Jit}
    (hc : compileBlock glob mem startPc j = (some b, j')) {s : State} (hmem : s.memory = mem)
    (hpc : s.pc = startPc) (hpending : s.branchPending = false) (h0 : s.reg 0 = 0) {m : Machine}
    (addr : DWord) (hs : Represents glob s m.mem) (hclear : StackClear glob (m.gpr rsp)) :
    (∃ s' m', Run.Steps (executeStep h) b.words.length s s' ∧
      Run.Returns X86.step (m.call addr (nativeCode j' b)) (.returned addr m') ∧
      CallEffect glob s' m m') ↔ Roomy mem startPc j := by
  obtain ⟨hbpc, hmatch, -, -, -, hintact⟩ := compileBlock_some hc
  obtain ⟨hback, hlost⟩ := native_call h hintact h0 addr hs hclear
  rw [← inside_iff_of_some hc]
  constructor
  · rintro ⟨s', m', -, ⟨n, hret⟩, -⟩
    by_contra hin
    exact hlost hin n addr m' hret
  · intro hin
    obtain ⟨m', hret, heffect⟩ := hback hin
    refine ⟨blockEffect h b s, m', ?_, ⟨_, hret⟩, heffect⟩
    exact steps_block h (hmem.symm ▸ hmatch) (hbpc.trans hpc.symm) hpending

end native

/-- Machine-level correctness of the emitter. A word is either left alone or translated;
run from any machine whose `r15` points to the structure and whose `$0` is clear, the
translation changes the integer state as the executor does, which succeeds without
scheduling a branch, and no other byte. Calling a compiled block from any machine leaves
registers, HI, LO and `pc` as that many interpreter steps do, with `r15` and the stack
pointer restored, exactly when there was room for the block. -/
theorem jit_code_correct (h : Host) (glob : DWord) :
    (∀ i, jitEmit i = (false, []) ∨
      (jitEmit i).1 = true ∧ ∀ s : State, s.reg 0 = 0 →
        (∃ reg hi lo, execInst h i s = (.ok, { s with reg := reg, hi := hi, lo := lo })) ∧
        ∀ m : Machine, m.gpr r15 = glob → Represents glob s m.mem →
          ∃ m', Run.Returns X86.step (m.goto (jitEmit i).2) (.fell m') ∧
            Represents glob (execInst h i s).2 m'.mem ∧
            (∀ r, r ≠ rax → r ≠ rcx → r ≠ rdx → m'.gpr r = m.gpr r) ∧
            ∀ a, INT_SIZE ≤ (a - glob).toNat → m'.mem a = m.mem a) ∧
    (∀ mem startPc j b j', compileBlock glob mem startPc j = (some b, j') →
      ∀ s : State, s.memory = mem → s.pc = startPc → s.branchPending = false → s.reg 0 = 0 →
      ∀ (m : Machine) (addr : DWord), Represents glob s m.mem → StackClear glob (m.gpr rsp) →
        ((∃ s' m', Run.Steps (executeStep h) b.words.length s s' ∧
          Run.Returns X86.step (m.call addr (nativeCode j' b)) (.returned addr m') ∧
          CallEffect glob s' m m') ↔ Roomy mem startPc j)) := by
  refine ⟨fun i => ?_, ?_⟩
  · rcases hi : jitEmit i with ⟨_ | _, code⟩
    · have hempty := jitEmit_skipped (i := i) (by simp [hi])
      rw [hi] at hempty
      exact .inl (congrArg (Prod.mk false) hempty)
    · have htrue : (jitEmit i).1 = true := by rw [hi]
      refine .inr ⟨rfl, fun s h0 => ⟨jitEmit_frame h htrue s, fun m hm hs => ?_⟩⟩
      obtain ⟨m', hrun, hrep, hgpr, hmem⟩ := jitEmit_implements glob h i s htrue h0 m hm hs
      -- With nothing behind the code the machine falls off its end.
      obtain ⟨n, -, hn⟩ := hrun []
      rw [List.append_nil, hi] at hn
      refine ⟨m'.goto [], ⟨n + 1, ?_⟩, hrep, hgpr, hmem⟩
      rw [Run.run_add_of_steps hn]
      rfl
  · intro mem startPc j b j' hc s hmem hpc hpending h0 m addr hs hclear
    exact native_call_compiled h hc hmem hpc hpending h0 addr hs hclear

def demoMachine : Machine :=
  ⟨Function.update (fun _ => 0x10000) rsp 0x8000, ⟨none, none, none, none⟩, fun _ => 0, []⟩

/-- All guest registers are zero there, wherever the structure is. -/
theorem demoMachine_represents (glob : DWord) (mem : Memory) (pc : Word) :
    Represents glob { resetState mem pc with reg := fun _ => 0 } demoMachine.mem := by
  have hzero : (0#8 ++ 0#8 ++ 0#8 ++ 0#8 : BitVec 32) = 0 := by decide
  exact ⟨fun _ => hzero, hzero, hzero⟩

theorem demoMachine_stackClear : StackClear 0x10000 (demoMachine.gpr rsp) ∧
    StackClear 0 (demoMachine.gpr rsp) := by
  change StackClear 0x10000 0x8000 ∧ StackClear 0 0x8000
  unfold StackClear
  decide

/-- `addiu r8, r8, 1` alone and as a block, with the structure at 0x10000. -/
theorem jit_code_correct_addiu :
    let s : State := { resetState (flatImage [0x25080001#32]) 0 with reg := fun _ => 0 }
    let compiled := compileBlock 0x10000 s.memory 0 (emitInit (some fun _ => 0))
    (∃ m', Run.Returns X86.step (demoMachine.goto (jitEmit 0x25080001#32).2) (.fell m') ∧
      Bytes.load32 m'.mem (field 0x10000 32) = 1) ∧
    ∃ b, compiled.1 = some b ∧ ∃ s' m', Run.Steps (executeStep nullHost) b.words.length s s' ∧
      Run.Returns X86.step (demoMachine.call 0x400 (nativeCode compiled.2 b))
        (.returned 0x400 m') ∧
      Bytes.load32 m'.mem (field 0x10000 1088) = s'.pc := by
  intro s compiled
  obtain ⟨hword, hblock⟩ := jit_code_correct nullHost 0x10000
  have hs : Represents 0x10000 s demoMachine.mem := demoMachine_represents _ _ _
  refine ⟨?_, ?_⟩
  · rcases hword 0x25080001#32 with hnone | ⟨-, hrun⟩
    · exact absurd (congrArg Prod.fst hnone) (by decide)
    · obtain ⟨m', hret, hrep, -⟩ := (hrun s rfl).2 demoMachine rfl hs
      exact ⟨m', hret, (hrep.reg 8).trans (by decide)⟩
  · have hsome : compiled.1.isSome = true := by decide +kernel
    obtain ⟨b, hb⟩ := Option.isSome_iff_exists.mp hsome
    have hroom : Roomy s.memory 0 (emitInit (some fun _ => 0)) := roomy_of_longest _ _ _ (by decide)
    obtain ⟨s', m', hn, hret, heffect⟩ := (hblock s.memory 0 _ b compiled.2 (Prod.ext hb rfl) s
      rfl rfl rfl rfl demoMachine 0x400 hs demoMachine_stackClear.1).mpr hroom
    exact ⟨b, hb, s', m', hn, hret, heffect.pc⟩

/-- The 861st block of the program of `slti`, which does not come back. -/
theorem jit_code_correct_fails :
    ¬ ∀ (h : Host) (glob : DWord) (mmap : Option (ℕ → Byte)) (j : Jit), CompileRun glob mmap j →
      ∀ mem startPc b j', compileBlock glob mem startPc j = (some b, j') →
      ∀ s : State, s.memory = mem → s.pc = startPc → s.branchPending = false → s.reg 0 = 0 →
      ∀ (m : Machine) (addr : DWord), Represents glob s m.mem → StackClear glob (m.gpr rsp) →
        ∃ s' m', Run.Steps (executeStep h) b.words.length s s' ∧
          Run.Returns X86.step (m.call addr (nativeCode j' b)) (.returned addr m') ∧
          CallEffect glob s' m m' := by
  intro hall
  let pc := BitVec.ofNat 32 (4096 * 860)
  let s : State := { resetState sltiMemory pc with reg := fun _ => 0 }
  have hrun := compileRun_slti 860
  obtain ⟨hbuf, hoff⟩ := codeOff_slti 860 le_rfl
  have hword : (jitEmit (wordAt sltiMemory pc)).1 = true :=
    blockWords_ne_nil_iff.mp (blockWords_slti_ne le_rfl)
  have hfree : (sltiJit 860).codeOff + 8192 ≤ (sltiJit 860).codeCap := by
    rw [hoff, hrun.codeCap]
    omega
  obtain ⟨b, j', hc⟩ := compileBlock_of_word 0 hbuf hfree hword
  have hs := demoMachine_represents 0 sltiMemory pc
  have hreturns := hall nullHost 0 _ _ hrun sltiMemory pc b j' hc s rfl rfl rfl rfl demoMachine
    0x400 hs demoMachine_stackClear.2
  have hroom := (native_call_compiled nullHost hc rfl rfl rfl rfl 0x400 hs
    demoMachine_stackClear.2).mp hreturns
  exact absurd ((roomy_slti le_rfl hbuf hrun.codeCap hoff).mp hroom) (lt_irrefl 860)

end MyMips
