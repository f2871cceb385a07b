import MyMips.Lib.Partial
import MyMips.GuestMemory

namespace MyMips

structure PlainWord (a : Word) : Prop where
  input : a &&& ~~~3#32 ≠ GPU_INPUT
  flush : a &&& ~~~3#32 ≠ GPU_FLUSH

section aligned
variable (a : Word)

theorem and_three : (a &&& 3#32).toNat = a.toNat % 4 := by
  rw [BitVec.toNat_and]
  exact Nat.and_two_pow_sub_one_eq_mod a.toNat 2

theorem align_mod_four : (a &&& ~~~3#32).toNat % 4 = 0 := by
  rw [← and_three, BitVec.and_assoc]
  simp

/-- An address is its aligned word plus its last two bits. -/
theorem align_add : (a &&& ~~~3#32) + BitVec.ofNat 32 (a.toNat % 4) = a := by
  have hlow : BitVec.ofNat 32 (a.toNat % 4) = a &&& 3#32 := by
    rw [← and_three, BitVec.ofNat_toNat, BitVec.setWidth_eq]
  have hdisj : (a &&& ~~~3#32) &&& (a &&& 3#32) = 0#32 := by
    apply BitVec.eq_of_getLsbD_eq
    intro i hi
    simp only [BitVec.getLsbD_and, BitVec.getLsbD_not]
    grind
  rw [hlow, BitVec.add_eq_or_of_and_eq_zero _ _ hdisj]
  apply BitVec.eq_of_getLsbD_eq
  intro i hi
  simp only [BitVec.getLsbD_and, BitVec.getLsbD_or, BitVec.getLsbD_not]
  grind

theorem shift_left : (24 - 8 * (a &&& 3#32)).toNat = 8 * (3 - a.toNat % 4) := by
  have h3 := and_three a
  have hlt : a.toNat % 4 < 4 := Nat.mod_lt _ (by omega)
  rw [BitVec.toNat_sub, BitVec.toNat_mul, h3]
  have h24 : (24 : Word).toNat = 24 := rfl
  have h8 : (8 : Word).toNat = 8 := rfl
  rw [h24, h8]
  omega

theorem shift_right : (8 * (a &&& 3#32)).toNat = 8 * (a.toNat % 4) := by
  have h3 := and_three a
  have hlt : a.toNat % 4 < 4 := Nat.mod_lt _ (by omega)
  have h8 : (8 : Word).toNat = 8 := rfl
  rw [BitVec.toNat_mul, h3, h8]
  omega

end aligned

section instructions
variable (h : Host) {i : Word} {s : State}

theorem align_mod (a : Word) :
    ((a &&& ~~~3#32) + BitVec.ofNat 32 (a.toNat % 4)).toNat % 4 = a.toNat % 4 := by
  rw [align_add]

theorem execInst_lwl (ho : opcode i = some .LWL) (ha : PlainWord (memAddr i s)) :
    execInst h i s = retire (s.setReg (rt i)
      (Bytes.loadLeft s.memory (memAddr i s) (s.reg (rt i)))) := by
  have hmerge := Bytes.loadLeft_eq (m := s.memory) (s.reg (rt i)) (align_mod (memAddr i s))
  rw [align_add] at hmerge
  rw [execInst_of_opcode h ho (by decide), hmerge]
  simp only [execImmediate, ho, loadWord_eq h _ s ha.input, BitVec.shiftLeft_eq', shift_left]

theorem execInst_lwr (ho : opcode i = some .LWR) (ha : PlainWord (memAddr i s)) :
    execInst h i s = retire (s.setReg (rt i)
      (Bytes.loadRight s.memory (memAddr i s) (s.reg (rt i)))) := by
  have hmerge := Bytes.loadRight_eq (m := s.memory) (s.reg (rt i)) (align_mod (memAddr i s))
  rw [align_add] at hmerge
  rw [execInst_of_opcode h ho (by decide), hmerge]
  simp only [execImmediate, ho, loadWord_eq h _ s ha.input, BitVec.ushiftRight_eq', shift_right]

theorem execInst_swl (ho : opcode i = some .SWL) (ha : PlainWord (memAddr i s)) :
    execInst h i s = retire { s with
      memory := Bytes.storeLeft s.memory (memAddr i s) (s.reg (rt i)) } := by
  have hmerge := Bytes.storeLeft_eq (m := s.memory) (s.reg (rt i)) (by decide)
    (align_mod (memAddr i s))
  rw [align_add] at hmerge
  rw [execInst_of_opcode h ho (by decide), hmerge]
  simp only [execImmediate, ho, loadWord_eq h _ s ha.input, storeWord_eq h _ _ _ ha.flush,
    BitVec.ushiftRight_eq', shift_left]
  rfl

theorem execInst_swr (ho : opcode i = some .SWR) (ha : PlainWord (memAddr i s)) :
    execInst h i s = retire { s with
      memory := Bytes.storeRight s.memory (memAddr i s) (s.reg (rt i)) } := by
  have hmerge := Bytes.storeRight_eq (m := s.memory) (s.reg (rt i)) (by decide)
    (align_mod (memAddr i s))
  rw [align_add] at hmerge
  rw [execInst_of_opcode h ho (by decide), hmerge]
  simp only [execImmediate, ho, loadWord_eq h _ s ha.input, storeWord_eq h _ _ _ ha.flush,
    BitVec.shiftLeft_eq', shift_right]
  rfl

/-- A plain word does not start on a device register. -/
theorem PlainWord.loadWord_fst {a : Word} (ha : PlainWord a) :
    (loadWord h a s).1 = Bytes.load32 s.memory a := by
  have hne : a ≠ GPU_INPUT := by
    rintro rfl
    exact ha.input (by decide)
  rw [loadWord_eq h a s hne]

theorem PlainWord.storeWord {a : Word} (ha : PlainWord a) (v : Word) :
    storeWord h a v s = { s with memory := Bytes.store32 s.memory a v } := by
  have hne : a ≠ GPU_FLUSH := by
    rintro rfl
    exact ha.flush (by decide)
  exact storeWord_eq h a v s hne

/-- Two instructions that merge into one register, the second what the first left. -/
theorem merge_twice {i j : Word} {n : Reg} {f g : Word → Word} {v : Word}
    (hi : execInst h i s = retire (s.setReg n (f (s.reg n))))
    (hj : let t := (execInst h i s).2
      execInst h j t = retire (t.setReg n (g (t.reg n))))
    (hv : g (f (s.reg n)) = v) :
    (execInst h j (execInst h i s).2).2 = (s.setReg n v).setReg R0 0 := by
  dsimp only at hj
  rw [hj, hi]
  simp only [retire_snd, State.setReg]
  congr 1
  funext m
  by_cases hn : n = R0
  · -- `$0` is cleared after either.
    subst hn
    simp only [Function.update_apply]
    split_ifs <;> rfl
  · simp only [Function.update_apply, if_neg hn, if_true, hv]
    split_ifs <;> rfl

end instructions

section pairs
variable (h : Host) {s : State} {a l r : Word}

theorem lwl_lwr (ha : PlainWord a) (ha3 : PlainWord (a + 3)) (hl : opcode l = some .LWL)
    (hr : opcode r = some .LWR) (hrt : rt r = rt l) (hal : memAddr l s = a + 3)
    (har : memAddr r (execInst h l s).2 = a) :
    (execInst h r (execInst h l s).2).2 =
      (s.setReg (rt l) (loadWord h a s).1).setReg R0 0 := by
  have hleft := execInst_lwl h hl (hal.symm ▸ ha3)
  have hright := execInst_lwr h hr (har.symm ▸ ha)
  rw [hal] at hleft
  rw [har, hrt] at hright
  apply merge_twice h hleft (g := Bytes.loadRight (execInst h l s).2.memory a) hright
  rw [ha.loadWord_fst h, hleft]
  exact Bytes.loadRight_loadLeft (by decide) s.memory a _

theorem lwr_lwl (ha : PlainWord a) (ha3 : PlainWord (a + 3)) (hl : opcode l = some .LWL)
    (hr : opcode r = some .LWR) (hrt : rt r = rt l) (har : memAddr r s = a)
    (hal : memAddr l (execInst h r s).2 = a + 3) :
    (execInst h l (execInst h r s).2).2 =
      (s.setReg (rt l) (loadWord h a s).1).setReg R0 0 := by
  have hright := execInst_lwr h hr (har.symm ▸ ha)
  have hleft := execInst_lwl h hl (hal.symm ▸ ha3)
  rw [har, hrt] at hright
  rw [hal] at hleft
  apply merge_twice h hright (g := Bytes.loadLeft (execInst h r s).2.memory (a + 3)) hleft
  rw [ha.loadWord_fst h, hright]
  exact Bytes.loadLeft_loadRight (by decide) s.memory a _

/-- A store alone, in a state whose `$0` is clear, changes memory only. -/
theorem swl_snd (ha : PlainWord a) (hl : opcode l = some .SWL) (h0 : s.reg R0 = 0)
    (hal : memAddr l s = a) :
    (execInst h l s).2 = { s with memory := Bytes.storeLeft s.memory a (s.reg (rt l)) } := by
  rw [execInst_swl h hl (hal.symm ▸ ha), hal]
  exact setReg_R0_self h0

theorem swr_snd (ha : PlainWord a) (hr : opcode r = some .SWR) (h0 : s.reg R0 = 0)
    (har : memAddr r s = a) :
    (execInst h r s).2 = { s with memory := Bytes.storeRight s.memory a (s.reg (rt r)) } := by
  rw [execInst_swr h hr (har.symm ▸ ha), har]
  exact setReg_R0_self h0

theorem swl_swr (ha : PlainWord a) (ha3 : PlainWord (a + 3)) (hl : opcode l = some .SWL)
    (hr : opcode r = some .SWR) (hrt : rt r = rt l) (h0 : s.reg R0 = 0)
    (hal : memAddr l s = a + 3) (har : memAddr r s = a) :
    (execInst h r (execInst h l s).2).2 = storeWord h a (s.reg (rt l)) s := by
  rw [swl_snd h ha3 hl h0 hal, ha.storeWord h, ← hrt]
  -- The address and the value of the second store are those of the first state.
  calc (execInst h r { s with memory := Bytes.storeLeft s.memory (a + 3) (s.reg (rt r)) }).2
      = _ := swr_snd h ha hr h0 har
    _ = { s with memory := Bytes.store32 s.memory a (s.reg (rt r)) } :=
        congrArg (fun m => { s with memory := m })
          (Bytes.storeRight_storeLeft (by decide) s.memory a (s.reg (rt r)))

theorem swr_swl (ha : PlainWord a) (ha3 : PlainWord (a + 3)) (hl : opcode l = some .SWL)
    (hr : opcode r = some .SWR) (hrt : rt r = rt l) (h0 : s.reg R0 = 0)
    (hal : memAddr l s = a + 3) (har : memAddr r s = a) :
    (execInst h l (execInst h r s).2).2 = storeWord h a (s.reg (rt l)) s := by
  rw [swr_snd h ha hr h0 har, ha.storeWord h, hrt]
  calc (execInst h l { s with memory := Bytes.storeRight s.memory a (s.reg (rt l)) }).2
      = _ := swl_snd h ha3 hl h0 hal
    _ = { s with memory := Bytes.store32 s.memory a (s.reg (rt l)) } :=
        congrArg (fun m => { s with memory := m })
          (Bytes.storeLeft_storeRight (by decide) s.memory a (s.reg (rt l)))

end pairs

/-- The pairs in either order do what the plain word access does, wherever the word
starts, and each instruction alone does its part of it. -/
theorem unaligned_access (h : Host) (s : State) :
    (∀ a l r, PlainWord a → PlainWord (a + 3) → opcode l = some .LWL → opcode r = some .LWR →
      rt r = rt l →
      let loaded := (s.setReg (rt l) (loadWord h a s).1).setReg R0 0
      (memAddr l s = a + 3 → memAddr r (execInst h l s).2 = a →
        (execInst h r (execInst h l s).2).2 = loaded) ∧
      (memAddr r s = a → memAddr l (execInst h r s).2 = a + 3 →
        (execInst h l (execInst h r s).2).2 = loaded)) ∧
    (∀ a l r, PlainWord a → PlainWord (a + 3) → opcode l = some .SWL → opcode r = some .SWR →
      rt r = rt l → s.reg R0 = 0 → memAddr l s = a + 3 → memAddr r s = a →
      let stored := storeWord h a (s.reg (rt l)) s
      (execInst h r (execInst h l s).2).2 = stored ∧
        (execInst h l (execInst h r s).2).2 = stored) ∧
    (∀ i, PlainWord (memAddr i s) →
      (opcode i = some .LWL → execInst h i s = retire (s.setReg (rt i)
        (Bytes.loadLeft s.memory (memAddr i s) (s.reg (rt i))))) ∧
      (opcode i = some .LWR → execInst h i s = retire (s.setReg (rt i)
        (Bytes.loadRight s.memory (memAddr i s) (s.reg (rt i))))) ∧
      (opcode i = some .SWL → execInst h i s = retire { s with
        memory := Bytes.storeLeft s.memory (memAddr i s) (s.reg (rt i)) }) ∧
      (opcode i = some .SWR → execInst h i s = retire { s with
        memory := Bytes.storeRight s.memory (memAddr i s) (s.reg (rt i)) })) := by
  refine ⟨?_, ?_, ?_⟩
  · -- Loads: whichever comes first, the second one finds its bytes in the register.
    intro a l r ha ha3 hl hr hrt loaded
    exact ⟨lwl_lwr h ha ha3 hl hr hrt, lwr_lwl h ha ha3 hl hr hrt⟩
  · intro a l r ha ha3 hl hr hrt h0 hal har stored
    exact ⟨swl_swr h ha ha3 hl hr hrt h0 hal har, swr_swl h ha ha3 hl hr hrt h0 hal har⟩
  · intro i ha
    exact ⟨fun ho => execInst_lwl h ho ha, fun ho => execInst_lwr h ho ha,
      fun ho => execInst_swl h ho ha, fun ho => execInst_swr h ho ha⟩

def rampState : State :=
  (resetState (fun x => x.setWidth 8 + 0x11) 0).setReg 9 0xAABBCCDD#32

/-- `lwl t0, 1(r0)` and `lwr t0, -2(r0)`, `swl t1, 1(r0)` and `swr t1, -2(r0)`: the word
at 0xFFFFFFFE wraps around to address 0. -/
theorem unaligned_access_wrap :
    let loaded := (execInst nullHost 0x9808FFFE#32
      (execInst nullHost 0x88080001#32 rampState).2).2
    let stored := (execInst nullHost 0xB809FFFE#32
      (execInst nullHost 0xA8090001#32 rampState).2).2
    loaded.reg 8 = 0x1211100F#32 ∧ stored.memory 0xFFFFFFFF#32 = 0xCC ∧
      stored.memory 0 = 0xBB ∧ stored.memory 2 = 0x13 := by
  intro loaded stored
  obtain ⟨hload, hstore, _⟩ := unaligned_access nullHost rampState
  have ha : PlainWord 0xFFFFFFFE#32 := ⟨by decide, by decide⟩
  have ha3 : PlainWord (0xFFFFFFFE#32 + 3) := ⟨by decide, by decide⟩
  have hloaded := (hload 0xFFFFFFFE#32 0x88080001#32 0x9808FFFE#32 ha ha3 (by decide) (by decide)
    (by decide)).1 (by decide) (by decide)
  have hstored := (hstore 0xFFFFFFFE#32 0xA8090001#32 0xB809FFFE#32 ha ha3 (by decide) (by decide)
    (by decide) (by decide) (by decide) (by decide)).1
  simp only [loaded, stored, hloaded, hstored]
  decide

end MyMips
