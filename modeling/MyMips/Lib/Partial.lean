import MyMips.Lib.Bytes
import Mathlib.Tactic.Abel

namespace Bytes
variable {w : ℕ}

def byte (v : BitVec 32) (k : ℕ) : BitVec 8 := (v >>> (8 * k)).setWidth 8

def ofBytes (f : ℕ → BitVec 8) : BitVec 32 := f 3 ++ f 2 ++ f 1 ++ f 0

section
variable (v u : BitVec 32) (f : ℕ → BitVec 8) (m : Store w) (a x : BitVec w)

theorem getLsbD_byte {k i : ℕ} (hi : i < 8) : (byte v k).getLsbD i = v.getLsbD (8 * k + i) := by
  simp [byte, hi]

theorem eq_of_byte (h : ∀ k < 4, byte v k = byte u k) : v = u := by
  apply BitVec.eq_of_getLsbD_eq
  intro i hi
  have hbit := congrArg (BitVec.getLsbD · (i % 8)) (h (i / 8) (by omega))
  rw [getLsbD_byte v (by omega), getLsbD_byte u (by omega)] at hbit
  have hsplit : 8 * (i / 8) + i % 8 = i := by omega
  rwa [hsplit] at hbit

theorem byte_ofBytes {k : ℕ} (hk : k < 4) : byte (ofBytes f) k = f k := by
  apply BitVec.eq_of_getLsbD_eq
  intro i hi
  rw [getLsbD_byte _ hi]
  have hcases : k = 0 ∨ k = 1 ∨ k = 2 ∨ k = 3 := by omega
  simp only [ofBytes, BitVec.getLsbD_append]
  rcases hcases with rfl | rfl | rfl | rfl <;> grind

theorem load32_eq_ofBytes : load32 m a = ofBytes fun k => m (a + BitVec.ofNat w k) := rfl

theorem byte_load32 {k : ℕ} (hk : k < 4) : byte (load32 m a) k = m (a + BitVec.ofNat w k) := by
  rw [load32_eq_ofBytes, byte_ofBytes _ hk]

theorem le32_getElem? {k : ℕ} (hk : k < 4) : (le32 v)[k]? = some (byte v k) := by
  have hcases : k = 0 ∨ k = 1 ∨ k = 2 ∨ k = 3 := by omega
  rcases hcases with rfl | rfl | rfl | rfl <;> simp [le32, byte]

theorem store32_apply : store32 m a v x =
    if (x - a).toNat < 4 then byte v (x - a).toNat else m x := by
  split_ifs with hx
  · rw [store32, write, le32_getElem? v hx, Option.getD_some]
  · exact store32_of_le m a x v (by omega)

/-- `v` moved up over the low bytes of `u`. -/
theorem byte_shiftLeft_or {n k : ℕ} (hn : n < 4) (hk : k < 4) :
    byte (v <<< (8 * n) ||| (u &&& ((1#32 <<< (8 * n)) - 1))) k =
      if n ≤ k then byte v (k - n) else byte u k := by
  have hones : ((1#32 <<< (8 * n)) - 1).toNat = 2 ^ (8 * n) - 1 := by
    have hcases : n = 0 ∨ n = 1 ∨ n = 2 ∨ n = 3 := by omega
    rcases hcases with rfl | rfl | rfl | rfl <;> rfl
  have hmask (i : ℕ) : ((1#32 <<< (8 * n)) - 1).getLsbD i = decide (i < 8 * n) := by
    rw [← BitVec.testBit_toNat, hones, Nat.testBit_two_pow_sub_one]
  apply BitVec.eq_of_getLsbD_eq
  intro i hi
  rw [getLsbD_byte _ hi, BitVec.getLsbD_or, BitVec.getLsbD_and, hmask, BitVec.getLsbD_shiftLeft]
  split_ifs with hle
  · have hsub : 8 * k + i - 8 * n = 8 * (k - n) + i := by omega
    have hin : 8 * k + i < 32 := by omega
    have hhigh : ¬ 8 * k + i < 8 * n := by omega
    simp [getLsbD_byte v hi, hsub, hin, hhigh]
  · have hlow : 8 * k + i < 8 * n := by omega
    simp [getLsbD_byte u hi, hlow]

/-- `v` moved down under the high bytes of `u`. -/
theorem byte_shiftRight_or {n k : ℕ} (hk : k < 4) :
    byte (v >>> (8 * n) ||| (u &&& ~~~(0xFFFFFFFF#32 >>> (8 * n)))) k =
      if k + n < 4 then byte v (k + n) else byte u k := by
  have hones : 0xFFFFFFFF#32 = BitVec.allOnes 32 := rfl
  apply BitVec.eq_of_getLsbD_eq
  intro i hi
  rw [getLsbD_byte _ hi, BitVec.getLsbD_or, BitVec.getLsbD_and, BitVec.getLsbD_not,
    BitVec.getLsbD_ushiftRight, BitVec.getLsbD_ushiftRight, hones, BitVec.getLsbD_allOnes]
  have hin : 8 * k + i < 32 := by omega
  split_ifs with hle
  · have hadd : 8 * n + (8 * k + i) = 8 * (k + n) + i := by omega
    have hlow : 8 * (k + n) + i < 32 := by omega
    simp [getLsbD_byte v hi, hadd, hlow]
  · have hhigh : ¬ 8 * n + (8 * k + i) < 32 := by omega
    have hzero : v.getLsbD (8 * n + (8 * k + i)) = false :=
      BitVec.getLsbD_of_ge v _ (by omega)
    simp [getLsbD_byte u hi, hzero, hin, hhigh]

end

section small
variable {v : BitVec 32} (hne : v ≠ 0) (hlt : v.toNat < 256)
include hlt

theorem byte_of_lt {k : ℕ} (hk : 0 < k) : byte v k = 0 := by
  have hshift : v >>> (8 * k) = 0 := by
    apply BitVec.eq_of_toNat_eq
    rw [BitVec.toNat_ushiftRight, Nat.shiftRight_eq_div_pow]
    apply Nat.div_eq_of_lt
    calc v.toNat < 2 ^ 8 := hlt
      _ ≤ 2 ^ (8 * k) := Nat.pow_le_pow_right (by decide) (by omega)
  rw [byte, hshift]
  rfl

include hne

theorem byte_zero_ne : byte v 0 ≠ 0 := by
  intro hzero
  apply hne
  apply BitVec.eq_of_toNat_eq
  have hnat := congrArg BitVec.toNat hzero
  rw [byte, Nat.mul_zero, BitVec.ushiftRight_zero, BitVec.toNat_setWidth,
    Nat.mod_eq_of_lt hlt] at hnat
  exact hnat

/-- A word of one byte is itself only where it is not moved. -/
theorem shiftLeft_or_eq_iff (u : BitVec 32) {n : ℕ} (hn : n < 4) :
    v <<< (8 * n) ||| (u &&& ((1#32 <<< (8 * n)) - 1)) = v ↔ n = 0 := by
  constructor
  · intro heq
    by_contra hpos
    have hbyte := byte_shiftLeft_or v u hn hn
    rw [heq, if_pos le_rfl, Nat.sub_self, byte_of_lt hlt (by omega)] at hbyte
    exact byte_zero_ne hne hlt hbyte.symm
  · rintro rfl
    simp

theorem shiftRight_or_eq_iff (u : BitVec 32) {n : ℕ} (hn : n < 4) :
    v >>> (8 * n) ||| (u &&& ~~~(0xFFFFFFFF#32 >>> (8 * n))) = v ↔ n = 0 := by
  constructor
  · intro heq
    by_contra hpos
    have hbyte := byte_shiftRight_or v u (n := n) (k := 0) (by decide)
    rw [heq, Nat.zero_add, if_pos hn, byte_of_lt hlt (k := n) (by omega)] at hbyte
    exact byte_zero_ne hne hlt hbyte
  · rintro rfl
    have hones : 0xFFFFFFFF#32 = BitVec.allOnes 32 := rfl
    simp [hones]

end small

/-! The four partial accesses. `e` is the address of the highest byte of the word a left
part belongs to, `a` that of the lowest byte of the word of a right part. -/

/-- `old` with the bytes of the word ending at `e` from the last multiple of four on. -/
def loadLeft (m : Store w) (e : BitVec w) (old : BitVec 32) : BitVec 32 :=
  ofBytes fun k => if 3 ≤ k + e.toNat % 4 then m (e - 3#w + BitVec.ofNat w k) else byte old k

/-- `old` with the bytes of the word at `a` up to the next multiple of four. -/
def loadRight (m : Store w) (a : BitVec w) (old : BitVec 32) : BitVec 32 :=
  ofBytes fun k => if k + a.toNat % 4 < 4 then m (a + BitVec.ofNat w k) else byte old k

def storeLeft (m : Store w) (e : BitVec w) (v : BitVec 32) : Store w := fun x =>
  let k := (x - (e - 3#w)).toNat
  if k < 4 ∧ 3 ≤ k + e.toNat % 4 then byte v k else m x

def storeRight (m : Store w) (a : BitVec w) (v : BitVec 32) : Store w := fun x =>
  let k := (x - a).toNat
  if k + a.toNat % 4 < 4 then byte v k else m x

section pairs
variable (hw : 2 ≤ w) (m : Store w) (a : BitVec w) (v old : BitVec 32)

include hw in
theorem toNat_add_three_mod : (a + 3#w).toNat % 4 = (a.toNat + 3) % 4 := by
  have hpow : (2 : ℕ) ^ 2 ∣ 2 ^ w := pow_dvd_pow 2 hw
  have hle : (2 : ℕ) ^ 2 ≤ 2 ^ w := Nat.le_of_dvd (Nat.two_pow_pos w) hpow
  have hthree : (3#w).toNat = 3 := by
    rw [BitVec.toNat_ofNat]
    exact Nat.mod_eq_of_lt (by omega)
  rw [BitVec.toNat_add, hthree]
  exact Nat.mod_mod_of_dvd _ hpow

include hw

/-- The two parts of a word make up the word, whichever is loaded first. -/
theorem loadRight_loadLeft : loadRight m a (loadLeft m (a + 3#w) old) = load32 m a := by
  have hmod := toNat_add_three_mod hw a
  apply eq_of_byte
  intro k hk
  rw [loadRight, byte_ofBytes _ hk, byte_load32 _ _ hk]
  split_ifs with hright
  · rfl
  · have hleft : 3 ≤ k + (a + 3#w).toNat % 4 := by omega
    rw [loadLeft, byte_ofBytes _ hk, if_pos hleft, BitVec.add_sub_cancel]

theorem loadLeft_loadRight : loadLeft m (a + 3#w) (loadRight m a old) = load32 m a := by
  have hmod := toNat_add_three_mod hw a
  apply eq_of_byte
  intro k hk
  rw [loadLeft, byte_ofBytes _ hk, byte_load32 _ _ hk]
  split_ifs with hleft
  · rw [BitVec.add_sub_cancel]
  · have hright : k + a.toNat % 4 < 4 := by omega
    rw [loadRight, byte_ofBytes _ hk, if_pos hright]

theorem storeRight_storeLeft : storeRight (storeLeft m (a + 3#w) v) a v = store32 m a v := by
  have hmod := toNat_add_three_mod hw a
  funext x
  rw [store32_apply]
  simp only [storeRight, storeLeft, BitVec.add_sub_cancel]
  split_ifs <;> first | rfl | omega

theorem storeLeft_storeRight : storeLeft (storeRight m a v) (a + 3#w) v = store32 m a v := by
  have hmod := toNat_add_three_mod hw a
  funext x
  rw [store32_apply]
  simp only [storeRight, storeLeft, BitVec.add_sub_cancel]
  split_ifs <;> first | rfl | omega

end pairs

section merge
variable {m : Store w} {al : BitVec w} {c : ℕ} (v old : BitVec 32)

theorem offset_left {k : ℕ} (hc : c < 4) (hk : 3 ≤ k + c) :
    al + BitVec.ofNat w c - 3#w + BitVec.ofNat w k = al + BitVec.ofNat w (k - (3 - c)) := by
  have hsum : BitVec.ofNat w c + BitVec.ofNat w k = BitVec.ofNat w (k - (3 - c)) + 3#w := by
    rw [← BitVec.ofNat_add, ← BitVec.ofNat_add]
    congr 1
    omega
  rw [sub_add_eq_add_sub, add_assoc, hsum, ← add_assoc, add_sub_cancel_right]

theorem loadLeft_eq (hc : (al + BitVec.ofNat w c).toNat % 4 = c) :
    loadLeft m (al + BitVec.ofNat w c) old =
      load32 m al <<< (8 * (3 - c)) ||| (old &&& ((1#32 <<< (8 * (3 - c))) - 1)) := by
  apply eq_of_byte
  intro k hk
  rw [loadLeft, byte_ofBytes _ hk, byte_shiftLeft_or _ _ (by omega) hk, hc]
  by_cases hleft : 3 ≤ k + c
  · rw [if_pos hleft, if_pos (by omega), byte_load32 _ _ (by omega), offset_left (by omega) hleft]
  · rw [if_neg hleft, if_neg (by omega)]

theorem loadRight_eq (hc : (al + BitVec.ofNat w c).toNat % 4 = c) :
    loadRight m (al + BitVec.ofNat w c) old =
      load32 m al >>> (8 * c) ||| (old &&& ~~~(0xFFFFFFFF#32 >>> (8 * c))) := by
  apply eq_of_byte
  intro k hk
  rw [loadRight, byte_ofBytes _ hk, byte_shiftRight_or _ _ hk, hc]
  by_cases hright : k + c < 4
  · rw [if_pos hright, if_pos hright, byte_load32 _ _ hright, ofNat_add_ofNat, Nat.add_comm c]
  · rw [if_neg hright, if_neg hright]

/-- A byte of the aligned word that is stored back unchanged. -/
theorem byte_load32_sub {x : BitVec w} (hx : (x - al).toNat < 4) :
    byte (load32 m al) (x - al).toNat = m x := by
  rw [byte_load32 _ _ hx, BitVec.ofNat_toNat, BitVec.setWidth_eq, add_sub_cancel]

theorem toNat_sub_left (hw : 3 ≤ w) (hc : c < 4) (x : BitVec w) :
    (x - (al + BitVec.ofNat w c - 3#w)).toNat = ((x - al).toNat + (3 - c)) % 2 ^ w := by
  have hpow : 2 ^ 3 ≤ 2 ^ w := Nat.pow_le_pow_right (by omega) hw
  have hsum : BitVec.ofNat w (3 - c) + BitVec.ofNat w c = 3#w := by
    rw [← BitVec.ofNat_add]
    congr 1
    omega
  have hoff : x - (al + BitVec.ofNat w c - 3#w) = x - al + BitVec.ofNat w (3 - c) := by
    rw [← hsum]
    abel
  rw [hoff, BitVec.toNat_add, BitVec.toNat_ofNat, Nat.mod_eq_of_lt (a := 3 - c) (by omega)]

/-- A left part is a write from the aligned word on. -/
theorem storeLeft_eq_write (hw : 3 ≤ w) (hc : (al + BitVec.ofNat w c).toNat % 4 = c) :
    storeLeft m (al + BitVec.ofNat w c) v = write m al ((le32 v).drop (3 - c)) := by
  have hpow : 2 ^ 3 ≤ 2 ^ w := Nat.pow_le_pow_right (by omega) hw
  funext x
  have hd := (x - al).isLt
  rw [storeLeft, hc, toNat_sub_left hw (by omega), write, List.getElem?_drop, Nat.add_comm (3 - c)]
  rcases Nat.lt_or_ge ((x - al).toNat + (3 - c)) (2 ^ w) with hlt | hge
  · rw [Nat.mod_eq_of_lt hlt]
    by_cases hin : (x - al).toNat + (3 - c) < 4
    · rw [if_pos ⟨hin, by omega⟩, le32_getElem? v hin, Option.getD_some]
    · rw [if_neg (fun h => hin h.1), List.getElem?_eq_none (by simpa using hin), Option.getD_none]
  · -- Just below the aligned word the offset has wrapped around.
    have hwrap : ((x - al).toNat + (3 - c)) % 2 ^ w = (x - al).toNat + (3 - c) - 2 ^ w := by
      rw [Nat.mod_eq_sub_mod hge]
      exact Nat.mod_eq_of_lt (by omega)
    rw [hwrap, if_neg (by omega), List.getElem?_eq_none (by rw [length_le32]; omega),
      Option.getD_none]

theorem storeRight_eq_write (a : BitVec w) :
    storeRight m a v = write m a ((le32 v).take (4 - a.toNat % 4)) := by
  funext x
  simp only [storeRight, write]
  by_cases hin : (x - a).toNat + a.toNat % 4 < 4
  · rw [if_pos hin, List.getElem?_take_of_lt (by omega), le32_getElem? v (by omega),
      Option.getD_some]
  · have hlen : ((le32 v).take (4 - a.toNat % 4)).length ≤ (x - a).toNat := by
      rw [List.length_take, length_le32]
      omega
    rw [if_neg hin, List.getElem?_eq_none hlen, Option.getD_none]

theorem storeLeft_eq (hw : 3 ≤ w) (hc : (al + BitVec.ofNat w c).toNat % 4 = c) :
    storeLeft m (al + BitVec.ofNat w c) v =
      store32 m al (v >>> (8 * (3 - c)) |||
        (load32 m al &&& ~~~(0xFFFFFFFF#32 >>> (8 * (3 - c))))) := by
  rw [storeLeft_eq_write v hw hc]
  funext x
  rw [store32_apply, write, List.getElem?_drop, Nat.add_comm (3 - c)]
  by_cases hin : (x - al).toNat < 4
  · rw [if_pos hin, byte_shiftRight_or _ _ hin, byte_load32_sub hin]
    split_ifs with hleft
    · rw [le32_getElem? v hleft, Option.getD_some]
    · -- Above the bytes written the merge stores back what was there.
      rw [List.getElem?_eq_none (by simpa using hleft), Option.getD_none]
  · rw [if_neg hin, List.getElem?_eq_none (by rw [length_le32]; omega), Option.getD_none]

theorem storeRight_eq (hw : 3 ≤ w) (hc : (al + BitVec.ofNat w c).toNat % 4 = c) :
    storeRight m (al + BitVec.ofNat w c) v =
      store32 m al (v <<< (8 * c) ||| (load32 m al &&& ((1#32 <<< (8 * c)) - 1))) := by
  have hpow : 2 ^ 3 ≤ 2 ^ w := Nat.pow_le_pow_right (by omega) hw
  have hc4 : c < 4 := by omega
  funext x
  have hd := (x - al).isLt
  have hcw : (BitVec.ofNat w c).toNat = c := by
    rw [BitVec.toNat_ofNat]
    exact Nat.mod_eq_of_lt (by omega)
  have hoff : x - (al + BitVec.ofNat w c) = x - al - BitVec.ofNat w c := by abel
  rw [store32_apply, storeRight, hc, hoff]
  rcases Nat.lt_or_ge (x - al).toNat c with hlt | hge
  · -- Below the part the offset has wrapped around.
    have hwrap : (x - al - BitVec.ofNat w c).toNat = 2 ^ w - c + (x - al).toNat := by
      rw [BitVec.toNat_sub, hcw]
      exact Nat.mod_eq_of_lt (by omega)
    rw [hwrap, if_neg (by omega), if_pos (by omega), byte_shiftLeft_or _ _ hc4 (by omega),
      if_neg (by omega), byte_load32_sub (by omega)]
  · have hk : (x - al - BitVec.ofNat w c).toNat = (x - al).toNat - c := by
      rw [BitVec.toNat_sub_of_le (by rw [BitVec.le_def, hcw]; exact hge), hcw]
    have hsub : (x - al).toNat - c + c = (x - al).toNat := by omega
    rw [hk, hsub]
    by_cases hin : (x - al).toNat < 4
    · rw [if_pos hin, if_pos hin, byte_shiftLeft_or _ _ hc4 hin, if_pos hge]
    · rw [if_neg hin, if_neg hin]

end merge

end Bytes
