import Mathlib.Data.BitVec
import Mathlib.Tactic.Common

namespace Bytes
variable {w : ℕ}

abbrev Store (w : ℕ) := BitVec w → BitVec 8

def write (m : Store w) (a : BitVec w) (bs : List (BitVec 8)) : Store w := fun x =>
  (bs[(x - a).toNat]?).getD (m x)

section
variable (m : Store w) (a x : BitVec w) (bs : List (BitVec 8))

theorem write_of_le (h : bs.length ≤ (x - a).toNat) : write m a bs x = m x := by
  rw [write, List.getElem?_eq_none h, Option.getD_none]

theorem write_of_lt (h : (x - a).toNat < bs.length) :
    write m a bs x = bs[(x - a).toNat] := by
  rw [write, List.getElem?_eq_getElem h, Option.getD_some]

theorem write_add (k : ℕ) (hk : k < bs.length) (hw : bs.length ≤ 2 ^ w) :
    write m a bs (a + BitVec.ofNat w k) = bs[k] := by
  have hoff : (a + BitVec.ofNat w k - a).toNat = k := by
    rw [BitVec.add_comm, BitVec.add_sub_cancel, BitVec.toNat_ofNat]
    exact Nat.mod_eq_of_lt (by omega)
  simp only [write, hoff, List.getElem?_eq_getElem hk, Option.getD_some]

theorem write_singleton (b : BitVec 8) : write m a [b] = Function.update m a b := by
  funext x
  by_cases hx : x = a
  · subst hx
    simp [write]
  · have hpos : 1 ≤ (x - a).toNat := by
      by_contra hlt
      have hzero : x - a = 0#w := BitVec.eq_of_toNat_eq (by rw [BitVec.toNat_zero]; omega)
      exact hx (sub_eq_zero.mp hzero)
    rw [write_of_le m a x [b] hpos, Function.update_of_ne hx]

/-- One write is the writes of its two parts, one behind the other. -/
theorem write_append (cs : List (BitVec 8)) (hw : bs.length + cs.length ≤ 2 ^ w) :
    write m a (bs ++ cs) = write (write m a bs) (a + BitVec.ofNat w bs.length) cs := by
  funext x
  have hlt := (x - a).isLt
  have hsub : x - (a + BitVec.ofNat w bs.length) = x - a - BitVec.ofNat w bs.length :=
    (sub_sub _ _ _).symm
  rcases Nat.lt_or_ge (x - a).toNat bs.length with hx | hx
  · -- Below the second part: its offset wraps around to the far end.
    have hfar : cs.length ≤ (x - (a + BitVec.ofNat w bs.length)).toNat := by
      by_cases hzero : cs.length = 0
      · omega
      have hmod : bs.length % 2 ^ w = bs.length := Nat.mod_eq_of_lt (by omega)
      rw [hsub, BitVec.toNat_sub, BitVec.toNat_ofNat, hmod, Nat.mod_eq_of_lt (by omega)]
      omega
    rw [write_of_le _ _ _ _ hfar, write, write, List.getElem?_append_left hx]
  · have hoff : (x - (a + BitVec.ofNat w bs.length)).toNat = (x - a).toNat - bs.length := by
      have hle : BitVec.ofNat w bs.length ≤ x - a := by
        rw [BitVec.le_def, BitVec.toNat_ofNat]
        exact (Nat.mod_le _ _).trans hx
      rw [hsub, BitVec.toNat_sub_of_le hle, BitVec.toNat_ofNat, Nat.mod_eq_of_lt (by omega)]
    rw [write, write, hoff, List.getElem?_append_right hx, write_of_le m a x bs hx]

end

/-- Membership in the `n` bytes that start `d` bytes after `g`, as offsets from `g`. -/
theorem offset_lt_iff {g x : BitVec w} {d n : ℕ} (hd : d + n ≤ 2 ^ w) (hn : 0 < n) :
    (x - (g + BitVec.ofNat w d)).toNat < n ↔
      d ≤ (x - g).toNat ∧ (x - g).toNat < d + n := by
  have hsub : x - (g + BitVec.ofNat w d) = x - g - BitVec.ofNat w d := (sub_sub _ _ _).symm
  have hdw : (BitVec.ofNat w d).toNat = d := by
    rw [BitVec.toNat_ofNat]
    exact Nat.mod_eq_of_lt (by omega)
  have hlt := (x - g).isLt
  rw [hsub]
  by_cases hle : d ≤ (x - g).toNat
  · rw [BitVec.toNat_sub_of_le (by rw [BitVec.le_def, hdw]; exact hle), hdw]
    omega
  · have hbelow : (x - g - BitVec.ofNat w d).toNat = 2 ^ w - d + (x - g).toNat := by
      rw [BitVec.toNat_sub, hdw]
      exact Nat.mod_eq_of_lt (by omega)
    omega

def le32 (v : BitVec 32) : List (BitVec 8) :=
  [v.setWidth 8, (v >>> 8).setWidth 8, (v >>> 16).setWidth 8, (v >>> 24).setWidth 8]

@[simp] theorem length_le32 (v : BitVec 32) : (le32 v).length = 4 := rfl

theorem append_le32 (v : BitVec 32) :
    (v >>> 24).setWidth 8 ++ (v >>> 16).setWidth 8 ++ (v >>> 8).setWidth 8 ++ v.setWidth 8 = v := by
  apply BitVec.eq_of_getLsbD_eq
  intro i hi
  simp only [BitVec.getLsbD_append, BitVec.getLsbD_setWidth, BitVec.getLsbD_ushiftRight]
  have hbyte : i < 8 ∨ i < 16 ∧ 8 ≤ i ∨ i < 24 ∧ 16 ≤ i ∨ 24 ≤ i := by omega
  rcases hbyte with h | h | h | h <;> grind

def load32 (m : Store w) (a : BitVec w) : BitVec 32 :=
  m (a + 3#w) ++ m (a + 2#w) ++ m (a + 1#w) ++ m (a + 0#w)

def store32 (m : Store w) (a : BitVec w) (v : BitVec 32) : Store w := write m a (le32 v)

def load64 (m : Store w) (a : BitVec w) : BitVec 64 := load32 m (a + 4#w) ++ load32 m a

def store64 (m : Store w) (a : BitVec w) (v : BitVec 64) : Store w :=
  store32 (store32 m a (v.setWidth 32)) (a + 4#w) ((v >>> 32).setWidth 32)

theorem append_halves (v : BitVec 64) : (v >>> 32).setWidth 32 ++ v.setWidth 32 = v := by
  apply BitVec.eq_of_getLsbD_eq
  intro i hi
  simp only [BitVec.getLsbD_append, BitVec.getLsbD_setWidth, BitVec.getLsbD_ushiftRight]
  rcases Nat.lt_or_ge i 32 with h | h <;> grind

section
variable (m m' : Store w) (a b x : BitVec w)

/-- A word depends on its four bytes only. -/
theorem load32_congr (h : ∀ k < 4, m (a + BitVec.ofNat w k) = m' (a + BitVec.ofNat w k)) :
    load32 m a = load32 m' a := by
  rw [load32, load32, h 0 (by omega), h 1 (by omega), h 2 (by omega), h 3 (by omega)]

theorem store32_of_le (v : BitVec 32) (h : 4 ≤ (x - a).toNat) : store32 m a v x = m x :=
  write_of_le m a x (le32 v) h

theorem load32_store32_self (v : BitVec 32) (hw : 4 ≤ 2 ^ w) : load32 (store32 m a v) a = v := by
  have hbyte (k : ℕ) (hk : k < 4) : store32 m a v (a + BitVec.ofNat w k) = (le32 v).get ⟨k, hk⟩ :=
    write_add m a (le32 v) k hk hw
  rw [load32, hbyte 0 (by omega), hbyte 1 (by omega), hbyte 2 (by omega), hbyte 3 (by omega)]
  exact append_le32 v

end

section
variable (m : Store w) (g : BitVec w) {d e : ℕ}

theorem ofNat_add_ofNat (d k : ℕ) :
    g + BitVec.ofNat w d + BitVec.ofNat w k = g + BitVec.ofNat w (d + k) := by
  rw [BitVec.add_assoc, BitVec.ofNat_add]

theorem toNat_offset (h : d < 2 ^ w) : (g + BitVec.ofNat w d - g).toNat = d := by
  rw [BitVec.add_comm, BitVec.add_sub_cancel, BitVec.toNat_ofNat]
  exact Nat.mod_eq_of_lt h

/-- Bytes outside the word at offset `d` survive a store to it. -/
theorem store32_offset_of_ne (v : BitVec 32) (x : BitVec w) (hd : d + 4 ≤ 2 ^ w)
    (hx : (x - g).toNat < d ∨ d + 4 ≤ (x - g).toNat) :
    store32 m (g + BitVec.ofNat w d) v x = m x := by
  apply store32_of_le
  have hiff := offset_lt_iff (g := g) (x := x) hd (by omega)
  omega

theorem load32_store32_offset (v : BitVec 32) (hd : d + 4 ≤ 2 ^ w) (he : e + 4 ≤ 2 ^ w)
    (hne : e + 4 ≤ d ∨ d + 4 ≤ e) :
    load32 (store32 m (g + BitVec.ofNat w d) v) (g + BitVec.ofNat w e) =
      load32 m (g + BitVec.ofNat w e) := by
  apply load32_congr
  intro k hk
  apply store32_offset_of_ne m g v _ hd
  rw [ofNat_add_ofNat, toNat_offset g (by omega)]
  omega

end

section
variable (m m' : Store w) (a x : BitVec w) (v : BitVec 64)

theorem load64_congr (h : ∀ k < 8, m (a + BitVec.ofNat w k) = m' (a + BitVec.ofNat w k)) :
    load64 m a = load64 m' a := by
  rw [load64, load64]
  congr 1
  · apply load32_congr
    intro k hk
    rw [ofNat_add_ofNat]
    exact h (4 + k) (by omega)
  · exact load32_congr m m' a fun k hk => h k (by omega)

theorem store64_of_le (hw : 8 ≤ 2 ^ w) (h : 8 ≤ (x - a).toNat) : store64 m a v x = m x := by
  have hhigh : 4 ≤ (x - (a + 4#w)).toNat := by
    have hiff := offset_lt_iff (g := a) (x := x) (d := 4) (n := 4) (by omega) (by omega)
    omega
  rw [store64, store32_of_le _ _ _ _ hhigh, store32_of_le _ _ _ _ (by omega)]

/-- Two adjacent words read back after both were stored. -/
theorem load32_store32_pair (lo hi : BitVec 32) (hw : 8 ≤ 2 ^ w) :
    load32 (store32 (store32 m a lo) (a + 4#w) hi) a = lo ∧
      load32 (store32 (store32 m a lo) (a + 4#w) hi) (a + 4#w) = hi := by
  have hlow := load32_store32_offset (store32 m a lo) a (d := 4) (e := 0) hi (by omega) (by omega)
    (by omega)
  rw [BitVec.add_zero] at hlow
  rw [hlow, load32_store32_self _ _ _ (by omega), load32_store32_self _ _ _ (by omega)]
  exact ⟨rfl, rfl⟩

theorem load64_store64_self (hw : 8 ≤ 2 ^ w) : load64 (store64 m a v) a = v := by
  obtain ⟨hlow, hhigh⟩ :=
    load32_store32_pair m a (v.setWidth 32) ((v >>> 32).setWidth 32) hw
  rw [load64, store64, hlow, hhigh]
  exact append_halves v

end

/-- The byte last written to `x`: by the first entry of the log, whose latest entry comes
first, that covers `x`, or else the one in `m`. -/
def recent (log : List (BitVec w × List (BitVec 8))) (m : Store w) : Store w := fun x =>
  match log.find? fun e => (x - e.1).toNat < e.2.length with
  | some e => (e.2[(x - e.1).toNat]?).getD (m x)
  | none => m x

theorem recent_cons (m : Store w) (a : BitVec w) (bs : List (BitVec 8))
    (log : List (BitVec w × List (BitVec 8))) :
    recent ((a, bs) :: log) m = write (recent log m) a bs := by
  funext x
  rcases Nat.lt_or_ge (x - a).toNat bs.length with hx | hx
  · rw [write_of_lt _ _ _ _ hx, recent, List.find?_cons_of_pos (by simpa using hx)]
    simp only [List.getElem?_eq_getElem hx, Option.getD_some]
  · rw [write_of_le _ _ _ _ hx, recent, List.find?_cons_of_neg (by simpa using hx), recent]

end Bytes
