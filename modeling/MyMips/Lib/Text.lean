import Mathlib.Data.Nat.Digits.Defs
import Mathlib.Tactic.Common

namespace Text

def dec (n : ℕ) : List Char := Nat.toDigits 10 n

def hex (n : ℕ) : List Char := Nat.toDigits 16 n

def int (z : ℤ) : List Char := if z < 0 then '-' :: dec z.natAbs else dec z.natAbs

def hexPad (w n : ℕ) : List Char := List.replicate (w - (hex n).length) '0' ++ hex n

/-- What `snprintf` leaves in a buffer of `n` bytes, the terminator aside. -/
def snprintf (n : ℕ) (text : List Char) : List Char := text.take (n - 1)

theorem snprintf_of_fits {n : ℕ} {text : List Char} (h : text.length < n) :
    snprintf n text = text :=
  List.take_of_length_le (by omega)

def numeral (c : Char) : Bool := c ∈ "-0123456789abcdef".toList

theorem mem_toDigits {b n : ℕ} (hb : 1 < b) {c : Char} (hc : c ∈ Nat.toDigits b n) :
    ∃ d < b, c = Nat.digitChar d := by
  induction n using Nat.strongRecOn with
  | ind n ih =>
    rw [Nat.toDigits_eq_if hb] at hc
    split at hc
    · exact ⟨n, ‹_›, by simpa using hc⟩
    · rw [List.mem_append] at hc
      rcases hc with hc | hc
      · exact ih (n / b) (Nat.div_lt_self (by omega) hb) hc
      · exact ⟨n % b, Nat.mod_lt n (by omega), by simpa using hc⟩

theorem digitChar_inj : ∀ a < 16, ∀ b < 16, Nat.digitChar a = Nat.digitChar b → a = b := by
  decide

theorem numeral_digitChar : ∀ d < 16, numeral (Nat.digitChar d) = true := by decide

theorem toDigits_injective {b : ℕ} (hb : 1 < b) (hb' : b ≤ 16) :
    Function.Injective (Nat.toDigits b) := by
  intro n m hnm
  induction n using Nat.strongRecOn generalizing m with
  | ind n ih =>
    have hdigit (a c : ℕ) (ha : a < b) (hc : c < b)
        (h : Nat.digitChar a = Nat.digitChar c) : a = c :=
      digitChar_inj a (by omega) c (by omega) h
    rw [Nat.toDigits_eq_if hb, Nat.toDigits_eq_if hb (n := m)] at hnm
    split at hnm <;> split at hnm
    · exact hdigit n m ‹_› ‹_› (by simpa using hnm)
    · simpa using congrArg List.length hnm
    · simpa using congrArg List.length hnm
    · obtain ⟨hq, hr⟩ := List.append_inj' hnm rfl
      have hq' : n / b = m / b := ih (n / b) (Nat.div_lt_self (by omega) hb) hq
      have hr' : n % b = m % b :=
        hdigit _ _ (Nat.mod_lt n (by omega)) (Nat.mod_lt m (by omega)) (by simpa using hr)
      rw [← Nat.div_add_mod n b, ← Nat.div_add_mod m b, hq', hr']

/-- A rendering with pairwise distinct texts, all of them over the characters `p`. -/
structure Token {α : Type*} (p : Char → Bool) (f : α → List Char) : Prop where
  injective : Function.Injective f
  chars : ∀ a, ∀ c ∈ f a, p c = true

theorem token_dec : Token numeral dec := by
  refine ⟨toDigits_injective (by decide) (by decide), ?_⟩
  intro n c hc
  obtain ⟨d, hd, rfl⟩ := mem_toDigits (by decide) hc
  exact numeral_digitChar d (by omega)

theorem token_hex : Token numeral hex := by
  refine ⟨toDigits_injective (by decide) (by decide), ?_⟩
  intro n c hc
  obtain ⟨d, hd, rfl⟩ := mem_toDigits (by decide) hc
  exact numeral_digitChar d hd

theorem minus_notMem_dec (n : ℕ) : '-' ∉ dec n := by
  intro hc
  obtain ⟨d, hd, hd'⟩ := mem_toDigits (by decide) hc
  revert hd'
  revert d
  decide

theorem token_int : Token numeral int := by
  constructor
  · intro a b hab
    have hne (n m : ℕ) : '-' :: dec n ≠ dec m := by
      intro h
      exact minus_notMem_dec m (h ▸ List.mem_cons_self)
    unfold int at hab
    split at hab <;> split at hab
    · have habs := token_dec.injective (List.cons.inj hab).2
      omega
    · exact absurd hab (hne _ _)
    · exact absurd hab.symm (hne _ _)
    · have habs := token_dec.injective hab
      omega
  · intro z c hc
    unfold int at hc
    split at hc
    · rcases List.mem_cons.mp hc with rfl | hc
      · decide
      · exact token_dec.chars _ c hc
    · exact token_dec.chars _ c hc

def Stops (p : Char → Bool) (xs : List Char) : Prop := ∀ c ∈ xs.head?, p c = false

@[simp] theorem stops_nil (p : Char → Bool) : Stops p [] := by simp [Stops]
@[simp] theorem stops_cons (p : Char → Bool) (c : Char) (xs : List Char) :
    Stops p (c :: xs) ↔ p c = false := by simp [Stops]

theorem takeWhile_append_of_stops {p : Char → Bool} {ts xs : List Char}
    (ht : ∀ c ∈ ts, p c = true) (hx : Stops p xs) : (ts ++ xs).takeWhile p = ts := by
  have hnil : xs.takeWhile p = [] := by
    cases xs with
    | nil => rfl
    | cons c xs =>
      rw [stops_cons] at hx
      simp [hx]
  rw [List.takeWhile_append_of_pos ht, hnil, List.append_nil]

section
variable {α : Type*} {p : Char → Bool} {f : α → List Char}

/-- A token and what follows it can be read back from their concatenation. -/
theorem Token.append_inj (h : Token p f) {a b : α} {xs ys : List Char}
    (hx : Stops p xs) (hy : Stops p ys) (hab : f a ++ xs = f b ++ ys) : a = b ∧ xs = ys := by
  have hf : f a = f b := by
    rw [← takeWhile_append_of_stops (h.chars a) hx, hab,
      takeWhile_append_of_stops (h.chars b) hy]
  refine ⟨h.injective hf, ?_⟩
  rw [hf] at hab
  exact List.append_cancel_left hab

theorem Token.comp {β : Type*} (h : Token p f) {g : β → α} (hg : Function.Injective g) :
    Token p (f ∘ g) :=
  ⟨h.injective.comp hg, fun b => h.chars (g b)⟩

end

theorem length_dec_le {n k : ℕ} (hk : 0 < k) (hn : n < 10 ^ k) : (dec n).length ≤ k :=
  (Nat.length_toDigits_le_iff (by decide) hk).mpr hn

theorem length_hex_le {n k : ℕ} (hk : 0 < k) (hn : n < 16 ^ k) : (hex n).length ≤ k :=
  (Nat.length_toDigits_le_iff (by decide) hk).mpr hn

/-- A padded numeral is built from its last digit. -/
theorem hexPad_succ {w : ℕ} (hw : 0 < w) (n : ℕ) :
    hexPad (w + 1) n = hexPad w (n / 16) ++ [Nat.digitChar (n % 16)] := by
  unfold hexPad hex
  rw [Nat.toDigits_eq_if (by decide) (n := n)]
  split_ifs with hn
  · -- A single digit: the quotient is printed as one more zero.
    have hzero : Nat.toDigits 16 0 = ['0'] := by decide
    rw [Nat.div_eq_of_lt hn, Nat.mod_eq_of_lt hn, hzero]
    have hpad : w + 1 - [Nat.digitChar n].length = w - ['0'].length + 1 := by
      simp only [List.length_singleton]
      omega
    rw [hpad, List.replicate_succ']
  · rw [List.length_append, List.length_singleton, Nat.add_sub_add_right, List.append_assoc]

theorem length_hexPad {w n : ℕ} (hw : 0 < w) (hn : n < 16 ^ w) : (hexPad w n).length = w := by
  have hlen := length_hex_le hw hn
  rw [hexPad, List.length_append, List.length_replicate]
  omega

theorem hexPad_injective {w n m : ℕ} (hw : 0 < w) (hn : n < 16 ^ w) (hm : m < 16 ^ w)
    (h : hexPad w n = hexPad w m) : n = m := by
  induction w, hw using Nat.le_induction generalizing n m with
  | base =>
    have hone {k : ℕ} (hk : k < 16) : hexPad 1 k = [Nat.digitChar k] := by
      have hdigit : Nat.toDigits 16 k = [Nat.digitChar k] := by
        rw [Nat.toDigits_eq_if (by decide), if_pos hk]
      simp [hexPad, hex, hdigit]
    rw [hone hn, hone hm] at h
    exact digitChar_inj n hn m hm (List.cons.inj h).1
  | succ w hw ih =>
    rw [hexPad_succ hw, hexPad_succ hw] at h
    obtain ⟨hq, hr⟩ := List.append_inj' h rfl
    have hpow : 16 ^ (w + 1) = 16 * 16 ^ w := by rw [Nat.pow_succ, Nat.mul_comm]
    have hdiv : n / 16 = m / 16 := by
      apply ih _ _ hq
      · exact Nat.div_lt_of_lt_mul (hpow ▸ hn)
      · exact Nat.div_lt_of_lt_mul (hpow ▸ hm)
    have hmod : n % 16 = m % 16 :=
      digitChar_inj _ (Nat.mod_lt n (by decide)) _ (Nat.mod_lt m (by decide))
        (List.cons.inj hr).1
    omega

theorem length_int_le {z : ℤ} {k : ℕ} (hk : 0 < k) (hz : z.natAbs < 10 ^ k) :
    (int z).length ≤ k + 1 := by
  have hd := length_dec_le hk hz
  unfold int
  split
  · simpa using hd
  · omega

end Text
