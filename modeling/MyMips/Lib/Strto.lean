import MyMips.Lib.Text
import Mathlib.Data.List.TakeWhile

namespace Strto

def isSpace (c : Char) : Bool := c == ' ' || (9 ≤ c.toNat && c.toNat ≤ 13)

def digitVal (c : Char) : Option ℕ :=
  if '0' ≤ c ∧ c ≤ '9' then some (c.toNat - 48)
  else if 'a' ≤ c ∧ c ≤ 'z' then some (c.toNat - 87)
  else if 'A' ≤ c ∧ c ≤ 'Z' then some (c.toNat - 55)
  else none

def isDigit (base : ℕ) (c : Char) : Bool :=
  match digitVal c with
  | some d => d < base
  | none => false

def value (base : ℕ) (ds : List Char) : ℕ :=
  ds.foldl (fun n c => n * base + (digitVal c).getD 0) 0

def sign : List Char → Bool × List Char
  | '-' :: l => (true, l)
  | '+' :: l => (false, l)
  | l => (false, l)

/-- The optional `0x` of base 16, which counts as one only in front of a digit. -/
def dropPrefix (base : ℕ) : List Char → List Char
  | '0' :: x :: c :: l =>
    if base = 16 ∧ (x = 'x' ∨ x = 'X') ∧ isDigit 16 c then c :: l else '0' :: x :: c :: l
  | l => l

/-- What a conversion finds: the sign, the magnitude, and the text behind the digits. -/
structure Subject where
  negative : Bool
  magnitude : ℕ
  rest : List Char

def subject (base : ℕ) (text : List Char) : Option Subject :=
  let signed := sign (text.dropWhile isSpace)
  let l := dropPrefix base signed.2
  let ds := l.takeWhile (isDigit base)
  if ds = [] then none
  else some ⟨signed.1, value base ds, l.dropWhile (isDigit base)⟩

def LONG_MAX : ℕ := 2 ^ 63 - 1
def UINTMAX_MAX : ℕ := 2 ^ 64 - 1

/-- `strtol(text, NULL, 10)`, which saturates. -/
def strtol (text : List Char) : ℤ :=
  match subject 10 text with
  | none => 0
  | some s =>
    if s.negative then max (-(LONG_MAX + 1 : ℤ)) (-(s.magnitude : ℤ))
    else min (LONG_MAX : ℤ) s.magnitude

/-- The result of an unsigned conversion, where it stopped, and whether it set `ERANGE`. -/
structure Conversion where
  value : ℕ
  rest : List Char
  erange : Bool

/-- `strtoumax`; a minus sign negates modulo 2^64. -/
def strtoumax (base : ℕ) (text : List Char) : Conversion :=
  match subject base text with
  | none => ⟨0, text, false⟩
  | some s =>
    if UINTMAX_MAX < s.magnitude then ⟨UINTMAX_MAX, s.rest, true⟩
    else ⟨if s.negative then (2 ^ 64 - s.magnitude) % 2 ^ 64 else s.magnitude, s.rest, false⟩

def strtoul (text : List Char) : ℕ := (strtoumax 10 text).value

theorem digitVal_digitChar : ∀ d < 10, digitVal (Nat.digitChar d) = some d := by decide

theorem isDigit_digitChar : ∀ d < 10, isDigit 10 (Nat.digitChar d) = true := by decide

theorem value_dec (n : ℕ) : value 10 (Text.dec n) = n := by
  induction n using Nat.strongRecOn with
  | ind n ih =>
    rw [Text.dec, Nat.toDigits_eq_if (by decide)]
    split
    · simp [value, digitVal_digitChar n ‹_›]
    · have hrec : value 10 (Nat.toDigits 10 (n / 10)) = n / 10 := ih (n / 10) (by omega)
      have hlast : digitVal (Nat.digitChar (n % 10)) = some (n % 10) :=
        digitVal_digitChar _ (by omega)
      rw [value] at hrec
      rw [value, List.foldl_append, hrec]
      simp only [List.foldl_cons, List.foldl_nil, hlast, Option.getD_some]
      omega

theorem digitChar_first : ∀ d < 10, isSpace (Nat.digitChar d) = false ∧
    Nat.digitChar d ≠ '-' ∧ Nat.digitChar d ≠ '+' := by decide

theorem sign_of_ne {c : Char} {l : List Char} (hm : c ≠ '-') (hp : c ≠ '+') :
    sign (c :: l) = (false, c :: l) := by
  unfold sign
  split <;> simp_all

theorem dropPrefix_of_ne {base : ℕ} (hb : base ≠ 16) (l : List Char) : dropPrefix base l = l := by
  unfold dropPrefix
  split
  · exact if_neg fun h => hb h.1
  · rfl

theorem subject_dec (n : ℕ) : subject 10 (Text.dec n) = some ⟨false, n, []⟩ := by
  have hchars (c : Char) (hc : c ∈ Text.dec n) : ∃ d < 10, c = Nat.digitChar d :=
    Text.mem_toDigits (by decide) hc
  have hdigit (c : Char) (hc : c ∈ Text.dec n) : isDigit 10 c = true := by
    obtain ⟨d, hd, rfl⟩ := hchars c hc
    exact isDigit_digitChar d hd
  obtain ⟨c, l, hdec⟩ := List.exists_cons_of_ne_nil (l := Text.dec n) Nat.toDigits_ne_nil
  obtain ⟨d, hd, rfl⟩ := hchars c (hdec ▸ List.mem_cons_self)
  obtain ⟨hspace, hminus, hplus⟩ := digitChar_first d hd
  have hblank : (Text.dec n).dropWhile isSpace = Text.dec n := by
    rw [hdec, List.dropWhile_cons_of_neg (by simp [hspace])]
  have hsign : sign (Text.dec n) = (false, Text.dec n) := by
    rw [hdec, sign_of_ne hminus hplus]
  have htake : (Text.dec n).takeWhile (isDigit 10) = Text.dec n :=
    List.takeWhile_eq_self_iff.mpr hdigit
  have hdrop : (Text.dec n).dropWhile (isDigit 10) = [] :=
    List.dropWhile_eq_nil_iff.mpr hdigit
  have hprefix : dropPrefix 10 (Text.dec n) = Text.dec n := dropPrefix_of_ne (by decide) _
  simp only [subject, hblank, hsign, hprefix, htake, hdrop, value_dec]
  exact if_neg Nat.toDigits_ne_nil

/-- A decimal numeral is read back, up to saturation. -/
theorem strtol_dec (n : ℕ) : strtol (Text.dec n) = min (LONG_MAX : ℤ) n := by
  simp [strtol, subject_dec]

end Strto
