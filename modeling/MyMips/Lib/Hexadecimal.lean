import MyMips.Lib.Strto
import Mathlib.Tactic.Ring

namespace Strto

/-- An optional `0x` and hexadecimal digits that denote `n`. -/
def Hexadecimal (t : List Char) (n : ℕ) : Prop :=
  ∃ pre ds, t = pre ++ ds ∧ pre ∈ [[], ['0', 'x'], ['0', 'X']] ∧ ds ≠ [] ∧
    (∀ c ∈ ds, isDigit 16 c = true) ∧ value 16 ds = n

/-- Blanks and an optional sign in front of one; `negative` is the minus sign. -/
def Signed (t : List Char) (negative : Bool) (n : ℕ) : Prop :=
  ∃ blanks sgn u, t = blanks ++ (sgn ++ u) ∧ (∀ c ∈ blanks, isSpace c = true) ∧
    (sgn, negative) ∈ [([], false), (['+'], false), (['-'], true)] ∧ Hexadecimal u n

theorem le_toNat_of_isDigit {c : Char} (hc : isDigit 16 c = true) : 48 ≤ c.toNat := by
  have hle (a : Char) (ha : 48 ≤ a.toNat) (hac : a ≤ c) : 48 ≤ c.toNat :=
    ha.trans (UInt32.le_iff_toNat_le.mp (Char.le_def.mp hac))
  unfold isDigit digitVal at hc
  split at hc
  · rename_i d hd
    split_ifs at hd with h0 ha hA
    · exact hle '0' (by decide) h0.1
    · exact hle 'a' (by decide) ha.1
    · exact hle 'A' (by decide) hA.1
  · exact absurd hc (by decide)

/-- A digit is neither a blank nor a sign. -/
theorem not_lead_of_isDigit {c : Char} (hc : isDigit 16 c = true) :
    isSpace c = false ∧ c ≠ '-' ∧ c ≠ '+' := by
  have hle := le_toNat_of_isDigit hc
  refine ⟨?_, ?_, ?_⟩
  · cases hs : isSpace c
    · rfl
    · rw [isSpace, Bool.or_eq_true, beq_iff_eq, Bool.and_eq_true, decide_eq_true_eq,
        decide_eq_true_eq] at hs
      rcases hs with rfl | hs
      · exact absurd hle (by decide)
      · omega
  · rintro rfl
    exact absurd hle (by decide)
  · rintro rfl
    exact absurd hle (by decide)

theorem value_append (b : ℕ) (xs ys : List Char) :
    value b (xs ++ ys) = value b xs * b ^ ys.length + value b ys := by
  have hfrom (n : ℕ) (ys : List Char) :
      ys.foldl (fun n c => n * b + (digitVal c).getD 0) n = n * b ^ ys.length + value b ys := by
    induction ys generalizing n with
    | nil => simp [value]
    | cons c ys ih =>
      have hcons : value b (c :: ys) = (0 * b + (digitVal c).getD 0) * b ^ ys.length + value b ys :=
        ih (0 * b + (digitVal c).getD 0)
      rw [List.foldl_cons, ih, hcons, List.length_cons, pow_succ']
      ring
  rw [value, List.foldl_append, hfrom]
  rfl

theorem sign_spec (u : List Char) : ∃ sgn, u = sgn ++ (sign u).2 ∧
    (sgn, (sign u).1) ∈ [([], false), (['+'], false), (['-'], true)] := by
  unfold sign
  split
  · exact ⟨['-'], rfl, by simp⟩
  · exact ⟨['+'], rfl, by simp⟩
  · exact ⟨[], rfl, by simp⟩

theorem dropPrefix_spec (u : List Char) :
    ∃ pre ∈ [[], ['0', 'x'], ['0', 'X']], u = pre ++ dropPrefix 16 u := by
  unfold dropPrefix
  split
  · split_ifs with hpre
    · rcases hpre.2.1 with rfl | rfl
      · exact ⟨['0', 'x'], by simp, rfl⟩
      · exact ⟨['0', 'X'], by simp, rfl⟩
    · exact ⟨[], by simp, rfl⟩
  · exact ⟨[], by simp, rfl⟩

/-- A prefix is dropped in front of digits, and digits are none. -/
theorem dropPrefix_append {pre ds : List Char} (hpre : pre ∈ [[], ['0', 'x'], ['0', 'X']])
    (hne : ds ≠ []) (hds : ∀ c ∈ ds, isDigit 16 c = true) : dropPrefix 16 (pre ++ ds) = ds := by
  obtain ⟨c, l, rfl⟩ := List.exists_cons_of_ne_nil hne
  have hc : isDigit 16 c = true := hds c List.mem_cons_self
  simp only [List.mem_cons, List.not_mem_nil, or_false] at hpre
  rcases hpre with rfl | rfl | rfl
  · rw [List.nil_append]
    unfold dropPrefix
    split
    · rename_i x c' l' heq
      have hdigit : isDigit 16 x = true := hds x (by rw [heq]; simp)
      have hno : ¬ (16 = 16 ∧ (x = 'x' ∨ x = 'X') ∧ isDigit 16 c' = true) := by
        rintro ⟨_, rfl | rfl, _⟩
        · exact absurd hdigit (by decide)
        · exact absurd hdigit (by decide)
      rw [if_neg hno, heq]
    · rfl
  · simp [dropPrefix, hc]
  · simp [dropPrefix, hc]

theorem Hexadecimal.head {u : List Char} {n : ℕ} (h : Hexadecimal u n) :
    ∃ c l, u = c :: l ∧ isDigit 16 c = true := by
  obtain ⟨pre, ds, rfl, hpre, hne, hds, _⟩ := h
  obtain ⟨c, l, rfl⟩ := List.exists_cons_of_ne_nil hne
  simp only [List.mem_cons, List.not_mem_nil, or_false] at hpre
  rcases hpre with rfl | rfl | rfl
  · exact ⟨c, l, rfl, hds c List.mem_cons_self⟩
  · exact ⟨'0', 'x' :: c :: l, rfl, by decide⟩
  · exact ⟨'0', 'X' :: c :: l, rfl, by decide⟩

/-- The texts the conversion reads to the end, and what it finds there. -/
theorem subject_eq_iff {t : List Char} {negative : Bool} {n : ℕ} :
    subject 16 t = some ⟨negative, n, []⟩ ↔ Signed t negative n := by
  constructor
  · intro h
    rw [subject] at h
    split_ifs at h with hne
    obtain ⟨rfl, hvalue, hrest⟩ : (sign (t.dropWhile isSpace)).1 = negative ∧ _ ∧ _ := by
      simpa using h
    obtain ⟨sgn, hsplit, hsgn⟩ := sign_spec (t.dropWhile isSpace)
    obtain ⟨pre, hpre, hsplit'⟩ := dropPrefix_spec (sign (t.dropWhile isSpace)).2
    -- Nothing is left, so the digits are all that follows the prefix.
    have hall := List.takeWhile_eq_self_iff.mpr hrest
    rw [hall] at hne hvalue
    refine ⟨t.takeWhile isSpace, sgn, (sign (t.dropWhile isSpace)).2, ?_, ?_, hsgn, ?_⟩
    · rw [← hsplit, List.takeWhile_append_dropWhile]
    · intro c hc
      exact List.mem_takeWhile_imp hc
    · exact ⟨pre, _, hsplit', hpre, hne, hrest, hvalue⟩
  · rintro ⟨blanks, sgn, u, rfl, hblanks, hsgn, hhex⟩
    obtain ⟨c, l, hu, hc⟩ := hhex.head
    obtain ⟨hspace, hminus, hplus⟩ := not_lead_of_isDigit hc
    obtain ⟨pre, ds, hsplit, hpre, hne, hds, hvalue⟩ := hhex
    have hdrop : (blanks ++ (sgn ++ u)).dropWhile isSpace = sgn ++ u := by
      rw [List.dropWhile_append_of_pos hblanks]
      apply List.dropWhile_eq_self_iff.mpr
      simp only [List.mem_cons, Prod.mk.injEq, List.not_mem_nil, or_false] at hsgn
      intro hl
      rcases hsgn with ⟨rfl, _⟩ | ⟨rfl, _⟩ | ⟨rfl, _⟩
      · simp [hu, hspace]
      · simp; decide
      · simp; decide
    have hsign : sign (sgn ++ u) = (negative, u) := by
      simp only [List.mem_cons, Prod.mk.injEq, List.not_mem_nil, or_false] at hsgn
      rcases hsgn with ⟨rfl, rfl⟩ | ⟨rfl, rfl⟩ | ⟨rfl, rfl⟩
      · rw [List.nil_append, hu, sign_of_ne hminus hplus]
      · rfl
      · rfl
    have hprefix : dropPrefix 16 u = ds := by
      rw [hsplit, dropPrefix_append hpre hne hds]
    have htake : ds.takeWhile (isDigit 16) = ds := List.takeWhile_eq_self_iff.mpr hds
    have hnone : ds.dropWhile (isDigit 16) = [] := List.dropWhile_eq_nil_iff.mpr hds
    simp only [subject, hdrop, hsign, hprefix, htake, hnone, hvalue]
    exact if_neg hne

/-- A text is read in one way. -/
theorem Signed.unique {t : List Char} {a b : Bool} {n m : ℕ} (h : Signed t a n)
    (h' : Signed t b m) : a = b ∧ n = m := by
  have heq := (subject_eq_iff.mpr h).symm.trans (subject_eq_iff.mpr h')
  simpa using heq

theorem Hexadecimal.signed {t : List Char} {n : ℕ} (h : Hexadecimal t n) : Signed t false n :=
  ⟨[], [], t, rfl, by simp, by simp, h⟩

theorem Hexadecimal.unique {t : List Char} {n m : ℕ} (h : Hexadecimal t n)
    (h' : Hexadecimal t m) : n = m :=
  (h.signed.unique h'.signed).2

/-- Without a blank or a sign in front there is only the number. -/
theorem Signed.hexadecimal {t : List Char} {negative : Bool} {n : ℕ} (h : Signed t negative n)
    (ht : ∀ c ∈ t.head?, isSpace c = false ∧ c ≠ '-' ∧ c ≠ '+') :
    negative = false ∧ Hexadecimal t n := by
  obtain ⟨blanks, sgn, u, rfl, hblanks, hsgn, hhex⟩ := h
  cases blanks with
  | cons c l =>
    have hspace := (ht c (by simp)).1
    rw [hblanks c List.mem_cons_self] at hspace
    exact absurd hspace (by decide)
  | nil =>
    simp only [List.mem_cons, Prod.mk.injEq, List.not_mem_nil, or_false] at hsgn
    rcases hsgn with ⟨rfl, rfl⟩ | ⟨rfl, rfl⟩ | ⟨rfl, rfl⟩
    · exact ⟨rfl, hhex⟩
    · exact absurd rfl (ht '+' (by simp)).2.2
    · exact absurd rfl (ht '-' (by simp)).2.1

/-- A numeral cut off behind its first digits is the numeral of these digits, and a
longer one that denotes the same number denotes zero. -/
theorem Hexadecimal.take {t : List Char} {n k : ℕ} (h : Hexadecimal t n) (hk : 2 < k)
    (hlen : k < t.length) : ∃ m, Hexadecimal (t.take k) m ∧ (m = n ↔ n = 0) := by
  obtain ⟨pre, ds, rfl, hpre, hne, hds, rfl⟩ := h
  have hprelen : pre.length ≤ 2 := by
    simp only [List.mem_cons, List.not_mem_nil, or_false] at hpre
    rcases hpre with rfl | rfl | rfl <;> simp
  rw [List.length_append] at hlen
  have hcut : (pre ++ ds).take k = pre ++ ds.take (k - pre.length) := by
    rw [List.take_append, List.take_of_length_le (by omega)]
  refine ⟨value 16 (ds.take (k - pre.length)), ?_, ?_⟩
  · refine ⟨pre, _, hcut, hpre, ?_, ?_, rfl⟩
    · intro hnil
      rcases List.take_eq_nil_iff.mp hnil with h0 | h0
      · omega
      · exact hne h0
    · intro c hc
      exact hds c (List.mem_of_mem_take hc)
  · have hsplit : value 16 ds =
        value 16 (ds.take (k - pre.length)) * 16 ^ (ds.drop (k - pre.length)).length +
          value 16 (ds.drop (k - pre.length)) := by
      rw [← value_append, List.take_append_drop]
    -- At least one digit is cut off, which divides by sixteen.
    have hpow : 16 ≤ 16 ^ (ds.drop (k - pre.length)).length := by
      apply Nat.le_self_pow
      rw [List.length_drop]
      omega
    have hmul := Nat.mul_le_mul_left (value 16 (ds.take (k - pre.length))) hpow
    omega

end Strto
