import MyMips.Lib.Text
import Mathlib.Data.Int.Order.Basic

namespace MyMips

def MAX_LOC_LEN : ℕ := 20

/-- What `align_location` leaves in `str`, and the offset into the name if it shortens. -/
structure Location where
  str : List Char
  off : Option ℤ

def intOfSize (n : ℕ) : ℤ := (BitVec.ofNat 32 n).toInt

def alignLocation (file : List Char) (line : ℤ) : Location :=
  let lineStr := Text.snprintf 7 (Text.int line)
  let lenLine := (Text.int line).length
  let lenFilename := file.length
  let lenTotal := intOfSize (lenLine + lenFilename + 1)
  if (MAX_LOC_LEN : ℤ) < lenTotal then
    let off := lenTotal - MAX_LOC_LEN + 3
    ⟨Text.snprintf MAX_LOC_LEN ("...".toList ++ file.drop off.toNat ++ ':' :: lineStr), some off⟩
  else ⟨Text.snprintf MAX_LOC_LEN (file ++ ':' :: lineStr), none⟩

def logger (file : List Char) (line : ℤ) (message : List Char) : List Char :=
  "[my_mips] ".toList ++ message ++ " (".toList ++ (alignLocation file line).str ++ ")\n".toList

theorem intOfSize_le (n : ℕ) : intOfSize n ≤ n := by
  have hlt := Nat.mod_le n (2 ^ 32)
  rw [intOfSize, BitVec.toInt_eq_toNat_cond, BitVec.toNat_ofNat]
  split <;> omega

theorem intOfSize_of_lt {n : ℕ} (hn : n < 2 ^ 31) : intOfSize n = n := by
  rw [intOfSize, BitVec.toInt_eq_toNat_cond, BitVec.toNat_ofNat, Nat.mod_eq_of_lt (by omega)]
  split <;> omega

section
variable (file : List Char) (line : ℤ)

theorem length_snprintf_le (text : List Char) :
    (Text.snprintf MAX_LOC_LEN text).length ≤ MAX_LOC_LEN - 1 := by
  rw [Text.snprintf, List.length_take]
  exact Nat.min_le_left _ _

theorem alignLocation_length : (alignLocation file line).str.length ≤ MAX_LOC_LEN - 1 := by
  unfold alignLocation
  dsimp only
  split <;> exact length_snprintf_le _

/-- An `int` takes at most 11 characters. -/
theorem length_line (hline : line.natAbs ≤ 2 ^ 31) : (Text.int line).length ≤ 11 := by
  apply Text.length_int_le (by decide)
  omega

/-- The offset stays within the name, however long that is. -/
theorem alignLocation_off (hline : line.natAbs ≤ 2 ^ 31) :
    ∀ off ∈ (alignLocation file line).off, 0 ≤ off ∧ off ≤ file.length := by
  have hlen := length_line line hline
  have hwrap := intOfSize_le ((Text.int line).length + file.length + 1)
  intro off hoff
  rw [alignLocation] at hoff
  dsimp only at hoff
  split at hoff
  · rename_i hover
    rw [Option.mem_some] at hoff
    dsimp only [MAX_LOC_LEN] at hover hoff
    omega
  · exact absurd hoff (Option.not_mem_none off)

end

section
variable (name : List Char) {line : ℕ}

theorem int_natCast (n : ℕ) : Text.int n = Text.dec n := by
  have hn : ¬ (n : ℤ) < 0 := by omega
  rw [Text.int, if_neg hn, Int.natAbs_natCast]

theorem length_dec_line (hline : line ≤ 999999) : (Text.dec line).length ≤ 6 :=
  Text.length_dec_le (by decide) (by omega)

theorem lineStr_eq (hline : line ≤ 999999) :
    Text.snprintf 7 (Text.int line) = Text.dec line := by
  have hlen := length_dec_line hline
  rw [int_natCast]
  exact Text.snprintf_of_fits (by omega)

/-- The location and the offset, for a line number that `line_str` holds. -/
theorem alignLocation_eq (hline : line ≤ 999999) :
    let lenTotal := intOfSize ((Text.dec line).length + name.length + 1)
    let off := lenTotal - MAX_LOC_LEN + 3
    alignLocation name line =
      if (MAX_LOC_LEN : ℤ) < lenTotal then
        ⟨Text.snprintf MAX_LOC_LEN
          ("...".toList ++ name.drop off.toNat ++ ':' :: Text.dec line), some off⟩
      else ⟨Text.snprintf MAX_LOC_LEN (name ++ ':' :: Text.dec line), none⟩ := by
  intro lenTotal off
  rw [alignLocation, lineStr_eq hline, int_natCast]

/-- A text one character too long loses its last one. -/
theorem snprintf_one_over {before digits : List Char} (hd : digits ≠ [])
    (hlen : (before ++ ':' :: digits).length = MAX_LOC_LEN) :
    Text.snprintf MAX_LOC_LEN (before ++ ':' :: digits) = before ++ ':' :: digits.dropLast := by
  calc Text.snprintf MAX_LOC_LEN (before ++ ':' :: digits)
      = (before ++ ':' :: digits).dropLast := by
        rw [Text.snprintf, ← hlen, List.dropLast_eq_take]
    _ = before ++ ':' :: digits.dropLast := by
        rw [List.dropLast_append_of_ne_nil (List.cons_ne_nil _ _), List.dropLast_cons_of_ne_nil hd]

theorem alignLocation_fits (hline : line ≤ 999999)
    (hfit : name.length + 1 + (Text.dec line).length ≤ MAX_LOC_LEN - 1) :
    alignLocation name line = ⟨name ++ ':' :: Text.dec line, none⟩ := by
  dsimp only [MAX_LOC_LEN] at hfit
  have hint := intOfSize_of_lt
    (n := (Text.dec line).length + name.length + 1) (by omega)
  rw [alignLocation_eq name hline, if_neg]
  · rw [Text.snprintf_of_fits]
    simp only [List.length_append, List.length_cons, MAX_LOC_LEN]
    omega
  · dsimp only [MAX_LOC_LEN]
    omega

/-- A log line then ends with the whole location. -/
theorem logger_fits (hline : line ≤ 999999)
    (hfit : name.length + 1 + (Text.dec line).length ≤ MAX_LOC_LEN - 1) (message : List Char) :
    logger name line message = "[my_mips] ".toList ++ message ++ " (".toList ++
      (name ++ ':' :: Text.dec line) ++ ")\n".toList := by
  unfold logger
  rw [alignLocation_fits name hline hfit]

/-- What the code does with a longer name: the line number loses its last digit. -/
theorem alignLocation_drops_digit (hline : line ≤ 999999)
    (hlong : MAX_LOC_LEN ≤ name.length + 1 + (Text.dec line).length)
    (hname : name.length < 2 ^ 31 - 7) :
    ∃ before, (alignLocation name line).str = before ++ ':' :: (Text.dec line).dropLast := by
  have hlen := length_dec_line hline
  have hint := intOfSize_of_lt
    (n := (Text.dec line).length + name.length + 1) (by omega)
  have hdigits : Text.dec line ≠ [] := Nat.toDigits_ne_nil
  have hdots : ("...".toList).length = 3 := by decide
  dsimp only [MAX_LOC_LEN] at hlong
  rw [alignLocation_eq name hline]
  by_cases hover : (MAX_LOC_LEN : ℤ) < intOfSize ((Text.dec line).length + name.length + 1)
  · rw [if_pos hover]
    refine ⟨_, snprintf_one_over hdigits ?_⟩
    dsimp only [MAX_LOC_LEN] at hover ⊢
    simp only [List.length_append, List.length_cons, List.length_drop, hdots]
    omega
  · rw [if_neg hover]
    refine ⟨_, snprintf_one_over hdigits ?_⟩
    dsimp only [MAX_LOC_LEN] at hover ⊢
    simp only [List.length_append, List.length_cons]
    omega

/-- The location is shortened, if at all, without losing the line number. -/
structure Located (name : List Char) (line : ℕ) : Prop where
  bounded : (alignLocation name line).str.length ≤ MAX_LOC_LEN - 1
  line_number : ∃ before, (alignLocation name line).str = before ++ ':' :: Text.dec line
  unshortened : name.length + 1 + (Text.dec line).length ≤ MAX_LOC_LEN - 1 →
    (alignLocation name line).str = name ++ ':' :: Text.dec line
  shortened : MAX_LOC_LEN - 1 < name.length + 1 + (Text.dec line).length →
    ∃ off : ℕ, (alignLocation name line).off = some (off : ℤ) ∧ off ≤ name.length ∧
      (alignLocation name line).str = "...".toList ++ name.drop off ++ ':' :: Text.dec line

end

/-- A location keeps its line number exactly when nothing has to be shortened. -/
theorem alignLocation_located_iff (name : List Char) (line : ℕ) (hline : line ≤ 999999) :
    Located name line ↔ name.length + 1 + (Text.dec line).length ≤ MAX_LOC_LEN - 1 := by
  constructor
  · intro hloc
    by_contra hlong
    obtain ⟨off, hoff, _, hstr⟩ := hloc.shortened (by omega)
    have hbound := alignLocation_length name line
    have hwrap := intOfSize_le ((Text.dec line).length + name.length + 1)
    -- The three dots, the rest of the name, the colon and the digits take 20 characters.
    have hoff' : off = intOfSize ((Text.dec line).length + name.length + 1) - MAX_LOC_LEN + 3 := by
      rw [alignLocation_eq name hline] at hoff
      split at hoff
      · exact (Option.some.inj hoff).symm
      · exact absurd hoff (by simp)
    have hdots : ("...".toList).length = 3 := by decide
    rw [hstr] at hbound
    simp only [List.length_append, List.length_cons, List.length_drop, hdots] at hbound
    dsimp only [MAX_LOC_LEN] at hoff' hbound hlong
    omega
  · intro hfit
    have heq := alignLocation_fits name hline hfit
    constructor
    · exact alignLocation_length name line
    · exact ⟨name, by rw [heq]⟩
    · intro _
      rw [heq]
    · intro hlong
      omega

theorem alignLocation_located_main : Located "main.c".toList 40 :=
  (alignLocation_located_iff "main.c".toList 40 (by decide)).mpr (by decide)

/-- Line 29 of `cstream_readline.c` is reported as line 2. -/
theorem alignLocation_counterexample :
    ¬ ∀ (name : List Char) (line : ℕ), line ≤ 999999 → Located name line := by
  intro hall
  obtain ⟨before, hstr⟩ := (hall "cstream_readline.c".toList 29 (by decide)).line_number
  have hcut : (alignLocation "cstream_readline.c".toList 29).str =
      "...eam_readline.c:2".toList := by decide
  have hlast := congrArg List.getLast? (hcut.symm.trans hstr)
  have hdigits : Text.dec 29 = ['2', '9'] := by decide
  rw [hdigits] at hlast
  simp at hlast

end MyMips
