import MyMips.Dbg
import MyMips.Lib.Hexadecimal

namespace MyMips
open Strto

/-- The first argument token: the maximal run of non-space characters after the command
word and its spaces. -/
def firstToken (line : Line) : Line :=
  ((line.dropWhile (· != ' ')).dropWhile (· == ' ')).takeWhile (· != ' ')

/-- `strtoumax` reads the text to its end as `n`: a minus sign negates modulo 2^64. -/
def Reads (t : Line) (n : ℕ) : Prop :=
  ∃ negative m, Signed t negative m ∧ m < 2 ^ 64 ∧
    n = if negative then (2 ^ 64 - m) % 2 ^ 64 else m

section reading
variable {t : Line} {n : ℕ}

theorem Reads.ne_nil (h : Reads t n) : t ≠ [] := by
  obtain ⟨negative, m, ⟨blanks, sgn, u, rfl, _, _, hhex⟩, _⟩ := h
  obtain ⟨c, l, rfl, _⟩ := hhex.head
  simp

theorem reads_iff : Reads t n ↔ strtoumax 16 t = ⟨n, [], false⟩ ∧ t ≠ [] := by
  constructor
  · intro h
    refine ⟨?_, h.ne_nil⟩
    obtain ⟨negative, m, hsigned, hm, rfl⟩ := h
    have hfits : ¬ UINTMAX_MAX < m := by
      dsimp only [UINTMAX_MAX]
      omega
    simp only [strtoumax, subject_eq_iff.mpr hsigned, if_neg hfits]
  · rintro ⟨him, hne⟩
    -- Nothing is left over, so the text is a subject sequence with no rest.
    unfold strtoumax at him
    cases hs : subject 16 t with
    | none =>
      rw [hs] at him
      exact absurd (congrArg Conversion.rest him) hne
    | some s =>
      rw [hs] at him
      dsimp only at him
      by_cases hfits : UINTMAX_MAX < s.magnitude
      · rw [if_pos hfits] at him
        exact absurd (congrArg Conversion.erange him) (by simp)
      · rw [if_neg hfits] at him
        have hrest : s.rest = [] := congrArg Conversion.rest him
        have hvalue := congrArg Conversion.value him
        have hsigned : Signed t s.negative s.magnitude := by
          rw [← subject_eq_iff, hs, ← hrest]
        refine ⟨s.negative, s.magnitude, hsigned, ?_, hvalue.symm⟩
        dsimp only [UINTMAX_MAX] at hfits
        omega

theorem Reads.unique {m : ℕ} (h : Reads t n) (h' : Reads t m) : n = m :=
  congrArg Conversion.value ((reads_iff.mp h).1.symm.trans (reads_iff.mp h').1)

theorem Reads.of_hexadecimal (h : Hexadecimal t n) (hn : n < 2 ^ 64) : Reads t n :=
  ⟨false, n, h.signed, hn, rfl⟩

/-- `strtou32` succeeds on the texts read as a number of 32 bits. -/
theorem strtou32_ok_iff (v : Word) : strtou32 t 16 = (v, .ok) ↔ Reads t v.toNat := by
  rw [reads_iff]
  generalize him : strtoumax 16 t = im
  rw [strtou32, him]
  have hok : (if im.erange = true then Status.ERANGE else if im.rest.length = t.length then
      .ECANCELED else if im.rest ≠ [] then .ENOTSUP else .ok) = .ok ↔
      im.erange = false ∧ im.rest.length ≠ t.length ∧ im.rest = [] := by
    split_ifs <;> simp_all
  generalize (if im.erange = true then Status.ERANGE else if im.rest.length = t.length then
      .ECANCELED else if im.rest ≠ [] then .ENOTSUP else .ok) = rstatus at hok ⊢
  have hlt := v.isLt
  by_cases hhigh : UINT32_MAX < im.value
  · -- A value that does not fit is never returned with `ok`.
    rw [if_pos hhigh]
    refine iff_of_false (fun h => ?_) fun h => ?_
    · have hstatus := congrArg Prod.snd h
      dsimp only at hstatus
      split_ifs at hstatus with he
      exact he hstatus
    · have hvalue := congrArg Conversion.value h.1
      dsimp only [UINT32_MAX] at hhigh hvalue
      omega
  · rw [if_neg hhigh, Prod.mk.injEq, hok]
    dsimp only [UINT32_MAX] at hhigh
    constructor
    · rintro ⟨rfl, herange, hlength, hrest⟩
      refine ⟨?_, ?_⟩
      · rw [BitVec.toNat_ofNat, Nat.mod_eq_of_lt (by omega), ← hrest, ← herange]
      · rintro rfl
        rw [hrest] at hlength
        exact hlength rfl
    · rintro ⟨rfl, hne⟩
      refine ⟨by simp, rfl, ?_, rfl⟩
      exact fun h => hne (List.length_eq_zero_iff.mp h.symm)

theorem parseAddr_ok_iff (line : Line) (v : Word) :
    parseAddr line = .ok v ↔ Reads ((firstToken line).take 31) v.toNat := by
  rw [parseAddr, cmdArg, firstToken]
  cases (line.dropWhile (· != ' ')).dropWhile (· == ' ') with
  | nil =>
    refine iff_of_false (by simp) fun h => ?_
    exact h.ne_nil (by simp)
  | cons c l =>
    -- The copy stops at the space or after 31 characters, whichever comes first.
    dsimp only
    rw [← List.take_takeWhile, ← strtou32_ok_iff]
    generalize strtou32 (((c :: l).takeWhile (· != ' ')).take 31) 16 = r
    obtain ⟨addr, status⟩ := r
    cases status <;> simp

end reading

def takesAddr (line : Line) : Bool :=
  isCmd line "break".toList (some "b".toList) || isCmd line "delete".toList (some "d".toList) ||
    isCmd line "print".toList (some "p".toList) || isCmd line "memory".toList (some "m".toList)

section commands
variable {line : Line}

/-- A line starts with a word when that is all in front of its first space. -/
theorem startsWord_eq (word : Line) (hword : ∀ c ∈ word, (c != ' ') = true) :
    startsWord line word = (line.takeWhile (· != ' ') == word) := by
  apply Bool.eq_iff_iff.mpr
  rw [startsWord, Bool.and_eq_true, List.isPrefixOf_iff_prefix, beq_iff_eq]
  constructor
  · rintro ⟨⟨rest, rfl⟩, hend⟩
    rw [List.drop_left] at hend
    apply Text.takeWhile_append_of_stops hword
    intro c hc
    rw [Option.mem_def.mp hc] at hend
    simpa using hend
  · intro htake
    have hsplit := List.takeWhile_append_dropWhile (p := (· != ' ')) (l := line)
    rw [htake] at hsplit
    refine ⟨⟨_, hsplit⟩, ?_⟩
    rw [← hsplit, List.drop_left]
    cases hrest : line.dropWhile (· != ' ') with
    | nil => rfl
    | cons c l =>
      have hstop := List.head?_dropWhile_not (· != ' ') line
      rw [hrest] at hstop
      simpa using hstop

theorem isCmd_eq (line a b : Line) (ha : ∀ c ∈ a, (c != ' ') = true)
    (hb : ∀ c ∈ b, (c != ' ') = true) :
    isCmd line a (some b) =
      (line.takeWhile (· != ' ') == a || line.takeWhile (· != ' ') == b) := by
  rw [isCmd, startsWord_eq a ha, Option.any_some, startsWord_eq b hb]

/-- A command with a bad address prints the message and does nothing else. -/
theorem runCommand_bad_address (htakes : takesAddr line = true) {message : Line}
    (hparse : parseAddr line = .error message) (h : Host) (fuel : ℕ) (d : Dbg) :
    runCommand h fuel line d = some (false, d.print [message]) := by
  have hwith (run : Word → Dbg → Dbg) : withAddr line d run = d.print [message] := by
    rw [withAddr, hparse]
  have hstep := isCmd_eq line "step".toList "s".toList (by simp) (by simp)
  have hcontinue := isCmd_eq line "continue".toList "c".toList (by simp) (by simp)
  have hbreak := isCmd_eq line "break".toList "b".toList (by simp) (by simp)
  have hdelete := isCmd_eq line "delete".toList "d".toList (by simp) (by simp)
  have hprint := isCmd_eq line "print".toList "p".toList (by simp) (by simp)
  have hmemory := isCmd_eq line "memory".toList "m".toList (by simp) (by simp)
  have hlist : isCmd line "breakpoints".toList none =
      (line.takeWhile (· != ' ') == "breakpoints".toList) := by
    rw [isCmd, startsWord_eq _ (by simp), Option.any_none, Bool.or_false]
  have hregs := isCmd_eq line "registers".toList "regs".toList (by simp) (by simp)
  -- Each command is a question about the first word, and that is one of eight.
  simp only [takesAddr, hbreak, hdelete, hprint, hmemory, Bool.or_eq_true, beq_iff_eq] at htakes
  simp only [runCommand, hstep, hcontinue, hbreak, hdelete, hlist, hregs, hprint, hmemory, hwith]
  rcases htakes with ((((hw | hw) | (hw | hw)) | (hw | hw)) | (hw | hw))
  all_goals
    rw [hw]
    rfl

end commands

/-- An address argument is the hexadecimal number its token spells, and a command whose
argument is none prints a message and does nothing else. -/
structure ExactAddress (line : Line) : Prop where
  parses : ∀ v : Word, parseAddr line = .ok v ↔ Hexadecimal (firstToken line) v.toNat
  refused : ∀ message, parseAddr line = .error message → takesAddr line = true →
    ∀ h fuel d, runCommand h fuel line d = some (false, d.print [message])

/-- The token is short and starts with neither a blank nor a sign; or neither its first
31 characters nor the whole of it are a number in range; or it is a long zero. -/
def PlainToken (t : Line) : Prop :=
  (t.length ≤ 31 ∧ ∀ c ∈ t.head?, isSpace c = false ∧ c ≠ '-' ∧ c ≠ '+') ∨
  (∀ n < 2 ^ 32, ¬ Reads (t.take 31) n ∧ ¬ Hexadecimal t n) ∨
  (31 < t.length ∧ Hexadecimal t 0)

/-- On a long numeral the two readings agree on zero only. -/
theorem reads_take_iff_zero {t : Line} {n : ℕ} (ht : 31 < t.length) (h : Hexadecimal t n)
    (hn : n < 2 ^ 32) : Reads (t.take 31) n ↔ n = 0 := by
  obtain ⟨m, hcut, hzero⟩ := h.take (by decide) ht
  constructor
  · rintro ⟨negative, m', hsigned, _, rfl⟩
    obtain ⟨rfl, rfl⟩ := hsigned.unique hcut.signed
    exact hzero.mp rfl
  · rintro rfl
    have hm : m = 0 := hzero.mpr rfl
    exact .of_hexadecimal (hm ▸ hcut) (by decide)

theorem reads_iff_hexadecimal {t : Line} {n : ℕ} (hn : n < 2 ^ 32)
    (ht : ∀ c ∈ t.head?, isSpace c = false ∧ c ≠ '-' ∧ c ≠ '+') :
    Reads t n ↔ Hexadecimal t n := by
  constructor
  · rintro ⟨negative, m, hsigned, _, rfl⟩
    obtain ⟨rfl, hhex⟩ := hsigned.hexadecimal ht
    exact hhex
  · intro hhex
    exact .of_hexadecimal hhex (hn.trans (by decide))

theorem token_parses_iff (t : Line) :
    (∀ n < 2 ^ 32, Reads (t.take 31) n ↔ Hexadecimal t n) ↔ PlainToken t := by
  constructor
  · intro hall
    by_cases hsome : ∃ n < 2 ^ 32, Hexadecimal t n
    · obtain ⟨n, hn, hhex⟩ := hsome
      by_cases hlong : 31 < t.length
      · -- A long token is cut, and only a zero survives that.
        have hzero : n = 0 :=
          (reads_take_iff_zero hlong hhex hn).mp ((hall n hn).mpr hhex)
        exact .inr (.inr ⟨hlong, hzero ▸ hhex⟩)
      · refine .inl ⟨by omega, ?_⟩
        obtain ⟨c, l, rfl, hc⟩ := hhex.head
        intro c' hc'
        obtain rfl : c = c' := by simpa using hc'
        exact not_lead_of_isDigit hc
    · refine .inr (.inl fun n hn => ?_)
      have hno : ¬ Hexadecimal t n := fun hhex => hsome ⟨n, hn, hhex⟩
      exact ⟨fun hreads => hno ((hall n hn).mp hreads), hno⟩
  · rintro (⟨hshort, hlead⟩ | hneither | ⟨hlong, hzero⟩) n hn
    · rw [List.take_of_length_le hshort]
      exact reads_iff_hexadecimal hn hlead
    · exact iff_of_false (hneither n hn).1 (hneither n hn).2
    · constructor
      · intro hreads
        have hcut := (reads_take_iff_zero hlong hzero (by decide)).mpr rfl
        exact hreads.unique hcut ▸ hzero
      · intro hhex
        obtain rfl := hhex.unique hzero
        exact (reads_take_iff_zero hlong hzero (by decide)).mpr rfl

/-- Address arguments are parsed exactly when the token is plain. -/
theorem parseAddr_exact_iff (line : Line) :
    ExactAddress line ↔ PlainToken (firstToken line) := by
  rw [← token_parses_iff]
  constructor
  · intro hexact n hn
    have hv := hexact.parses (BitVec.ofNat 32 n)
    rw [parseAddr_ok_iff, BitVec.toNat_ofNat, Nat.mod_eq_of_lt hn] at hv
    exact hv
  · intro hall
    constructor
    · intro v
      rw [parseAddr_ok_iff]
      exact hall v.toNat v.isLt
    · intro message hparse htakes h fuel d
      exact runCommand_bad_address htakes hparse h fuel d

/-- A sign is read as part of the number, modulo 2^64. -/
example : parseAddr "b -ffffffffffffffff".toList = .ok 1 := by decide

/-- `break` and a token of 31 zeros and a letter: the copy leaves out the letter. -/
def longLine : Line := "break ".toList ++ List.replicate 31 '0' ++ ['z']

theorem parseAddr_counterexample : ¬ ∀ line, ExactAddress line := by
  intro hall
  have hok : parseAddr longLine = .ok 0 := by decide
  have hhex := ((hall longLine).parses 0).mp hok
  have hsubject := subject_eq_iff.mpr hhex.signed
  have hrest : (subject 16 (firstToken longLine)).map Subject.rest = some ['z'] := by decide
  rw [hsubject] at hrest
  simp at hrest

end MyMips
