import MyMips.Lib.LineSource
import MyMips.Dbg

namespace MyMips
open LineSource

inductive Err
  | ERROR | KEYBOARD_INTERUPT | BREAK_INTERUPT | CONTINUE_INTERUPT | EXIT_INTERUPT
  deriving DecidableEq

def EOF : ℤ := -1

def NEWLINE : ℤ := 10

/-- `struct vec`, with `data` cut at `size`. -/
structure Vec where
  data : List Byte
  capacity : ℕ
  size_le : data.length ≤ capacity

def vecInit : Vec := ⟨[], 0, le_rfl⟩

def grownCapacity (capacity : ℕ) : ℕ := if capacity = 0 then 10 else capacity * 2

def vecPush (v : Vec) (c : Byte) : Vec where
  data := v.data ++ [c]
  capacity := if v.data.length = v.capacity then grownCapacity v.capacity else v.capacity
  size_le := by
    have hsize := v.size_le
    rw [List.length_append, List.length_singleton, grownCapacity]
    split_ifs <;> omega

@[simp] theorem vecPush_data (v : Vec) (c : Byte) : (vecPush v c).data = v.data ++ [c] := rfl

/-- `struct cstream` in front of the fields `impl` of one of its types. -/
structure Cstream (σ : Type) where
  hasBuffer : Bool
  buffer : ℤ
  impl : σ

def cstreamPeek {σ : Type} (read : σ → Except Err ℤ × σ) (cs : Cstream σ) :
    Except Err ℤ × Cstream σ :=
  if cs.hasBuffer then (.ok cs.buffer, cs)
  else
    match read cs.impl with
    | (.error e, impl) => (.error e, { cs with impl := impl })
    | (.ok c, impl) => (.ok c, ⟨true, c, impl⟩)

/-- The pointer is not NULL, where the code answers `ERROR`. -/
def cstreamPop {σ : Type} (read : σ → Except Err ℤ × σ) (cs : Cstream σ) :
    Except Err ℤ × Cstream σ :=
  if cs.hasBuffer then (.ok cs.buffer, { cs with hasBuffer := false })
  else
    let r := read cs.impl
    (r.1, { cs with impl := r.2 })

/-- The next character is still the next one after it has been looked at. -/
theorem cstreamPop_peek {σ : Type} (read : σ → Except Err ℤ × σ) {cs cs' : Cstream σ} {c : ℤ}
    (h : cstreamPeek read cs = (.ok c, cs')) :
    (cstreamPop read cs).1 = .ok c ∧ (cstreamPop read cs').1 = .ok c ∧
      (cstreamPop read cs').2.impl = (cstreamPop read cs).2.impl := by
  unfold cstreamPeek at h
  unfold cstreamPop
  by_cases hbuffer : cs.hasBuffer = true
  · rw [if_pos hbuffer] at h
    obtain ⟨hc, rfl⟩ := Prod.mk.inj h
    rw [if_pos hbuffer]
    exact ⟨hc, hc, rfl⟩
  · rw [if_neg hbuffer] at h
    rcases hread : read cs.impl with ⟨e | c', impl⟩
    · simp [hread] at h
    · simp only [hread, Prod.mk.injEq, Except.ok.injEq] at h
      obtain ⟨rfl, rfl⟩ := h
      simp [hbuffer]

/-- A `FILE` open for reading: the bytes to come, and whether what ends them is an error
of the host. -/
structure CFile where
  contents : List Byte
  failing : Bool

def fgetc (f : CFile) : ℤ × CFile :=
  match f.contents with
  | c :: rest => (c.toNat, { f with contents := rest })
  | [] => (EOF, f)

def cstreamFileRead (f : CFile) : Except Err ℤ × CFile :=
  let r := fgetc f
  if r.1 = EOF ∧ r.2.failing = true then (.error .ERROR, r.2) else (.ok r.1, r.2)

def cstreamFileCreate (file : CFile) : Cstream CFile := ⟨false, 0, file⟩

/-- The user at the terminal: what the calls of `interruptible_readline` return in turn,
NULL when there is nothing left, and the prompts shown so far. -/
structure Terminal where
  replies : List (Except Err (Option (List Byte)))
  prompts : List String

def interruptibleReadline (prompt : String) (t : Terminal) :
    Except Err (Option (List Byte)) × Terminal :=
  (t.replies.head?.getD (.ok none), ⟨t.replies.tail, t.prompts ++ [prompt]⟩)

/-- `struct cstream_readline`; `current_line` is NULL or a string, without its NUL. -/
structure CstreamReadline where
  lineStart : Bool
  currentLine : Option (List Byte)
  linePosition : ℕ
  terminal : Terminal

def promptGet (cs : CstreamReadline) : String := if cs.lineStart then "dbg$ " else "> "

/-- What `cstream_readline_read` does once it has a line. A NUL is the end of it, which
is answered with a newline; the test for NUL that follows in the code never holds. -/
def readlineChar (str : List Byte) (cs : CstreamReadline) : Except Err ℤ × CstreamReadline :=
  let res := str.getD cs.linePosition 0
  if res = 0 then (.ok NEWLINE, { cs with currentLine := none })
  else (.ok res.toNat, { cs with linePosition := cs.linePosition + 1 })

def cstreamReadlineRead (cs : CstreamReadline) : Except Err ℤ × CstreamReadline :=
  match cs.currentLine with
  | some str => readlineChar str cs
  | none =>
    let r := interruptibleReadline (promptGet cs) cs.terminal
    match r.1 with
    | .error e => (.error e, { cs with terminal := r.2 })
    | .ok none => (.ok EOF, { cs with linePosition := 0, terminal := r.2 })
    | .ok (some str) =>
      readlineChar str { cs with
        currentLine := some str
        linePosition := 0
        terminal := r.2 }

/-- The stream is allocated with `malloc`, and the fields of the base are not set: they
are what the memory happens to hold. -/
def cstreamReadlineCreate (hasBuffer : Bool) (buffer : ℤ) (terminal : Terminal) :
    Cstream CstreamReadline :=
  ⟨hasBuffer, buffer, ⟨true, none, 0, terminal⟩⟩

def readLineStep {σ : Type} (pop : σ → Except Err ℤ × σ) (r : σ × Vec) :
    Outcome (Except Err Unit × σ × Vec) (σ × Vec) :=
  match pop r.1 with
  | (.error e, s) => .done (.error e, s, r.2)
  | (.ok c, s) =>
    if c = EOF ∨ c = NEWLINE then .done (.ok (), s, vecPush r.2 0)
    else .next (s, vecPush r.2 (BitVec.ofInt 8 c))

abbrev Answer := Except Err Unit × List Byte

inductive ReadLines {σ : Type} (pop : σ → Except Err ℤ × σ) : σ → List Answer → σ → Prop
  | nil (s : σ) : ReadLines pop s [] s
  | cons {s t u : σ} {r : Except Err Unit} {v : Vec} {rs : List Answer} :
    Run.Returns (readLineStep pop) (s, vecInit) (r, t, v) → ReadLines pop t rs u →
    ReadLines pop s ((r, v.data) :: rs) u

def charOf (c : Byte) : ℤ := c.toNat

theorem ofInt_charOf (c : Byte) : BitVec.ofInt 8 (charOf c) = c := by
  rw [charOf, BitVec.ofInt_natCast, BitVec.ofNat_toNat, BitVec.setWidth_eq]

/-- No character is taken for the end of the input, whatever its top bit. -/
theorem charOf_ne_EOF (c : Byte) : charOf c ≠ EOF := by
  unfold charOf EOF
  omega

theorem charOf_eq_newline {c : Byte} (h : charOf c = NEWLINE) : c = 10 := by
  unfold charOf NEWLINE at h
  apply BitVec.eq_of_toNat_eq
  exact_mod_cast h

def answer : Option (Except Err (List Byte)) → Answer
  | some (.ok l) => (.ok (), l ++ [0])
  | some (.error e) => (.error e, [])
  | none => (.ok (), [0])

def answers (queue : List (Except Err (List Byte))) : List Answer :=
  queue.map (fun i => answer (some i)) ++ [answer none]

section reading
variable {σ : Type} {pop : σ → Except Err ℤ × σ} {s t : σ}

theorem steps_of_pops {l : List Byte} (hl : ∀ c ∈ l, c ≠ 10) (h : Pops pop s (l.map charOf) t)
    (v : Vec) : ∃ w, Run.Steps (readLineStep pop) l.length (s, v) (t, w) ∧
      w.data = v.data ++ l := by
  induction l generalizing s v with
  | nil =>
    cases h with
    | nil => exact ⟨v, .refl _, by simp⟩
  | cons c l ih =>
    cases h with
    | cons hpop hrest =>
      rw [List.forall_mem_cons] at hl
      obtain ⟨w, hsteps, hdata⟩ := ih hl.2 hrest (vecPush v c)
      refine ⟨w, .head ?_ hsteps, ?_⟩
      · have hgo : ¬ (charOf c = EOF ∨ charOf c = NEWLINE) := by
          rintro (heof | hnewline)
          · exact charOf_ne_EOF c heof
          · exact hl.1 (charOf_eq_newline hnewline)
        simp only [readLineStep, hpop, if_neg hgo, ofInt_charOf]
      · rw [hdata, vecPush_data, List.append_assoc]
        rfl

/-- The end of a line, or of the input, ends the loop. -/
theorem returns_of_steps {n : ℕ} {v w : Vec} {u : σ} {c : ℤ}
    (h : Run.Steps (readLineStep pop) n (s, v) (t, w)) (hpop : pop t = (.ok c, u))
    (hc : c = EOF ∨ c = NEWLINE) :
    Run.Returns (readLineStep pop) (s, v) (.ok (), u, vecPush w 0) := by
  refine ⟨n + 1, ?_⟩
  rw [Run.run_add_of_steps h 1]
  simp only [Run.run, readLineStep, hpop, if_pos hc]

variable {R : σ → List (Except Err (List Byte)) → Prop}

/-- One call answers the head of the queue and leaves the rest of it. -/
theorem readLine_serves (hserves : Serves pop charOf EOF NEWLINE R)
    {queue : List (Except Err (List Byte))} (hqueue : ∀ l, .ok l ∈ queue → ∀ c ∈ l, c ≠ 10)
    (hR : R s queue) (v : Vec) : ∃ t w,
      Run.Returns (readLineStep pop) (s, v) ((answer queue.head?).1, t, w) ∧
      w.data = v.data ++ (answer queue.head?).2 ∧ R t queue.tail := by
  cases queue with
  | nil =>
    obtain ⟨t, hpop, ht⟩ := hserves.finish s hR
    exact ⟨t, _, returns_of_steps (.refl _) hpop (.inl rfl), rfl, ht⟩
  | cons item queue =>
    cases item with
    | error e =>
      obtain ⟨t, hpop, ht⟩ := hserves.error s e queue hR
      refine ⟨t, v, ⟨1, ?_⟩, by simp [answer], ht⟩
      simp only [Run.run, readLineStep, hpop, List.head?_cons, answer]
    | ok l =>
      obtain ⟨t, hpops, ht⟩ := hserves.line s l queue hR
      -- The characters of the line, and then the newline that ends the loop.
      obtain ⟨u, hline, hend⟩ := hpops.split
      obtain ⟨w, hsteps, hdata⟩ := steps_of_pops (hqueue l List.mem_cons_self) hline v
      cases hend with
      | cons hpop hnil =>
        cases hnil
        refine ⟨t, _, returns_of_steps hsteps hpop (.inr rfl), ?_, ht⟩
        rw [vecPush_data, hdata, List.append_assoc]
        rfl

/-- Repeated calls answer the whole queue, and then the end of the input. -/
theorem readLines_serves (hserves : Serves pop charOf EOF NEWLINE R)
    {queue : List (Except Err (List Byte))} (hqueue : ∀ l, .ok l ∈ queue → ∀ c ∈ l, c ≠ 10)
    (hR : R s queue) : ∃ t, ReadLines pop s (answers queue) t := by
  induction queue generalizing s with
  | nil =>
    obtain ⟨t, w, hreturns, hdata, _⟩ := readLine_serves hserves hqueue hR vecInit
    have hone := ReadLines.cons hreturns (.nil t)
    rw [hdata] at hone
    exact ⟨t, hone⟩
  | cons item queue ih =>
    obtain ⟨t, w, hreturns, hdata, ht⟩ := readLine_serves hserves hqueue hR vecInit
    obtain ⟨u, hrest⟩ := ih (fun l hl => hqueue l (List.mem_cons_of_mem _ hl)) ht
    have hall := ReadLines.cons hreturns hrest
    rw [hdata] at hall
    exact ⟨u, hall⟩

end reading

def lineText (data : List Byte) : Line :=
  (data.map fun c => Char.ofNat c.toNat).takeWhile (· != Char.ofNat 0)

/-- The NUL that `read_line` appends ends the string. -/
theorem lineText_terminated (l : List Byte) : lineText (l ++ [0]) =
    (l.map fun c => Char.ofNat c.toNat).takeWhile (· != Char.ofNat 0) := by
  unfold lineText
  induction l with
  | nil => rfl
  | cons c l ih => simp only [List.cons_append, List.map_cons, List.takeWhile_cons, ih]

inductive DebugRun {σ : Type} (pop : σ → Except Err ℤ × σ) (h : Host) (fuel : ℕ) :
    σ → Dbg → Dbg → Prop
  | ended {s t : σ} {r : Except Err Unit} {v : Vec} (d : Dbg) :
    Run.Returns (readLineStep pop) (s, vecInit) (r, t, v) →
    r ≠ .ok () ∨ v.data.length ≤ 1 → DebugRun pop h fuel s d d
  | quit {s t : σ} {v : Vec} {d d' : Dbg} :
    Run.Returns (readLineStep pop) (s, vecInit) (.ok (), t, v) → 1 < v.data.length →
    runCommand h fuel (lineText v.data) d = some (true, d') → DebugRun pop h fuel s d d'
  | command {s t : σ} {v : Vec} {d d' d'' : Dbg} :
    Run.Returns (readLineStep pop) (s, vecInit) (.ok (), t, v) → 1 < v.data.length →
    runCommand h fuel (lineText v.data) d = some (false, d') →
    DebugRun pop h fuel t d' d'' → DebugRun pop h fuel s d d''

theorem ordinary_map_ok {lines : List (List Byte)} (hlines : ∀ l ∈ lines, ∀ c ∈ l, c ≠ 10) :
    ∀ l, (.ok l : Except Err (List Byte)) ∈ lines.map .ok → ∀ c ∈ l, c ≠ 10 := by
  intro l hl
  obtain ⟨l', hl', he⟩ := List.mem_map.mp hl
  obtain rfl := Except.ok.inj he
  exact hlines l' hl'

/-- On a stream that serves lines, the loop does what `debug` does on the lines. -/
theorem debugRun_of_debug {σ : Type} {pop : σ → Except Err ℤ × σ}
    {R : σ → List (Except Err (List Byte)) → Prop}
    (hserves : Serves pop charOf EOF NEWLINE R) (h : Host) (fuel : ℕ) (lines : List (List Byte))
    (hlines : ∀ l ∈ lines, ∀ c ∈ l, c ≠ 10) {s : σ} (hR : R s (lines.map .ok)) {d d' : Dbg}
    (hdebug : debug h fuel (lines.map fun l => l.map fun c => Char.ofNat c.toNat) d = some d') :
    DebugRun pop h fuel s d d' := by
  obtain ⟨t, v, hreturns, hdata, ht⟩ := readLine_serves hserves (ordinary_map_ok hlines) hR vecInit
  induction lines generalizing s d t v with
  | nil =>
    rw [List.map_nil, debug] at hdebug
    obtain rfl := Option.some.inj hdebug
    exact .ended d hreturns (.inr (by rw [hdata]; exact le_rfl))
  | cons l lines ih =>
    rw [List.map_cons, debug] at hdebug
    have hline : v.data = l ++ [0] := hdata
    split_ifs at hdebug with hempty
    · obtain rfl := Option.some.inj hdebug
      obtain rfl := List.map_eq_nil_iff.mp hempty
      exact .ended d hreturns (.inr (by rw [hline]; exact le_rfl))
    · have hsize : 1 < v.data.length := by
        rw [hline, List.length_append, List.length_singleton]
        have hpos := List.length_pos_iff.mpr fun hnil => hempty (List.map_eq_nil_iff.mpr hnil)
        omega
      rw [← lineText_terminated, ← hline] at hdebug
      cases hcommand : runCommand h fuel (lineText v.data) d with
      | none => simp [hcommand] at hdebug
      | some r =>
        obtain ⟨quit, d1⟩ := r
        rw [hcommand] at hdebug
        cases quit with
        | true =>
          obtain rfl := Option.some.inj hdebug
          exact .quit hreturns hsize hcommand
        | false =>
          rw [List.forall_mem_cons] at hlines
          obtain ⟨t', v', hreturns', hdata', ht'⟩ :=
            readLine_serves hserves (ordinary_map_ok hlines.2) ht vecInit
          exact .command hreturns hsize hcommand
            (ih hlines.2 ht hdebug t' v' hreturns' hdata' ht')

def FileServes (cs : Cstream CFile) (queue : List (Except Err (List Byte))) : Prop :=
  ∃ (buffer : ℤ) (lines : List (List Byte)), queue = lines.map .ok ∧
    cs = ⟨false, buffer, ⟨lines.flatMap (· ++ [10]), false⟩⟩

/-- The terminal will return the lines and errors, and no line is being read. -/
def ReadlineServes (cs : Cstream CstreamReadline) (queue : List (Except Err (List Byte))) :
    Prop :=
  (∀ l, .ok l ∈ queue → 0 ∉ l) ∧ ∃ buffer start position prompts, cs = ⟨false, buffer,
    ⟨start, none, position, ⟨queue.map (Except.map some), prompts⟩⟩⟩

section streams
variable (buffer : ℤ)

theorem cstreamPop_file (c : Byte) (rest : List Byte) :
    cstreamPop cstreamFileRead ⟨false, buffer, ⟨c :: rest, false⟩⟩ =
      (.ok (charOf c), ⟨false, buffer, ⟨rest, false⟩⟩) := by
  simp [cstreamPop, cstreamFileRead, fgetc, charOf]

theorem pops_file (l rest : List Byte) :
    Pops (cstreamPop cstreamFileRead) ⟨false, buffer, ⟨l ++ rest, false⟩⟩ (l.map charOf)
      ⟨false, buffer, ⟨rest, false⟩⟩ := by
  induction l with
  | nil => exact .nil _
  | cons c l ih => exact .cons (cstreamPop_file buffer c (l ++ rest)) ih

theorem file_serves : Serves (cstreamPop cstreamFileRead) charOf EOF NEWLINE FileServes := by
  constructor
  · rintro s l queue ⟨buffer, lines, hqueue, rfl⟩
    cases lines with
    | nil => simp at hqueue
    | cons l' lines =>
      obtain ⟨hl, rfl⟩ := List.cons.inj hqueue
      obtain rfl := Except.ok.inj hl
      refine ⟨⟨false, buffer, ⟨lines.flatMap (· ++ [10]), false⟩⟩, ?_, buffer, lines, rfl, rfl⟩
      rw [List.flatMap_cons, List.append_assoc]
      exact (pops_file buffer l _).snoc (cstreamPop_file buffer 10 _)
  · rintro s e queue ⟨buffer, lines, hqueue, rfl⟩
    cases lines with
    | nil => simp at hqueue
    | cons l lines => simp at hqueue
  · rintro s ⟨buffer, lines, hqueue, rfl⟩
    obtain rfl : lines = [] := by simpa using hqueue.symm
    exact ⟨_, rfl, buffer, [], rfl, rfl⟩

/-- The rest of the current line, and the newline in place of its NUL. -/
theorem pops_readline {l rest : List Byte} (hl : 0 ∉ l) {position : ℕ}
    (hrest : l.drop position = rest) (start : Bool) (t : Terminal) :
    ∃ position', Pops (cstreamPop cstreamReadlineRead)
      ⟨false, buffer, ⟨start, some l, position, t⟩⟩ (rest.map charOf ++ [NEWLINE])
      ⟨false, buffer, ⟨start, none, position', t⟩⟩ := by
  induction rest generalizing position with
  | nil =>
    have hend : l.getD position 0 = 0 := by
      rw [List.getD_eq_getElem?_getD, ← List.head?_drop, hrest]
      rfl
    refine ⟨position, .cons ?_ (.nil _)⟩
    simp only [cstreamPop, cstreamReadlineRead, readlineChar, hend, if_true, Bool.false_eq_true,
      if_false]
  | cons c rest ih =>
    have hchar : l.getD position 0 = c := by
      rw [List.getD_eq_getElem?_getD, ← List.head?_drop, hrest]
      rfl
    have hmem : c ∈ l := by
      apply List.mem_of_mem_drop (i := position)
      rw [hrest]
      exact List.mem_cons_self
    have hne : c ≠ 0 := fun h => hl (h ▸ hmem)
    have htail : l.drop (position + 1) = rest := by
      rw [← List.tail_drop, hrest, List.tail_cons]
    obtain ⟨position', hpops⟩ := ih htail
    refine ⟨position', .cons ?_ hpops⟩
    simp only [cstreamPop, cstreamReadlineRead, readlineChar, hchar, if_neg hne, Bool.false_eq_true,
      if_false]
    rfl

/-- An error or a line is asked for only when the one before it has been read. -/
theorem readline_serves :
    Serves (cstreamPop cstreamReadlineRead) charOf EOF NEWLINE ReadlineServes := by
  constructor
  · rintro s l queue ⟨hlines, buffer, start, position, prompts, rfl⟩
    have hl : 0 ∉ l := hlines l List.mem_cons_self
    obtain ⟨position', hpops⟩ := pops_readline buffer hl (List.drop_zero (l := l)) start
      ⟨queue.map (Except.map some), prompts ++ [if start then "dbg$ " else "> "]⟩
    refine ⟨_, hpops.of_eq (by simp) rfl, ?_, buffer, start, position', _, rfl⟩
    exact fun l' hl' => hlines l' (List.mem_cons_of_mem _ hl')
  · rintro s e queue ⟨hlines, buffer, start, position, prompts, rfl⟩
    refine ⟨_, rfl, ?_, buffer, start, position, _, rfl⟩
    exact fun l' hl' => hlines l' (List.mem_cons_of_mem _ hl')
  · rintro s ⟨hlines, buffer, start, position, prompts, rfl⟩
    exact ⟨_, rfl, hlines, buffer, start, 0, _, rfl⟩

end streams

def linesOf (items : List (Except Err (List Byte))) : List (List Byte) :=
  items.filterMap Except.toOption

/-- Both streams deliver the lines, each NUL-terminated, and then the end of the input;
the terminal with errors anywhere between them, each answered in its place. -/
structure Delivered (lines : List (List Byte)) (hasBuffer : Bool) (buffer : ℤ) : Prop where
  file : ∃ t, ReadLines (cstreamPop cstreamFileRead)
    (cstreamFileCreate ⟨lines.flatMap (· ++ [10]), false⟩) (answers (lines.map .ok)) t
  readline : ∀ items, linesOf items = lines → ∃ t, ReadLines (cstreamPop cstreamReadlineRead)
    (cstreamReadlineCreate hasBuffer buffer ⟨items.map (Except.map some), []⟩) (answers items) t

section delivery
variable {lines : List (List Byte)} {items : List (Except Err (List Byte))}

theorem mem_linesOf {l : List Byte} (h : .ok l ∈ items) : l ∈ linesOf items :=
  List.mem_filterMap.mpr ⟨.ok l, h, rfl⟩

theorem linesOf_map_ok (lines : List (List Byte)) : linesOf (lines.map .ok) = lines := by
  rw [linesOf, List.filterMap_map]
  exact List.filterMap_some

theorem file_delivers (hlines : ∀ l ∈ lines, ∀ c ∈ l, c ≠ 0 ∧ c ≠ 10) :
    ∃ t, ReadLines (cstreamPop cstreamFileRead)
      (cstreamFileCreate ⟨lines.flatMap (· ++ [10]), false⟩) (answers (lines.map .ok)) t := by
  apply readLines_serves file_serves
  · exact ordinary_map_ok fun l hl c hc => (hlines l hl c hc).2
  · exact ⟨0, lines, rfl, rfl⟩

/-- The readline stream, once nothing is buffered. -/
theorem readline_ready (hlines : ∀ l ∈ linesOf items, ∀ c ∈ l, c ≠ 0 ∧ c ≠ 10) (buffer : ℤ) :
    ReadlineServes (cstreamReadlineCreate false buffer ⟨items.map (Except.map some), []⟩) items := by
  refine ⟨fun l hl hzero => ?_, buffer, true, 0, [], rfl⟩
  exact (hlines l (mem_linesOf hl) 0 hzero).1 rfl

theorem ordinary_of_linesOf (hlines : ∀ l ∈ linesOf items, ∀ c ∈ l, c ≠ 0 ∧ c ≠ 10) :
    ∀ l, .ok l ∈ items → ∀ c ∈ l, c ≠ 10 :=
  fun l hl c hc => (hlines l (mem_linesOf hl) c hc).2

theorem ReadLines.cons_inv {σ : Type} {pop : σ → Except Err ℤ × σ} {s u : σ} {a : Answer}
    {rs : List Answer} (h : ReadLines pop s (a :: rs) u) :
    ∃ t v, Run.Returns (readLineStep pop) (s, vecInit) (a.1, t, v) ∧ v.data = a.2 := by
  generalize hq : a :: rs = q at h
  cases h with
  | nil => simp at hq
  | cons hreturns _ =>
    obtain ⟨rfl, _⟩ := List.cons.inj hq
    exact ⟨_, _, hreturns, rfl⟩

/-- What the memory happened to hold comes out as the first character. -/
theorem not_delivered (hlines : ∀ l ∈ lines, ∀ c ∈ l, c ≠ 0 ∧ c ≠ 10) (buffer : ℤ) :
    ¬ Delivered lines true buffer := by
  intro hdelivered
  -- An error before the first line is answered with the character in the vector, or late.
  let items : List (Except Err (List Byte)) := .error .ERROR :: lines.map .ok
  have hitems : linesOf items = lines := linesOf_map_ok lines
  obtain ⟨u, hread⟩ := hdelivered.readline items hitems
  obtain ⟨t, v, ⟨n, hrun⟩, hdata⟩ := hread.cons_inv
  let cs : Cstream CstreamReadline :=
    cstreamReadlineCreate false buffer ⟨items.map (Except.map some), []⟩
  have hpop : cstreamPop cstreamReadlineRead
      (cstreamReadlineCreate true buffer ⟨items.map (Except.map some), []⟩) =
      (.ok buffer, cs) := rfl
  by_cases hend : buffer = EOF ∨ buffer = NEWLINE
  · -- The stale character ends an empty line that nobody typed.
    obtain ⟨k, hrun'⟩ := returns_of_steps (.refl (_, vecInit)) hpop hend
    have hsame := congrArg Prod.fst (Run.run_unique hrun hrun')
    simp [answer] at hsame
  · -- It is pushed, so the error is answered with one character too many.
    have hlines' := hitems.symm ▸ hlines
    obtain ⟨t', w, ⟨k, hrest⟩, hdata', _⟩ := readLine_serves readline_serves
      (ordinary_of_linesOf hlines') (readline_ready hlines' buffer)
      (vecPush vecInit (BitVec.ofInt 8 buffer))
    have hrun' : Run.run (readLineStep (cstreamPop cstreamReadlineRead)) (k + 1)
        (cstreamReadlineCreate true buffer ⟨items.map (Except.map some), []⟩, vecInit) =
        some ((answer items.head?).1, t', w) := by
      rw [Run.run]
      simp only [readLineStep, hpop, if_neg hend]
      exact hrest
    have hsame : v = w := congrArg (fun r => r.2.2) (Run.run_unique hrun hrun')
    rw [← hsame, hdata] at hdata'
    simp [answer, items] at hdata'

end delivery

/-- The lines are delivered unchanged exactly when the memory of the readline stream
happens to say that nothing is buffered. -/
theorem lines_delivered_iff (lines : List (List Byte))
    (hlines : ∀ l ∈ lines, ∀ c ∈ l, c ≠ 0 ∧ c ≠ 10) (hasBuffer : Bool) (buffer : ℤ) :
    Delivered lines hasBuffer buffer ↔ hasBuffer = false := by
  constructor
  · intro hdelivered
    cases hasBuffer
    · rfl
    · exact absurd hdelivered (not_delivered hlines buffer)
  · rintro rfl
    constructor
    · exact file_delivers hlines
    · rintro items rfl
      exact readLines_serves readline_serves (ordinary_of_linesOf hlines)
        (readline_ready hlines buffer)

/-- Two lines, the first one empty. -/
theorem lines_delivered_two : Delivered [[], [0x73, 0xFF]] false 0 :=
  (lines_delivered_iff _ (by decide) false 0).mpr rfl

theorem lines_delivered_counterexample :
    ¬ ∀ lines hasBuffer buffer, (∀ l ∈ lines, ∀ c ∈ l, c ≠ 0 ∧ c ≠ 10) →
      Delivered lines hasBuffer buffer :=
  fun hall => not_delivered (by simp) 0x41 (hall [] true 0x41 (by simp))

end MyMips
