import MyMips.Cpu

/-! `jit.c`: the code buffer, the block cache, the x86-64 emitter and the dispatch
loop. How a native block runs is a parameter of the loop. -/
namespace MyMips

def EAX : Byte := 0
def ECX : Byte := 1
def EDX : Byte := 2

def e32 (v : Word) : List Byte :=
  [v.setWidth 8, (v >>> 8).setWidth 8, (v >>> 16).setWidth 8, (v >>> 24).setWidth 8]

def e64 (v : DWord) : List Byte := e32 (v.setWidth 32) ++ e32 ((v >>> 32).setWidth 32)

/-- `mov <x86reg>, [r15 + m*4]` -/
def ld (x86reg : Byte) (m : Reg) : List Byte :=
  [0x41, 0x8B, 0x40 ||| x86reg <<< 3 ||| 0x07, m.setWidth 8 * 4]

/-- `mov [r15 + m*4], eax` (writes to `$0` are discarded) -/
def st (m : Reg) : List Byte :=
  if m = 0 then [] else [0x41, 0x89, 0x40 ||| 0x07, m.setWidth 8 * 4]

def ldOff (off : Word) : List Byte := [0x41, 0x8B, 0x80 ||| 0x07] ++ e32 off

def stOff (off : Word) : List Byte := [0x41, 0x89, 0x80 ||| 0x07] ++ e32 off

def aluRr (opcode : Byte) (rt : Reg) : List Byte := [0x41, opcode, 0x47, rt.setWidth 8 * 4]

def setFlag (setcc : Byte) : List Byte := [0x0F, setcc, 0xC0, 0x0F, 0xB6, 0xC0]

def HI_OFFSET : Word := 128
def LO_OFFSET : Word := 132
def PC_OFFSET : DWord := 1088

/-- Whether the instruction was compiled inline, and the bytes it was compiled to. -/
def jitEmit (i : Word) : Bool × List Byte :=
  match opcode i with
  | some .OP_SPECIAL =>
    match special i with
    | some .ADDU => (true, ld EAX (rs i) ++ aluRr 0x03 (rt i) ++ st (rd i))
    | some .SUBU => (true, ld EAX (rs i) ++ aluRr 0x2B (rt i) ++ st (rd i))
    | some .AND => (true, ld EAX (rs i) ++ aluRr 0x23 (rt i) ++ st (rd i))
    | some .OR => (true, ld EAX (rs i) ++ aluRr 0x0B (rt i) ++ st (rd i))
    | some .XOR => (true, ld EAX (rs i) ++ aluRr 0x33 (rt i) ++ st (rd i))
    | some .NOR => (true, ld EAX (rs i) ++ aluRr 0x0B (rt i) ++ [0xF7, 0xD0] ++ st (rd i))
    | some .SLT => (true, ld EAX (rs i) ++ aluRr 0x3B (rt i) ++ setFlag 0x9C ++ st (rd i))
    | some .SLTU => (true, ld EAX (rs i) ++ aluRr 0x3B (rt i) ++ setFlag 0x92 ++ st (rd i))
    | some .SLL =>
      (true, ld EAX (rt i) ++ [0xC1, 0xE0, (shamt i).setWidth 8] ++ st (rd i))
    | some .SRL =>
      (true, ld EAX (rt i) ++ [0xC1, 0xE8, (shamt i).setWidth 8] ++ st (rd i))
    | some .SRA =>
      (true, ld EAX (rt i) ++ [0xC1, 0xF8, (shamt i).setWidth 8] ++ st (rd i))
    | some .SLLV => (true, ld EAX (rt i) ++ ld ECX (rs i) ++ [0xD3, 0xE0] ++ st (rd i))
    | some .SRLV => (true, ld EAX (rt i) ++ ld ECX (rs i) ++ [0xD3, 0xE8] ++ st (rd i))
    | some .SRAV => (true, ld EAX (rt i) ++ ld ECX (rs i) ++ [0xD3, 0xF8] ++ st (rd i))
    | some .MFHI => (true, ldOff HI_OFFSET ++ st (rd i))
    | some .MFLO => (true, ldOff LO_OFFSET ++ st (rd i))
    | some .MTHI => (true, ld EAX (rs i) ++ stOff HI_OFFSET)
    | some .MTLO => (true, ld EAX (rs i) ++ stOff LO_OFFSET)
    | some .MOVZ =>
      (true, ld EAX (rd i) ++ ld EDX (rs i) ++ ld ECX (rt i) ++ [0x85, 0xC9] ++
        [0x0F, 0x44, 0xC2] ++ st (rd i))
    | some .MOVN =>
      (true, ld EAX (rd i) ++ ld EDX (rs i) ++ ld ECX (rt i) ++ [0x85, 0xC9] ++
        [0x0F, 0x45, 0xC2] ++ st (rd i))
    | _ => (false, [])
  | some .ADDIU => (true, ld EAX (rs i) ++ (0x05 :: e32 (simm i)) ++ st (rt i))
  | some .ANDI => (true, ld EAX (rs i) ++ (0x25 :: e32 ((imm16 i).setWidth 32)) ++ st (rt i))
  | some .ORI => (true, ld EAX (rs i) ++ (0x0D :: e32 ((imm16 i).setWidth 32)) ++ st (rt i))
  | some .XORI => (true, ld EAX (rs i) ++ (0x35 :: e32 ((imm16 i).setWidth 32)) ++ st (rt i))
  | some .SLTI =>
    (true, ld EAX (rs i) ++ (0x3D :: e32 (simm i)) ++ setFlag 0x9C ++ st (rt i))
  | some .SLTIU =>
    (true, ld EAX (rs i) ++ (0x3D :: e32 (simm i)) ++ setFlag 0x92 ++ st (rt i))
  | some .LUI =>
    (true, if rt i ≠ 0 then
      [0x41, 0xC7, 0x47, (rt i).setWidth 8 * 4] ++ e32 ((imm16 i).setWidth 32 <<< 16)
    else [])
  | _ => (false, [])

/-- A native block. `fn` is the offset of its entry from `code_buf`, all the program
keeps of it; `pc` and `words` record what it was emitted from. -/
structure Block where
  fn : ℕ
  pc : Word
  words : List Word
  nonempty : words ≠ []
  inlined : ∀ i ∈ words, (jitEmit i).1 = true

structure CacheEntry where
  pc : Word
  fn : Option Block
  valid : Bool

structure Jit where
  /-- The bytes from `code_buf` on, below `code_cap`. -/
  codeBuf : Option (ℕ → Byte)
  codeOff : ℕ
  codeCap : ℕ
  cache : BitVec 16 → CacheEntry

/-- `emit_init`, with the empty cache the program starts with. The argument is what
`mmap` returns, `none` standing for `MAP_FAILED`. -/
def emitInit (mmap : Option (ℕ → Byte)) : Jit where
  codeBuf := mmap
  codeOff := 0
  codeCap := 16 * 1024 * 1024
  cache := fun _ => ⟨0, none, false⟩

def cacheIndex (pc : Word) : BitVec 16 := (pc >>> 2).setWidth 16

def cacheLookup (pc : Word) (j : Jit) : Option Block :=
  let e := j.cache (cacheIndex pc)
  if e.valid ∧ e.pc = pc then e.fn else none

def cacheInsert (pc : Word) (fn : Block) (j : Jit) : Jit :=
  { j with cache := Function.update j.cache (cacheIndex pc) ⟨pc, some fn, true⟩ }

def BLOCK_LIMIT : ℕ := 1024

/-- What the loop of `compile_block` leaves: the bytes emitted, the words they were
emitted from (`count` is their number) and `pc`. -/
structure Compiled where
  code : List Byte
  words : List Word
  pc : Word

/-- The loop of `compile_block`; the first argument counts the iterations
`count < BLOCK_LIMIT` still allows. -/
def compileLoop (m : Memory) : ℕ → Word → Compiled
  | 0, pc => ⟨[], [], pc⟩
  | n + 1, pc =>
    let instr := wordAt m pc
    let r := jitEmit instr
    if r.1 then
      let rest := compileLoop m n (pc + 4)
      ⟨r.2 ++ rest.code, instr :: rest.words, rest.pc⟩
    else ⟨r.2, [], pc⟩

theorem compileLoop_inlined (m : Memory) (n : ℕ) (pc : Word) :
    ∀ i ∈ (compileLoop m n pc).words, (jitEmit i).1 = true := by
  induction n generalizing pc with
  | zero => simp [compileLoop]
  | succ n ih =>
    rw [compileLoop]
    dsimp only
    split
    · rename_i hemit
      intro i hi
      rcases List.mem_cons.mp hi with rfl | hi
      · exact hemit
      · exact ih (pc + 4) i hi
    · simp

/-- `push r15; movabs r15, glob` -/
def prologue (glob : DWord) : List Byte := [0x41, 0x57, 0x49, 0xBF] ++ e64 glob

/-- `movabs rax, &glob->pc; mov dword [rax], pc; pop r15; ret` -/
def epilogue (glob : DWord) (pc : Word) : List Byte :=
  [0x48, 0xB8] ++ e64 (glob + PC_OFFSET) ++ ([0xC7, 0x00] ++ e32 pc) ++ [0x41, 0x5F, 0xC3]

def emitAt (buf : ℕ → Byte) (cur : ℕ) (bytes : List Byte) : ℕ → Byte := fun x =>
  if cur ≤ x then (bytes[x - cur]?).getD (buf x) else buf x

/-- Write `bytes` at `code_off`. Those behind `code_cap` go to memory that is not the
buffer's, if the host lets them; the block they belong to is called before anything else
happens, and does not come back (`blockCall`). -/
def Jit.emit (j : Jit) (buf : ℕ → Byte) (bytes : List Byte) : ℕ → Byte :=
  emitAt buf j.codeOff (bytes.take (j.codeCap - j.codeOff))

/-- `glob` is the address of the `struct global`, which the block's code contains. -/
def compileBlock (glob : DWord) (m : Memory) (startPc : Word) (j : Jit) : Option Block × Jit :=
  match j.codeBuf with
  | none => (none, j)
  | some buf =>
    if j.codeOff + 8192 > j.codeCap then (none, j)
    else
      let body := compileLoop m BLOCK_LIMIT startPc
      if hcount : body.words = [] then
        -- The cursor is taken back, the prologue's bytes stay.
        (none, { j with codeBuf := some (j.emit buf (prologue glob ++ body.code)) })
      else
        let code := prologue glob ++ body.code ++ epilogue glob body.pc
        (some ⟨j.codeOff, startPc, body.words, hcount, compileLoop_inlined m BLOCK_LIMIT startPc⟩,
          { j with
            codeBuf := some (j.emit buf code)
            codeOff := j.codeOff + code.length })

structure JitState where
  jit : Jit
  guest : State

def interpret (h : Host) (m : JitState) : Outcome (ℕ × State) JitState :=
  match stepInstruction h m.guest with
  | (.ok, s') => .next ⟨m.jit, s'⟩
  | (.err, s') => .done (1, s')
  | (.stop, s') => .done (0, s')
  | (.trap, _) => .crash

def findBlock (glob : DWord) (m : Memory) (pc : Word) (j : Jit) : Option Block × Jit :=
  match cacheLookup pc j with
  | some fn => (some fn, j)
  | none => compileBlock glob m pc j

/-- One turn of the loop of `execute_jit`. `call` runs a native block: `none` when it
does not come back. -/
def dispatchStep (call : Jit → Block → State → Option State) (h : Host) (glob : DWord)
    (m : JitState) : Outcome (ℕ × State) JitState :=
  if m.guest.branchPending then interpret h m
  else
    let pc := m.guest.pc
    let r := findBlock glob m.guest.memory pc m.jit
    match r.1 with
    | some fn =>
      let jit := cacheInsert pc fn r.2
      match call jit fn m.guest with
      | some s => .next ⟨jit, s⟩
      | none => .crash
    | none => interpret h ⟨r.2, m.guest⟩

def runWords (h : Host) (words : List Word) (s : State) : State :=
  words.foldl (fun s i => (execInst h i s).2) s

def blockEffect (h : Host) (b : Block) (s : State) : State :=
  { runWords h b.words s with
    pc := b.pc + BitVec.ofNat 32 (4 * b.words.length) }

def blockCode (glob : DWord) (pc : Word) (words : List Word) : List Byte :=
  prologue glob ++ words.flatMap (fun i => (jitEmit i).2) ++
    epilogue glob (pc + BitVec.ofNat 32 (4 * words.length))

def Block.code (b : Block) (glob : DWord) : List Byte := blockCode glob b.pc b.words

def Block.Inside (b : Block) (glob : DWord) (j : Jit) : Prop :=
  b.fn + (b.code glob).length ≤ j.codeCap

instance (b : Block) (glob : DWord) (j : Jit) : Decidable (b.Inside glob j) :=
  Nat.decLe _ _

/-- `fn()`, taking a block to have the effect of its instructions. Only the buffer is
executable: a block that runs over its end does not come back. -/
def blockCall (h : Host) (glob : DWord) (j : Jit) (b : Block) (s : State) : Option State :=
  if b.Inside glob j then some (blockEffect h b s) else none

def jitStep (h : Host) (glob : DWord) : JitState → Outcome (ℕ × State) JitState :=
  dispatchStep (blockCall h glob) h glob

/-- `execute_jit()`, run for at most `n` turns of its loop. -/
def executeJit (h : Host) (glob : DWord) (mmap : Option (ℕ → Byte)) (n : ℕ) (s : State) :
    Option (ℕ × State) :=
  Run.run (jitStep h glob) n ⟨emitInit mmap, s⟩

section inlined
variable (h : Host) (i : Word) (s : State)

def inlinedImmediate : List Opcode := [.ADDIU, .ANDI, .ORI, .XORI, .SLTI, .SLTIU, .LUI]

theorem execInst_immediate {o : Opcode} (ho : opcode i = some o) (hi : o ∈ inlinedImmediate) :
    execInst h i s = execImmediate h i s := by
  simp only [inlinedImmediate, List.mem_cons, List.not_mem_nil, or_false] at hi
  rcases hi with rfl | rfl | rfl | rfl | rfl | rfl | rfl <;>
    exact execInst_of_opcode h ho (by decide) s

/-- An inlined instruction succeeds and changes registers, HI and LO only, and the
change does not depend on the program counter or the branch latch. -/
theorem jitEmit_exec (hi : (jitEmit i).1 = true) (p : Word) (b : Bool) :
    execInst h i { s with pc := p, branchPending := b } =
      (.ok, { s with
        reg := (execInst h i s).2.reg
        hi := (execInst h i s).2.hi
        lo := (execInst h i s).2.lo
        pc := p
        branchPending := b }) := by
  by_cases h0 : i = 0
  · simp [execInst, h0]
  cases ho : opcode i with
  | none => simp [jitEmit, ho] at hi
  | some o =>
    cases o with
    | OP_SPECIAL =>
      cases hf : special i with
      | none => simp [jitEmit, ho, hf] at hi
      | some f =>
        -- SYSCALL and BREAK are not inlined, so the nop test and theirs drop out.
        have hexec (t : State) (hs : f ≠ .SYSCALL) (hb : f ≠ .BREAK) :=
          execInst_register h h0 ho hf hs hb t
        cases f with
        | ADDU | SUBU | AND | OR | XOR | NOR | SLT | SLTU | SLL | SRL | SRA | SLLV | SRLV
        | SRAV | MFHI | MFLO | MTHI | MTLO =>
          rw [hexec _ (by decide) (by decide), hexec s (by decide) (by decide)]
          simp only [execRegister, hf]
          rfl
        | MOVZ | MOVN =>
          rw [hexec _ (by decide) (by decide), hexec s (by decide) (by decide)]
          simp only [execRegister, hf]
          split <;> rfl
        | _ => simp [jitEmit, ho, hf] at hi
    | ADDIU | ANDI | ORI | XORI | SLTI | SLTIU | LUI =>
      rw [execInst_immediate h i _ ho (by decide), execInst_immediate h i s ho (by decide)]
      simp only [execImmediate, ho]
      rfl
    | _ => simp [jitEmit, ho] at hi

end inlined

end MyMips
