import ResumePointers.Lib.LineEditor
import ResumePointers.Lib.Window
import ResumePointers.Lib.Runs

/-! Input of the console (`console.c`): interrupts put what is typed into a ring, processes read it.
A step goes as far as the lock of the console is held. -/
namespace ResumePointers.Xv6.Console

open LineEditor (Back)

abbrev Byte := BitVec 8

def INPUT_BUF : ℕ := 128

/-- `C(x)`, a control character. -/
def C (x : Char) : Byte := BitVec.ofNat 8 x.toNat - BitVec.ofNat 8 '@'.toNat

def newline : Byte := 10

/-- Where a process is: in `consoleread` it is about to take the lock, or it sleeps on `input.r`. It
has room for `n` of `target` bytes. -/
inductive Pc
  | user
  | reading (n target : ℕ)
  | asleep (n target : ℕ)
deriving DecidableEq

/-- `input`, the processes that are killed, and where each process is. -/
structure State (Proc : Type) where
  buf : List Byte
  r : BitVec 32
  w : BitVec 32
  e : BitVec 32
  killed : Proc → Bool
  pc : Proc → Pc

/-- What a step gives: the output for the screen, where `none` is BACKSPACE, or what a reader gets,
and whether it takes a ^D as the end of the file. -/
inductive Out
  | shown (cs : List (Option Byte))
  | read (n target : ℕ) (got : List Byte) (eof : Bool) (back : Back)
  | quiet
deriving DecidableEq

inductive Op (Proc : Type)
  | consoleintr (cs : List Byte)
  | consoleread (p : Proc) (n : ℕ)
  | run (p : Proc)
  | kill (p : Proc)

variable {Proc : Type}

abbrev M (Proc : Type) := EStateM Unit (State Proc)

/-- `wakeup(&input.r)`. -/
def Pc.wakeup : Pc → Pc
  | .asleep n target => .reading n target
  | pc => pc

/-- The loop for `C('U')`, with the number of bytes that are typed behind `input.w`. -/
def killLine : ℕ → M Proc (List (Option Byte))
  | 0 => pure []
  | k + 1 => do
    let s ← get
    if s.e ≠ s.w ∧ s.buf.getD ((s.e - 1).toNat % INPUT_BUF) 0 ≠ newline then
      set { s with e := s.e - 1 }
      let cs ← killLine k
      pure (none::cs)
    else pure []

/-- The default case of `consoleintr`. -/
def keep (c : Byte) : M Proc (List (Option Byte)) := do
  let s ← get
  if c ≠ 0 ∧ (s.e - s.r).toNat < INPUT_BUF then
    let c := if c = 13 then newline else c
    let s := { s with buf := s.buf.set (s.e.toNat % INPUT_BUF) c, e := s.e + 1 }
    if c = newline ∨ c = C 'D' ∨ s.e = s.r + BitVec.ofNat 32 INPUT_BUF then
      set { s with w := s.e, pc := fun p => (s.pc p).wakeup }
    else set s
    pure [some c]
  else pure []

/-- An iteration of the loop of `consoleintr`. -/
def intr (c : Byte) : M Proc (List (Option Byte)) := do
  if c = C 'P' then pure []
  else if c = C 'U' then
    let s ← get
    killLine (s.e - s.w).toNat
  else if c = C 'H' ∨ c = 0x7f then
    let s ← get
    if s.e ≠ s.w then
      set { s with e := s.e - 1 }
      pure [none]
    else pure []
  else keep c

def consoleintr : List Byte → M Proc (List (Option Byte))
  | [] => pure []
  | c::cs => do
    let out ← intr c
    let rest ← consoleintr cs
    pure (out ++ rest)

variable [DecidableEq Proc]

def goto (p : Proc) (pc : Pc) : M Proc Unit :=
  modify fun s => { s with pc := Function.update s.pc p pc }

/-- The loop of `consoleread` from where it has the lock, with `n` left of `m` bytes. -/
def readLoop (p : Proc) (m target : ℕ) : ℕ → List Byte → M Proc Out
  | 0,got => do
    goto p .user
    pure (.read m target got false (.returns target))
  | n + 1,got => do
    let s ← get
    if s.r = s.w then
      if s.killed p then
        goto p .user
        pure (.read m target got false .fails)
      else
        goto p (.asleep (n + 1) target)
        pure (.read m target got false .waits)
    else
      let c := s.buf.getD (s.r.toNat % INPUT_BUF) 0
      set { s with r := s.r + 1 }
      if c = C 'D' then
        if n + 1 < target then
          modify fun s => { s with r := s.r - 1 }
        goto p .user
        pure (.read m target got (¬ n + 1 < target) (.returns (target - (n + 1))))
      else if c = newline then
        goto p .user
        pure (.read m target (got ++ [c]) false (.returns (target - n)))
      else readLoop p m target n (got ++ [c])

def consoleread (p : Proc) (n : ℕ) : M Proc Out := do
  if (← get).pc p = .user then
    goto p (.reading n n)
    pure .quiet
  else throw ()

def run (p : Proc) : M Proc Out := do
  match (← get).pc p with
  | .reading n target => readLoop p n target n []
  | _ => throw ()

/-- A process that sleeps is woken by a kill. -/
def kill (p : Proc) : M Proc Out := do
  modify fun s => { s with
    killed := Function.update s.killed p true
    pc := Function.update s.pc p (s.pc p).wakeup }
  pure .quiet

def step : Op Proc → M Proc Out
  | .consoleintr cs => .shown <$> consoleintr cs
  | .consoleread p n => consoleread p n
  | .run p => run p
  | .kill p => kill p

/-- The console before anything is typed or read. -/
structure Booted (s : State Proc) : Prop where
  buf : s.buf.length = INPUT_BUF
  r : s.r = 0
  w : s.w = 0
  e : s.e = 0
  pc : ∀ p, s.pc p = .user

abbrev Runs : State Proc → List (Op Proc × Out) → State Proc → Prop := Trace (Yields step)

end ResumePointers.Xv6.Console
