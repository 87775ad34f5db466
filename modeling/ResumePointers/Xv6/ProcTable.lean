import ResumePointers.Lib.Runs
import Mathlib.Data.List.FinRange

/-! The table of processes (`proc.c`), with any number of processors. A step goes up to a lock, up to
a switch between a process and the scheduler, or as far as memory is at hand. -/
namespace ResumePointers.Xv6.ProcTable

def NPROC : ℕ := 64

abbrev Slot := Fin NPROC

def initproc : Slot := ⟨0,by decide⟩

inductive Procstate
  | unused
  | embryo
  | sleeping
  | runnable
  | running
  | zombie
deriving DecidableEq

/-- What a process sleeps on: a process in `wait` sleeps on its own slot. -/
inductive Chan
  | proc (p : Slot)
  | other (addr : ℕ)
deriving DecidableEq

/-- Where a process goes on behind `swtch`: out of `yield`, `sleep` or `forkret`, out of a `yield` in
`fork`, in the loop of `wait`, or behind `exit`. -/
inductive Next
  | user (slept : Bool)
  | forking (np : Slot) (parented : Bool)
  | wait
  | dead
deriving DecidableEq

/-- Where a process is: in `fork`, before or behind `np->parent = curproc`; in `wait` with the lock;
in `sched` before or behind `swtch`. -/
inductive Pc
  | user
  | forking (np : Slot) (parented : Bool)
  | waiting
  | switching (next : Next)
  | switched (next : Next)
deriving DecidableEq

/-- `struct proc`, with the place at which the process goes on. -/
structure Proc where
  state : Procstate
  pid : ℕ
  parent : Option Slot
  killed : Bool
  chan : Option Chan
  pc : Pc
deriving DecidableEq

/-- What a processor executes: the scheduler without the lock, its loop, or a process. -/
inductive Ctx
  | idle
  | scan (i : ℕ)
  | on (p : Slot)
deriving DecidableEq

structure State (Cpu : Type) where
  proc : Slot → Proc
  nextpid : ℕ
  lock : Option Cpu
  cpu : Cpu → Ctx

/-- A decision that is not possible, or a panic. -/
inductive Stop
  | disabled
  | panic (msg : String)
deriving DecidableEq

/-- What the processors can do. The processes that call and go on are those that they execute. -/
inductive Op (Cpu : Type)
  | scheduler (c : Cpu)
  | fork (c : Cpu)
  | exit (c : Cpu)
  | wait (c : Cpu)
  | sleep (c : Cpu) (addr : ℕ)
  | yield (c : Cpu)
  | run (c : Cpu) (memory : Bool)
  | wakeup (addr : ℕ)
  | kill (pid : ℕ)

variable {Cpu : Type}

abbrev M (Cpu : Type) := EStateM Stop (State Cpu)

/-- The result of `fork`, `wait` or `kill`, where none is -1. -/
abbrev Result := Option (Option ℕ)

/-- Wake up all processes sleeping on `chan`. -/
def wakeup1 (chan : Option Chan) (proc : Slot → Proc) : Slot → Proc := fun q =>
  if (proc q).state = .sleeping ∧ (proc q).chan = chan then { proc q with state := .runnable }
  else proc q

/-- The loop of `exit` that passes the children of `p` to init. -/
def abandon (p : Slot) : List Slot → (Slot → Proc) → Slot → Proc
  | [],proc => proc
  | q::qs,proc =>
    if (proc q).parent = some p then
      let proc := Function.update proc q { proc q with parent := some initproc }
      if (proc q).state = .zombie then abandon p qs (wakeup1 (some (.proc initproc)) proc)
      else abandon p qs proc
    else abandon p qs proc

def setProc (p : Slot) (x : Proc) : M Cpu Unit :=
  modify fun s => { s with proc := Function.update s.proc p x }

/-- The process `p` goes on at `pc`. -/
def goto (p : Slot) (pc : Pc) : M Cpu Unit := do
  setProc p { (← get).proc p with pc }

section Sections

variable [DecidableEq Cpu]

def setCpu (c : Cpu) (x : Ctx) : M Cpu Unit :=
  modify fun s => { s with cpu := Function.update s.cpu c x }

def acquire (c : Cpu) : M Cpu Unit := do
  let s ← get
  if s.lock = some c then throw (.panic "acquire")
  else if s.lock = none then set { s with lock := some c }
  else throw .disabled

def release (c : Cpu) : M Cpu Unit := do
  let s ← get
  if s.lock = some c then set { s with lock := none } else throw (.panic "release")

omit [DecidableEq Cpu] in
/-- The process on a processor, if it is outside the sections under the lock. -/
def myproc (c : Cpu) : M Cpu Slot := do
  let s ← get
  match s.cpu c with
  | .on p => if (s.proc p).pc = .user then pure p else throw .disabled
  | _ => throw .disabled

omit [DecidableEq Cpu] in
/-- The first slot for which `f` holds. -/
def find (f : Proc → Bool) : M Cpu (Option Slot) := do
  let s ← get
  pure ((List.finRange NPROC).find? fun p => f (s.proc p))

/-- `fork` up to the end of the lock in `allocproc`. -/
def fork (c : Cpu) : M Cpu Result := do
  let p ← myproc c
  acquire c
  match ← find fun x => x.state = .unused with
  | none =>
    release c
    pure (some none)
  | some np =>
    let s ← get
    setProc np { s.proc np with state := .embryo, pid := s.nextpid }
    modify fun s => { s with nextpid := s.nextpid + 1 }
    release c
    goto p (.forking np false)
    pure none

/-- The rest of `allocproc` and `fork` up to the lock; without memory the slot is free again. -/
def allocate (p np : Slot) (memory : Bool) : M Cpu Result := do
  let s ← get
  if memory then
    setProc np { s.proc np with parent := some p, pc := .switched (.user false) }
    goto p (.forking np true)
    pure none
  else
    setProc np { s.proc np with state := .unused }
    goto p .user
    pure (some none)

def forked (c : Cpu) (p np : Slot) : M Cpu Result := do
  acquire c
  let s ← get
  setProc np { s.proc np with state := .runnable }
  release c
  goto p .user
  pure (some (some (s.proc np).pid))

/-- `exit` up to `sched`. -/
def exit (c : Cpu) : M Cpu Result := do
  let p ← myproc c
  if p = initproc then throw (.panic "init exiting")
  acquire c
  let s ← get
  let proc := wakeup1 ((s.proc p).parent.map .proc) s.proc
  let proc := abandon p (List.finRange NPROC) proc
  let x := { proc p with state := .zombie, pc := .switching .dead }
  set { s with proc := Function.update proc p x }
  pure none

def wait (c : Cpu) : M Cpu Result := do
  let p ← myproc c
  acquire c
  goto p .waiting
  pure none

/-- An iteration of the loop of `wait` up to `sched` in `sleep`. -/
def waitLoop (c : Cpu) (p : Slot) : M Cpu Result := do
  match ← find fun x => x.parent = some p ∧ x.state = .zombie with
  | some q =>
    let s ← get
    setProc q { s.proc q with state := .unused, pid := 0, parent := none, killed := false }
    release c
    goto p .user
    pure (some (some (s.proc q).pid))
  | none =>
    let child ← find fun x => x.parent = some p
    let s ← get
    if child = none ∨ (s.proc p).killed then
      release c
      goto p .user
      pure (some none)
    else
      setProc p { s.proc p with
        chan := some (.proc p), state := .sleeping, pc := .switching .wait }
      pure none

/-- `sleep` with another lock up to `sched`. -/
def sleep (c : Cpu) (addr : ℕ) : M Cpu Result := do
  let p ← myproc c
  acquire c
  let s ← get
  setProc p { s.proc p with
    chan := some (.other addr), state := .sleeping, pc := .switching (.user true) }
  pure none

/-- `yield` up to `sched`. -/
def yieldTo (c : Cpu) (p : Slot) (next : Next) : M Cpu Result := do
  acquire c
  setProc p { (← get).proc p with state := .runnable, pc := .switching next }
  pure none

/-- The interrupt of the timer: not in the sections under the lock, which `acquire` keeps free of
interrupts. -/
def yield (c : Cpu) : M Cpu Result := do
  let s ← get
  match s.cpu c with
  | .on p =>
    match (s.proc p).pc with
    | .user => yieldTo c p (.user false)
    | .forking np b => yieldTo c p (.forking np b)
    | _ => throw .disabled
  | _ => throw .disabled

/-- `sched` up to `swtch`. The scheduler goes on behind the slot of the process. -/
def sched (c : Cpu) (p : Slot) (next : Next) : M Cpu Result := do
  let s ← get
  if s.lock ≠ some c then throw (.panic "sched ptable.lock")
  else if (s.proc p).state = .running then throw (.panic "sched running")
  else
    goto p (.switched next)
    setCpu c (.scan (p + 1))
    pure none

/-- Behind `swtch` in `sched`. -/
def resumed (c : Cpu) (p : Slot) : Next → M Cpu Result
  | .user slept => do
    let s ← get
    setProc p { s.proc p with chan := if slept then none else (s.proc p).chan, pc := .user }
    release c
    pure none
  | .forking np b => do
    release c
    goto p (.forking np b)
    pure none
  | .wait => do
    let s ← get
    setProc p { s.proc p with chan := none, pc := .waiting }
    pure none
  | .dead => throw (.panic "zombie exit")

/-- A process goes on in the kernel. -/
def run (c : Cpu) (memory : Bool) : M Cpu Result := do
  let s ← get
  match s.cpu c with
  | .on p =>
    match (s.proc p).pc with
    | .user => throw .disabled
    | .forking np false => allocate p np memory
    | .forking np true => forked c p np
    | .waiting => waitLoop c p
    | .switching next => sched c p next
    | .switched next => resumed c p next
  | _ => throw .disabled

/-- The scheduler goes on. -/
def scheduler (c : Cpu) : M Cpu Result := do
  let s ← get
  match s.cpu c with
  | .idle =>
    acquire c
    setCpu c (.scan 0)
  | .scan i =>
    if h : i < NPROC then
      if (s.proc ⟨i,h⟩).state = .runnable then
        setProc ⟨i,h⟩ { s.proc ⟨i,h⟩ with state := .running }
        setCpu c (.on ⟨i,h⟩)
      else setCpu c (.scan (i + 1))
    else
      release c
      setCpu c .idle
  | .on _ => throw .disabled
  pure none

omit [DecidableEq Cpu] in
def wakeup (addr : ℕ) : M Cpu Result := do
  let s ← get
  if s.lock = none then
    set { s with proc := wakeup1 (some (.other addr)) s.proc }
    pure none
  else throw .disabled

omit [DecidableEq Cpu] in
def kill (pid : ℕ) : M Cpu Result := do
  if (← get).lock = none then
    match ← find fun x => x.pid = pid with
    | none => pure (some none)
    | some p =>
      let x := (← get).proc p
      setProc p { x with
        killed := true, state := if x.state = .sleeping then .runnable else x.state }
      pure (some (some 0))
  else throw .disabled

def step : Op Cpu → M Cpu Result
  | .scheduler c => scheduler c
  | .fork c => fork c
  | .exit c => exit c
  | .wait c => wait c
  | .sleep c addr => sleep c addr
  | .yield c => yield c
  | .run c memory => run c memory
  | .wakeup addr => wakeup addr
  | .kill pid => kill pid

end Sections

/-- The table after `userinit`. -/
structure Booted (s : State Cpu) : Prop where
  init : s.proc initproc = ⟨.runnable,1,none,false,none,.switched (.user false)⟩
  others : ∀ p ≠ initproc, s.proc p = ⟨.unused,0,none,false,none,.user⟩
  lock : s.lock = none
  cpu : ∀ c, s.cpu c = .idle

abbrev Reachable [DecidableEq Cpu] : State Cpu → Prop := Reach step (fun _ _ => True) Booted

end ResumePointers.Xv6.ProcTable
