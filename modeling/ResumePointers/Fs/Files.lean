import ResumePointers.Lib.Runs
import Mathlib.Data.Fintype.Basic
import Mathlib.Data.List.FinRange

/-! The file table (`file.c`) under the system calls on descriptors (`sysfile.c`), `fork` and `exit`
(`proc.c`), and the ends of pipes (`pipe.c`), in any interleaving of any number of processes. A step
goes up to the end of a section under a lock; the descriptors of a process are its own. -/
namespace ResumePointers.Fs.Files

def NFILE : ℕ := 100
def NOFILE : ℕ := 16

abbrev Slot := Fin NFILE

/-- The type of a file, with its pipe or its inode. -/
inductive FileType (Page : Type)
  | none
  | pipe (p : Page)
  | inode
deriving DecidableEq

structure File (Page : Type) where
  ref : ℕ
  type : FileType Page
  readable : Bool
  writable : Bool

/-- The ends of a `struct pipe`. -/
structure Ends where
  readopen : Bool
  writeopen : Bool
deriving DecidableEq

/-- What a process does next: it is back from a call, it has files to close, or it is in `exit`. -/
inductive Cont
  | user
  | drop (fs : List Slot)
  | exit (fd : ℕ)
deriving DecidableEq

/-- Where a process is: in `pipeclose` behind the last `fileclose`, in `sys_open` or `pipealloc` with
files that it has got from `filealloc`, in the loop of `fork`, or in `piperead` or `pipewrite`. -/
inductive Pc (Page Proc : Type)
  | unused
  | embryo
  | zombie
  | go (k : Cont)
  | closing (p : Page) (writable : Bool) (k : Cont)
  | opening (f : Slot) (readable writable : Bool)
  | pipe0 (f0 : Slot)
  | pipe1 (f0 f1 : Slot)
  | fork (child : Proc) (fd : ℕ)
  | io (p : Page)
deriving DecidableEq

/-- The file table, the pages that are pipes, and of each process its open files and where it is. -/
structure State (Page Proc : Type) where
  file : Slot → File Page
  pipe : Page → Option Ends
  ofile : Proc → ℕ → Option Slot
  pc : Proc → Pc Page Proc

/-- A decision that is not possible; a panic; the use of a page that is not a pipe. -/
inductive Stop
  | disabled
  | panic (msg : String)
  | freed
deriving DecidableEq

variable {Page Proc : Type} [DecidableEq Page] [DecidableEq Proc]

abbrev M (Page Proc : Type) := EStateM Stop (State Page Proc)

namespace State

omit [DecidableEq Page] in
def goto (s : State Page Proc) (p : Proc) (pc : Pc Page Proc) : State Page Proc :=
  { s with pc := Function.update s.pc p pc }

omit [DecidableEq Page] in
@[simp] theorem goto_pc (s : State Page Proc) (p : Proc) (pc : Pc Page Proc) :
    (s.goto p pc).pc = Function.update s.pc p pc := rfl

omit [DecidableEq Page] [DecidableEq Proc] in
def setFile (s : State Page Proc) (f : Slot) (x : File Page) : State Page Proc :=
  { s with file := Function.update s.file f x }

omit [DecidableEq Page] in
def setFd (s : State Page Proc) (p : Proc) (fd : ℕ) (f : Option Slot) : State Page Proc :=
  { s with ofile := Function.update s.ofile p (Function.update (s.ofile p) fd f) }

omit [DecidableEq Proc] in
def setPipe (s : State Page Proc) (q : Page) (x : Option Ends) : State Page Proc :=
  { s with pipe := Function.update s.pipe q x }

omit [DecidableEq Page] [DecidableEq Proc] in
/-- The file that `filealloc` finds. -/
def filealloc (s : State Page Proc) : Option Slot :=
  (List.finRange NFILE).find? fun f => (s.file f).ref = 0

omit [DecidableEq Page] [DecidableEq Proc] in
/-- The descriptor that `fdalloc` finds. -/
def fdalloc (s : State Page Proc) (p : Proc) : Option ℕ :=
  (List.range NOFILE).find? fun fd => s.ofile p fd = none

omit [DecidableEq Page] [DecidableEq Proc] in
/-- The file for a descriptor that a process passes to the kernel. -/
def argfd (s : State Page Proc) (p : Proc) (fd : ℕ) : Option Slot :=
  if fd < NOFILE then s.ofile p fd else none

omit [DecidableEq Page] [DecidableEq Proc] in
def incref (s : State Page Proc) (f : Slot) : State Page Proc :=
  s.setFile f { s.file f with ref := (s.file f).ref + 1 }

end State

def user (p : Proc) : M Page Proc Unit := do
  if (← get).pc p = .go .user then pure () else throw .disabled

def filedup (f : Slot) : M Page Proc Unit := do
  let s ← get
  if (s.file f).ref < 1 then throw (.panic "filedup") else set (s.incref f)

omit [DecidableEq Page] [DecidableEq Proc] in
/-- Behind the last `fileclose` of a file. -/
def File.closed (x : File Page) (k : Cont) : Pc Page Proc :=
  match x.type with
  | .pipe q => .closing q x.writable k
  | _ => .go k

/-- The section of `fileclose` under the lock; `p` goes on at `k`, or first closes the end of a
pipe. -/
def fileclose (p : Proc) (f : Slot) (k : Cont) : M Page Proc Unit := do
  let s ← get
  let x := s.file f
  if x.ref < 1 then throw (.panic "fileclose")
  else if x.ref - 1 > 0 then set ((s.setFile f { x with ref := x.ref - 1 }).goto p (.go k))
  else set ((s.setFile f { x with ref := 0, type := .none }).goto p (x.closed k))

def pipeclose (q : Page) (writable : Bool) : M Page Proc Unit := do
  let s ← get
  match s.pipe q with
  | none => throw .freed
  | some x =>
    let y := if writable then { x with writeopen := false } else { x with readopen := false }
    set (s.setPipe q (if y.readopen = false ∧ y.writeopen = false then none else some y))

def sys_close (p : Proc) (fd : ℕ) : M Page Proc Unit := do
  user p
  let s ← get
  match s.argfd p fd with
  | none => pure ()
  | some f =>
    set (s.setFd p fd none)
    fileclose p f .user

def sys_dup (p : Proc) (fd : ℕ) : M Page Proc Unit := do
  user p
  let s ← get
  match s.argfd p fd with
  | none => pure ()
  | some f =>
    match s.fdalloc p with
    | none => pure ()
    | some fd' =>
      set (s.setFd p fd' (some f))
      filedup f

/-- A process calls `filealloc` and goes on with the file that it gets. -/
def alloc (p : Proc) (found : Slot → Pc Page Proc) (failed : Cont) : M Page Proc Unit := do
  let s ← get
  match s.filealloc with
  | none => set (s.goto p (.go failed))
  | some f => set ((s.incref f).goto p (found f))

def sys_open (p : Proc) (readable writable : Bool) : M Page Proc Unit := do
  user p
  alloc p (fun f => .opening f readable writable) .user

/-- The rest of `sys_open`. -/
def opened (p : Proc) (f : Slot) (readable writable : Bool) : M Page Proc Unit := do
  let s ← get
  match s.fdalloc p with
  | none => fileclose p f .user
  | some fd =>
    set (((s.setFd p fd (some f)).setFile f
      { ref := (s.file f).ref, type := .inode, readable, writable }).goto p (.go .user))

def sys_pipe (p : Proc) : M Page Proc Unit := do
  user p
  alloc p .pipe0 .user

/-- `pipealloc` with both files, then the rest of `sys_pipe`. The page is what `kalloc` returns. -/
def pipealloc (p : Proc) (f0 f1 : Slot) : Option Page → M Page Proc Unit
  | none => modify fun s => s.goto p (.go (.drop [f0,f1]))
  | some q => do
    let s ← get
    if s.pipe q ≠ none then throw .disabled
    else
      let s := s.setPipe q (some { readopen := true, writeopen := true })
      let s := s.setFile f0
        { ref := (s.file f0).ref, type := .pipe q, readable := true, writable := false }
      let s := s.setFile f1
        { ref := (s.file f1).ref, type := .pipe q, readable := false, writable := true }
      match s.fdalloc p with
      | none => set (s.goto p (.go (.drop [f0,f1])))
      | some fd0 =>
        let s' := s.setFd p fd0 (some f0)
        match s'.fdalloc p with
        | none => set (s.goto p (.go (.drop [f0,f1])))
        | some fd1 => set ((s'.setFd p fd1 (some f1)).goto p (.go .user))

/-- `fileread` and `filewrite` of a file that the caller may use. -/
def fileio (able : File Page → Bool) (msg : String) (p : Proc) (fd : ℕ) : M Page Proc Unit := do
  user p
  let s ← get
  match s.argfd p fd with
  | none => pure ()
  | some f =>
    if able (s.file f) = false then pure ()
    else match (s.file f).type with
      | .pipe q => set (s.goto p (.io q))
      | .inode => pure ()
      | .none => throw (.panic msg)

def fileread (p : Proc) (fd : ℕ) : M Page Proc Unit := fileio File.readable "fileread" p fd

def filewrite (p : Proc) (fd : ℕ) : M Page Proc Unit := fileio File.writable "filewrite" p fd

/-- A process goes on in `piperead` or `pipewrite`, or returns from it. -/
def pipeio (p : Proc) (q : Page) (again : Bool) : M Page Proc Unit := do
  let s ← get
  if s.pipe q = none then throw .freed
  else if again then pure () else set (s.goto p (.go .user))

def fork (p child : Proc) : M Page Proc Unit := do
  user p
  let s ← get
  if s.pc child = .unused then set ((s.goto child .embryo).goto p (.fork child 0))
  else throw .disabled

/-- An iteration of the loop of `fork`, or what is behind it. -/
def forkfd (p child : Proc) (fd : ℕ) : M Page Proc Unit := do
  let s ← get
  if fd < NOFILE then
    match s.ofile p fd with
    | none => set (s.goto p (.fork child (fd + 1)))
    | some f =>
      filedup f
      modify fun s => (s.setFd child fd (some f)).goto p (.fork child (fd + 1))
  else set ((s.goto p (.go .user)).goto child (.go .user))

def exit (p : Proc) : M Page Proc Unit := do
  user p
  modify fun s => s.goto p (.go (.exit 0))

/-- An iteration of the loop of `exit`, or what is behind it. -/
def exitfd (p : Proc) (fd : ℕ) : M Page Proc Unit := do
  let s ← get
  if fd < NOFILE then
    match s.ofile p fd with
    | none => set (s.goto p (.go (.exit (fd + 1))))
    | some f =>
      set (s.setFd p fd none)
      fileclose p f (.exit (fd + 1))
  else set (s.goto p .zombie)

/-- `wait` of the parent of `p` finds it. -/
def reap (p : Proc) : M Page Proc Unit := do
  let s ← get
  if s.pc p = .zombie then set (s.goto p .unused) else throw .disabled

inductive Op (Page Proc : Type)
  | sys_close (p : Proc) (fd : ℕ)
  | sys_dup (p : Proc) (fd : ℕ)
  | sys_open (p : Proc) (readable writable : Bool)
  | sys_pipe (p : Proc)
  | fileread (p : Proc) (fd : ℕ)
  | filewrite (p : Proc) (fd : ℕ)
  | fork (p child : Proc)
  | exit (p : Proc)
  | reap (p : Proc)
  | run (p : Proc) (page : Option Page) (again : Bool)

/-- A process goes on in the kernel. -/
def run (p : Proc) (page : Option Page) (again : Bool) : M Page Proc Unit := do
  match (← get).pc p with
  | .go (.drop []) => modify fun s => s.goto p (.go .user)
  | .go (.drop (f::fs)) => fileclose p f (.drop fs)
  | .go (.exit fd) => exitfd p fd
  | .closing q writable k => do
    pipeclose q writable
    modify fun s => s.goto p (.go k)
  | .opening f readable writable => opened p f readable writable
  | .pipe0 f0 => alloc p (fun f1 => .pipe1 f0 f1) (.drop [f0])
  | .pipe1 f0 f1 => pipealloc p f0 f1 page
  | .fork child fd => forkfd p child fd
  | .io q => pipeio p q again
  | _ => throw .disabled

def step : Op Page Proc → M Page Proc Unit
  | .sys_close p fd => sys_close p fd
  | .sys_dup p fd => sys_dup p fd
  | .sys_open p readable writable => sys_open p readable writable
  | .sys_pipe p => sys_pipe p
  | .fileread p fd => fileread p fd
  | .filewrite p fd => filewrite p fd
  | .fork p child => fork p child
  | .exit p => exit p
  | .reap p => reap p
  | .run p page again => run p page again

omit [DecidableEq Page] [DecidableEq Proc] in
/-- After the boot: processes without descriptors. -/
structure Booted (s : State Page Proc) : Prop where
  file : ∀ f, (s.file f).ref = 0 ∧ (s.file f).type = .none
  pipe : ∀ q, s.pipe q = none
  ofile : ∀ p fd, s.ofile p fd = none
  pc : ∀ p, s.pc p = .unused ∨ s.pc p = .go .user

def Reachable (s : State Page Proc) : Prop := Reach step (fun _ _ => True) Booted s

end ResumePointers.Fs.Files
