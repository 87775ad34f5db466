import ResumePointers.Xv6.Exec
import Mathlib.Data.Fintype.Basic
import Mathlib.Data.List.FinRange

/-! Processes (`proc.c`, with the page of `pipe.c` and the commit of `exec.c`): the
process table, over any kind of address space, and the operations of a kernel whose
address spaces are page directories. -/
namespace ResumePointers.Xv6

def NPROC : ℕ := 64

inductive ProcState
  | UNUSED | EMBRYO | SLEEPING | RUNNABLE | RUNNING | ZOMBIE
  deriving DecidableEq

/-- A slot of `ptable`, which stands for the pointer to it. -/
abbrev Slot := Fin NPROC

/-- What a process sleeps on: a process, or the address of `ticks`. -/
inductive Chan
  | proc (p : Slot) | ticks
  deriving DecidableEq

/-- Arithmetic on `int`. -/
def int (x : ℤ) : ℤ := (x + 2^31) % 2^32 - 2^31

/-- `struct proc`; `α` is what `pgdir` points to. Only the lazy kernel has `allocLeft`. -/
structure Proc (α : Type) where
  sz : ℕ
  pgdir : Option α
  kstack : Option Frame
  state : ProcState
  pid : ℕ
  parent : Option Slot
  chan : Option Chan
  killed : Bool
  allocLeft : ℤ

/-- The slot holds a process: `pgdir` means something. -/
def Proc.live {α : Type} (x : Proc α) : Prop := x.state ≠ .UNUSED ∧ x.state ≠ .EMBRYO

instance {α : Type} (x : Proc α) : Decidable x.live :=
  inferInstanceAs (Decidable (_ ∧ _))

/-- A slot as the zeroed memory of the kernel image has it. -/
def Proc.zero {α : Type} : Proc α :=
  ⟨0,none,none,.UNUSED,0,none,none,false,0⟩

@[ext]
structure Ptable (α : Type) where
  proc : Slot → Proc α
  initproc : Option Slot
  nextpid : ℕ
  ticks : ℕ

namespace Ptable

variable {α : Type}

def zero : Ptable α := ⟨fun _ => .zero,none,1,0⟩

def setProc (t : Ptable α) (p : Slot) (x : Proc α) : Ptable α :=
  { t with proc := Function.update t.proc p x }

/-- The slot that `allocproc` finds. -/
def unused (t : Ptable α) : Option Slot :=
  (List.finRange NPROC).find? fun p => (t.proc p).state = .UNUSED

/-- `wakeup1`; the `p->chan = 0` with which the sleeper goes on is made here. -/
def wakeup1 (t : Ptable α) (c : Chan) : Ptable α :=
  { t with proc := fun p =>
      if (t.proc p).state = .SLEEPING ∧ (t.proc p).chan = some c then
        { t.proc p with state := .RUNNABLE, chan := none }
      else t.proc p }

def reparent (t : Ptable α) (p : Slot) : Ptable α :=
  { t with proc := fun q =>
      if (t.proc q).parent = some p then { t.proc q with parent := t.initproc } else t.proc q }

/-- "Pass abandoned children to init." The wakeups inside the loop of the source touch
sleepers only, and it asks for zombies only. -/
def abandon (t : Ptable α) (p : Slot) : Ptable α :=
  match t.initproc with
  | none => t.reparent p
  | some i =>
    if ∃ q, (t.proc q).parent = some p ∧ (t.proc q).state = .ZOMBIE then
      (t.reparent p).wakeup1 (.proc i)
    else t.reparent p

/-- `exit` after its check for `initproc`. -/
def exit (t : Ptable α) (p : Slot) : Ptable α :=
  let woken := match (t.proc p).parent with
    | none => t
    | some q => t.wakeup1 (.proc q)
  let left := woken.abandon p
  left.setProc p { left.proc p with state := .ZOMBIE }

/-- The child that `wait` finds. -/
def zombieChild (t : Ptable α) (p : Slot) : Option Slot :=
  (List.finRange NPROC).find? fun q => (t.proc q).parent = some p ∧ (t.proc q).state = .ZOMBIE

def havekids (t : Ptable α) (p : Slot) : Prop := ∃ q, (t.proc q).parent = some p

instance (t : Ptable α) (p : Slot) : Decidable (t.havekids p) :=
  inferInstanceAs (Decidable (∃ _, _))

/-- `sleep(curproc, &ptable.lock)`. -/
def sleep (t : Ptable α) (p : Slot) : Ptable α :=
  t.setProc p { t.proc p with chan := some (.proc p), state := .SLEEPING }

end Ptable

/-- `ptable` with `initproc`, `nextpid` and `ticks`, the state of the page allocator, and
the pages of the open pipes. -/
@[ext]
structure Kernel (κ : Type) extends Ptable PageDir where
  mem : κ
  pipes : List Frame

namespace Kernel

variable {κ : Type}

def setProc (s : Kernel κ) (p : Slot) (x : Proc PageDir) : Kernel κ :=
  { s with toPtable := s.toPtable.setProc p x }

/-- Run a computation of the memory layer. -/
def onMem {α : Type} (m : EStateM Panic κ α) : EStateM Panic (Kernel κ) α :=
  zoom Kernel.mem (fun k s => { s with mem := k }) m

variable [PageAllocator κ]

/-- `kfree` of a pointer that may be null. -/
def kfreePtr : Option Frame → EStateM Panic κ Unit
  | none => panic "kfree"
  | some f => kfree f

def allocproc : EStateM Panic (Kernel κ) (Option Slot) := do
  let s ← get
  match s.unused with
  | none => pure none
  | some p => do
    set { s.setProc p { s.proc p with state := .EMBRYO, pid := s.nextpid, allocLeft := 0 } with
      nextpid := s.nextpid + 1 }
    let r ← onMem kalloc
    match r with
    | none => do
      modify fun s => s.setProc p { s.proc p with kstack := none, state := .UNUSED }
      pure none
    | some f => do
      modify fun s => s.setProc p { s.proc p with kstack := some f }
      pure (some p)

def userinit [KernelImage] (initcode : List UInt8) : EStateM Panic (Kernel κ) Unit := do
  let r ← allocproc
  modify fun s => { s with initproc := r }
  match r with
  | none => throw .nullDeref
  | some p => do
    let d ← onMem setupkvm
    match d with
    | none => throw (.panic "userinit: out of memory?")
    | some d => do
      let d ← onMem (inituvm d initcode)
      modify fun s => s.setProc p { s.proc p with pgdir := some d, sz := PGSIZE, state := .RUNNABLE }

def growproc (p : Slot) (n : ℤ) : EStateM Panic (Kernel κ) ℤ := do
  let s ← get
  match (s.proc p).pgdir with
  | none => throw .nullDeref
  | some pgdir =>
    let sz := (s.proc p).sz
    if n = 0 then pure 0
    else do
      let (pgdir,sz) ←
        if 0 < n then onMem (allocuvm pgdir sz (uint (sz + n)))
        else onMem (deallocuvm pgdir sz (uint (sz + n)))
      modify fun s => s.setProc p { s.proc p with pgdir := some pgdir }
      if sz = 0 then pure (-1)
      else do
        modify fun s => s.setProc p { s.proc p with sz := sz }
        pure 0

/-- `fork`, by a `copyuvm` that returns the parent's page directory as it leaves it and the
child's. -/
def fork (copyuvm : PageDir → ℕ → EStateM Panic κ (PageDir × Option PageDir)) (p : Slot) :
    EStateM Panic (Kernel κ) ℤ := do
  let r ← allocproc
  match r with
  | none => pure (-1)
  | some np => do
    let s ← get
    match (s.proc p).pgdir with
    | none => throw .nullDeref
    | some pgdir => do
      let (pgdir,d) ← onMem (copyuvm pgdir (s.proc p).sz)
      modify fun s => s.setProc p { s.proc p with pgdir := some pgdir }
      match d with
      | none => do
        onMem (kfreePtr (s.proc np).kstack)
        modify fun s => s.setProc np { s.proc np with pgdir := none, kstack := none, state := .UNUSED }
        pure (-1)
      | some d => do
        modify fun s => s.setProc np { s.proc np with
          pgdir := some d
          allocLeft := (s.proc p).allocLeft
          sz := (s.proc p).sz
          parent := some p
          state := .RUNNABLE }
        pure (s.proc np).pid

def exit (p : Slot) : EStateM Panic (Kernel κ) Unit := do
  let s ← get
  if s.initproc = some p then throw (.panic "init exiting")
  else set { s with toPtable := s.toPtable.exit p }

/-- One turn of the loop of `wait`: the pid of a zombie child or `-1`, or `none` when the
process goes to sleep. -/
def wait (p : Slot) : EStateM Panic (Kernel κ) (Option ℤ) := do
  let s ← get
  match s.zombieChild p with
  | some q => do
    onMem (kfreePtr (s.proc q).kstack)
    onMem (freevm (s.proc q).pgdir)
    modify fun s => s.setProc q { s.proc q with
      kstack := none, pid := 0, parent := none, killed := false, state := .UNUSED }
    pure (some (s.proc q).pid)
  | none =>
    if ¬ s.havekids p ∨ (s.proc p).killed then pure (some (-1))
    else do
      set { s with toPtable := s.toPtable.sleep p }
      pure none

/-- `exec`; `file` is what `namei` finds. -/
def exec [KernelImage] (p : Slot) (file : Option (List UInt8)) (argv : List (List UInt8)) :
    EStateM Panic (Kernel κ) ℤ :=
  match file with
  | none => pure (-1)
  | some file => do
    let r ← onMem (execImage file argv)
    match r with
    | none => pure (-1)
    | some (pgdir,sz) => do
      let s ← get
      set (s.setProc p { s.proc p with pgdir := some pgdir, sz := sz })
      onMem (freevm (s.proc p).pgdir)
      pure 0

/-- What `pipealloc` takes from the page allocator. -/
def pipealloc : EStateM Panic (Kernel κ) ℤ := do
  let r ← onMem kalloc
  match r with
  | none => pure (-1)
  | some f => do
    modify fun s => { s with pipes := f :: s.pipes }
    pure 0

/-- `pipeclose` of the second end of the pipe in page `f`. -/
def pipeclose (f : Frame) : EStateM Panic (Kernel κ) Unit := do
  let s ← get
  if f ∈ s.pipes then do
    onMem (kfree f)
    modify fun s => { s with pipes := s.pipes.erase f }
  else pure ()

/-- The scheduler runs `p` for one operation, if it can. -/
def whenRunnable (p : Slot) (m : EStateM Panic (Kernel κ) (Option ℤ)) :
    EStateM Panic (Kernel κ) (Option ℤ) := do
  let s ← get
  if (s.proc p).state = .RUNNABLE then m else pure none

end Kernel

end ResumePointers.Xv6
