import ResumePointers.Lazy.Vm
import ResumePointers.Xv6.Userinit
import ResumePointers.Lib.Runs
import Mathlib.Order.Interval.Finset.Nat

/-! The kernel with lazy `mmap` (`os/sysproc.c`, `os/trap.c`, `os/proc.c`): `sys_mmap` only
counts, and the page fault handler maps one page after the other. -/
namespace ResumePointers.Lazy

open Xv6

variable [KernelImage]

/-- `case T_IRQ0 + IRQ_TIMER` of `trap`, on processor `cpuid`. -/
def tick {α : Type} (t : Ptable α) (cpuid : ℕ) : Ptable α :=
  if cpuid = 0 then ({ t with ticks := uint (t.ticks + 1) }).wakeup1 .ticks else t

/-- `sys_mmap(bytes)`, which answers with the old size as an `int`, or with 0. -/
def sys_mmap (p : Slot) (bytes : ℤ) : EStateM Panic (Kernel Kmem) ℤ := do
  let s ← get
  if bytes < 0 ∨ bytes % PGSIZE ≠ 0 then pure 0
  else do
    set (s.setProc p { s.proc p with
      allocLeft := int ((s.proc p).allocLeft + bytes), sz := uint ((s.proc p).sz + bytes) })
    pure (int (s.proc p).sz)

/-- `myproc()->allocLeft -= PGSIZE`, and up to 0 where that is negative. -/
def spend (allocLeft : ℤ) : ℤ :=
  if int (allocLeft - PGSIZE) < 0 then 0 else int (allocLeft - PGSIZE)

/-- `case T_PGFLT` of `trap` for process `p`, which falls through to the timer's. -/
def pgflt (p : Slot) (va : ℕ) (cpuid : ℕ) : EStateM Panic (Kernel Kmem) Unit := do
  let s ← get
  if (s.proc p).allocLeft ≠ 0 then
    let mem ← Kernel.onMem Xv6.kalloc
    match mem, (s.proc p).pgdir with
    | some mem, some pgdir => do
      Kernel.onMem (memset mem 0)
      let (pgdir,_) ← Kernel.onMem (mappages pgdir va PGSIZE mem ⟨true,true,false⟩)
      modify fun s => s.setProc p { s.proc p with
        pgdir := some pgdir, allocLeft := spend (s.proc p).allocLeft }
    | _, _ => throw .nullDeref
  else set (s.setProc p { s.proc p with killed := true })
  modify fun s => { s with toPtable := tick s.toPtable cpuid }

/-- `trap` on a page fault: the handler, and the check of `killed` behind it. -/
def trap (p : Slot) (va : ℕ) (cpuid : ℕ) : EStateM Panic (Kernel Kmem) Unit := do
  pgflt p va cpuid
  let s ← get
  if (s.proc p).killed then Kernel.exit p

/-- An access of `p` at `va` faults. -/
def Faults (s : Kernel Kmem) (p : Slot) (va : ℕ) (write : Bool) : Prop :=
  ((s.proc p).pgdir.bind fun d => translate d va write) = none

instance (s : Kernel Kmem) (p : Slot) (va : ℕ) (write : Bool) :
    Decidable (Faults s p va write) :=
  inferInstanceAs (Decidable (_ = none))

/-- One attempt at a user access. -/
def access (p : Slot) (va : ℕ) (write : Bool) (cpuid : ℕ) :
    EStateM Panic (Kernel Kmem) Unit := do
  let s ← get
  if Faults s p va write then trap p va cpuid

inductive Op
  | access (p : Slot) (va : UInt32) (write : Bool) (cpuid : ℕ)
  | mmap (p : Slot) (bytes : Int32)
  | growproc (p : Slot) (n : Int32)
  | fork (p : Slot)
  | exit (p : Slot)
  | wait (p : Slot)
  | exec (p : Slot) (file : Option (List UInt8)) (argv : List (List UInt8))

/-- One operation of a process, from its start to its end. -/
def step : Op → EStateM Panic (Kernel Kmem) (Option ℤ)
  | .access p va write cpuid =>
    Kernel.whenRunnable p ((fun _ => none) <$> access p va.toNat write cpuid)
  | .mmap p bytes => Kernel.whenRunnable p (some <$> sys_mmap p bytes.toInt)
  | .growproc p n => Kernel.whenRunnable p (some <$> Kernel.growproc p n.toInt)
  | .fork p => Kernel.whenRunnable p (some <$> Kernel.fork copyuvm p)
  | .exit p => Kernel.whenRunnable p ((fun _ => none) <$> Kernel.exit p)
  | .wait p => Kernel.whenRunnable p (Kernel.wait p)
  | .exec p file argv => Kernel.whenRunnable p (some <$> Kernel.exec p file argv)

/-- `main` up to the first process: `out` has left before `kinit2`. -/
def Booted (out : List Frame) (s : Kernel Kmem) : Prop :=
  ∃ n ram k initcode, Kmem.main n (Kmem.bss ram) = .ok out k ∧
    Kernel.userinit initcode (Kernel.start k) = .ok () s

/-- The kernel, and what no kernel writes down: which pages of a process it owes to
`sys_mmap`. -/
structure Traced where
  kernel : Kernel Kmem
  mmapped : Slot → Finset ℕ

/-- How an operation that took the kernel from `s` to `t` with the answer `r` changes the pages
owed to `sys_mmap`: the call adds the pages between the two sizes, `growproc` takes away what it
cuts off, a child has its parent's, and a new image has none. -/
def owe (op : Op) (r : Option ℤ) (s t : Kernel Kmem) (m : Slot → Finset ℕ) : Slot → Finset ℕ :=
  match op with
  | .mmap p _ =>
    Function.update m p (m p ∪ Finset.Ico (pages (s.proc p).sz) (pages (t.proc p).sz))
  | .growproc p _ => Function.update m p ((m p).filter fun v => v < pages (t.proc p).sz)
  | .fork p =>
    match s.unused with
    | none => m
    | some np => if r = none ∨ r = some (-1) then m else Function.update m np (m p)
  | .exec p _ _ => if r = some 0 then Function.update m p ∅ else m
  | _ => m

def Traced.step (op : Op) : EStateM Panic Traced (Option ℤ) := do
  let s ← get
  let r ← zoom Traced.kernel (fun k s => { s with kernel := k }) (Lazy.step op)
  modify fun t => { t with mmapped := owe op r s.kernel t.kernel t.mmapped }
  pure r

/-- The pages below `sz` that are owed to `sys_mmap` and not there yet. -/
def Traced.lazyPages (s : Traced) (p : Slot) : Finset ℕ :=
  (s.mmapped p).filter fun v => v < pages (s.kernel.proc p).sz ∧
    ((s.kernel.proc p).pgdir.bind fun d => d.get v) = none

end ResumePointers.Lazy
