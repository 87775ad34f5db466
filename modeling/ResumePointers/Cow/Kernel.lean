import ResumePointers.Cow.Vm
import ResumePointers.Xv6.Userinit

/-! The copy-on-write kernel: user accesses with the page faults they raise, and the
system calls that move memory. -/
namespace ResumePointers.Cow

open Xv6

variable [KernelImage]

/-- The case `T_PGFLT` of `trap` for process `p`, and the check of `killed` behind it. -/
def trap (p : Slot) (va : ℕ) : EStateM Panic (Kernel Kmem) Unit := do
  let s ← get
  match (s.proc p).pgdir with
  | none => throw .nullDeref
  | some pgdir => do
    let pgdir ← Kernel.onMem (handle_pgflt_helper pgdir va)
    modify fun s => s.setProc p { s.proc p with pgdir := some pgdir }
    if (s.proc p).killed then Kernel.exit p

/-- A user access, started again once after a fault; `none` if it faults again. -/
def touch (p : Slot) (va : ℕ) (write : Bool) : EStateM Panic (Kernel Kmem) (Option Frame) := do
  let s ← get
  match (s.proc p).pgdir.bind fun d => translate d va write with
  | some f => pure (some f)
  | none => do
    trap p va
    let s ← get
    pure ((s.proc p).pgdir.bind fun d => translate d va write)

def load (p : Slot) (va : ℕ) : EStateM Panic (Kernel Kmem) (Option ℤ) := do
  let f ← touch p va false
  let s ← get
  pure (f.map fun f => ((s.mem.bytes f (va % PGSIZE)).toNat : ℤ))

def store (p : Slot) (va : ℕ) (b : UInt8) : EStateM Panic (Kernel Kmem) (Option ℤ) := do
  let f ← touch p va true
  match f with
  | none => pure none
  | some f => do
    Kernel.onMem (modify fun k : Kmem =>
      setPage f (Function.update (page k f) (va % PGSIZE) b) k)
    pure (some 0)

inductive Op
  | load (p : Slot) (va : UInt32)
  | store (p : Slot) (va : UInt32) (b : UInt8)
  | fork (p : Slot)
  | growproc (p : Slot) (n : Int32)
  | exit (p : Slot)
  | wait (p : Slot)
  | exec (p : Slot) (file : Option (List UInt8)) (argv : List (List UInt8))
  | pipealloc (p : Slot)
  | pipeclose (p : Slot) (f : Frame)

/-- One operation of a process, from its start to its end. -/
def step : Op → EStateM Panic (Kernel Kmem) (Option ℤ)
  | .load p va => Kernel.whenRunnable p (load p va.toNat)
  | .store p va b => Kernel.whenRunnable p (store p va.toNat b)
  | .fork p => Kernel.whenRunnable p (some <$> Kernel.fork copyuvm p)
  | .growproc p n => Kernel.whenRunnable p (some <$> Kernel.growproc p n.toInt)
  | .exit p => Kernel.whenRunnable p ((fun _ => none) <$> Kernel.exit p)
  | .wait p => Kernel.whenRunnable p (Kernel.wait p)
  | .exec p file argv => Kernel.whenRunnable p (some <$> Kernel.exec p file argv)
  | .pipealloc p => Kernel.whenRunnable p (some <$> Kernel.pipealloc)
  | .pipeclose p f => Kernel.whenRunnable p ((fun _ => some 0) <$> Kernel.pipeclose f)

/-- `main` up to the first process: `out` has left before `kinit2`. -/
def Booted (out : List Frame) (s : Kernel Kmem) : Prop :=
  ∃ n ram k initcode, Kmem.main n (Kmem.bss ram) = .ok out k ∧
    Kernel.userinit initcode (Kernel.start k) = .ok () s

/-- What the copy-on-write kernel makes sure of in an address space: a page is writable and
nobody else's, or it is shared. `W` are the user references of the whole kernel. -/
def CowPages (W : Multiset Frame) (d : PageDir) : Prop :=
  ∀ v < USERPAGES, ∀ pte, d.get v = some pte →
    (pte.w = true ∧ W.count pte.frame = 1) ∨ (pte.w = false ∧ pte.cow = true)

structure Inv (M : Finset Frame) (s : Kernel Kmem) : Prop where
  wf : s.Wf M 0
  own : ∀ p, (s.proc p).live → ∀ d, (s.proc p).pgdir = some d → CowPages s.users d
  size : ∀ p, (s.proc p).live → (s.proc p).sz ≤ KERNBASE
  alive : ∀ p, (s.proc p).killed = false

end ResumePointers.Cow
