import ResumePointers.Lib.LockedStore
import ResumePointers.Lib.Runs
import Mathlib.Data.Fintype.Basic
import Mathlib.Data.List.FinRange

/-! The buffer cache (`bio.c`) over the queue of the disk (`ide.c`), under any interleaving of
processes and disk interrupts. A step goes up to the end of a section under a lock. -/
namespace ResumePointers.Fs.Bcache

def NBUF : ℕ := 30

abbrev Slot := Fin NBUF

/-- A device and a block on it. -/
abbrev Block := ℕ × ℕ

/-- `struct buf`, with the process that has its sleep lock. -/
structure Buf (α Proc : Type) where
  block : Block
  valid : Bool
  dirty : Bool
  refcnt : ℕ
  lock : Option Proc
  data : α

/-- Where a process is: behind `bget` it waits for the lock of the buffer, and it has it; it waits in
`iderw`, from `bread` or not; it is between the sections of `brelse`. -/
inductive Pc
  | user
  | asleep (b : Slot)
  | locked (b : Slot)
  | io (b : Slot) (reading : Bool)
  | releasing (b : Slot)
deriving DecidableEq

/-- The buffers, their list with the most recently used one first, the requests to the disk, the disk,
and where each process is. -/
structure State (α Proc : Type) where
  buf : Slot → Buf α Proc
  mru : List Slot
  idequeue : List Slot
  disk : Block → α
  pc : Proc → Pc

/-- A decision that is not possible, or a panic. -/
inductive Stop
  | disabled
  | panic (msg : String)
deriving DecidableEq

/-- What a process does with the contents of blocks. -/
abbrev Event (α Proc : Type) := LockedStore.Event Block α Proc

variable {α Proc : Type}

abbrev M (α Proc : Type) := EStateM Stop (State α Proc)

namespace State

def setBuf (s : State α Proc) (b : Slot) (x : Buf α Proc) : State α Proc :=
  { s with buf := Function.update s.buf b x }

variable [DecidableEq Proc]

def goto (s : State α Proc) (p : Proc) (pc : Pc) : State α Proc :=
  { s with pc := Function.update s.pc p pc }

omit [DecidableEq Proc] in
/-- The buffer of a block that is cached. -/
def cached (s : State α Proc) (blk : Block) : Option Slot :=
  s.mru.find? fun b => (s.buf b).block = blk

omit [DecidableEq Proc] in
/-- The unused buffer that is recycled: the least recently used one that is not dirty. -/
def unused (s : State α Proc) : Option Slot :=
  s.mru.reverse.find? fun b => (s.buf b).refcnt = 0 ∧ (s.buf b).dirty = false

end State

variable [DecidableEq Proc]

def user (p : Proc) : M α Proc Unit := do
  if (← get).pc p = .user then pure () else throw .disabled

/-- The section of `bget`. -/
def bget (p : Proc) (blk : Block) : M α Proc Unit := do
  let s ← get
  match s.cached blk with
  | some b =>
    set ((s.setBuf b { s.buf b with refcnt := (s.buf b).refcnt + 1 }).goto p (.asleep b))
  | none =>
    match s.unused with
    | some b =>
      set ((s.setBuf b { s.buf b with
        block := blk, valid := false, dirty := false, refcnt := 1 }).goto p (.asleep b))
    | none => throw (.panic "bget: no buffers")

def bread (p : Proc) (blk : Block) : M α Proc (Option (Event α Proc)) := do
  user p
  bget p blk
  pure none

/-- The rest of `bget`: `acquiresleep`. -/
def acquiresleep (p : Proc) (b : Slot) : M α Proc (Option (Event α Proc)) := do
  let s ← get
  if (s.buf b).lock = none then
    set ((s.setBuf b { s.buf b with lock := some p }).goto p (.locked b))
    pure none
  else throw .disabled

def holdingsleep (s : State α Proc) (p : Proc) (b : Slot) : Bool := (s.buf b).lock = some p

/-- `iderw` up to its wait. -/
def iderw (p : Proc) (b : Slot) (reading : Bool) : M α Proc Unit := do
  let s ← get
  if holdingsleep s p b = false then throw (.panic "iderw: buf not locked")
  else if (s.buf b).valid ∧ (s.buf b).dirty = false then throw (.panic "iderw: nothing to do")
  else set { s.goto p (.io b reading) with idequeue := s.idequeue ++ [b] }

/-- The rest of `bread`. -/
def breadLocked (p : Proc) (b : Slot) : M α Proc (Option (Event α Proc)) := do
  let s ← get
  if (s.buf b).valid then
    set (s.goto p .user)
    pure (some (.got p (s.buf b).block (s.buf b).data))
  else
    iderw p b true
    pure none

/-- The rest of `iderw`, and the return to the caller. -/
def waited (p : Proc) (b : Slot) (reading : Bool) : M α Proc (Option (Event α Proc)) := do
  let s ← get
  if (s.buf b).valid ∧ (s.buf b).dirty = false then
    set (s.goto p .user)
    pure (if reading then some (.got p (s.buf b).block (s.buf b).data) else none)
  else throw .disabled

/-- The disk is done with the first request. Who asked for it waits since `idestart` gave it to the
disk, so the buffer is as it was then. -/
def ideintr : M α Proc (Option (Event α Proc)) := do
  let s ← get
  match s.idequeue with
  | [] => pure none
  | b::rest =>
    let x := s.buf b
    if x.dirty then set { s.setBuf b { x with valid := true, dirty := false } with
      idequeue := rest, disk := Function.update s.disk x.block x.data }
    else set { s.setBuf b { x with valid := true, data := s.disk x.block } with idequeue := rest }
    pure none

/-- A process writes the data of a buffer and calls `log_write`. -/
def log_write (p : Proc) (b : Slot) (data : α) : M α Proc (Option (Event α Proc)) := do
  user p
  let s ← get
  set (s.setBuf b { s.buf b with data, dirty := true })
  pure (some (.put p (s.buf b).block data))

/-- A process writes the data of a buffer and calls `bwrite`. -/
def bwrite (p : Proc) (b : Slot) (data : α) : M α Proc (Option (Event α Proc)) := do
  user p
  let s ← get
  if holdingsleep s p b = false then throw (.panic "bwrite")
  else
    set (s.setBuf b { s.buf b with data, dirty := true })
    iderw p b false
    pure (some (.put p (s.buf b).block data))

/-- `brelse` up to `releasesleep`. -/
def brelse (p : Proc) (b : Slot) : M α Proc (Option (Event α Proc)) := do
  user p
  let s ← get
  if holdingsleep s p b = false then throw (.panic "brelse")
  else
    set ((s.setBuf b { s.buf b with lock := none }).goto p (.releasing b))
    pure (some (.release p (s.buf b).block))

/-- The rest of `brelse`. -/
def released (p : Proc) (b : Slot) : M α Proc (Option (Event α Proc)) := do
  let s ← get
  let n := (s.buf b).refcnt - 1
  set { (s.setBuf b { s.buf b with refcnt := n }).goto p .user with
    mru := if n = 0 then b::s.mru.erase b else s.mru }
  pure none

inductive Op (α Proc : Type)
  | bread (p : Proc) (blk : Block)
  | log_write (p : Proc) (b : Slot) (data : α)
  | bwrite (p : Proc) (b : Slot) (data : α)
  | brelse (p : Proc) (b : Slot)
  | run (p : Proc)
  | ideintr

/-- A process goes on in the kernel. -/
def run (p : Proc) : M α Proc (Option (Event α Proc)) := do
  match (← get).pc p with
  | .user => throw .disabled
  | .asleep b => acquiresleep p b
  | .locked b => breadLocked p b
  | .io b reading => waited p b reading
  | .releasing b => released p b

def step : Op α Proc → M α Proc (Option (Event α Proc))
  | .bread p blk => bread p blk
  | .log_write p b data => log_write p b data
  | .bwrite p b data => bwrite p b data
  | .brelse p b => brelse p b
  | .run p => run p
  | .ideintr => ideintr

/-- What the callers keep to: there is no device 0 in use, and a process uses the buffers that it
holds. -/
def Used : Op α Proc → State α Proc → Prop
  | .bread _ blk, _ => blk.1 ≠ 0
  | .log_write p b _, s => (s.buf b).lock = some p
  | .bwrite p b _, s => (s.buf b).lock = some p
  | .brelse p b, s => (s.buf b).lock = some p
  | _, _ => True

instance : (op : Op α Proc) → (s : State α Proc) → Decidable (Used op s)
  | .bread _ blk, _ => inferInstanceAs (Decidable (blk.1 ≠ 0))
  | .log_write p b _, s => inferInstanceAs (Decidable ((s.buf b).lock = some p))
  | .bwrite p b _, s => inferInstanceAs (Decidable ((s.buf b).lock = some p))
  | .brelse p b, s => inferInstanceAs (Decidable ((s.buf b).lock = some p))
  | .run _, _ => .isTrue trivial
  | .ideintr, _ => .isTrue trivial

/-- The buffers after `binit`. -/
structure Booted (s : State α Proc) : Prop where
  buf : ∀ b, (s.buf b).block = (0,0) ∧ (s.buf b).valid = false ∧ (s.buf b).dirty = false ∧
    (s.buf b).refcnt = 0 ∧ (s.buf b).lock = none
  mru : s.mru = (List.finRange NBUF).reverse
  idequeue : s.idequeue = []
  pc : ∀ p, s.pc p = .user

/-- The runs in which the callers keep to it, with what is seen of them. -/
abbrev Runs : State α Proc → List (Op α Proc × Option (Event α Proc)) → State α Proc → Prop :=
  Trace fun l s t => Used l.1 s ∧ Yields step l s t

end ResumePointers.Fs.Bcache
