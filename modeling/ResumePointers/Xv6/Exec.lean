import ResumePointers.Xv6.KernelHalf

/-! `exec.c`: the address space that a program file and its arguments become, over any
page allocator, and what `inituvm`, `clearpteu`, `loaduvm` and `copyout` leave alone. -/
namespace ResumePointers.Xv6

def MAXARG : ℕ := 32
def ELF_MAGIC : ℕ := 0x464C457F
def ELF_PROG_LOAD : ℕ := 1

/-- The little-endian number of the `n` bytes at `off`. -/
def le (bytes : List UInt8) (off : ℕ) : ℕ → ℕ
  | 0 => 0
  | n+1 => (bytes.getD off 0).toNat + 256 * le bytes (off + 1) n

theorem le_lt (bytes : List UInt8) (off n : ℕ) : le bytes off n < 256^n := by
  induction n generalizing off with
  | zero => simp [le]
  | succ n ih =>
    have hb := (bytes.getD off 0).toNat_lt
    have hr := ih (off + 1)
    rw [le,Nat.pow_succ]
    omega

/-- A `uint` as it lies in memory. -/
def toLe (x : ℕ) : List UInt8 :=
  [UInt8.ofNat x,UInt8.ofNat (x / 2^8),UInt8.ofNat (x / 2^16),UInt8.ofNat (x / 2^24)]

/-- The fields of `struct elfhdr` that `exec` reads. -/
structure Elfhdr where
  magic : ℕ
  entry : ℕ
  phoff : ℕ
  phnum : ℕ

def Elfhdr.sizeof : ℕ := 52

def Elfhdr.ofBytes (b : List UInt8) : Elfhdr where
  magic := le b 0 4
  entry := le b 24 4
  phoff := le b 28 4
  phnum := le b 44 2

/-- The fields of `struct proghdr` that `exec` reads. -/
structure Proghdr where
  type : ℕ
  off : ℕ
  vaddr : ℕ
  filesz : ℕ
  memsz : ℕ

def Proghdr.sizeof : ℕ := 32

def Proghdr.ofBytes (b : List UInt8) : Proghdr where
  type := le b 0 4
  off := le b 4 4
  vaddr := le b 8 4
  filesz := le b 16 4
  memsz := le b 20 4

/-- `readi` of a whole structure of `n` bytes; `none` when fewer come back. -/
def readStruct (file : List UInt8) (off n : ℕ) : Option (List UInt8) :=
  (readi file off n).filter fun bytes => bytes.length = n

variable {κ : Type} [PageAllocator κ]

/-- The loop of `exec` over the program headers; `none` for the size is `goto bad`. -/
def execLoad (file : List UInt8) : ℕ → ℕ → PageDir → ℕ → EStateM Panic κ (PageDir × Option ℕ)
  | 0, _, pgdir, sz => pure (pgdir,some sz)
  | n+1, off, pgdir, sz =>
    match (readStruct file off Proghdr.sizeof).map Proghdr.ofBytes with
    | none => pure (pgdir,none)
    | some ph =>
      let off' := uint (off + Proghdr.sizeof)
      if ph.type ≠ ELF_PROG_LOAD then execLoad file n off' pgdir sz
      else if ph.memsz < ph.filesz ∨ uint (ph.vaddr + ph.memsz) < ph.vaddr then pure (pgdir,none)
      else do
        let (pgdir,sz) ← allocuvm pgdir sz (uint (ph.vaddr + ph.memsz))
        if sz = 0 ∨ ph.vaddr % PGSIZE ≠ 0 then pure (pgdir,none)
        else do
          let ok ← loaduvm pgdir ph.vaddr file ph.off ph.filesz
          if ok then execLoad file n off' pgdir sz else pure (pgdir,none)

/-- The loop of `exec` over the argument strings: the stack pointer and the addresses of
the strings, or `none` for `goto bad`. -/
def execArgs (pgdir : PageDir) : ℕ → ℕ → List (List UInt8) → EStateM Panic κ (Option (ℕ × List ℕ))
  | _, sp, [] => pure (some (sp,[]))
  | argc, sp, arg::argv =>
    if MAXARG ≤ argc then pure none
    else do
      let sp := uint ((sp : ℤ) - (arg.length + 1)) / 4 * 4
      let ok ← copyout pgdir sp (arg ++ [0])
      if ok then do
        let r ← execArgs pgdir (argc + 1) sp argv
        pure (r.map fun (sp',args) => (sp',sp::args))
      else pure none

/-- The words that `exec` pushes below the strings: a return address, `argc`, the `argv`
pointer and `argv` itself. -/
def ustack (sp : ℕ) (args : List ℕ) : List ℕ :=
  0xffffffff :: args.length :: uint ((sp : ℤ) - (args.length + 1) * 4) :: (args ++ [0])

/-- The second half of `exec`, from the loaded program to the finished stack. -/
def execStack (pgdir : PageDir) (sz : ℕ) (argv : List (List UInt8)) :
    EStateM Panic κ (PageDir × Option ℕ) := do
  let (pgdir,sz) ← allocuvm pgdir (PGROUNDUP sz) (uint (PGROUNDUP sz + 2 * PGSIZE))
  if sz = 0 then pure (pgdir,none)
  else do
    let pgdir ← clearpteu pgdir (uint ((sz : ℤ) - 2 * PGSIZE))
    let r ← execArgs pgdir 0 sz argv
    match r with
    | none => pure (pgdir,none)
    | some (sp,args) => do
      let stack := ustack sp args
      let ok ← copyout pgdir (uint ((sp : ℤ) - stack.length * 4)) (stack.flatMap toLe)
      pure (pgdir,if ok then some sz else none)

/-- The loading half of `exec` and then the other one. -/
def execBuild (file : List UInt8) (elf : Elfhdr) (argv : List (List UInt8)) (pgdir : PageDir) :
    EStateM Panic κ (PageDir × Option ℕ) := do
  let (pgdir,sz) ← execLoad file elf.phnum elf.phoff pgdir 0
  match sz with
  | none => pure (pgdir,none)
  | some sz => execStack pgdir sz argv

/-- `exec` up to the point of no return: the new page directory and size, or `none` with
everything given back. -/
def execImage [KernelImage] (file : List UInt8) (argv : List (List UInt8)) :
    EStateM Panic κ (Option (PageDir × ℕ)) :=
  match (readStruct file 0 Elfhdr.sizeof).map Elfhdr.ofBytes with
  | none => pure none
  | some elf =>
    if elf.magic ≠ ELF_MAGIC then pure none
    else do
      let r ← setupkvm
      match r with
      | none => pure none
      | some pgdir => do
        let (pgdir,sz) ← execBuild file elf argv pgdir
        match sz with
        | none => do
          freevm (some pgdir)
          pure none
        | some sz => pure (some (pgdir,sz))

end ResumePointers.Xv6
