import ResumePointers.Lib.Post
import ResumePointers.Xv6.Mmu

/-! Virtual memory of xv6 (`vm.c`): the functions that the copy-on-write kernel and
the lazy-mmap kernel have in common, over any page allocator. A function that the
source lets change a page directory in place returns the changed one. -/
namespace ResumePointers.Xv6

/-- `kalloc`, `kfree` and the contents of physical pages; `starved` says that `kalloc`
has returned 0 to somebody. -/
class PageAllocator (κ : Type) where
  kalloc : EStateM Panic κ (Option Frame)
  kfree : Frame → EStateM Panic κ Unit
  page : κ → Frame → Page
  setPage : Frame → Page → κ → κ
  starved : κ → Prop

export PageAllocator (kalloc kfree page setPage starved)

/-- The linker symbols `data` and `end`, as physical page numbers; the kernel image
ends below the 4 MB that `entrypgdir` maps. -/
class KernelImage where
  data : ℕ
  endPage : ℕ
  extmem_lt_data : EXTMEM / PGSIZE < data
  data_le_end : data ≤ endPage
  end_le : endPage ≤ 1024

/-- An image of 21 pages above the first megabyte. -/
@[reducible] def KernelImage.small : KernelImage where
  data := 264
  endPage := 277
  extmem_lt_data := by decide
  data_le_end := by decide
  end_le := by decide

variable {κ : Type} [PageAllocator κ]

def panic {α : Type} (msg : String) : EStateM Panic κ α := throw (.panic msg)

/-- `memset(v, c, PGSIZE)`. -/
def memset (f : Frame) (c : UInt8) : EStateM Panic κ Unit := modify (setPage f fun _ => c)

/-- `memmove(dst, src, PGSIZE)`. -/
def memmovePage (dst src : Frame) : EStateM Panic κ Unit :=
  modify fun k => setPage dst (page k src) k

/-- Overwrite the bytes from offset `off` on. -/
def overwrite (p : Page) (off : ℕ) (bytes : List UInt8) : Page := fun i =>
  if off ≤ i ∧ i < off + bytes.length then bytes.getD (i - off) 0 else p i

/-- `memmove` of a few bytes into a page. -/
def memmoveInto (dst : Frame) (off : ℕ) (bytes : List UInt8) : EStateM Panic κ Unit :=
  modify fun k => setPage dst (overwrite (page k dst) off bytes) k

/-- `walkpgdir` with `alloc != 0`: afterwards the page table of `va` is there, unless
no page was left for it. -/
def walkpgdirAlloc (pgdir : PageDir) (va : ℕ) : EStateM Panic κ (Option PageDir) :=
  match pgdir.pde (PDX va) with
  | some _ => pure (some pgdir)
  | none => do
    let r ← kalloc
    match r with
    | none => pure none
    | some pgtab =>
      let pde := Function.update pgdir.pde (PDX va) (some ⟨pgtab,fun _ => none⟩)
      pure (some { pgdir with pde := pde })

/-- The loop of `mappages`: `n` pages from address `a` on, to frames from `pa` on. -/
def mappagesLoop (perm : Perm) : ℕ → PageDir → ℕ → Frame → EStateM Panic κ (PageDir × Bool)
  | 0, pgdir, _, _ => pure (pgdir,true)
  | n+1, pgdir, a, pa => do
    let r ← walkpgdirAlloc pgdir a
    match r with
    | none => pure (pgdir,false)
    | some pgdir =>
      if (pgdir.get (pageOf a)).isSome then panic "remap"
      else
        let pgdir := pgdir.setPte a (some { perm with frame := pa })
        mappagesLoop perm n pgdir (uint (a + PGSIZE)) (pa + 1)

/-- How often the loop of `mappages` runs: from `PGROUNDDOWN(va)` up to and including
`PGROUNDDOWN(va + size - 1)`, both taken as `uint`. -/
def mappagesCount (va size : ℕ) : ℕ :=
  uint ((PGROUNDDOWN (uint (va + size - 1)) : ℤ) - PGROUNDDOWN va) / PGSIZE + 1

/-- `mappages`; `false` stands for `-1`. -/
def mappages (pgdir : PageDir) (va size : ℕ) (pa : Frame) (perm : Perm) :
    EStateM Panic κ (PageDir × Bool) :=
  mappagesLoop perm (mappagesCount va size) pgdir (PGROUNDDOWN va) pa

def deallocuvmLoop (oldsz : ℕ) (pgdir : PageDir) (a : ℕ) : EStateM Panic κ PageDir :=
  if a < oldsz then
    match walkpgdir pgdir a with
    | none => deallocuvmLoop oldsz pgdir (PGADDR (PDX a + 1) 0 0 - PGSIZE + PGSIZE)
    | some none => deallocuvmLoop oldsz pgdir (a + PGSIZE)
    | some (some pte) =>
      if pte.frame = 0 then panic "kfree"
      else do
        kfree pte.frame
        deallocuvmLoop oldsz (pgdir.setPte a none) (a + PGSIZE)
  else pure pgdir
termination_by oldsz - a
decreasing_by
  · simp only [PGADDR,PDX,PDXSHIFT,PTXSHIFT,PGSIZE]
    omega
  all_goals simp only [PGSIZE]; omega

def deallocuvm (pgdir : PageDir) (oldsz newsz : ℕ) : EStateM Panic κ (PageDir × ℕ) :=
  if oldsz ≤ newsz then pure (pgdir,oldsz)
  else do
    let pgdir ← deallocuvmLoop oldsz pgdir (PGROUNDUP newsz)
    pure (pgdir,newsz)

def allocuvmLoop (oldsz newsz : ℕ) (pgdir : PageDir) (a : ℕ) :
    EStateM Panic κ (PageDir × ℕ) :=
  if a < newsz then do
    let r ← kalloc
    match r with
    | none => do
      -- "allocuvm out of memory"
      let (pgdir,_) ← deallocuvm pgdir newsz oldsz
      pure (pgdir,0)
    | some mem => do
      memset mem 0
      let (pgdir,ok) ← mappages pgdir a PGSIZE mem ⟨true,true,false⟩
      if ok then allocuvmLoop oldsz newsz pgdir (a + PGSIZE)
      else do
        -- "allocuvm out of memory (2)"
        let (pgdir,_) ← deallocuvm pgdir newsz oldsz
        kfree mem
        pure (pgdir,0)
  else pure (pgdir,newsz)
termination_by newsz - a
decreasing_by simp only [PGSIZE]; omega

/-- `allocuvm`; the size 0 reports the failure. -/
def allocuvm (pgdir : PageDir) (oldsz newsz : ℕ) : EStateM Panic κ (PageDir × ℕ) :=
  if KERNBASE ≤ newsz then pure (pgdir,0)
  else if newsz < oldsz then pure (pgdir,oldsz)
  else allocuvmLoop oldsz newsz pgdir (PGROUNDUP oldsz)

/-- The loop of `freevm` over the page directory entries from `i` on. -/
def freevmLoop (pgdir : PageDir) (i : ℕ) : EStateM Panic κ Unit :=
  if i < NPDENTRIES then
    match pgdir.pde i with
    | none => freevmLoop pgdir (i + 1)
    | some pgtab => do
      kfree pgtab.frame
      freevmLoop pgdir (i + 1)
  else pure ()
termination_by NPDENTRIES - i

def freevm : Option PageDir → EStateM Panic κ Unit
  | none => panic "freevm: no pgdir"
  | some pgdir => do
    let (pgdir,_) ← deallocuvm pgdir KERNBASE 0
    freevmLoop pgdir 0
    kfree pgdir.frame

structure Kmap where
  virt : ℕ
  physStart : ℕ
  physEnd : ℕ
  perm : Perm

/-- The kernel's mappings, present in every page directory. -/
def kmap [KernelImage] : List Kmap :=
  [⟨KERNBASE,0,EXTMEM,⟨true,false,false⟩⟩,
   ⟨KERNLINK,EXTMEM,KernelImage.data * PGSIZE,⟨false,false,false⟩⟩,
   ⟨KERNBASE + KernelImage.data * PGSIZE,KernelImage.data * PGSIZE,PHYSTOP,⟨true,false,false⟩⟩,
   ⟨DEVSPACE,DEVSPACE,0,⟨true,false,false⟩⟩]

def setupkvmLoop (pgdir : PageDir) : List Kmap → EStateM Panic κ (PageDir × Bool)
  | [] => pure (pgdir,true)
  | k::ks => do
    let (pgdir,ok) ← mappages pgdir k.virt (uint ((k.physEnd : ℤ) - k.physStart))
      (k.physStart / PGSIZE) k.perm
    if ok then setupkvmLoop pgdir ks else pure (pgdir,false)

def setupkvm [KernelImage] : EStateM Panic κ (Option PageDir) := do
  let r ← kalloc
  match r with
  | none => pure none
  | some f =>
    if DEVSPACE < KERNBASE + PHYSTOP then panic "PHYSTOP too high"
    else do
      let (pgdir,ok) ← setupkvmLoop ⟨f,fun _ => none⟩ kmap
      if ok then pure (some pgdir)
      else do
        freevm (some pgdir)
        pure none

/-- `inituvm`: load the initcode into address 0. -/
def inituvm (pgdir : PageDir) (init : List UInt8) : EStateM Panic κ PageDir :=
  if PGSIZE ≤ init.length then panic "inituvm: more than a page"
  else do
    let r ← kalloc
    match r with
    | none => throw .nullDeref
    | some mem => do
      memset mem 0
      let (pgdir,_) ← mappages pgdir 0 PGSIZE mem ⟨true,true,false⟩
      memmoveInto mem 0 init
      pure pgdir

def clearpteu (pgdir : PageDir) (uva : ℕ) : EStateM Panic κ PageDir :=
  match walkpgdir pgdir uva with
  | none => panic "clearpteu"
  | some pte => pure (pgdir.setPte uva (pte.map fun p => { p with u := false }))

/-- `readi` on an inode with the bytes `file`: what it copies, `none` for `-1`. -/
def readi (file : List UInt8) (off n : ℕ) : Option (List UInt8) :=
  if file.length < off ∨ uint (off + n) < off then none
  else some ((file.drop off).take n)

/-- The loop of `loaduvm` from byte `i` of the segment on; `false` stands for `-1`. -/
def loaduvmLoop (pgdir : PageDir) (addr : ℕ) (file : List UInt8) (offset sz i : ℕ) :
    EStateM Panic κ Bool :=
  if i < sz then
    match walkpgdir pgdir (addr + i) with
    | none => panic "loaduvm: address should exist"
    | some pte => do
      let n := if sz - i < PGSIZE then sz - i else PGSIZE
      match readi file (uint (offset + i)) n with
      | none => pure false
      | some bytes => do
        memmoveInto ((pte.map Pte.frame).getD 0) 0 bytes
        if bytes.length ≠ n then pure false
        else loaduvmLoop pgdir addr file offset sz (i + PGSIZE)
  else pure true
termination_by sz - i
decreasing_by simp only [PGSIZE]; omega

def loaduvm (pgdir : PageDir) (addr : ℕ) (file : List UInt8) (offset sz : ℕ) :
    EStateM Panic κ Bool :=
  if addr % PGSIZE ≠ 0 then panic "loaduvm: addr must be page aligned"
  else loaduvmLoop pgdir addr file offset sz 0

/-- `uva2ka`, which follows the pointer of `walkpgdir` without a look at it. -/
def uva2ka (pgdir : PageDir) (uva : ℕ) : EStateM Panic κ (Option Frame) :=
  match walkpgdir pgdir uva with
  | none => throw .nullDeref
  | some none => pure none
  | some (some pte) => pure (if pte.u then some pte.frame else none)

/-- `copyout`; `false` stands for `-1`. -/
def copyout (pgdir : PageDir) (va : ℕ) (p : List UInt8) : EStateM Panic κ Bool :=
  if _hp : p = [] then pure true
  else do
    let pa0 ← uva2ka pgdir (PGROUNDDOWN va)
    match pa0 with
    | none => pure false
    | some pa0 => do
      let n := min (PGSIZE - va % PGSIZE) p.length
      memmoveInto pa0 (va % PGSIZE) (p.take n)
      copyout pgdir (uint (PGROUNDDOWN va + PGSIZE)) (p.drop n)
termination_by p.length
decreasing_by
  have hm : va % PGSIZE < PGSIZE := Nat.mod_lt _ (by decide)
  have hl : 0 < p.length := List.length_pos_of_ne_nil _hp
  rw [List.length_drop]
  omega

end ResumePointers.Xv6
