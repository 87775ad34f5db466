import ResumePointers.Lib.Tally
import Mathlib.Algebra.Group.Int.Defs
import Mathlib.Logic.Function.Basic

/-! Addresses, page table entries and page directories of xv6 (`mmu.h`,
`memlayout.h`). A page directory is the tree it is: the page that holds it, and for
every present entry a page table with the page that holds that one. -/
namespace ResumePointers.Xv6

def PGSIZE : ℕ := 4096
def PTXSHIFT : ℕ := 12
def PDXSHIFT : ℕ := 22
def NPDENTRIES : ℕ := 1024
def NPTENTRIES : ℕ := 1024

def EXTMEM : ℕ := 0x100000
def PHYSTOP : ℕ := 0xE000000
def DEVSPACE : ℕ := 0xFE000000
def KERNBASE : ℕ := 0x80000000
def KERNLINK : ℕ := KERNBASE + EXTMEM

/-- Arithmetic on `uint`. -/
@[irreducible] def uint (x : ℤ) : ℕ := (x % 2^32).toNat

@[irreducible] def PGROUNDUP (sz : ℕ) : ℕ := (sz + PGSIZE - 1) / PGSIZE * PGSIZE
def PGROUNDDOWN (a : ℕ) : ℕ := a / PGSIZE * PGSIZE

/-- Page directory index. The mask `0x3FF` of the source removes nothing from a
32-bit address. -/
def PDX (va : ℕ) : ℕ := va / 2^PDXSHIFT

/-- Page table index. -/
def PTX (va : ℕ) : ℕ := va / 2^PTXSHIFT % NPTENTRIES

def PGADDR (d t o : ℕ) : ℕ := d * 2^PDXSHIFT + t * 2^PTXSHIFT + o

/-- Number of the page that a virtual address lies in. -/
def pageOf (va : ℕ) : ℕ := va / PGSIZE

/-- Number of pages that `[0, sz)` touches. -/
def pages (sz : ℕ) : ℕ := (sz + PGSIZE - 1) / PGSIZE

/-- Pages below `KERNBASE`. -/
def USERPAGES : ℕ := KERNBASE / PGSIZE

/-- A physical page, by its number: physical address over `PGSIZE`. The kernel
reaches it through `P2V`, so the same number stands for its kernel pointer. -/
abbrev Frame := ℕ

/-- The bytes of one page. -/
abbrev Page := ℕ → UInt8

/-- Why the kernel does not go on: a call of `panic`, or a null pointer that it follows. -/
inductive Panic
  | panic (msg : String) | nullDeref
  deriving DecidableEq

/-- The flags of a page table entry besides `PTE_P`. -/
structure Perm where
  w : Bool
  u : Bool
  cow : Bool
  deriving DecidableEq

/-- An entry with `PTE_P` set: `PTE_ADDR` and `PTE_FLAGS`. -/
structure Pte extends Perm where
  frame : Frame
  deriving DecidableEq

/-- A page table page. An entry without `PTE_P` is the word 0 throughout this kernel,
and it is `none` here. -/
structure PageTable where
  frame : Frame
  pte : ℕ → Option Pte

structure PageDir where
  frame : Frame
  pde : ℕ → Option PageTable

/-- `walkpgdir` with `alloc == 0`: the entry that `va` selects, or the null pointer. -/
def walkpgdir (pgdir : PageDir) (va : ℕ) : Option (Option Pte) :=
  (pgdir.pde (PDX va)).map fun pgtab => pgtab.pte (PTX va)

/-- Write through the pointer that `walkpgdir` returns for `va`. -/
def PageDir.setPte (pgdir : PageDir) (va : ℕ) (x : Option Pte) : PageDir :=
  match pgdir.pde (PDX va) with
  | none => pgdir
  | some pgtab =>
    let pgtab' := { pgtab with pte := Function.update pgtab.pte (PTX va) x }
    { pgdir with pde := Function.update pgdir.pde (PDX va) (some pgtab') }

namespace PageDir

/-- The present entry of page `v`, if there is one. -/
def get (d : PageDir) (v : ℕ) : Option Pte :=
  (d.pde (v / NPTENTRIES)).bind fun t => t.pte (v % NPTENTRIES)

/-- Page `v` has a page table, whatever its entry is. -/
def hasTable (d : PageDir) (v : ℕ) : Prop := (d.pde (v / NPTENTRIES)).isSome

instance (d : PageDir) (v : ℕ) : Decidable (d.hasTable v) :=
  inferInstanceAs (Decidable ((d.pde (v / NPTENTRIES)).isSome = true))

/-- The frames that user entries refer to, once for each entry. -/
def users (d : PageDir) : Multiset Frame := tally USERPAGES fun v => (d.get v).map Pte.frame

/-- The page table pages. -/
def tables (d : PageDir) : Multiset Frame :=
  tally NPDENTRIES fun i => (d.pde i).map PageTable.frame

/-- The pages that the kernel spends on the directory itself. -/
def kern (d : PageDir) : Multiset Frame := d.frame ::ₘ d.tables

end PageDir

theorem PDX_eq (va : ℕ) : PDX va = pageOf va / NPTENTRIES := by
  simp only [PDX,PDXSHIFT,pageOf,PGSIZE,NPTENTRIES,Nat.div_div_eq_div_mul]
  rfl

theorem PTX_eq (va : ℕ) : PTX va = pageOf va % NPTENTRIES := rfl

theorem walkpgdir_eq_none {d : PageDir} {va : ℕ} :
    walkpgdir d va = none ↔ ¬ d.hasTable (pageOf va) := by
  simp [walkpgdir,PageDir.hasTable,PDX_eq]

theorem walkpgdir_eq_some {d : PageDir} {va : ℕ} {x : Option Pte} :
    walkpgdir d va = some x ↔ d.hasTable (pageOf va) ∧ d.get (pageOf va) = x := by
  rw [walkpgdir,PageDir.hasTable,PageDir.get,PDX_eq,PTX_eq]
  cases d.pde (pageOf va / NPTENTRIES) <;> simp

theorem get_eq_none_of_not_hasTable {d : PageDir} {v : ℕ} (h : ¬ d.hasTable v) :
    d.get v = none := by
  rw [PageDir.hasTable,Option.not_isSome_iff_eq_none] at h
  simp [PageDir.get,h]

theorem hasTable_of_get {d : PageDir} {v : ℕ} {p : Pte} (h : d.get v = some p) :
    d.hasTable v := by
  by_contra hn
  simp [get_eq_none_of_not_hasTable hn] at h

/-- The MMU on a user access: the frame, or a page fault. Every page directory entry carries
`PTE_P | PTE_W | PTE_U`, so the page table entry decides. -/
def translate (pgdir : PageDir) (va : ℕ) (write : Bool) : Option Frame :=
  match walkpgdir pgdir va with
  | some (some pte) => if pte.u && (!write || pte.w) then some pte.frame else none
  | _ => none

theorem translate_eq_some {d : PageDir} {va : ℕ} {write : Bool} {f : Frame} : translate d va write = some f ↔
    ∃ pte, d.get (pageOf va) = some pte ∧ pte.u = true ∧ (write = true → pte.w = true) ∧
      pte.frame = f := by
  unfold translate
  constructor
  · intro h
    split at h
    · rename_i pte hw
      obtain ⟨-,hget⟩ := walkpgdir_eq_some.mp hw
      split at h
      · rename_i hc
        refine ⟨pte,hget,?_⟩
        cases write <;> simp_all
      · cases h
    · cases h
  · rintro ⟨pte,hget,hu,hw,rfl⟩
    rw [walkpgdir_eq_some.mpr ⟨hasTable_of_get hget,hget⟩]
    cases write <;> simp_all

@[simp] theorem setPte_frame (d : PageDir) (va : ℕ) (x : Option Pte) :
    (d.setPte va x).frame = d.frame := by
  unfold PageDir.setPte; split <;> rfl

@[simp] theorem setPte_hasTable (d : PageDir) (va v : ℕ) (x : Option Pte) :
    (d.setPte va x).hasTable v ↔ d.hasTable v := by
  unfold PageDir.setPte
  split
  · rfl
  · rename_i t ht
    by_cases h : v / NPTENTRIES = PDX va <;>
      simp [PageDir.hasTable,h,ht]

theorem setPte_tables (d : PageDir) (va : ℕ) (x : Option Pte) :
    (d.setPte va x).tables = d.tables := by
  unfold PageDir.setPte
  split
  · rfl
  · rename_i t ht
    apply tally_congr
    intro i _
    by_cases h : i = PDX va
    · subst h; simp [ht]
    · simp [h]

@[simp] theorem setPte_kern (d : PageDir) (va : ℕ) (x : Option Pte) :
    (d.setPte va x).kern = d.kern := by
  simp [PageDir.kern,setPte_tables]

/-- Writing an entry changes the page it is the entry of and no other. -/
theorem setPte_get {d : PageDir} {va : ℕ} (h : d.hasTable (pageOf va)) (x : Option Pte) (v : ℕ) :
    (d.setPte va x).get v = if v = pageOf va then x else d.get v := by
  rw [PageDir.hasTable,Option.isSome_iff_exists] at h
  obtain ⟨t,ht⟩ := h
  rw [PageDir.setPte,PDX_eq,PTX_eq,ht]
  by_cases hv : v = pageOf va
  · subst hv; simp [PageDir.get]
  · rw [if_neg hv]
    by_cases hd : v / NPTENTRIES = pageOf va / NPTENTRIES
    · have hm : v % NPTENTRIES ≠ pageOf va % NPTENTRIES := by
        intro hm
        exact hv (by rw [← Nat.div_add_mod v NPTENTRIES,hd,hm,Nat.div_add_mod])
      simp [PageDir.get,hd,ht,hm]
    · simp [PageDir.get,hd]

/-- An absent entry that is cleared stays what it was. -/
theorem setPte_none_of_get {d : PageDir} {va : ℕ} (h : d.get (pageOf va) = none) :
    d.setPte va none = d := by
  rw [PageDir.get,← PDX_eq,← PTX_eq] at h
  unfold PageDir.setPte
  cases ht : d.pde (PDX va) with
  | none => rfl
  | some t =>
    have hn : t.pte (PTX va) = none := by simpa [ht] using h
    have hu : Function.update t.pte (PTX va) none = t.pte := by
      rw [← hn,Function.update_eq_self]
    simp only [hu]
    have hd : Function.update d.pde (PDX va) (some t) = d.pde := by
      rw [← ht,Function.update_eq_self]
    rw [show ({ frame := t.frame, pte := t.pte } : PageTable) = t from rfl,hd]

theorem users_congr {d d' : PageDir} (h : ∀ v < USERPAGES, d'.get v = d.get v) :
    d'.users = d.users :=
  tally_congr fun v hv => by rw [h v hv]

theorem users_eq_zero {d : PageDir} : d.users = 0 ↔ ∀ v < USERPAGES, d.get v = none := by
  simp [PageDir.users,tally_eq_zero]

theorem kern_card_le (d : PageDir) : d.kern.card ≤ NPDENTRIES + 1 := by
  have h := tally_card_le NPDENTRIES fun i => (d.pde i).map PageTable.frame
  rw [PageDir.kern,Multiset.card_cons]
  exact Nat.succ_le_succ h

/-- A directory with no more entries has no more user pages. -/
theorem users_card_le {d d' : PageDir}
    (h : ∀ v < USERPAGES, (d.get v).isSome → (d'.get v).isSome) : d.users.card ≤ d'.users.card :=
  tally_card_mono fun v hv => by simpa using h v hv

theorem mem_users {d : PageDir} {f : Frame} :
    f ∈ d.users ↔ ∃ v < USERPAGES, ∃ p, d.get v = some p ∧ p.frame = f := by
  simp [PageDir.users,mem_tally]

theorem frame_mem_users {d : PageDir} {v : ℕ} {p : Pte} (hv : v < USERPAGES)
    (h : d.get v = some p) : p.frame ∈ d.users :=
  mem_users.mpr ⟨v,hv,p,h,rfl⟩

/-- A directory that keeps only entries of another one names only frames that one names. -/
theorem mem_users_of_get {d d' : PageDir} {f : Frame} (hf : f ∈ d'.users)
    (h : ∀ v p, d'.get v = some p → d.get v = some p) : f ∈ d.users := by
  obtain ⟨v,hv,p,hp,rfl⟩ := mem_users.mp hf
  exact frame_mem_users hv (h v p hp)

theorem mem_users_of_clear {d d' : PageDir} {f : Frame} {P : ℕ → Prop} [DecidablePred P]
    (hf : f ∈ d'.users) (h : ∀ v, d'.get v = if P v then none else d.get v) : f ∈ d.users :=
  mem_users_of_get hf fun v p hp => by
    rw [h v] at hp
    split at hp
    · cases hp
    · exact hp

/-- A new user entry adds one reference to its frame. -/
theorem users_of_map {d d' : PageDir} {v : ℕ} {p : Pte} (hv : v < USERPAGES)
    (hnone : d.get v = none) (h : ∀ w, d'.get w = if w = v then some p else d.get w) :
    d'.users = {p.frame} + d.users := by
  have hc := tally_change (f := fun w => (d.get w).map Pte.frame)
    (g := fun w => (d'.get w).map Pte.frame) hv (by intro j _ hj; rw [h j,if_neg hj])
  simp only [hnone,h v,if_true,Option.map_none,Option.map_some,optional_none,optional_some,
    add_zero] at hc
  rw [PageDir.users,hc,add_comm]
  rfl

/-- Writing a user entry trades the frame it named for the one it names now. -/
theorem setPte_users {d : PageDir} {va : ℕ} (h : d.hasTable (pageOf va))
    (hv : pageOf va < USERPAGES) (x : Option Pte) :
    (d.setPte va x).users + optional ((d.get (pageOf va)).map Pte.frame) =
      d.users + optional (x.map Pte.frame) := by
  have hx : ((d.setPte va x).get (pageOf va)).map Pte.frame = x.map Pte.frame := by
    rw [setPte_get h,if_pos rfl]
  rw [← hx]
  apply tally_change (f := fun v => (d.get v).map Pte.frame) hv
  intro j _ hj
  rw [setPte_get h,if_neg hj]

end ResumePointers.Xv6
