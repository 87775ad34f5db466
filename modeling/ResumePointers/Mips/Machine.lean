import Mathlib
import ResumePointers.Lib.Post

/-! The machine that `assembly/queryProcessing.s` runs on, as far as its sort and its search use it:
registers of 32 bits, arithmetic that traps on overflow, and words of memory at their byte addresses. -/
namespace ResumePointers.Mips

inductive Reg
  | v0 | v1 | a0 | a1 | a2 | a3 | t0 | t1 | t2 | t3 | t4 | t5 | t8 | t9
  | s0 | s1 | s2 | s3 | s4 | s5 | s6 | s7 | sp | ra
deriving DecidableEq

abbrev Word := BitVec 32

abbrev Memory := Word → Option Word

/-- `A` is the state of the system behind the system calls. A word of memory that is not allocated is
`none`. -/
structure Cpu (A : Type) where
  reg : Reg → Word
  mem : Memory
  system : A

/-- Why a run ends: an addition or subtraction that overflows, an access to an address that is not that
of a word or not allocated, a system call that is refused or that the sort does not make, a return to
another place than behind the call, or too many rounds. -/
inductive Fault
  | overflow
  | alignment
  | access
  | refused
  | service
  | lost
  | fuel
deriving DecidableEq

abbrev M (A : Type) := EStateM Fault (Cpu A)

variable {A : Type}

def Cpu.set (s : Cpu A) (r : Reg) (w : Word) : Cpu A :=
  { s with reg := Function.update s.reg r w }

def Cpu.write (s : Cpu A) (a w : Word) : Cpu A := { s with mem := Function.update s.mem a (some w) }

/-- The value of a register. -/
def reg (r : Reg) : M A Word := do
  let s ← get
  pure (s.reg r)

def li (d : Reg) (w : Word) : M A Unit := modify fun s => s.set d w

def move (d x : Reg) : M A Unit := do li d (← reg x)

def add (d x y : Reg) : M A Unit := do
  let a ← reg x
  let b ← reg y
  if a.saddOverflow b then throw .overflow else li d (a + b)

def addi (d x : Reg) (w : Word) : M A Unit := do
  let a ← reg x
  if a.saddOverflow w then throw .overflow else li d (a + w)

def sub (d x y : Reg) : M A Unit := do
  let a ← reg x
  let b ← reg y
  if a.ssubOverflow b then throw .overflow else li d (a - b)

def sll (d x : Reg) (n : ℕ) : M A Unit := do li d ((← reg x) <<< n)

def srl (d x : Reg) (n : ℕ) : M A Unit := do li d ((← reg x) >>> n)

/-- `lw d, offset(x)`. -/
def lw (d : Reg) (offset : Word) (x : Reg) : M A Unit := do
  let s ← get
  let a := s.reg x + offset
  if a.toNat % 4 = 0 then
    match s.mem a with
    | some w => set (s.set d w)
    | none => throw .access
  else throw .alignment

/-- `sw x, offset(y)`. -/
def sw (x : Reg) (offset : Word) (y : Reg) : M A Unit := do
  let s ← get
  let a := s.reg y + offset
  if a.toNat % 4 = 0 then
    match s.mem a with
    | some _ => set (s.write a (s.reg x))
    | none => throw .access
  else throw .alignment

/-- The system call in `v0`: number 9 is `sbrk`, which may be refused. -/
def syscall (sbrk : Cpu A → Option (Cpu A)) : M A Unit := do
  let s ← get
  if s.reg .v0 = 9 then
    match sbrk s with
    | some t => set t
    | none => throw .refused
  else throw .service

/-- `jal`, with the address behind it: the routine must return there. -/
def jal (site : Word) (routine : M A Unit) : M A Unit := do
  li .ra site
  routine
  if (← reg .ra) = site then pure () else throw .lost

/-- All registers but those of the list are as before. -/
def Kept (l : List Reg) (s u : Cpu A) : Prop := ∀ r, r ∉ l → u.reg r = s.reg r

variable {s t u : Cpu A} {d x y r : Reg} {a b w offset : Word} {l l' : List Reg}
  {Q : Unit → Cpu A → Prop} {E : Fault → Cpu A → Prop}

@[simp] theorem set_reg (s : Cpu A) (r r' : Reg) (w : Word) :
    (s.set r w).reg r' = if r' = r then w else s.reg r' := Function.update_apply ..
@[simp] theorem set_mem (s : Cpu A) (r : Reg) (w : Word) : (s.set r w).mem = s.mem := rfl
@[simp] theorem write_reg (s : Cpu A) (a w : Word) : (s.write a w).reg = s.reg := rfl
@[simp] theorem write_mem (s : Cpu A) (a w : Word) :
    (s.write a w).mem = Function.update s.mem a (some w) := rfl

theorem Kept.refl (l : List Reg) (s : Cpu A) : Kept l s s := fun _ _ => rfl

theorem Kept.trans (h : Kept l s t) (h' : Kept l t u) : Kept l s u :=
  fun r hr => (h' r hr).trans (h r hr)

theorem Kept.mono (h : Kept l s t) (hl : l ⊆ l') : Kept l' s t := fun r hr => h r fun hm => hr (hl hm)

theorem Kept.set (h : Kept l s t) (hd : d ∈ l) (w : Word) : Kept l s (t.set d w) := by
  intro r hr
  have hne : r ≠ d := fun he => hr (he ▸ hd)
  rw [set_reg,if_neg hne]
  exact h r hr

@[simp] theorem post_reg {Q : Word → Cpu A → Prop} : Post (reg r) s Q E ↔ Q (s.reg r) s := Iff.rfl

@[simp] theorem post_li : Post (li d w) s Q E ↔ Q () (s.set d w) := Iff.rfl

@[simp] theorem post_move : Post (move d x) s Q E ↔ Q () (s.set d (s.reg x)) := Iff.rfl

@[simp] theorem post_sll {n : ℕ} : Post (sll d x n) s Q E ↔ Q () (s.set d (s.reg x <<< n)) := Iff.rfl

@[simp] theorem post_srl {n : ℕ} : Post (srl d x n) s Q E ↔ Q () (s.set d (s.reg x >>> n)) := Iff.rfl

/-- Addresses and sizes are small, and so are their sums. -/
theorem no_overflow (h : a.toNat + b.toNat < 2 ^ 31) : a.saddOverflow b = false := by
  have ha : a.toInt = a.toNat := BitVec.toInt_eq_toNat_of_lt (by omega)
  have hb : b.toInt = b.toNat := BitVec.toInt_eq_toNat_of_lt (by omega)
  rw [BitVec.saddOverflow,ha,hb,Bool.or_eq_false_iff,decide_eq_false_iff_not,decide_eq_false_iff_not]
  omega

/-- A small number can be made smaller. -/
theorem no_overflow_neg (h : a.toNat < 2 ^ 31) (hb : b.toInt < 0) : a.saddOverflow b = false := by
  have ha : a.toInt = a.toNat := BitVec.toInt_eq_toNat_of_lt (by omega)
  have hlow := b.le_toInt
  rw [BitVec.saddOverflow,ha,Bool.or_eq_false_iff,decide_eq_false_iff_not,decide_eq_false_iff_not]
  omega

theorem no_overflow_sub (ha : a.toNat < 2 ^ 31) (hb : b.toNat < 2 ^ 31) : a.ssubOverflow b = false := by
  have ha : a.toInt = a.toNat := BitVec.toInt_eq_toNat_of_lt (by omega)
  have hb : b.toInt = b.toNat := BitVec.toInt_eq_toNat_of_lt (by omega)
  rw [BitVec.ssubOverflow,ha,hb,Bool.or_eq_false_iff,decide_eq_false_iff_not,decide_eq_false_iff_not]
  omega

theorem post_add (h : (s.reg x).saddOverflow (s.reg y) = false) :
    Post (add d x y) s Q E ↔ Q () (s.set d (s.reg x + s.reg y)) := by
  rw [add,post_bind,post_reg,post_bind,post_reg,h]
  rfl

theorem post_addi (h : (s.reg x).saddOverflow w = false) :
    Post (addi d x w) s Q E ↔ Q () (s.set d (s.reg x + w)) := by
  rw [addi,post_bind,post_reg,h]
  rfl

theorem post_sub (h : (s.reg x).ssubOverflow (s.reg y) = false) :
    Post (sub d x y) s Q E ↔ Q () (s.set d (s.reg x - s.reg y)) := by
  rw [sub,post_bind,post_reg,post_bind,post_reg,h]
  rfl

theorem post_lw (ha : s.reg x + offset = a) (haligned : a.toNat % 4 = 0) (h : s.mem a = some w) :
    Post (lw d offset x) s Q E ↔ Q () (s.set d w) := by
  subst ha
  rw [lw,post_bind,post_get,if_pos haligned,h]
  rfl

theorem post_sw (ha : s.reg y + offset = a) (haligned : a.toNat % 4 = 0) (h : (s.mem a).isSome = true) :
    Post (sw x offset y) s Q E ↔ Q () (s.write a (s.reg x)) := by
  obtain ⟨w,hw⟩ := Option.isSome_iff_exists.mp h
  subst ha
  rw [sw,post_bind,post_get,if_pos haligned,hw]
  rfl

/-- A routine that returns to the caller, called. -/
theorem post_jal {site : Word} {routine : M A Unit}
    (h : Post routine (s.set .ra site) (fun _ u => u.reg .ra = site ∧ Q () u) E) :
    Post (jal site routine) s Q E := by
  rw [jal,post_bind,post_li,post_bind]
  refine h.imp fun _ u hu => ?_
  rw [post_bind,post_reg,if_pos hu.1]
  exact hu.2

end ResumePointers.Mips
