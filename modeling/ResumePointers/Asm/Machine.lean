import Mathlib
import ResumePointers.Lib.Post

/-! The machine that the heap of `assembly/` runs on, as far as that code uses it: registers,
a stack whose entries know what they are, and memory cells of 64 bits. -/
namespace ResumePointers.Asm

inductive Reg
  | rax | rbx | rcx | rdx | rsi | rdi | r8 | r9 | r10 | r11 | r12 | r13 | r14 | r15
deriving DecidableEq

abbrev Word := BitVec 64

/-- What is on the stack: a pushed register, the height that a pushed `rbp` stands for, or a return
address. -/
inductive Slot
  | word (w : Word)
  | height (n : ℕ)
  | back
deriving DecidableEq

/-- `A` is the state of the allocator, `rbp` a height of the stack. A memory cell that is not
allocated is `none`. -/
structure Cpu (A : Type) where
  reg : Reg → Word
  rbp : ℕ
  stack : List Slot
  mem : Word → Option Word
  alloc : A

/-- Why a run ends: an access through a null pointer, an access to memory that is not allocated, a
stack that does not hold what is popped, or too many rounds. -/
inductive Fault
  | null
  | access
  | stack
  | fuel
deriving DecidableEq

abbrev M (A : Type) := EStateM Fault (Cpu A)

variable {A : Type}

def Cpu.set (s : Cpu A) (r : Reg) (w : Word) : Cpu A :=
  { s with reg := Function.update s.reg r w }

def Cpu.onStack (s : Cpu A) (stack : List Slot) : Cpu A := { s with stack := stack }

def Cpu.write (s : Cpu A) (a w : Word) : Cpu A := { s with mem := Function.update s.mem a w }

/-- The value of a register. -/
def reg (r : Reg) : M A Word := do
  let s ← get
  pure (s.reg r)

def mov (r : Reg) (w : Word) : M A Unit := modify fun s => s.set r w

/-- `qword[base + offset]`. -/
def load (base offset : Word) : M A Word := do
  let s ← get
  if base = 0 then throw .null
  else
    match s.mem (base + offset) with
    | some w => pure w
    | none => throw .access

/-- `mov qword[base + offset], w`. -/
def store (base offset w : Word) : M A Unit := do
  let s ← get
  if base = 0 then throw .null
  else
    match s.mem (base + offset) with
    | some _ => set (s.write (base + offset) w)
    | none => throw .access

def push (r : Reg) : M A Unit := modify fun s => s.onStack (.word (s.reg r)::s.stack)

/-- The pushed register on top of a stack. -/
def topWord : List Slot → Option (Word × List Slot)
  | .word w::stack => some (w,stack)
  | _ => none

def topHeight : List Slot → Option (ℕ × List Slot)
  | .height n::stack => some (n,stack)
  | _ => none

def topBack : List Slot → Option (List Slot)
  | .back::stack => some stack
  | _ => none

def pop (r : Reg) : M A Unit := do
  let s ← get
  match topWord s.stack with
  | some (w,stack) => set ((s.onStack stack).set r w)
  | none => throw .stack

/-- `call`: the return address. -/
def callBack : M A Unit := modify fun s => s.onStack (.back::s.stack)

def ret : M A Unit := do
  let s ← get
  match topBack s.stack with
  | some stack => set (s.onStack stack)
  | none => throw .stack

/-- `push rbp` and `mov rbp, rsp`. -/
def enterFrame : M A Unit :=
  modify fun s => { s with stack := .height s.rbp::s.stack, rbp := s.stack.length + 1 }

/-- `mov rsp, rbp` and `pop rbp`. -/
def leaveFrame : M A Unit := do
  let s ← get
  if s.rbp ≤ s.stack.length then
    match topHeight (s.stack.drop (s.stack.length - s.rbp)) with
    | some (n,stack) => set { s with stack := stack, rbp := n }
    | none => throw .stack
  else throw .stack

/-- The registers that every function of the two files pushes, in this order. -/
def pushed : List Reg := [.rax,.rbx,.rcx,.rdx,.r8,.r9,.r10,.r11,.r12,.r13,.r14,.r15]

/-- The registers that every function of the two files pops, in this order. -/
def popped : List Reg := [.r15,.r14,.r13,.r12,.r11,.r10,.r9,.r8,.rdx,.rcx,.rbx]

/-- The call of a function with this body between the pushes and the pops. -/
def function (body : M A Unit) : M A Unit := do
  callBack
  enterFrame
  pushed.forM push
  body
  popped.forM pop
  leaveFrame
  ret

/-- The state in which the body of a function starts. -/
def Cpu.entered (s : Cpu A) : Cpu A :=
  { s with
    stack := pushed.reverse.map (fun r => .word (s.reg r)) ++ .height s.rbp::.back::s.stack
    rbp := s.stack.length + 2 }

/-- The state after a function whose body has ended in `t`. -/
def Cpu.left (s t : Cpu A) : Cpu A :=
  { t with
    reg := fun r => if r ∈ popped then s.reg r else t.reg r
    stack := s.stack
    rbp := s.rbp }

variable {s t u : Cpu A} {r : Reg} {w : Word} {α : Type} {Q : Unit → Cpu A → Prop}
  {E : Fault → Cpu A → Prop}

@[simp] theorem set_reg (s : Cpu A) (r r' : Reg) (w : Word) :
    (s.set r w).reg r' = if r' = r then w else s.reg r' := Function.update_apply ..
@[simp] theorem set_mem (s : Cpu A) (r : Reg) (w : Word) : (s.set r w).mem = s.mem := rfl
@[simp] theorem set_stack (s : Cpu A) (r : Reg) (w : Word) : (s.set r w).stack = s.stack := rfl
@[simp] theorem set_rbp (s : Cpu A) (r : Reg) (w : Word) : (s.set r w).rbp = s.rbp := rfl
@[simp] theorem set_alloc (s : Cpu A) (r : Reg) (w : Word) : (s.set r w).alloc = s.alloc := rfl

@[simp] theorem onStack_reg (s : Cpu A) (l : List Slot) : (s.onStack l).reg = s.reg := rfl
@[simp] theorem onStack_mem (s : Cpu A) (l : List Slot) : (s.onStack l).mem = s.mem := rfl
@[simp] theorem onStack_stack (s : Cpu A) (l : List Slot) : (s.onStack l).stack = l := rfl
@[simp] theorem onStack_rbp (s : Cpu A) (l : List Slot) : (s.onStack l).rbp = s.rbp := rfl
@[simp] theorem onStack_alloc (s : Cpu A) (l : List Slot) : (s.onStack l).alloc = s.alloc := rfl

@[simp] theorem write_reg (s : Cpu A) (a w : Word) : (s.write a w).reg = s.reg := rfl
@[simp] theorem write_stack (s : Cpu A) (a w : Word) : (s.write a w).stack = s.stack := rfl
@[simp] theorem write_rbp (s : Cpu A) (a w : Word) : (s.write a w).rbp = s.rbp := rfl
@[simp] theorem write_alloc (s : Cpu A) (a w : Word) : (s.write a w).alloc = s.alloc := rfl
@[simp] theorem write_mem (s : Cpu A) (a w b : Word) :
    (s.write a w).mem b = if b = a then some w else s.mem b := Function.update_apply ..

@[simp] theorem entered_reg (s : Cpu A) : s.entered.reg = s.reg := rfl
@[simp] theorem entered_mem (s : Cpu A) : s.entered.mem = s.mem := rfl
@[simp] theorem entered_alloc (s : Cpu A) : s.entered.alloc = s.alloc := rfl

@[simp] theorem left_mem (s t : Cpu A) : (s.left t).mem = t.mem := rfl
@[simp] theorem left_alloc (s t : Cpu A) : (s.left t).alloc = t.alloc := rfl
@[simp] theorem left_stack (s t : Cpu A) : (s.left t).stack = s.stack := rfl
@[simp] theorem left_rbp (s t : Cpu A) : (s.left t).rbp = s.rbp := rfl
@[simp] theorem left_reg (s t : Cpu A) (r : Reg) :
    (s.left t).reg r = if r ∈ popped then s.reg r else t.reg r := rfl

@[simp] theorem post_reg {Q : Word → Cpu A → Prop} : Post (reg r) s Q E ↔ Q (s.reg r) s := Iff.rfl

@[simp] theorem post_mov : Post (mov r w) s Q E ↔ Q () (s.set r w) := Iff.rfl

@[simp] theorem post_push :
    Post (push r) s Q E ↔ Q () (s.onStack (.word (s.reg r)::s.stack)) := Iff.rfl

theorem post_pop {stack : List Slot} (h : s.stack = .word w::stack) :
    Post (pop r) s Q E ↔ Q () ((s.onStack stack).set r w) := by
  rw [pop,post_bind,post_get,h]
  rfl

theorem post_load {Q : Word → Cpu A → Prop} {a b : Word} (ha : a ≠ 0)
    (h : s.mem (a + b) = some w) : Post (load a b) s Q E ↔ Q w s := by
  rw [load,post_bind,post_get,if_neg ha,h,post_pure]

theorem post_store {a b v : Word} (ha : a ≠ 0) (h : s.mem (a + b) = some w) :
    Post (store a b v) s Q E ↔ Q () (s.write (a + b) v) := by
  rw [store,post_bind,post_get,if_neg ha,h,post_set]

theorem post_store_null {b v : Word} : Post (store 0 b v) s Q E ↔ E .null s := by
  rw [store,post_bind,post_get,if_pos rfl,post_throw]

theorem post_forM_push (l : List Reg) :
    Post (l.forM push) s Q E ↔
      Q () (s.onStack (l.reverse.map (fun r => .word (s.reg r)) ++ s.stack)) := by
  induction l generalizing s with
  | nil => exact Iff.rfl
  | cons r l ih =>
    change Post (push r >>= fun _ => l.forM push) s Q E ↔ _
    rw [post_bind,post_push,ih]
    simp [Cpu.onStack]

/-- Popping a list of registers restores them. -/
theorem post_forM_pop (l : List Reg) (f : Reg → Word) {stack : List Slot} (hl : l.Nodup)
    (h : s.stack = l.map (fun r => .word (f r)) ++ stack) :
    Post (l.forM pop) s Q E ↔
      Q () { s with stack := stack, reg := fun r => if r ∈ l then f r else s.reg r } := by
  induction l generalizing s with
  | nil =>
    rw [List.map_nil,List.nil_append] at h
    subst h
    simp
  | cons r l ih =>
    obtain ⟨hr,hl⟩ := List.nodup_cons.mp hl
    change Post (pop r >>= fun _ => l.forM pop) s Q E ↔ _
    rw [post_bind,post_pop h,ih hl rfl]
    refine iff_of_eq (congrArg (Q ()) ?_)
    simp only [Cpu.set,Cpu.onStack,List.mem_cons]
    congr 1
    funext r'
    by_cases hr' : r' ∈ l
    · simp [hr']
    · by_cases he : r' = r
      · simp [he,hr]
      · simp [hr',he]

/-- The first instructions of a function that pushes these registers. -/
theorem post_enter (l : List Reg) {m : M A Unit} :
    Post (do callBack; enterFrame; l.forM push; m) s Q E ↔ Post m
      { s with
        stack := l.reverse.map (fun r => .word (s.reg r)) ++ .height s.rbp::.back::s.stack
        rbp := s.stack.length + 2 } Q E := by
  rw [post_bind]
  change Post _ (s.onStack (.back::s.stack)) _ _ ↔ _
  rw [post_bind]
  change Post _ { s with stack := .height s.rbp::.back::s.stack, rbp := s.stack.length + 2 } _ _ ↔ _
  rw [post_bind,post_forM_push]
  rfl

/-- The last instructions of a function, with `f` in the words on top of the stack: whatever else is
above the frame is dropped. -/
theorem post_leave (f : Reg → Word) (junk : List Slot) {stack : List Slot} {n : ℕ}
    (h : t.stack = popped.map (fun r => .word (f r)) ++ (junk ++ .height n::.back::stack))
    (hrbp : t.rbp = stack.length + 2) :
    Post (do popped.forM pop; leaveFrame; ret) t Q E ↔ Q ()
      { t with
        reg := fun r => if r ∈ popped then f r else t.reg r
        stack := stack
        rbp := n } := by
  have hlen : (junk ++ Slot.height n::.back::stack).length = junk.length + t.rbp := by
    rw [hrbp,List.length_append]
    rfl
  have hdrop : (junk ++ Slot.height n::.back::stack).drop
      ((junk ++ Slot.height n::.back::stack).length - t.rbp) = .height n::.back::stack := by
    rw [hlen,Nat.add_sub_cancel,List.drop_left]
  rw [post_bind,post_forM_pop popped f (by decide) h,post_bind,leaveFrame,post_bind,post_get]
  rw [if_pos (by dsimp only; omega)]
  dsimp only
  rw [hdrop]
  rfl

/-- A body that leaves the stack as it has found it ends in a function that keeps all registers but
`rax`, `rsi` and `rdi`. -/
theorem post_function {body : M A Unit}
    (h : Post body s.entered
      (fun _ t => t.stack = s.entered.stack ∧ t.rbp = s.entered.rbp ∧ Q () (s.left t)) E) :
    Post (function body) s Q E := by
  refine (post_enter pushed).mpr ?_
  rw [post_bind]
  refine Post.imp h fun _ t ht => ?_
  obtain ⟨hstack,hrbp,hq⟩ := ht
  exact (post_leave s.reg [.word (s.reg .rax)] hstack hrbp).mpr hq

/-- What a function of the two files keeps. -/
structure Keeps (s u : Cpu A) : Prop where
  stack : u.stack = s.stack
  rbp : u.rbp = s.rbp
  reg : ∀ r, r ≠ .rax → r ≠ .rsi → u.reg r = s.reg r

theorem keeps_left (h : t.reg .rdi = s.reg .rdi) : Keeps s (s.left t) where
  stack := rfl
  rbp := rfl
  reg r hrax hrsi := by
    rw [left_reg]
    split
    · rfl
    · cases r with
      | rdi => exact h
      | rax => exact absurd rfl hrax
      | rsi => exact absurd rfl hrsi
      | _ => simp_all [popped]

end ResumePointers.Asm
