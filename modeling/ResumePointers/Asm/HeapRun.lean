import ResumePointers.Asm.Heap

/-! Runs of the heap of `assembly/heap.asm` from `init_h` on. -/
namespace ResumePointers.Asm

variable {A : Type}

inductive Op
  | insert (x : Word)
  | popMax

/-- A call with the arguments in their registers. -/
def call (realloc : Cpu A → Cpu A) (v : Word) : Op → M A Unit
  | .insert x => do
    mov .rdi v
    mov .rsi x
    insert_h realloc
  | .popMax => do
    mov .rdi v
    pop_max

/-- The machine, with the numbers that have been inserted and those that have been popped. -/
structure Traced (A : Type) where
  cpu : Cpu A
  inserted : Multiset ℤ
  popped : Multiset ℤ

def exec (realloc : Cpu A → Cpu A) (v : Word) (op : Op) : EStateM Fault (Traced A) Unit := do
  zoom Traced.cpu (fun c s => { s with cpu := c }) (call realloc v op)
  modify fun s =>
    match op with
    | .insert x => { s with inserted := x.toInt ::ₘ s.inserted }
    | .popMax => { s with popped := (s.cpu.reg .rax).toInt ::ₘ s.popped }

def Cpu.word (s : Cpu A) (a : Word) : Word := (s.mem a).getD 0

def capacity (v : Word) (s : Cpu A) : ℕ := (s.word v).toNat

def size (v : Word) (s : Cpu A) : ℕ := (s.word (v + 8)).toNat

/-- An element as a signed number. -/
def element (v : Word) (s : Cpu A) (i : ℕ) : ℤ := (s.word (slot (s.word (v + 16)) i)).toInt

def elements (v : Word) (s : Cpu A) : Multiset ℤ := (Multiset.range (size v s)).map (element v s)

/-- `pop_max` is called on a heap that is not empty. -/
def Allowed (v : Word) : Op → Traced A → Prop
  | .insert _,_ => True
  | .popMax,s => 0 < size v s.cpu

/-- `x` is a largest element. -/
def IsLargest (v : Word) (s : Cpu A) (x : ℤ) : Prop := x ∈ elements v s ∧ ∀ y ∈ elements v s, y ≤ x

variable {realloc : Cpu A → Cpu A} {live : A → Word → ℕ → Prop} {s : Traced A} {t u : Cpu A}
  {v base x : Word} {cap n i : ℕ} {f : ℕ → Word} {op : Op}

namespace IsVector

theorem size_eq (h : IsVector live v t base cap n f) : Asm.size v t = n := by
  have hsmall := h.small
  have hsized := h.sized
  rw [Asm.size,Cpu.word,h.size,Option.getD_some,BitVec.toNat_ofNat,Nat.mod_eq_of_lt (by omega)]

theorem element_eq (h : IsVector live v t base cap n f) (hi : i < n) : element v t i = key f i := by
  have hsized := h.sized
  rw [element,Cpu.word,Cpu.word,h.address,Option.getD_some,h.cells i (by omega),Option.getD_some,key]

theorem elements_eq (h : IsVector live v t base cap n f) : elements v t = contents f n := by
  rw [elements,h.size_eq,contents]
  exact Multiset.map_congr rfl fun i hi => h.element_eq (Multiset.mem_range.mp hi)

end IsVector

/-- A heap between two operations. -/
def IsHeap (live : A → Word → ℕ → Prop) (v : Word) (t : Cpu A) (f : ℕ → Word) (n : ℕ) : Prop :=
  Heaped (key f) n ∧ ∃ base cap, IsVector live v t base cap n f

theorem call_insert_spec (hr : IsRealloc realloc live) (h : IsHeap live v t f n) :
    Post (call realloc v (.insert x)) t (fun _ u => ∃ f' g, IsHeap live v u g (n + 1) ∧
      (∀ i < n, f' i = f i) ∧ f' n = x ∧ Shuffled f' g (n + 1) ∧ key g = siftUp (key f') n)
      fun e u => e = .null ∧ u.word (v + 16) = 0 := by
  obtain ⟨ho,base,cap,hvec⟩ := h
  simp only [call,post_bind,post_mov]
  refine Post.mono (insert_h_spec hr (hvec.congr rfl rfl) ?_ rfl) (fun _ u hu => ?_)
    fun _ u hu => ?_
  · simp only [set_reg,reduceCtorEq,↓reduceIte]
  · obtain ⟨⟨base',cap',f',g,hvec',hold,hnew,hshuffled,hup⟩,-⟩ := hu
    have hrising := (heaped_congr (fun i hi => (hold i hi).symm) ho).rising
    refine ⟨f',g,⟨?_,base',cap',hvec'⟩,hold,?_,hshuffled,hup⟩
    · rw [hup]
      exact siftUp_heaped hrising (Nat.lt_succ_self n)
    · rw [hnew]
      simp only [set_reg,↓reduceIte]
  · exact ⟨hu.1.1,by rw [Cpu.word,hu.1.2,Option.getD_some]⟩

theorem call_popMax_spec (h : IsHeap live v t f (n + 1)) :
    Total (call realloc v .popMax) t fun _ u => u.reg .rax = f 0 ∧ ∃ g, IsHeap live v u g n ∧
      Shuffled (f ∘ Equiv.swap n 0) g n ∧ key g = siftDown (key f ∘ Equiv.swap n 0) n 0 := by
  obtain ⟨ho,base,cap,hvec⟩ := h
  simp only [call,post_bind,post_mov]
  refine Post.imp (pop_max_spec (hvec.congr rfl rfl) ?_) fun _ u hu => ?_
  · simp only [set_reg,↓reduceIte]
  · obtain ⟨hrax,g,hg,hshuffled,hdown⟩ := hu
    refine ⟨hrax,g,⟨?_,base,cap,hg⟩,hshuffled,hdown⟩
    rw [hdown,Equiv.swap_comm]
    exact siftDown_heaped ho.sinking

structure TracedHeap (live : A → Word → ℕ → Prop) (v : Word) (s : Traced A) (f : ℕ → Word) (n : ℕ) :
    Prop where
  heap : IsHeap live v s.cpu f n
  balance : contents f n + s.popped = s.inserted

theorem IsHeap.size_eq (h : IsHeap live v t f n) : size v t = n := by
  obtain ⟨-,_,_,hvec⟩ := h
  exact hvec.size_eq

theorem IsHeap.elements_eq (h : IsHeap live v t f n) : elements v t = contents f n := by
  obtain ⟨-,_,_,hvec⟩ := h
  exact hvec.elements_eq

theorem IsHeap.isLargest (h : IsHeap live v t f (n + 1)) : IsLargest v t (key f 0) := by
  rw [IsLargest,h.elements_eq,contents]
  refine ⟨Multiset.mem_map.mpr ⟨0,Multiset.mem_range.mpr (Nat.succ_pos n),rfl⟩,fun y hy => ?_⟩
  obtain ⟨i,hi,rfl⟩ := Multiset.mem_map.mp hy
  exact h.1.le_root (Multiset.mem_range.mp hi)

theorem exec_spec (hr : IsRealloc realloc live) (h : TracedHeap live v s f n) (op : Op)
    (hok : Allowed v op s) :
    Post (exec realloc v op) s (fun _ u => (∃ g m, TracedHeap live v u g m) ∧
      (op = .popMax → IsLargest v s.cpu (u.cpu.reg .rax).toInt))
      fun e u => e = .null ∧ u.cpu.word (v + 16) = 0 ∧ ∃ x, op = .insert x := by
  cases op with
  | insert x =>
    rw [exec,post_bind,post_zoom]
    refine (call_insert_spec hr h.heap).mono (fun _ u hu => ?_) fun _ u hu => ⟨hu.1,hu.2,x,rfl⟩
    obtain ⟨f',g,hg,hold,hnew,hshuffled,-⟩ := hu
    rw [post_modify]
    refine ⟨⟨g,n + 1,hg,?_⟩,fun hc => absurd hc (by simp)⟩
    dsimp only
    rw [hshuffled.contents,contents_succ,contents_congr hold,key,hnew,Multiset.cons_add,h.balance]
  | popMax =>
    have hpos : 0 < n := by
      rw [← h.heap.size_eq]
      exact hok
    obtain ⟨n,rfl⟩ : ∃ m, n = m + 1 := ⟨n - 1,by omega⟩
    rw [exec,post_bind,post_zoom]
    refine (call_popMax_spec h.heap).post fun _ u hu => ?_
    obtain ⟨hrax,g,hg,hshuffled,-⟩ := hu
    rw [post_modify]
    have hlast : key (f ∘ Equiv.swap n 0) n = key f 0 := by
      rw [key,Function.comp_apply,Equiv.swap_apply_left,key]
    refine ⟨⟨g,n,hg,?_⟩,fun _ => ?_⟩
    · dsimp only
      rw [hrax,← h.balance,
        ← (shuffled_swap f (by omega : n < n + 1) (by omega : 0 < n + 1)).contents,contents_succ,hlast,
        hshuffled.contents,Multiset.add_cons,Multiset.cons_add,key]
    · rw [hrax]
      exact h.heap.isLargest

/-- An allocator with one block, whose size is its state: it grows where it is, as long as the memory
behind it is free. -/
def inPlace (s : Cpu ℕ) : Cpu ℕ :=
  let c := (s.reg .rsi).toNat / 8
  if 8 * c < 2 ^ 63 ∧ ∀ i < c, s.mem (slot 4096 i) = none ∨ s.reg .rdi = 4096 ∧ i < s.alloc then
    { s.set .rax 4096 with
      mem := fun a => if (∃ i < c, a = slot 4096 i) ∧ s.mem a = none then some 0 else s.mem a
      alloc := c }
  else s.set .rax 0

def isLive (size : ℕ) (p : Word) (c : ℕ) : Prop := p = 4096 ∧ size = c

theorem isRealloc_inPlace : IsRealloc inPlace isLive where
  stack s := by
    rw [inPlace]
    split <;> rfl
  rbp s := by
    rw [inPlace]
    split <;> rfl
  block s cap c hblock hrsi hpos hsmall := by
    have hc : (s.reg .rsi).toNat / 8 = c := by
      rw [hrsi]
      have height : (8 : Word).toNat = 8 := rfl
      rw [BitVec.toNat_mul,height,BitVec.toNat_ofNat]
      omega
    rw [inPlace,hc]
    by_cases hfree : 8 * c < 2 ^ 63 ∧
        ∀ i < c, s.mem (slot 4096 i) = none ∨ s.reg .rdi = 4096 ∧ i < s.alloc
    · right
      simp only [if_pos hfree]
      refine ⟨show (4096 : Word) ≠ 0 by decide,⟨rfl,rfl⟩,hfree.1,fun i hi hic => ?_,fun i hi => ?_,
        fun i hi => ?_,fun a _ hnew => ?_⟩
      · obtain ⟨-,rfl⟩ | ⟨-,⟨hbase,-⟩,hcells⟩ := hblock
        · omega
        · have hsome := hcells i hi
          rw [hbase] at hsome ⊢
          refine if_neg fun hnone => ?_
          have hnone' : s.mem (slot 4096 i) = none := hnone.2
          rw [hnone'] at hsome
          exact absurd hsome (by decide)
      · change (ite _ _ _ : Option Word).isSome = true
        split
        · rfl
        · next hnone =>
          exact Option.isSome_iff_ne_none.mpr fun he => hnone ⟨⟨i,hi,rfl⟩,he⟩
      · refine (hfree.2 i hi).imp_right fun hb => ?_
        obtain ⟨hrdi,hlt⟩ := hb
        obtain ⟨hzero,-⟩ | ⟨-,⟨-,hsize⟩,-⟩ := hblock
        · rw [hzero] at hrdi
          exact absurd hrdi (by decide)
        · exact ⟨i,hsize ▸ hlt,by rw [hrdi]; rfl⟩
      · exact if_neg fun hc => by
          obtain ⟨⟨i,hi,rfl⟩,-⟩ := hc
          exact hnew i hi rfl
    · left
      rw [if_neg hfree]
      exact ⟨rfl,rfl⟩

/-- The three cells of a heap at address 64, and no others. -/
def beforeInit : Cpu ℕ where
  reg _ := 64
  rbp := 0
  stack := []
  mem a := if a = 64 ∨ a = 72 ∨ a = 80 then some 7 else none
  alloc := 0

end ResumePointers.Asm
