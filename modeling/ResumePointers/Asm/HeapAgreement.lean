import ResumePointers.Asm.HeapRun
import ResumePointers.Dsa.Heap

/-! The heaps of `assembly/heap.asm` and of `dsa/heap/heap.cpp`, side by side. -/
namespace ResumePointers.Asm

open Dsa (BinaryHeap.Heap BinaryHeap.Valid BinaryHeap.Appends)

variable {A : Type}

inductive HeapOp
  | insert (x : BitVec 32)
  | deleteMax

/-- An `int` is extended to the 64 bits of a register. -/
def HeapOp.asm : HeapOp → Op
  | .insert x => .insert (x.signExtend 64)
  | .deleteMax => .popMax

def HeapOp.cpp : HeapOp → Dsa.BinaryHeap.Op
  | .insert x => .insert x.toInt
  | .deleteMax => .deleteMax

def callMax (v : Word) : M A Unit := do
  mov .rdi v
  get_max

/-- The two heaps hold the same elements in the same order and return the same maximum. -/
structure Same (v : Word) (h : BinaryHeap.Heap) (c : Cpu A) : Prop where
  size : size v c = h.sz
  elements : ∀ i < h.sz, element v c i = h.entry i
  maximum : 0 < h.sz → Total Dsa.BinaryHeap.max h fun x _ => (∀ i < h.sz, h.entry i ≤ x) ∧
    Total (callMax v) c fun _ u => (u.reg .rax).toInt = x

variable {realloc : Cpu A → Cpu A} {live : A → Word → ℕ → Prop} {v : Word} {c : Cpu A}
  {h : BinaryHeap.Heap} {append : ℤ → BinaryHeap.Heap → BinaryHeap.Heap} {n : ℕ}

/-- Both are heaps of `n` elements, and the elements are the same. -/
def Agree (live : A → Word → ℕ → Prop) (v : Word) (n : ℕ) (h : BinaryHeap.Heap) (c : Cpu A) :
    Prop :=
  BinaryHeap.Valid h ∧ h.sz = n ∧ ∃ f, IsHeap live v c f n ∧ ∀ i < n, key f i = h.entry i

theorem Agree.insert (happ : BinaryHeap.Appends append) (hr : IsRealloc realloc live)
    (hag : Agree live v n h c) (x : BitVec 32) :
    Post (call realloc v (HeapOp.asm (.insert x))) c
      (fun _ c' => Total (Dsa.BinaryHeap.call append (HeapOp.cpp (.insert x))) h fun _ h' =>
        Agree live v (n + 1) h' c')
      fun e c' => e = .null ∧ c'.word (v + 16) = 0 := by
  obtain ⟨hvalid,rfl,f,hheap,heq⟩ := hag
  refine (call_insert_spec hr hheap).imp fun _ c' hc => ?_
  obtain ⟨f',g,hg,hold,hnew,-,hup⟩ := hc
  refine (Dsa.BinaryHeap.insert_spec happ hvalid x.toInt).imp fun _ h' hh => ?_
  obtain ⟨hvalid',-,hsz,g',hold',hnew',hup'⟩ := hh
  refine ⟨hvalid',hsz,g,hg,?_⟩
  rw [hup,hup']
  refine siftUp_congr (fun k hk => ?_) (Nat.lt_succ_self _)
  rcases Nat.lt_succ_iff_lt_or_eq.mp hk with hlt | rfl
  · rw [key,hold k hlt,hold' k hlt,← heq k hlt,key]
  · rw [key,hnew,hnew',BitVec.toInt_signExtend_of_le (by decide)]

theorem Agree.deleteMax (hag : Agree live v (n + 1) h c) :
    Total (call realloc v (HeapOp.asm .deleteMax)) c fun _ c' =>
      Total (Dsa.BinaryHeap.call append (HeapOp.cpp .deleteMax)) h fun _ h' =>
        Agree live v n h' c' := by
  obtain ⟨hvalid,hsz,f,hheap,heq⟩ := hag
  refine (call_popMax_spec hheap).imp fun _ c' hc => ?_
  obtain ⟨-,g,hg,-,hdown⟩ := hc
  refine (Dsa.BinaryHeap.deleteMax_spec hvalid hsz).imp fun _ h' hh => ?_
  obtain ⟨hvalid',-,hsz',hdown'⟩ := hh
  refine ⟨hvalid',hsz',g,hg,?_⟩
  rw [hdown,hdown',Equiv.swap_comm]
  refine siftDown_congr fun k hk => ?_
  exact swap_congr heq (Nat.succ_pos n) (Nat.lt_succ_self n) k (by omega)

theorem Agree.same (hag : Agree live v n h c) : Same v h c := by
  obtain ⟨hvalid,rfl,f,⟨ho,base,cap,hvec⟩,heq⟩ := hag
  refine ⟨hvec.size_eq,fun i hi => (hvec.element_eq hi).trans (heq i hi),fun hpos => ?_⟩
  rw [Dsa.BinaryHeap.max,Total,Dsa.BinaryHeap.post_load hvalid.sized hpos]
  refine ⟨fun i hi => hvalid.order.le_root hi,?_⟩
  rw [callMax,Total,post_bind,mov,post_modify]
  refine Post.imp (get_max_spec (hvec.congr rfl rfl) ?_ hpos) fun _ u hu => ?_
  · simp only [set_reg,↓reduceIte]
  · rw [hu,← heq 0 hpos,key]

end ResumePointers.Asm
