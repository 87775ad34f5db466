import ResumePointers.Asm.Vector
import ResumePointers.Lib.BinaryHeap
import ResumePointers.Lib.Runs

/-! The heap of `assembly/heap.asm`, whose elements are signed numbers in the vector of
`assembly/vector.asm`. -/
namespace ResumePointers.Asm

variable {A : Type}

def init_h : M A Unit := function do
  push .rdi
  init_v
  pop .rdi

def size_h : M A Unit := function do
  push .rdi
  size_v
  pop .rdi

/-- `insert_h` from `whileloop` to `endwhile`. -/
def whileloop : ℕ → M A Unit
  | 0 => throw .fuel
  | fuel + 1 => do
    mov .rbx 0
    if (← reg .r8).sle (← reg .rbx) then pure ()
    else do
      mov .r9 (← reg .r8)
      mov .r9 ((← reg .r9) - 1)
      mov .r9 ((← reg .r9) >>> 1)
      mov .r10 (← load (← reg .rdi) 16)
      mov .r11 (← load (← reg .r10) ((← reg .r9) * 8))
      mov .r12 (← load (← reg .r10) ((← reg .r8) * 8))
      if (← reg .r12).sle (← reg .r11) then pure ()
      else do
        store (← reg .r10) ((← reg .r9) * 8) (← reg .r12)
        store (← reg .r10) ((← reg .r8) * 8) (← reg .r11)
        mov .r8 (← reg .r9)
        whileloop fuel

def insert_h (realloc : Cpu A → Cpu A) : M A Unit := function do
  push .rdi
  push .rsi
  push_v realloc
  pop .rsi
  pop .rdi
  mov .r8 (← load (← reg .rdi) 8)
  mov .r8 ((← reg .r8) - 1)
  whileloop ((← reg .r8).toNat + 1)

/-- What `heapify` does with a child, whose index and value are in these registers, from the
comparison to `jmp do_nothing`. -/
def comp (heapify : M A Unit) (child value : Reg) : M A Unit := do
  if (← reg value).sle (← reg .r14) then pure ()
  else do
    store (← reg .rbx) ((← reg .rdx) * 8) (← reg value)
    store (← reg .rbx) ((← reg child) * 8) (← reg .r14)
    mov .rdx (← reg child)
    heapify

def comp_left (heapify : M A Unit) : M A Unit := comp heapify .r11 .r13

def comp_right (heapify : M A Unit) : M A Unit := comp heapify .r9 .r12

def only_left (heapify : M A Unit) : M A Unit := do
  mov .r13 (← load (← reg .rbx) ((← reg .r11) * 8))
  comp heapify .r11 .r13

/-- The jumps of `heapify`. -/
def choose (heapify : M A Unit) : M A Unit := do
  if (← reg .rsi).sle (← reg .r11) then pure ()
  else do
    if (← reg .rsi).sle (← reg .r9) then only_left heapify
    else do
      mov .r12 (← load (← reg .rbx) ((← reg .r9) * 8))
      mov .r13 (← load (← reg .rbx) ((← reg .r11) * 8))
      if (← reg .r13).slt (← reg .r12) then comp_right heapify else comp_left heapify

def heapify : ℕ → M A Unit
  | 0 => throw .fuel
  | fuel + 1 => function do
    push .rdi
    push .rsi
    push .rdx
    mov .rbx (← load (← reg .rdi) 16)
    mov .r14 (← load (← reg .rbx) ((← reg .rdx) * 8))
    mov .r9 (← reg .rdx)
    mov .r9 ((← reg .r9) * 2)
    mov .r9 ((← reg .r9) + 2)
    mov .r11 (← reg .rdx)
    mov .r11 ((← reg .r11) * 2)
    mov .r11 ((← reg .r11) + 1)
    choose (heapify fuel)
    pop .rdx
    pop .rsi
    pop .rdi

def get_max : M A Unit := function do
  push .rdi
  mov .r8 (← load (← reg .rdi) 16)
  mov .rax (← load (← reg .r8) 0)
  pop .rdi

def pop_max : M A Unit := function do
  push .rdi
  size_h
  pop .rdi
  mov .r8 (← reg .rax)
  mov .r8 ((← reg .r8) - 1)
  mov .r9 (← load (← reg .rdi) 16)
  mov .r10 (← load (← reg .r9) ((← reg .r8) * 8))
  mov .rax (← load (← reg .r9) 0)
  store (← reg .r9) ((← reg .r8) * 8) (← reg .rax)
  store (← reg .r9) 0 (← reg .r10)
  mov .rsi (← reg .r8)
  mov .rdx 0
  heapify ((← reg .rsi).toNat + 1)
  pop_v

/-- The elements as signed numbers. -/
def key (f : ℕ → Word) (i : ℕ) : ℤ := (f i).toInt

/-- The first `n` elements. -/
def contents (f : ℕ → Word) (n : ℕ) : Multiset ℤ := (Multiset.range n).map (key f)

/-- `g` has the first `m` elements of `f` in another order. -/
def Shuffled (f g : ℕ → Word) (m : ℕ) : Prop :=
  ∃ σ : Equiv.Perm ℕ, (∀ i, m ≤ i → σ i = i) ∧ g = f ∘ σ

variable {realloc : Cpu A → Cpu A} {live : A → Word → ℕ → Prop} {s t u : Cpu A} {v base w : Word}
  {cap n m i j k fuel : ℕ} {f g h : ℕ → Word} {E : Fault → Cpu A → Prop}

theorem Shuffled.refl (f : ℕ → Word) (m : ℕ) : Shuffled f f m := ⟨1,fun _ _ => rfl,rfl⟩

theorem Shuffled.trans (h₁ : Shuffled f g m) (h₂ : Shuffled g h m) : Shuffled f h m := by
  obtain ⟨σ,hσ,rfl⟩ := h₁
  obtain ⟨τ,hτ,rfl⟩ := h₂
  exact ⟨σ * τ,fun i hi => by rw [Equiv.Perm.mul_apply,hτ i hi,hσ i hi],rfl⟩

theorem Shuffled.rest (h₁ : Shuffled f g m) (hi : m ≤ i) : g i = f i := by
  obtain ⟨σ,hσ,rfl⟩ := h₁
  rw [Function.comp_apply,hσ i hi]

theorem Shuffled.contents (h₁ : Shuffled f g m) : contents g m = contents f m := by
  obtain ⟨σ,hσ,rfl⟩ := h₁
  have hrange : (Finset.range m).map σ.toEmbedding = Finset.range m := by
    refine Finset.map_perm fun i hi => ?_
    rw [Finset.coe_range,Set.mem_Iio]
    exact not_le.mp fun hm => hi (hσ i hm)
  have hval := congrArg Finset.val hrange
  rw [Finset.map_val] at hval
  have hmap : Asm.contents (f ∘ σ) m = ((Multiset.range m).map σ).map (key f) := by
    rw [Multiset.map_map]
    rfl
  exact hmap.trans (congrArg (Multiset.map (key f)) hval)

theorem shuffled_swap (f : ℕ → Word) (hi : i < m) (hj : j < m) :
    Shuffled f (f ∘ Equiv.swap i j) m :=
  ⟨_,fun k hk => Equiv.swap_apply_of_ne_of_ne (by omega) (by omega),rfl⟩

theorem contents_succ (f : ℕ → Word) (n : ℕ) : contents f (n + 1) = key f n ::ₘ contents f n := by
  rw [contents,Multiset.range_succ,Multiset.map_cons,contents]

theorem contents_congr (h₁ : ∀ i < n, f i = g i) : contents f n = contents g n :=
  Multiset.map_congr rfl fun i hi => by rw [key,key,h₁ i (Multiset.mem_range.mp hi)]

/-- Heap order depends on the first elements only. -/
theorem heaped_congr (h₁ : ∀ i < n, f i = g i) (ho : Heaped (key f) n) : Heaped (key g) n := by
  intro i hi hin
  have hp := parentIndex_lt hi
  rw [key,key,← h₁ i hin,← h₁ _ (hp.trans hin)]
  exact ho i hi hin

theorem sle_ofNat (hm : m < 2 ^ 63) (hn : n < 2 ^ 63) :
    (BitVec.ofNat 64 m).sle (.ofNat 64 n) = decide (m ≤ n) := by
  rw [BitVec.sle_eq_not_slt,slt_ofNat hn hm,← decide_not]
  simp only [not_lt]

/-- Two elements are exchanged by two stores. -/
theorem IsVector.exchange (h₁ : IsVector live v s base cap n f) (hi : i < cap) (hj : j < cap) :
    IsVector live v ((s.write (slot base i) (f j)).write (slot base j) (f i)) base cap n
      (f ∘ Equiv.swap i j) := by
  rw [Equiv.swap_comm,Equiv.comp_swap_eq_update]
  exact (h₁.writeCell hi (f j)).writeCell hj (f i)

theorem parent_ofNat (hk : 0 < k) (hsmall : 8 * k < 2 ^ 63) :
    ((.ofNat 64 k - 1 : Word) >>> 1) = .ofNat 64 (parentIndex k) := by
  obtain ⟨k,rfl⟩ : ∃ l, k = l + 1 := ⟨k - 1,by omega⟩
  rw [ofNat_pred,parentIndex,Nat.add_sub_cancel]
  refine BitVec.eq_of_toNat_eq ?_
  rw [BitVec.toNat_ushiftRight,BitVec.toNat_ofNat,BitVec.toNat_ofNat,Nat.shiftRight_eq_div_pow,
    Nat.mod_eq_of_lt (by omega),Nat.mod_eq_of_lt (by omega),pow_one]

/-- The loop of `insert_h` ends, and has moved its element up. -/
theorem whileloop_spec (h₁ : IsVector live v t base cap n f) (hrdi : t.reg .rdi = v)
    (hr8 : t.reg .r8 = .ofNat 64 k) (hk : k < n) (hfuel : k < fuel) :
    Total (whileloop fuel) t fun _ u => u.stack = t.stack ∧ u.rbp = t.rbp ∧ u.reg .rdi = v ∧
      ∃ g, IsVector live v u base cap n g ∧ Shuffled f g n ∧ key g = siftUp (key f) k := by
  induction fuel generalizing t f k with
  | zero => omega
  | succ fuel ih =>
    have hsmall := h₁.small
    have hsized := h₁.sized
    have hbase := h₁.base_ne (by omega)
    simp only [whileloop,post_bind,post_reg,post_mov,set_reg,reduceCtorEq,↓reduceIte,hr8]
    rw [show (0 : Word) = .ofNat 64 0 from rfl,sle_ofNat (by omega) (by omega)]
    by_cases hpos : 0 < k
    · have hp := parentIndex_lt hpos
      rw [if_neg (by simpa using hpos.ne')]
      simp only [post_bind,post_reg,post_mov,set_reg,reduceCtorEq,↓reduceIte,hr8,hrdi,
        parent_ofNat hpos (by omega : 8 * k < 2 ^ 63)]
      refine Iff.mpr (post_load h₁.pointer h₁.address) ?_
      simp only [set_reg,↓reduceIte]
      refine Iff.mpr (post_load hbase (h₁.cells _ (by omega : parentIndex k < cap))) ?_
      simp only [set_reg,reduceCtorEq,↓reduceIte,hr8]
      refine Iff.mpr (post_load hbase (h₁.cells k (by omega))) ?_
      simp only [set_reg,↓reduceIte]
      by_cases hle : (f k).sle (f (parentIndex k)) = true
      · rw [if_pos hle]
        have hstop : ¬ (0 < k ∧ key f (parentIndex k) < key f k) := fun hc =>
          not_lt.mpr (of_decide_eq_true hle) hc.2
        exact ⟨rfl,rfl,hrdi,f,h₁.congr rfl rfl,.refl f n,by rw [siftUp,if_neg hstop]⟩
      · rw [if_neg hle]
        have hlt : key f (parentIndex k) < key f k := not_le.mp fun hc => hle (decide_eq_true hc)
        have hswap := h₁.exchange (by omega : parentIndex k < cap) (by omega : k < cap)
        simp only [post_bind,post_reg,post_mov,set_reg,reduceCtorEq,↓reduceIte]
        refine Iff.mpr (post_store hbase (h₁.cells _ (by omega))) ?_
        simp only [write_reg,set_reg,reduceCtorEq,↓reduceIte,hr8]
        have hcells := (h₁.writeCell (by omega : parentIndex k < cap) (f k)).cells
        refine Iff.mpr (post_store hbase (hcells k (by omega))) ?_
        simp only [write_reg,set_reg,reduceCtorEq,↓reduceIte]
        refine Post.imp (ih (k := parentIndex k) (hswap.congr rfl rfl) hrdi ?_ (by omega) (by omega))
          fun _ u hu => ?_
        · simp only [set_reg,↓reduceIte]
        · obtain ⟨hstack,hrbp,hrdi',g,hg,hshuffled,hup⟩ := hu
          refine ⟨hstack,hrbp,hrdi',g,hg,(shuffled_swap f (by omega) (by omega)).trans hshuffled,?_⟩
          rw [siftUp,if_pos ⟨hpos,hlt⟩]
          exact hup
    · rw [if_pos (by simpa using hpos)]
      exact ⟨rfl,rfl,hrdi,f,h₁.congr rfl rfl,.refl f n,by rw [siftUp,if_neg fun hc => hpos hc.1]⟩

theorem insert_h_spec (hr : IsRealloc realloc live) (h₁ : IsVector live v s base cap n f)
    (hv : s.reg .rdi = v) (hw : s.reg .rsi = w) :
    Post (insert_h realloc) s (fun _ u => (∃ base' cap' f' g, IsVector live v u base' cap' (n + 1) g ∧
      (∀ i < n, f' i = f i) ∧ f' n = w ∧ Shuffled f' g (n + 1) ∧ key g = siftUp (key f') n) ∧
      (n = cap → ∃ q, Asked s q base (.ofNat 64 (2 * n + 1) * 8) ∧ (realloc q).reg .rax ≠ 0))
      fun e u => (e = .null ∧ u.mem (v + 16) = some 0) ∧ n = cap ∧
        ∃ q, Asked s q base (.ofNat 64 (2 * n + 1) * 8) ∧ (realloc q).reg .rax = 0 := by
  refine post_function ?_
  simp only [post_bind,post_push,post_reg,post_mov,entered_reg,onStack_reg,onStack_stack,hv,hw]
  generalize hq : Cpu.onStack _ _ = q
  have hmem : q.mem = s.mem := by rw [← hq]; rfl
  have halloc : q.alloc = s.alloc := by rw [← hq]; rfl
  have hvec : IsVector live v q base cap n f := h₁.congr hmem halloc
  have hrdi : q.reg .rdi = v := by rw [← hq]; exact hv
  have hrsi : q.reg .rsi = w := by rw [← hq]; exact hw
  have hasked {bytes : Word} {q' : Cpu A} (h : Asked q q' base bytes) : Asked s q' base bytes :=
    ⟨h.mem.trans hmem,h.alloc.trans halloc,h.rdi,h.rsi⟩
  have hstack : q.stack = .word w::.word v::s.entered.stack := by rw [← hq]; rfl
  have hrbp : q.rbp = s.entered.rbp := by rw [← hq]; rfl
  refine (push_v_spec hr hvec hrdi hrsi).mono (fun _ t ht => ?_) fun _ _ he =>
    ⟨he.1,he.2.1,he.2.2.imp fun _ hq' => ⟨hasked hq'.1,hq'.2⟩⟩
  obtain ⟨hkeep,⟨base',cap',f',hvec',hold,hnew⟩,hserved⟩ := ht
  have hsmall := hvec'.small
  have hsized := hvec'.sized
  refine Iff.mpr (post_pop (hkeep.stack.trans hstack)) ?_
  refine Iff.mpr (post_pop rfl) ?_
  simp only [set_reg,↓reduceIte]
  refine Iff.mpr (post_load hvec'.pointer hvec'.size) ?_
  simp only [ofNat_pred]
  have hlen : (BitVec.ofNat 64 n).toNat = n := by
    rw [BitVec.toNat_ofNat,Nat.mod_eq_of_lt (by omega)]
  rw [hlen]
  refine Total.post (whileloop_spec (hvec'.congr rfl rfl) ?_ ?_ (Nat.lt_succ_self n)
    (Nat.lt_succ_self n)) fun _ u hu => ?_
  · simp only [set_reg,reduceCtorEq,↓reduceIte]
  · simp only [set_reg,↓reduceIte]
  · obtain ⟨hstack',hrbp',-,g,hg,hshuffled,hup⟩ := hu
    exact ⟨hstack',hrbp'.trans (hkeep.rbp.trans hrbp),⟨_,_,f',g,hg.congr rfl rfl,hold,hnew,
      hshuffled,hup⟩,fun hc => (hserved hc).imp fun _ hq' => ⟨hasked hq'.1,hq'.2⟩⟩

/-- The registers of `heapify` at its first jump: the node `i` of a heap with `m` elements. -/
structure AtNode (t : Cpu A) (v base : Word) (m i : ℕ) (f : ℕ → Word) : Prop where
  rdi : t.reg .rdi = v
  rsi : t.reg .rsi = .ofNat 64 m
  rbx : t.reg .rbx = base
  rdx : t.reg .rdx = .ofNat 64 i
  r14 : t.reg .r14 = f i
  r11 : t.reg .r11 = .ofNat 64 (2 * i + 1)
  r9 : t.reg .r9 = .ofNat 64 (2 * i + 2)

theorem AtNode.set_r12 (hn : AtNode t v base m i f) (w : Word) :
    AtNode (t.set .r12 w) v base m i f := ⟨hn.1,hn.2,hn.3,hn.4,hn.5,hn.6,hn.7⟩

theorem AtNode.set_r13 (hn : AtNode t v base m i f) (w : Word) :
    AtNode (t.set .r13 w) v base m i f := ⟨hn.1,hn.2,hn.3,hn.4,hn.5,hn.6,hn.7⟩

/-- What `heapify` and its parts leave: stack and elements are as before, but the first `m`
elements are those that `key'` says, in another order than before. -/
structure Sifted (live : A → Word → ℕ → Prop) (t u : Cpu A) (v base : Word) (cap n m : ℕ)
    (f : ℕ → Word) (key' : ℕ → ℤ) : Prop where
  stack : u.stack = t.stack
  rbp : u.rbp = t.rbp
  elements : ∃ g, IsVector live v u base cap n g ∧ Shuffled f g m ∧ key g = key'

/-- What `comp` relies on when it calls `heapify` for the child `c`. -/
def Sifts (live : A → Word → ℕ → Prop) (rec : M A Unit) (v base : Word) (cap n m c : ℕ) : Prop :=
  ∀ t f, IsVector live v t base cap n f → t.reg .rdi = v → t.reg .rsi = .ofNat 64 m →
    t.reg .rdx = .ofNat 64 c →
    Total rec t fun _ u => Sifted live t u v base cap n m f (siftDown (key f) m c)

/-- The best child is the one that `comp` is given. -/
theorem comp_spec {rec : M A Unit} {child value : Reg} (hrec : Sifts live rec v base cap n m j)
    (h₁ : IsVector live v t base cap n f) (hn : AtNode t v base m i f)
    (hchild : t.reg child = .ofNat 64 j) (hvalue : t.reg value = f j) (hj : j < m)
    (hm : m ≤ cap) (hbest : bestChild (key f) m i = j) :
    Total (comp rec child value) t fun _ u =>
      Sifted live t u v base cap n m f (siftDown (key f) m i) := by
  have hbase := h₁.base_ne (by omega)
  have hij : i < j := hbest ▸ lt_bestChild (key f) m i
  simp only [comp,post_bind,post_reg,hn.r14,hvalue]
  by_cases hle : (f j).sle (f i) = true
  · rw [if_pos hle]
    have hstop : ¬ (bestChild (key f) m i < m ∧ key f i < key f (bestChild (key f) m i)) := by
      rw [hbest]
      exact fun hc => not_lt.mpr (of_decide_eq_true hle) hc.2
    exact ⟨rfl,rfl,f,h₁,.refl f m,by rw [siftDown,if_neg hstop]⟩
  · rw [if_neg hle]
    have hlt : key f i < key f j := not_le.mp fun hc => hle (decide_eq_true hc)
    have hswap := h₁.exchange (by omega : i < cap) (by omega : j < cap)
    simp only [post_bind,post_reg,post_mov,hn.rbx,hn.rdx,hvalue]
    refine Iff.mpr (post_store hbase (h₁.cells i (by omega))) ?_
    simp only [write_reg,hn.rbx,hn.r14,hchild]
    have hcells := (h₁.writeCell (by omega : i < cap) (f j)).cells
    refine Iff.mpr (post_store hbase (hcells j (by omega))) ?_
    simp only [write_reg,hchild]
    refine Post.imp (hrec _ _ (hswap.congr rfl rfl) hn.rdi hn.rsi ?_) fun _ u hu => ?_
    · simp only [set_reg,↓reduceIte]
    · obtain ⟨hstack,hrbp,g,hg,hshuffled,hdown⟩ := hu
      refine ⟨hstack,hrbp,g,hg,(shuffled_swap f (by omega) hj).trans hshuffled,?_⟩
      rw [siftDown,hbest,if_pos ⟨hj,hlt⟩,Equiv.swap_comm]
      exact hdown

theorem choose_spec {rec : M A Unit} (hrec : ∀ c, i < c → c < m → Sifts live rec v base cap n m c)
    (h₁ : IsVector live v t base cap n f) (hn : AtNode t v base m i f) (hi : i < cap)
    (hm : m ≤ cap) :
    Total (choose rec) t fun _ u => Sifted live t u v base cap n m f (siftDown (key f) m i) := by
  have hsmall := h₁.small
  have hbase := h₁.base_ne (by omega)
  simp only [choose,post_bind,post_reg,hn.rsi,hn.r11]
  rw [sle_ofNat (by omega) (by omega)]
  by_cases hleft : 2 * i + 1 < m
  · rw [if_neg (by simpa using hleft)]
    have hrleft := hrec _ (by omega) hleft
    simp only [post_bind,post_reg,hn.rsi,hn.r9]
    rw [sle_ofNat (by omega) (by omega)]
    by_cases hright : 2 * i + 2 < m
    · rw [if_neg (by simpa using hright)]
      have hrright := hrec _ (by omega) hright
      simp only [post_bind,post_reg,post_mov,hn.rbx,hn.r9]
      refine Iff.mpr (post_load hbase (h₁.cells _ (by omega : 2 * i + 2 < cap))) ?_
      simp only [set_reg,reduceCtorEq,↓reduceIte,hn.rbx,hn.r11]
      refine Iff.mpr (post_load hbase (h₁.cells _ (by omega : 2 * i + 1 < cap))) ?_
      simp only [set_reg,↓reduceIte]
      have hnode := (hn.set_r12 (f (2 * i + 2))).set_r13 (f (2 * i + 1))
      by_cases hlt : (f (2 * i + 1)).slt (f (2 * i + 2)) = true
      · rw [if_pos hlt]
        have hbest : bestChild (key f) m i = 2 * i + 2 := by
          rw [bestChild,if_pos ⟨hright,of_decide_eq_true hlt⟩]
        exact Post.imp (comp_spec hrright (h₁.congr rfl rfl) hnode hnode.r9 rfl hright hm hbest)
          fun _ u hu => ⟨hu.stack,hu.rbp,hu.elements⟩
      · rw [if_neg hlt]
        have hbest : bestChild (key f) m i = 2 * i + 1 := by
          rw [bestChild,if_neg fun hc => hlt (decide_eq_true hc.2)]
        exact Post.imp (comp_spec hrleft (h₁.congr rfl rfl) hnode hnode.r11 rfl hleft hm hbest)
          fun _ u hu => ⟨hu.stack,hu.rbp,hu.elements⟩
    · rw [if_pos (by simpa using hright)]
      simp only [only_left,post_bind,post_reg,post_mov,hn.rbx,hn.r11]
      refine Iff.mpr (post_load hbase (h₁.cells _ (by omega : 2 * i + 1 < cap))) ?_
      have hnode := hn.set_r13 (f (2 * i + 1))
      have hbest : bestChild (key f) m i = 2 * i + 1 := by rw [bestChild,if_neg fun hc => hright hc.1]
      exact Post.imp (comp_spec hrleft (h₁.congr rfl rfl) hnode hnode.r11 rfl hleft hm hbest)
        fun _ u hu => ⟨hu.stack,hu.rbp,hu.elements⟩
  · rw [if_pos (by simpa using hleft)]
    have hstop : ¬ (bestChild (key f) m i < m ∧ key f i < key f (bestChild (key f) m i)) := by
      rw [bestChild]
      split <;> omega
    exact ⟨rfl,rfl,f,h₁,.refl f m,by rw [siftDown,if_neg hstop]⟩

/-- `heapify` ends, and has moved its element down. -/
theorem heapify_spec (h₁ : IsVector live v s base cap n f) (hrdi : s.reg .rdi = v)
    (hrsi : s.reg .rsi = .ofNat 64 m) (hrdx : s.reg .rdx = .ofNat 64 i) (hi : i < cap) (hm : m ≤ cap)
    (hfuel : m < fuel + i) (hpos : 0 < fuel) :
    Total (heapify fuel) s fun _ u => Keeps s u ∧
      Sifted live s u v base cap n m f (siftDown (key f) m i) := by
  induction fuel generalizing s f i with
  | zero => omega
  | succ fuel ih =>
    have hbase := h₁.base_ne (by omega)
    refine post_function ?_
    simp only [post_bind,post_push,post_reg,post_mov,entered_reg,onStack_reg,onStack_stack,hrdi,hrsi,
      hrdx]
    refine Iff.mpr (post_load h₁.pointer h₁.address) ?_
    simp only [set_reg,onStack_reg,entered_reg,reduceCtorEq,↓reduceIte,hrdx]
    refine Iff.mpr (post_load hbase (h₁.cells i hi)) ?_
    simp only [set_reg,onStack_reg,entered_reg,reduceCtorEq,↓reduceIte,hrdx,ofNat_double]
    generalize hq : Cpu.set _ Reg.r11 _ = q
    have hvec : IsVector live v q base cap n f := h₁.congr (by rw [← hq]; rfl) (by rw [← hq]; rfl)
    have hstack : q.stack = .word (.ofNat 64 i)::.word (.ofNat 64 m)::.word v::s.entered.stack := by
      rw [← hq]
      rfl
    have hrbp : q.rbp = s.entered.rbp := by rw [← hq]; rfl
    have hnode : AtNode q v base m i f := by
      rw [← hq]
      exact ⟨hrdi,hrsi,rfl,hrdx,rfl,ofNat_succ _,ofNat_add_two _⟩
    have hrec : ∀ c, i < c → c < m → Sifts live (heapify fuel) v base cap n m c := by
      intro c hic hcm t f' hvec' hrdi' hrsi' hrdx'
      exact (ih hvec' hrdi' hrsi' hrdx' (by omega) (by omega) (by omega)).imp fun _ u hu => hu.2
    refine (choose_spec hrec hvec hnode hi hm).imp fun _ u hu => ?_
    refine Iff.mpr (post_pop (hu.stack.trans hstack)) ?_
    refine Iff.mpr (post_pop rfl) ?_
    refine Iff.mpr (post_pop rfl) ?_
    obtain ⟨g,hg,hshuffled,hdown⟩ := hu.elements
    refine ⟨rfl,hu.rbp.trans hrbp,keeps_left ?_,rfl,rfl,g,hg.congr rfl rfl,hshuffled,hdown⟩
    simp only [set_reg,↓reduceIte,hrdi]

theorem size_h_spec (h₁ : IsVector live v s base cap n f) (hv : s.reg .rdi = v) :
    Total size_h s fun _ u => Keeps s u ∧ u.reg .rax = .ofNat 64 n ∧
      IsVector live v u base cap n f := by
  refine post_function ?_
  simp only [post_bind,post_push,entered_reg,hv]
  refine Post.imp (size_v_spec (h₁.congr rfl rfl) hv) fun _ u hu => ?_
  obtain ⟨hkeep,hrax,hvec⟩ := hu
  refine Iff.mpr (post_pop hkeep.stack) ?_
  refine ⟨rfl,hkeep.rbp,keeps_left ?_,?_,hvec.congr rfl rfl⟩
  · simp only [set_reg,↓reduceIte,hv]
  · rw [left_reg,if_neg (by decide)]
    simp only [set_reg,onStack_reg,reduceCtorEq,↓reduceIte,hrax]

theorem init_h_spec (hv : s.reg .rdi = v) (hne : v ≠ 0) (h₁ : (s.mem v).isSome = true)
    (h₂ : (s.mem (v + 8)).isSome = true) (h₃ : (s.mem (v + 16)).isSome = true) :
    Total init_h s fun _ u => ∀ live, IsVector live v u 0 0 0 fun _ => 0 := by
  refine post_function ?_
  simp only [post_bind,post_push,entered_reg,hv]
  refine Post.imp (init_v_spec hv hne h₁ h₂ h₃) fun _ u hu => ?_
  obtain ⟨hkeep,hvec⟩ := hu
  refine Iff.mpr (post_pop hkeep.stack) ?_
  exact ⟨rfl,hkeep.rbp,fun live => (hvec live).congr rfl rfl⟩

theorem get_max_spec (h₁ : IsVector live v s base cap n f) (hv : s.reg .rdi = v) (hn : 0 < n) :
    Total get_max s fun _ u => u.reg .rax = f 0 := by
  have hsized := h₁.sized
  have hbase := h₁.base_ne (by omega)
  refine post_function ?_
  simp only [post_bind,post_push,post_reg,post_mov,entered_reg,onStack_reg,hv]
  refine Iff.mpr (post_load h₁.pointer h₁.address) ?_
  simp only [set_reg,↓reduceIte]
  refine Iff.mpr (post_load hbase (h₁.cells 0 (by omega))) ?_
  refine Iff.mpr (post_pop rfl) ?_
  refine ⟨rfl,rfl,?_⟩
  rw [left_reg,if_neg (by decide)]
  simp only [set_reg,onStack_reg,reduceCtorEq,↓reduceIte]

theorem pop_max_spec (h₁ : IsVector live v s base cap (n + 1) f) (hv : s.reg .rdi = v) :
    Total pop_max s fun _ u => u.reg .rax = f 0 ∧ ∃ g, IsVector live v u base cap n g ∧
      Shuffled (f ∘ Equiv.swap n 0) g n ∧ key g = siftDown (key f ∘ Equiv.swap n 0) n 0 := by
  have hsmall := h₁.small
  have hsized := h₁.sized
  have hbase := h₁.base_ne (by omega)
  refine post_function ?_
  simp only [post_bind,post_push,entered_reg,hv]
  refine Post.imp (size_h_spec (h₁.congr rfl rfl) hv) fun _ t ht => ?_
  obtain ⟨hkeep,hrax,hvec⟩ := ht
  refine Iff.mpr (post_pop hkeep.stack) ?_
  simp only [post_reg,post_mov,set_reg,onStack_reg,reduceCtorEq,↓reduceIte,hrax,ofNat_pred]
  refine Iff.mpr (post_load h₁.pointer hvec.address) ?_
  simp only [set_reg,↓reduceIte]
  refine Iff.mpr (post_load hbase (hvec.cells n (by omega))) ?_
  simp only [set_reg,↓reduceIte]
  refine Iff.mpr (post_load hbase (hvec.cells 0 (by omega))) ?_
  simp only [set_reg,reduceCtorEq,↓reduceIte]
  refine Iff.mpr (post_store hbase (hvec.cells n (by omega))) ?_
  simp only [write_reg,set_reg,reduceCtorEq,↓reduceIte]
  have hcells := (hvec.writeCell (by omega : n < cap) (f 0)).cells
  refine Iff.mpr (post_store hbase (hcells 0 (by omega))) ?_
  simp only [write_reg,set_reg,reduceCtorEq,↓reduceIte]
  have hlen : (BitVec.ofNat 64 n).toNat = n := by
    rw [BitVec.toNat_ofNat,Nat.mod_eq_of_lt (by omega)]
  rw [hlen]
  generalize hq : Cpu.set _ Reg.rdx _ = q
  have hswap : IsVector live v q base cap (n + 1) (f ∘ Equiv.swap n 0) :=
    (hvec.exchange (by omega : n < cap) (by omega : 0 < cap)).congr (by rw [← hq]; rfl)
      (by rw [← hq]; rfl)
  have hstack : q.stack = s.entered.stack := by rw [← hq]; rfl
  have hrbp : q.rbp = s.entered.rbp := by rw [← hq]; exact hkeep.rbp
  have hrdi : q.reg .rdi = v := by rw [← hq]; rfl
  refine Post.imp (heapify_spec (i := 0) hswap hrdi (by rw [← hq]; rfl) (by rw [← hq]; rfl) (by omega)
    (by omega) (by omega) (by omega)) fun _ t' ht' => ?_
  obtain ⟨hkeep',-,-,g,hg,hshuffled,hdown⟩ := ht'
  have hrdi' : t'.reg .rdi = v := (hkeep'.reg _ (by decide) (by decide)).trans hrdi
  refine Post.imp (pop_v_spec hg hrdi') fun _ u hu => ?_
  obtain ⟨hkeep'',hrax',hu⟩ := hu
  refine ⟨hkeep''.stack.trans (hkeep'.stack.trans hstack),
    hkeep''.rbp.trans (hkeep'.rbp.trans hrbp),?_,g,hu.congr rfl rfl,hshuffled,hdown⟩
  rw [left_reg,if_neg (by decide),hrax',hshuffled.rest le_rfl,Function.comp_apply,
    Equiv.swap_apply_left]

end ResumePointers.Asm
