import ResumePointers.Asm.Machine

/-! The vector of `assembly/vector.asm`: capacity, size and base address of its elements are the
three cells from the address in `rdi` on. -/
namespace ResumePointers.Asm

variable {A : Type}

def init_v : M A Unit := function do
  store (← reg .rdi) 0 0
  store (← reg .rdi) 8 0
  store (← reg .rdi) 16 0

def resize_v (realloc : Cpu A → Cpu A) : M A Unit := function do
  push .rdi
  push .rsi
  mov .rdi (← load (← reg .rdi) 16)
  mov .rsi ((← reg .rsi) * 8)
  modify realloc
  pop .rsi
  pop .rdi
  store (← reg .rdi) 16 (← reg .rax)
  store (← reg .rdi) 0 (← reg .rsi)

/-- The part of `push_v` that the jump to `pushing` skips. -/
def grow (realloc : Cpu A → Cpu A) : M A Unit := do
  push .rdi
  push .rsi
  mov .r8 ((← reg .r8) * 2)
  mov .r8 ((← reg .r8) + 1)
  mov .rsi (← reg .r8)
  resize_v realloc
  pop .rsi
  pop .rdi

/-- `push_v` from `pushing` on. -/
def pushing : M A Unit := do
  mov .r10 (← load (← reg .rdi) 16)
  mov .r9 (← load (← reg .rdi) 8)
  store (← reg .r10) ((← reg .r9) * 8) (← reg .rsi)
  mov .r9 ((← reg .r9) + 1)
  store (← reg .rdi) 8 (← reg .r9)
  pop .rsi
  pop .rdi

def push_v (realloc : Cpu A → Cpu A) : M A Unit := function do
  push .rdi
  push .rsi
  mov .r8 (← load (← reg .rdi) 0)
  mov .r9 (← load (← reg .rdi) 8)
  if (← reg .r9).slt (← reg .r8) then pushing
  else do
    grow realloc
    pushing

def pop_v : M A Unit := function do
  push .rdi
  mov .r8 (← load (← reg .rdi) 8)
  mov .r8 ((← reg .r8) - 1)
  mov .rdi (← load (← reg .rdi) 16)
  mov .rax (← load (← reg .rdi) ((← reg .r8) * 8))
  pop .rdi
  store (← reg .rdi) 8 (← reg .r8)

def size_v : M A Unit := function do
  push .rdi
  mov .rax (← load (← reg .rdi) 8)
  pop .rdi

/-- The address of an element. -/
def slot (base : Word) (i : ℕ) : Word := base + .ofNat 64 i * 8

/-- A block of the allocator that `realloc` may be called with: the null pointer or a live block
whose cells are allocated. -/
def IsBlock (live : A → Word → ℕ → Prop) (s : Cpu A) (base : Word) (cap : ℕ) : Prop :=
  base = 0 ∧ cap = 0 ∨
    base ≠ 0 ∧ live s.alloc base cap ∧ ∀ i < cap, (s.mem (slot base i)).isSome = true

/-- What `realloc` leaves when it returns a block of `c` cells for one of `cap` cells. -/
structure Reallocated (live : A → Word → ℕ → Prop) (s t : Cpu A) (base : Word) (cap c : ℕ) :
    Prop where
  live : live t.alloc (t.reg .rax) c
  -- no object has more than PTRDIFF_MAX bytes
  small : 8 * c < 2 ^ 63
  kept : ∀ i < cap, i < c → t.mem (slot (t.reg .rax) i) = s.mem (slot base i)
  cells : ∀ i < c, (t.mem (slot (t.reg .rax) i)).isSome = true
  fresh : ∀ i < c, s.mem (slot (t.reg .rax) i) = none ∨
    ∃ j < cap, slot (t.reg .rax) i = slot base j
  frame : ∀ a, (∀ j < cap, a ≠ slot base j) → (∀ i < c, a ≠ slot (t.reg .rax) i) →
    t.mem a = s.mem a

/-- `realloc`, called with a block in `rdi` and a number of bytes in `rsi`, returns the null pointer
and leaves the memory as it is, or it returns a block with the same contents. -/
structure IsRealloc (realloc : Cpu A → Cpu A) (live : A → Word → ℕ → Prop) : Prop where
  stack : ∀ s, (realloc s).stack = s.stack
  rbp : ∀ s, (realloc s).rbp = s.rbp
  block : ∀ s cap c, IsBlock live s (s.reg .rdi) cap → s.reg .rsi = .ofNat 64 c * 8 → 0 < c →
    8 * c < 2 ^ 64 → (realloc s).reg .rax = 0 ∧ (realloc s).mem = s.mem ∨
      (realloc s).reg .rax ≠ 0 ∧ Reallocated live s (realloc s) (s.reg .rdi) cap c

/-- `q` is `s` with other registers, the arguments of `realloc` in theirs. -/
structure Asked (s q : Cpu A) (base bytes : Word) : Prop where
  mem : q.mem = s.mem
  alloc : q.alloc = s.alloc
  rdi : q.reg .rdi = base
  rsi : q.reg .rsi = bytes

/-- The vector at `v` has `n` elements, the first ones of `f`, and room for `cap`. -/
structure IsVector (live : A → Word → ℕ → Prop) (v : Word) (s : Cpu A) (base : Word) (cap n : ℕ)
    (f : ℕ → Word) : Prop where
  pointer : v ≠ 0
  capacity : s.mem v = some (.ofNat 64 cap)
  size : s.mem (v + 8) = some (.ofNat 64 n)
  address : s.mem (v + 16) = some base
  block : IsBlock live s base cap
  small : 8 * cap < 2 ^ 63
  sized : n ≤ cap
  cells : ∀ i < cap, s.mem (slot base i) = some (f i)
  apart : ∀ i < cap, slot base i ≠ v ∧ slot base i ≠ v + 8 ∧ slot base i ≠ v + 16

variable {realloc : Cpu A → Cpu A} {live : A → Word → ℕ → Prop} {s t u : Cpu A} {v base w : Word}
  {cap c n m i j : ℕ} {f : ℕ → Word} {E : Fault → Cpu A → Prop}

theorem slot_inj (hi : 8 * i < 2 ^ 63) (hj : 8 * j < 2 ^ 63) : slot base i = slot base j ↔ i = j := by
  constructor
  · intro h
    have h' := congrArg BitVec.toNat (add_left_cancel h)
    have height : (8 : Word).toNat = 8 := rfl
    rw [BitVec.toNat_mul,BitVec.toNat_mul,height,BitVec.toNat_ofNat,BitVec.toNat_ofNat] at h'
    omega
  · rintro rfl
    rfl

/-- Signed comparison of small numbers. -/
theorem slt_ofNat (hm : m < 2 ^ 63) (hn : n < 2 ^ 63) :
    (BitVec.ofNat 64 m).slt (.ofNat 64 n) = decide (m < n) := by
  rw [BitVec.slt,BitVec.toInt_eq_toNat_of_lt,BitVec.toInt_eq_toNat_of_lt]
  · simp only [BitVec.toNat_ofNat]
    rw [Nat.mod_eq_of_lt (by omega),Nat.mod_eq_of_lt (by omega)]
    simp
  all_goals
    simp only [BitVec.toNat_ofNat]
    omega

namespace IsVector

/-- Registers and stack have no part in a vector. -/
theorem congr (h : IsVector live v s base cap n f) (hm : t.mem = s.mem) (ha : t.alloc = s.alloc) :
    IsVector live v t base cap n f := by
  obtain ⟨h₁,h₂,h₃,h₄,h₅,h₆,h₇,h₈,h₉⟩ := h
  refine ⟨h₁,hm ▸ h₂,hm ▸ h₃,hm ▸ h₄,?_,h₆,h₇,hm ▸ h₈,h₉⟩
  rw [IsBlock,hm,ha]
  exact h₅

theorem base_ne (h : IsVector live v s base cap n f) (hcap : 0 < cap) : base ≠ 0 := by
  obtain ⟨-,hzero⟩ | ⟨hne,-⟩ := h.block
  · omega
  · exact hne

theorem writeSize (h : IsVector live v s base cap n f) (hm : m ≤ cap) :
    IsVector live v (s.write (v + 8) (.ofNat 64 m)) base cap m f where
  pointer := h.pointer
  capacity := by rw [write_mem,if_neg (by bv_omega)]; exact h.capacity
  size := by rw [write_mem,if_pos rfl]
  address := by rw [write_mem,if_neg (by bv_omega)]; exact h.address
  block := by
    refine h.block.imp_right fun hb => ⟨hb.1,hb.2.1,fun i hi => ?_⟩
    rw [write_mem,if_neg (h.apart i hi).2.1]
    exact hb.2.2 i hi
  small := h.small
  sized := hm
  cells i hi := by rw [write_mem,if_neg (h.apart i hi).2.1]; exact h.cells i hi
  apart := h.apart

theorem writeCell (h : IsVector live v s base cap n f) (hi : i < cap) (w : Word) :
    IsVector live v (s.write (slot base i) w) base cap n (Function.update f i w) where
  pointer := h.pointer
  capacity := by rw [write_mem,if_neg (h.apart i hi).1.symm]; exact h.capacity
  size := by rw [write_mem,if_neg (h.apart i hi).2.1.symm]; exact h.size
  address := by rw [write_mem,if_neg (h.apart i hi).2.2.symm]; exact h.address
  block := by
    refine h.block.imp_right fun hb => ⟨hb.1,hb.2.1,fun j hj => ?_⟩
    rw [write_mem]
    split
    · rfl
    · exact hb.2.2 j hj
  small := h.small
  sized := h.sized
  cells j hj := by
    have hsmall := h.small
    simp only [write_mem,slot_inj (show 8 * j < 2 ^ 63 by omega) (show 8 * i < 2 ^ 63 by omega),
      Function.update_apply]
    split
    · rfl
    · exact h.cells j hj
  apart := h.apart

end IsVector

theorem init_v_spec (hv : s.reg .rdi = v) (hne : v ≠ 0) (h₁ : (s.mem v).isSome = true)
    (h₂ : (s.mem (v + 8)).isSome = true) (h₃ : (s.mem (v + 16)).isSome = true) :
    Total init_v s fun _ u => Keeps s u ∧ ∀ live, IsVector live v u 0 0 0 fun _ => 0 := by
  obtain ⟨w₁,h₁⟩ := Option.isSome_iff_exists.mp h₁
  obtain ⟨w₂,h₂⟩ := Option.isSome_iff_exists.mp h₂
  obtain ⟨w₃,h₃⟩ := Option.isSome_iff_exists.mp h₃
  have h₈ : v ≠ v + 8 := by bv_omega
  have h₁₆ : v ≠ v + 16 := by bv_omega
  have h₂₄ : v + 8 ≠ v + 16 := by bv_omega
  refine post_function ?_
  simp only [post_bind,post_reg,entered_reg,hv]
  refine Iff.mpr (post_store hne (w := w₁) (by rw [add_zero]; exact h₁)) ?_
  simp only [write_reg,entered_reg,hv,add_zero]
  refine Iff.mpr (post_store hne (w := w₂) (by rw [write_mem,if_neg h₈.symm]; exact h₂)) ?_
  simp only [write_reg,entered_reg,hv]
  refine Iff.mpr (post_store hne (w := w₃) (by
    rw [write_mem,if_neg h₂₄.symm,write_mem,if_neg h₁₆.symm]; exact h₃)) ?_
  refine ⟨rfl,rfl,keeps_left rfl,fun live => ?_⟩
  exact {
    pointer := hne
    capacity := by
      rw [left_mem,write_mem,if_neg h₁₆,write_mem,if_neg h₈,write_mem,if_pos rfl]
      rfl
    size := by
      rw [left_mem,write_mem,if_neg h₂₄,write_mem,if_pos rfl]
      rfl
    address := by rw [left_mem,write_mem,if_pos rfl]
    block := .inl ⟨rfl,rfl⟩
    small := by norm_num
    sized := le_rfl
    cells := by simp
    apart := by simp }

/-- A block that `realloc` returns does not reach the three cells of the vector. -/
theorem Reallocated.apart (hre : Reallocated live s t base cap c)
    (h : IsVector live v s base cap n f) {a : Word} (ha : a = v ∨ a = v + 8 ∨ a = v + 16) :
    (∀ i < c, slot (t.reg .rax) i ≠ a) ∧ t.mem a = s.mem a := by
  have hcell : ∃ w, s.mem a = some w := by
    obtain rfl | rfl | rfl := ha
    · exact ⟨_,h.capacity⟩
    · exact ⟨_,h.size⟩
    · exact ⟨_,h.address⟩
  have hold : ∀ j < cap, a ≠ slot base j := by
    intro j hj he
    obtain ⟨h₁,h₂,h₃⟩ := h.apart j hj
    obtain rfl | rfl | rfl := ha
    · exact h₁ he.symm
    · exact h₂ he.symm
    · exact h₃ he.symm
  have hnew : ∀ i < c, slot (t.reg .rax) i ≠ a := by
    rintro i hi rfl
    obtain hnone | ⟨j,hj,he⟩ := hre.fresh i hi
    · obtain ⟨w,hw⟩ := hcell
      rw [hnone] at hw
      cases hw
    · exact hold j hj he
  exact ⟨hnew,hre.frame a hold fun i hi he => hnew i hi he.symm⟩

/-- The vector after a growth, once its capacity and its base address are written. -/
theorem Reallocated.isVector (hre : Reallocated live s t base cap c)
    (h : IsVector live v s base cap n f) (hcap : cap ≤ c) (hne : t.reg .rax ≠ 0) :
    ∃ f', IsVector live v ((t.write (v + 16) (t.reg .rax)).write v (.ofNat 64 c)) (t.reg .rax) c n f' ∧
      ∀ i < cap, f' i = f i := by
  have h₈ : v + 8 ≠ v := by bv_omega
  have h₁₆ : v + 16 ≠ v := by bv_omega
  have h₂₄ : v + 8 ≠ v + 16 := by bv_omega
  have hcell : ∀ i < c, ((t.write (v + 16) (t.reg .rax)).write v (.ofNat 64 c)).mem
      (slot (t.reg .rax) i) = t.mem (slot (t.reg .rax) i) := by
    intro i hi
    rw [write_mem,if_neg ((hre.apart h (.inl rfl)).1 i hi),write_mem,
      if_neg ((hre.apart h (.inr (.inr rfl))).1 i hi)]
  refine ⟨fun i => (t.mem (slot (t.reg .rax) i)).getD 0,?_,fun i hi => ?_⟩
  · exact {
      pointer := h.pointer
      capacity := by rw [write_mem,if_pos rfl]
      size := by
        rw [write_mem,if_neg h₈,write_mem,if_neg h₂₄,(hre.apart h (.inr (.inl rfl))).2]
        exact h.size
      address := by rw [write_mem,if_neg h₁₆,write_mem,if_pos rfl]
      block := .inr ⟨hne,hre.live,fun i hi => by rw [hcell i hi]; exact hre.cells i hi⟩
      small := hre.small
      sized := h.sized.trans hcap
      cells := fun i hi => by
        obtain ⟨w,hw⟩ := Option.isSome_iff_exists.mp (hre.cells i hi)
        rw [hcell i hi,hw]
        rfl
      apart := fun i hi => ⟨(hre.apart h (.inl rfl)).1 i hi,(hre.apart h (.inr (.inl rfl))).1 i hi,
        (hre.apart h (.inr (.inr rfl))).1 i hi⟩ }
  · dsimp only
    rw [hre.kept i hi (by omega),h.cells i hi]
    rfl

/-- `resize_v` stores what `realloc` returns, and the capacity that it was called with. -/
theorem resize_v_call (hr : IsRealloc realloc live) (hv : s.reg .rdi = v) (hne : v ≠ 0)
    (haddr : s.mem (v + 16) = some base)
    (hcells : ∀ q, Asked s q base (s.reg .rsi * 8) →
      ((realloc q).mem v).isSome = true ∧ ((realloc q).mem (v + 16)).isSome = true) :
    Total (resize_v realloc) s fun _ u => Keeps s u ∧ ∃ q, Asked s q base (s.reg .rsi * 8) ∧
      u.alloc = (realloc q).alloc ∧
      u.mem = (((realloc q).write (v + 16) ((realloc q).reg .rax)).write v (s.reg .rsi)).mem := by
  have h₁₆ : v ≠ v + 16 := by bv_omega
  refine post_function ?_
  simp only [post_bind,post_push,post_reg,post_mov,entered_reg,onStack_reg,onStack_stack,hv]
  refine Iff.mpr (post_load hne haddr) ?_
  simp only [set_reg,onStack_reg,entered_reg,reduceCtorEq,↓reduceIte,post_modify]
  generalize hcall : Cpu.set _ Reg.rsi _ = q
  have hasked : Asked s q base (s.reg .rsi * 8) := by
    rw [← hcall]
    exact ⟨rfl,rfl,rfl,rfl⟩
  have hstack : q.stack = .word (s.reg .rsi)::.word v::s.entered.stack := by rw [← hcall]; rfl
  have hrbp : (realloc q).rbp = s.entered.rbp := (hr.rbp q).trans (by rw [← hcall]; rfl)
  obtain ⟨hcap,hptr⟩ := hcells q hasked
  obtain ⟨w,hcap⟩ := Option.isSome_iff_exists.mp hcap
  obtain ⟨w',hptr⟩ := Option.isSome_iff_exists.mp hptr
  refine Iff.mpr (post_pop ((hr.stack q).trans hstack)) ?_
  refine Iff.mpr (post_pop rfl) ?_
  simp only [set_reg,onStack_reg,reduceCtorEq,↓reduceIte]
  refine Iff.mpr (post_store hne hptr) ?_
  simp only [write_reg,set_reg,onStack_reg,reduceCtorEq,↓reduceIte]
  refine Iff.mpr (post_store hne (w := w) (by
    rw [write_mem,add_zero,if_neg h₁₆]
    exact hcap)) ?_
  refine ⟨rfl,hrbp,keeps_left ?_,q,hasked,rfl,?_⟩
  · simp only [write_reg,set_reg,↓reduceIte,hv]
  · rw [add_zero]
    rfl

theorem IsVector.of_asked (h : IsVector live v s base cap n f) {bytes : Word}
    (hq : Asked s t base bytes) : IsVector live v t base cap n f :=
  h.congr hq.mem hq.alloc

/-- The cells of a vector after `realloc` has been called for its block. -/
theorem IsVector.fields (h : IsVector live v s base cap n f) (hr : IsRealloc realloc live)
    (hq : Asked s t base (.ofNat 64 c * 8)) (hpos : 0 < c) (hsmall : 8 * c < 2 ^ 64) {a : Word}
    (ha : a = v ∨ a = v + 8 ∨ a = v + 16) : (realloc t).mem a = s.mem a := by
  obtain ⟨-,hmem⟩ | ⟨-,hre⟩ := hr.block t cap c (hq.rdi ▸ (h.of_asked hq).block) hq.rsi hpos hsmall
  · rw [hmem,hq.mem]
  · rw [hq.rdi] at hre
    rw [(hre.apart (h.of_asked hq) ha).2,hq.mem]

theorem resize_v_spec (hr : IsRealloc realloc live) (h : IsVector live v s base cap n f)
    (hv : s.reg .rdi = v) (hc : s.reg .rsi = .ofNat 64 c) (hcap : cap ≤ c) (hpos : 0 < c)
    (hsmall : 8 * c < 2 ^ 64) :
    Total (resize_v realloc) s fun _ u => Keeps s u ∧ ∃ q, Asked s q base (.ofNat 64 c * 8) ∧
      ((realloc q).reg .rax = 0 ∧ u.mem (v + 8) = some (.ofNat 64 n) ∧ u.mem (v + 16) = some 0 ∨
        (realloc q).reg .rax ≠ 0 ∧ ∃ base' f', base' ≠ 0 ∧ IsVector live v u base' c n f' ∧
          ∀ i < cap, f' i = f i) := by
  have h₈ : v + 8 ≠ v := by bv_omega
  have h₁₆ : v + 16 ≠ v := by bv_omega
  have h₂₄ : v + 8 ≠ v + 16 := by bv_omega
  refine (resize_v_call hr hv h.pointer h.address fun q hq => ?_).imp fun _ u hu => ?_
  · rw [hc] at hq
    rw [h.fields hr hq hpos hsmall (.inl rfl),h.fields hr hq hpos hsmall (.inr (.inr rfl)),h.capacity,
      h.address]
    exact ⟨rfl,rfl⟩
  · obtain ⟨hkeep,q,hq,halloc,hmem⟩ := hu
    rw [hc] at hq hmem
    have hvec := h.of_asked hq
    have hblock := hr.block q cap c (hq.rdi ▸ hvec.block) hq.rsi hpos hsmall
    rw [hq.rdi] at hblock
    refine ⟨hkeep,q,hq,?_⟩
    obtain ⟨hnull,-⟩ | ⟨hne,hre⟩ := hblock
    · left
      rw [hmem,write_mem,if_neg h₈,write_mem,if_neg h₂₄,write_mem,if_neg h₁₆,write_mem,if_pos rfl,
        hnull,h.fields hr hq hpos hsmall (.inr (.inl rfl))]
      exact ⟨rfl,h.size,rfl⟩
    · right
      obtain ⟨f',hf',hold⟩ := hre.isVector hvec hcap hne
      exact ⟨hne,_,f',hne,hf'.congr hmem halloc,hold⟩

theorem ofNat_succ (n : ℕ) : (.ofNat 64 n + 1 : Word) = .ofNat 64 (n + 1) :=
  (BitVec.ofNat_add n 1).symm

theorem ofNat_add_two (n : ℕ) : (.ofNat 64 n + 2 : Word) = .ofNat 64 (n + 2) :=
  (BitVec.ofNat_add n 2).symm

theorem ofNat_double (n : ℕ) : (.ofNat 64 n * 2 : Word) = .ofNat 64 (2 * n) := by
  have htwo : (2 : Word).toNat = 2 := rfl
  refine BitVec.eq_of_toNat_eq ?_
  rw [BitVec.toNat_mul,htwo,BitVec.toNat_ofNat,BitVec.toNat_ofNat]
  omega

theorem ofNat_pred (n : ℕ) : (.ofNat 64 (n + 1) - 1 : Word) = .ofNat 64 n := by
  rw [← ofNat_succ,add_sub_cancel_right]

/-- The state at `pushing`: the two arguments are in their registers and on top of the stack. -/
structure AtPushing (t : Cpu A) (v w : Word) (stack : List Slot) : Prop where
  rdi : t.reg .rdi = v
  rsi : t.reg .rsi = w
  stack : t.stack = .word w::.word v::stack

theorem pushing_spec {stack : List Slot} (hp : AtPushing t v w stack)
    (h : IsVector live v t base cap n f) (hlt : n < cap) :
    Total pushing t fun _ u => u.stack = stack ∧ u.rbp = t.rbp ∧ u.reg .rdi = v ∧
      IsVector live v u base cap (n + 1) (Function.update f n w) := by
  have hbase := h.base_ne (by omega)
  simp only [pushing,post_bind,post_reg,post_mov,hp.rdi]
  refine Iff.mpr (post_load h.pointer h.address) ?_
  simp only [set_reg,reduceCtorEq,↓reduceIte,hp.rdi]
  refine Iff.mpr (post_load h.pointer h.size) ?_
  simp only [set_reg,reduceCtorEq,↓reduceIte,hp.rsi]
  refine Iff.mpr (post_store hbase (h.cells n hlt)) ?_
  have hcell := (h.writeCell hlt w).writeSize (by omega : n + 1 ≤ cap)
  simp only [write_reg,set_reg,reduceCtorEq,↓reduceIte,hp.rdi,ofNat_succ]
  refine Iff.mpr (post_store h.pointer (w := .ofNat 64 n) ?_) ?_
  · rw [set_mem,write_mem]
    exact (if_neg (h.apart n hlt).2.1.symm).trans h.size
  refine Iff.mpr (post_pop hp.stack) ?_
  refine Iff.mpr (post_pop rfl) ?_
  exact ⟨rfl,rfl,by simp only [set_reg,↓reduceIte],hcell.congr rfl rfl⟩

/-- After a failed growth the element cannot be stored. -/
theorem pushing_null {stack : List Slot} (hp : AtPushing t v w stack) (hne : v ≠ 0)
    (hsize : t.mem (v + 8) = some (.ofNat 64 n)) (hnull : t.mem (v + 16) = some 0) {Q : Unit → Cpu A → Prop} :
    Post pushing t Q fun e u => e = .null ∧ u.mem (v + 16) = some 0 := by
  simp only [pushing,post_bind,post_reg,post_mov,hp.rdi]
  refine Iff.mpr (post_load hne hnull) ?_
  simp only [set_reg,reduceCtorEq,↓reduceIte,hp.rdi]
  refine Iff.mpr (post_load hne hsize) ?_
  simp only [set_reg,reduceCtorEq,↓reduceIte]
  exact Iff.mpr post_store_null ⟨rfl,hnull⟩

theorem grow_spec (hr : IsRealloc realloc live) (h : IsVector live v t base n n f)
    {stack : List Slot} (hp : AtPushing t v w stack) (hr8 : t.reg .r8 = .ofNat 64 n) :
    Total (grow realloc) t fun _ u => AtPushing u v w stack ∧ u.rbp = t.rbp ∧
      ∃ q, Asked t q base (.ofNat 64 (2 * n + 1) * 8) ∧
        ((realloc q).reg .rax = 0 ∧ u.mem (v + 8) = some (.ofNat 64 n) ∧ u.mem (v + 16) = some 0 ∨
          (realloc q).reg .rax ≠ 0 ∧ ∃ base' f', IsVector live v u base' (2 * n + 1) n f' ∧
            ∀ i < n, f' i = f i) := by
  have hsmall := h.small
  simp only [grow,post_bind,post_push,post_reg,post_mov,set_reg,onStack_reg,onStack_stack,
    ↓reduceIte,hp.rdi,hp.rsi,hr8,ofNat_double,ofNat_succ]
  generalize hq : Cpu.set _ Reg.rsi _ = q
  have hstack : q.stack = .word w::.word v::t.stack := by rw [← hq]; rfl
  have hrbp : q.rbp = t.rbp := by rw [← hq]; rfl
  have hmem : q.mem = t.mem := by rw [← hq]; rfl
  have halloc : q.alloc = t.alloc := by rw [← hq]; rfl
  have hvec : IsVector live v q base n n f := h.congr hmem halloc
  have hrdi : q.reg .rdi = v := by rw [← hq]; exact hp.rdi
  have hrsi : q.reg .rsi = .ofNat 64 (2 * n + 1) := by rw [← hq]; rfl
  refine (resize_v_spec hr hvec hrdi hrsi (by omega) (by omega) (by omega)).imp fun _ u hu => ?_
  obtain ⟨hkeep,q',hasked,hgrown⟩ := hu
  refine Iff.mpr (post_pop (hkeep.stack.trans hstack)) ?_
  refine Iff.mpr (post_pop rfl) ?_
  refine ⟨⟨by simp only [set_reg,↓reduceIte],by simp only [set_reg,onStack_reg,reduceCtorEq,↓reduceIte],
    hp.stack⟩,hkeep.rbp.trans hrbp,q',?_,?_⟩
  · exact ⟨hasked.mem.trans hmem,hasked.alloc.trans halloc,hasked.rdi,hasked.rsi⟩
  · refine hgrown.imp_right fun h => ?_
    obtain ⟨hne,base',f',_,hvec',hold⟩ := h
    exact ⟨hne,base',f',hvec'.congr rfl rfl,hold⟩

theorem push_v_spec (hr : IsRealloc realloc live) (h : IsVector live v s base cap n f)
    (hv : s.reg .rdi = v) (hw : s.reg .rsi = w) :
    Post (push_v realloc) s (fun _ u => Keeps s u ∧ (∃ base' cap' f',
      IsVector live v u base' cap' (n + 1) f' ∧ (∀ i < n, f' i = f i) ∧ f' n = w) ∧
      (n = cap → ∃ q, Asked s q base (.ofNat 64 (2 * n + 1) * 8) ∧ (realloc q).reg .rax ≠ 0))
      fun e u => (e = .null ∧ u.mem (v + 16) = some 0) ∧ n = cap ∧
        ∃ q, Asked s q base (.ofNat 64 (2 * n + 1) * 8) ∧ (realloc q).reg .rax = 0 := by
  have hsmall := h.small
  have hsized := h.sized
  refine post_function ?_
  simp only [post_bind,post_push,post_reg,post_mov,entered_reg,onStack_reg,onStack_stack,hv,hw]
  refine Iff.mpr (post_load h.pointer (by rw [add_zero]; exact h.capacity)) ?_
  simp only [set_reg,onStack_reg,entered_reg,reduceCtorEq,↓reduceIte,hv]
  refine Iff.mpr (post_load h.pointer h.size) ?_
  simp only [set_reg,↓reduceIte]
  rw [slt_ofNat (by omega) (by omega)]
  generalize hq : Cpu.set _ Reg.r9 _ = q
  have hp : AtPushing q v w s.entered.stack := by
    rw [← hq]
    exact ⟨hv,hw,rfl⟩
  have hrbp : q.rbp = s.entered.rbp := by rw [← hq]; rfl
  have hvec : IsVector live v q base cap n f := h.congr (by rw [← hq]; rfl) (by rw [← hq]; rfl)
  have hnew (f : ℕ → Word) : (∀ i < n, Function.update f n w i = f i) ∧ Function.update f n w n = w :=
    ⟨fun i hi => Function.update_of_ne (by omega) _ _,Function.update_self ..⟩
  by_cases hlt : n < cap
  · rw [if_pos (decide_eq_true hlt)]
    refine (pushing_spec hp hvec hlt).post fun _ u hu => ?_
    obtain ⟨hstack,hrbp',hrdi,hvec'⟩ := hu
    exact ⟨hstack,hrbp'.trans hrbp,keeps_left (hrdi.trans hv.symm),⟨_,_,_,hvec'.congr rfl rfl,hnew f⟩,
      fun hc => absurd hc hlt.ne⟩
  · obtain rfl : n = cap := by omega
    rw [if_neg (by simp)]
    rw [post_bind]
    refine (grow_spec hr hvec hp (by rw [← hq]; rfl)).post fun _ t ht => ?_
    obtain ⟨hp',hrbp',q',hasked,hgrown⟩ := ht
    have hasked' : Asked s q' base (.ofNat 64 (2 * n + 1) * 8) :=
      ⟨hasked.mem.trans (by rw [← hq]; rfl),hasked.alloc.trans (by rw [← hq]; rfl),hasked.rdi,
        hasked.rsi⟩
    obtain ⟨hzero,hsize,hnull⟩ | ⟨hne,base',f',hvec',hold⟩ := hgrown
    · exact (pushing_null hp' h.pointer hsize hnull).mono (fun _ _ hu => hu) fun _ _ he =>
        ⟨he,rfl,q',hasked',hzero⟩
    · refine (pushing_spec hp' hvec' (by omega)).post fun _ u hu => ?_
      obtain ⟨hstack,hrbp'',hrdi,hvec''⟩ := hu
      refine ⟨hstack,hrbp''.trans (hrbp'.trans hrbp),keeps_left (hrdi.trans hv.symm),⟨_,_,_,
        hvec''.congr rfl rfl,fun i hi => ?_,(hnew f').2⟩,fun _ => ⟨q',hasked',hne⟩⟩
      exact ((hnew f').1 i hi).trans (hold i hi)

theorem pop_v_spec (h : IsVector live v s base cap (n + 1) f) (hv : s.reg .rdi = v) :
    Total pop_v s fun _ u => Keeps s u ∧ u.reg .rax = f n ∧ IsVector live v u base cap n f := by
  have hsized := h.sized
  have hbase := h.base_ne (by omega)
  refine post_function ?_
  simp only [post_bind,post_push,post_reg,post_mov,entered_reg,onStack_reg,hv]
  refine Iff.mpr (post_load h.pointer h.size) ?_
  simp only [set_reg,onStack_reg,entered_reg,reduceCtorEq,↓reduceIte,hv,ofNat_pred]
  refine Iff.mpr (post_load h.pointer h.address) ?_
  simp only [set_reg,↓reduceIte]
  refine Iff.mpr (post_load hbase (h.cells n (by omega))) ?_
  refine Iff.mpr (post_pop rfl) ?_
  simp only [set_reg,onStack_reg,reduceCtorEq,↓reduceIte]
  refine Iff.mpr (post_store h.pointer h.size) ?_
  have hcell := h.writeSize (by omega : n ≤ cap)
  refine ⟨rfl,rfl,keeps_left ?_,?_,hcell.congr rfl rfl⟩
  · simp only [write_reg,set_reg,↓reduceIte,hv]
  · rw [left_reg,if_neg (by decide),write_reg]
    simp only [set_reg,onStack_reg,reduceCtorEq,↓reduceIte]

theorem size_v_spec (h : IsVector live v s base cap n f) (hv : s.reg .rdi = v) :
    Total size_v s fun _ u => Keeps s u ∧ u.reg .rax = .ofNat 64 n ∧
      IsVector live v u base cap n f := by
  refine post_function ?_
  simp only [post_bind,post_push,post_reg,post_mov,entered_reg,onStack_reg,hv]
  refine Iff.mpr (post_load h.pointer h.size) ?_
  refine Iff.mpr (post_pop rfl) ?_
  refine ⟨rfl,rfl,keeps_left ?_,?_,h.congr rfl rfl⟩
  · simp only [set_reg,↓reduceIte,hv]
  · rw [left_reg,if_neg (by decide)]
    simp only [set_reg,onStack_reg,reduceCtorEq,↓reduceIte]

end ResumePointers.Asm
