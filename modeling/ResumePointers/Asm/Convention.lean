import ResumePointers.Asm.Heap

/-! The stack of the routines of `assembly/vector.asm` and `assembly/heap.asm`: what a part of a
routine pushes and pops, and the registers that a routine must restore for its caller. -/
namespace ResumePointers.Asm

variable {A : Type}

/-- The body of `delete_v`. Its `jmp exit` depends on no flag, so that the call of `free`,
`pop rdi` and the three stores before `exit` are never reached. -/
def delete_v : M A Unit := function do
  push .rdi
  mov .rbx (← load (← reg .rdi) 16)

def delete_h : M A Unit := function do
  push .rdi
  delete_v
  pop .rdi

/-- The registers that `get_element_v` pushes: all that it pops. -/
def pushedOnly : List Reg := [.rbx,.rcx,.rdx,.r8,.r9,.r10,.r11,.r12,.r13,.r14,.r15]

/-- `get_element_v` between the pushes and the pops. -/
def element_address : M A Unit := do
  push .rdi
  push .rsi
  mov .rdi (← load (← reg .rdi) 16)
  mov .rsi ((← reg .rsi) * 8)
  mov .rsi ((← reg .rsi) + (← reg .rdi))
  mov .rax (← reg .rsi)
  pop .rsi
  pop .rdi

def get_element_v : M A Unit := do
  callBack
  enterFrame
  pushedOnly.forM push
  element_address
  popped.forM pop
  leaveFrame
  ret

def heapsort : M A Unit := function (pure ())

/-- The routines that the two files export. -/
inductive Routine
  | init_v | delete_v | resize_v | get_element_v | push_v | pop_v | size_v
  | init_h | delete_h | size_h | insert_h | get_max | pop_max | heapify | heapsort
deriving DecidableEq

def Routine.code (realloc : Cpu A → Cpu A) : Routine → M A Unit
  | .init_v => Asm.init_v
  | .delete_v => Asm.delete_v
  | .resize_v => Asm.resize_v realloc
  | .get_element_v => Asm.get_element_v
  | .push_v => Asm.push_v realloc
  | .pop_v => Asm.pop_v
  | .size_v => Asm.size_v
  | .init_h => Asm.init_h
  | .delete_h => Asm.delete_h
  | .size_h => Asm.size_h
  | .insert_h => Asm.insert_h realloc
  | .get_max => Asm.get_max
  | .pop_max => Asm.pop_max
  | .heapify => do Asm.heapify ((← reg .rsi).toNat + 1)
  | .heapsort => Asm.heapsort

/-- What a routine restores for its caller. -/
structure Restored (s u : Cpu A) : Prop where
  stack : u.stack = s.stack
  rbp : u.rbp = s.rbp
  rbx : u.reg .rbx = s.reg .rbx
  r12 : u.reg .r12 = s.reg .r12
  r13 : u.reg .r13 = s.reg .r13
  r14 : u.reg .r14 = s.reg .r14
  r15 : u.reg .r15 = s.reg .r15

/-- `a` pushed registers lie above `rest`. -/
def Above (a : ℕ) (s : Cpu A) (rest : List Slot) : Prop :=
  ∃ ws : List Word, ws.length = a ∧ s.stack = ws.map Slot.word ++ rest

/-- With `a` registers on the stack, `m` leaves `b` registers there and what is below them, and never
pops what is no register. -/
def Grade {α : Type} (m : M A α) (a b : ℕ) : Prop :=
  ∀ s rest, Above a s rest →
    Post m s (fun _ t => Above b t rest ∧ t.rbp = s.rbp) fun e _ => e ≠ .stack

/-- `m` leaves the stack as it has found it. -/
class Flat {α : Type} (m : M A α) : Prop where
  post : ∀ s, Post m s (fun _ t => t.stack = s.stack ∧ t.rbp = s.rbp) fun e _ => e ≠ .stack

/-- A call of `m` restores the registers, if it returns. -/
class Restores (m : M A Unit) : Prop where
  post : ∀ s, Post m s (fun _ u => Restored s u) fun e _ => e ≠ .stack

section
variable {α β : Type} {m m' : M A α} {f : α → M A β} {s u : Cpu A} {a b c : ℕ} {x : α} {r : Reg}
  {w base offset : Word} {rest : List Slot} {fuel : ℕ} {Q : Unit → Cpu A → Prop}
  {E : Fault → Cpu A → Prop} {realloc : Cpu A → Cpu A} {live : A → Word → ℕ → Prop}

theorem above_zero : Above 0 s rest ↔ s.stack = rest := by
  constructor
  · rintro ⟨ws,hlen,hs⟩
    obtain rfl := List.eq_nil_of_length_eq_zero hlen
    exact hs
  · intro h
    exact ⟨[],rfl,h⟩

instance : Flat (pure x : M A α) := ⟨fun _ => ⟨rfl,rfl⟩⟩

instance : Flat (reg r : M A Word) := ⟨fun _ => ⟨rfl,rfl⟩⟩

instance : Flat (mov r w : M A Unit) := ⟨fun _ => ⟨rfl,rfl⟩⟩

instance : Flat (throw .fuel : M A α) where
  post _ := by
    rw [post_throw]
    decide

theorem post_load_lost {Q : Word → Cpu A → Prop} (h : ¬ (base ≠ 0 ∧ ∃ w, s.mem (base + offset) = some w))
    (hE : E .null s ∧ E .access s) : Post (load base offset) s Q E := by
  rw [load,post_bind,post_get]
  by_cases hb : base = 0
  · rw [if_pos hb]
    exact hE.1
  · rw [if_neg hb]
    cases hw : s.mem (base + offset) with
    | none => exact hE.2
    | some w => exact absurd ⟨hb,w,hw⟩ h

instance : Flat (load base offset : M A Word) where
  post s := by
    by_cases h : base ≠ 0 ∧ ∃ w, s.mem (base + offset) = some w
    · obtain ⟨hb,w,hw⟩ := h
      exact (post_load hb hw).mpr ⟨rfl,rfl⟩
    · exact post_load_lost h ⟨by decide,by decide⟩

instance : Flat (store base offset w : M A Unit) where
  post s := by
    rw [store,post_bind,post_get]
    by_cases hb : base = 0
    · rw [if_pos hb,post_throw]
      decide
    · rw [if_neg hb]
      cases s.mem (base + offset) with
      | none =>
        rw [post_throw]
        decide
      | some w => exact ⟨rfl,rfl⟩

instance {p : Prop} [Decidable p] [h : Flat m] [h' : Flat m'] : Flat (if p then m else m') where
  post s := by
    split
    · exact h.post s
    · exact h'.post s

theorem flat_bind [h : Flat m] (hf : ∀ x, Flat (f x)) : Flat (m >>= f) where
  post s := by
    rw [post_bind]
    refine (h.post s).imp fun x t ht => ((hf x).post t).imp fun _ u hu => ?_
    exact ⟨hu.1.trans ht.1,hu.2.trans ht.2⟩

theorem grade_of_flat [h : Flat m] : Grade m a a := by
  intro s rest hs
  refine (h.post s).imp fun _ t ht => ⟨?_,ht.2⟩
  rw [Above,ht.1]
  exact hs

theorem grade_bind (h : Grade m a b) (hf : ∀ x, Grade (f x) b c) : Grade (m >>= f) a c := by
  intro s rest hs
  rw [post_bind]
  refine (h s rest hs).imp fun x t ht => (hf x t rest ht.1).imp fun _ u hu => ?_
  exact ⟨hu.1,hu.2.trans ht.2⟩

theorem grade_flat [Flat m] (hf : ∀ x, Grade (f x) a b) : Grade (m >>= f) a b :=
  grade_bind grade_of_flat hf

theorem grade_push {f : Unit → M A β} (hf : Grade (f ()) (a + 1) b) : Grade (push r >>= f) a b := by
  intro s rest hs
  obtain ⟨ws,rfl,hs⟩ := hs
  refine hf _ rest ⟨s.reg r::ws,rfl,?_⟩
  rw [onStack_stack,hs,List.map_cons,List.cons_append]

theorem grade_pop : Grade (pop r : M A Unit) (a + 1) a := by
  intro s rest hs
  obtain ⟨ws,hlen,hs⟩ := hs
  obtain ⟨w,ws,rfl⟩ := List.exists_cons_of_length_eq_add_one hlen
  exact Iff.mpr (post_pop hs) ⟨⟨ws,Nat.succ_injective hlen,rfl⟩,rfl⟩

/-- A call whose body leaves the stack as it has found it restores the registers, if it returns. -/
theorem restores_function {body : M A Unit} (h : Grade body 0 0) : Restores (function body) where
  post s := by
    refine post_function ((h s.entered _ (above_zero.mpr rfl)).imp fun _ t ht => ?_)
    obtain ⟨hstack,hrbp⟩ := ht
    exact ⟨above_zero.mp hstack,hrbp,rfl,rfl,rfl,rfl,rfl,rfl,rfl⟩

instance {m : M A Unit} [h : Restores m] : Flat m :=
  ⟨fun s => (h.post s).imp fun _ _ hu => ⟨hu.stack,hu.rbp⟩⟩

/-- What the pops of `delete_v` leave in the registers: `rdi` is still on the stack. -/
def slid (s : Cpu A) : Reg → Word
  | .r15 => s.reg .rdi
  | .r14 => s.reg .r15
  | .r13 => s.reg .r14
  | .r12 => s.reg .r13
  | .r11 => s.reg .r12
  | .r10 => s.reg .r11
  | .r9 => s.reg .r10
  | .r8 => s.reg .r9
  | .rdx => s.reg .r8
  | .rcx => s.reg .rdx
  | .rbx => s.reg .rcx
  | r => s.reg r

/-- `delete_v` finds the pointer of a vector. -/
def Found (s : Cpu A) : Prop := s.reg .rdi ≠ 0 ∧ ∃ w, s.mem (s.reg .rdi + 16) = some w

/-- The registers that `delete_v` mixes up are equal. -/
def Alike (s : Cpu A) : Prop :=
  s.reg .rcx = s.reg .rbx ∧ s.reg .r13 = s.reg .r12 ∧ s.reg .r14 = s.reg .r13 ∧
    s.reg .r15 = s.reg .r14 ∧ s.reg .rdi = s.reg .r15

theorem restored_slid : Restored s { s with reg := slid s } ↔ Alike s := by
  constructor
  · rintro ⟨-,-,hrbx,hr12,hr13,hr14,hr15⟩
    exact ⟨hrbx,hr12,hr13,hr14,hr15⟩
  · rintro ⟨hrbx,hr12,hr13,hr14,hr15⟩
    exact ⟨rfl,rfl,hrbx,hr12,hr13,hr14,hr15⟩

theorem post_delete_v (h : Found s) : Post delete_v s Q E ↔ Q () { s with reg := slid s } := by
  obtain ⟨hne,w,hw⟩ := h
  refine (post_enter pushed).trans ?_
  rw [post_bind,post_bind,post_push,post_bind,post_reg,post_bind,onStack_reg,
    post_load hne (by exact hw),post_mov]
  refine (post_leave (slid s) [.word (s.reg .rbx),.word (s.reg .rax)] rfl rfl).trans
    (iff_of_eq (congrArg (Q ()) ?_))
  congr 1
  funext r
  cases r <;> rfl

theorem post_delete_v_lost (h : ¬ Found s) (hE : ∀ t, E .null t ∧ E .access t) :
    Post delete_v s Q E := by
  refine (post_enter pushed).mpr ?_
  simp only [post_bind,post_push,post_reg,onStack_reg]
  exact post_load_lost h (hE _)

instance : Flat (delete_v : M A Unit) where
  post s := by
    by_cases h : Found s
    · exact (post_delete_v h).mpr ⟨rfl,rfl⟩
    · exact post_delete_v_lost h fun _ => ⟨by decide,by decide⟩

instance : Restores (init_v : M A Unit) := by
  apply restores_function
  repeat (with_reducible apply grade_flat; intro _)
  apply grade_of_flat

instance : Restores (pop_v : M A Unit) := by
  apply restores_function
  apply grade_push
  repeat (with_reducible apply grade_flat; intro _)
  apply grade_bind grade_pop
  intro _
  repeat (with_reducible apply grade_flat; intro _)
  apply grade_of_flat

instance : Restores (size_v : M A Unit) := by
  apply restores_function
  apply grade_push
  repeat (with_reducible apply grade_flat; intro _)
  apply grade_pop

theorem flat_realloc (hr : IsRealloc realloc live) : Flat (modify realloc : M A Unit) where
  post s := ⟨hr.stack s,hr.rbp s⟩

theorem restores_resize_v (hr : IsRealloc realloc live) : Restores (resize_v realloc) := by
  have := flat_realloc hr
  apply restores_function
  apply grade_push
  apply grade_push
  repeat (with_reducible apply grade_flat; intro _)
  apply grade_bind grade_pop
  intro _
  apply grade_bind grade_pop
  intro _
  repeat (with_reducible apply grade_flat; intro _)
  apply grade_of_flat

theorem grade_grow (hr : IsRealloc realloc live) : Grade (grow realloc) a a := by
  have := restores_resize_v hr
  apply grade_push
  apply grade_push
  repeat (with_reducible apply grade_flat; intro _)
  apply grade_bind grade_pop
  intro _
  apply grade_pop

theorem grade_pushing : Grade (pushing : M A Unit) (a + 2) a := by
  unfold pushing
  repeat (with_reducible apply grade_flat; intro _)
  apply grade_bind grade_pop
  intro _
  apply grade_pop

theorem restores_push_v (hr : IsRealloc realloc live) : Restores (push_v realloc) := by
  apply restores_function
  apply grade_push
  apply grade_push
  repeat (with_reducible apply grade_flat; intro _)
  split
  · apply grade_pushing
  · apply grade_bind (grade_grow hr)
    intro _
    apply grade_pushing

/-- The routines of the heap that only call the one of the vector. -/
theorem restores_around {m : M A Unit} [Flat m] :
    Restores (function do push .rdi; m; pop .rdi) := by
  apply restores_function
  apply grade_push
  apply grade_flat
  intro _
  apply grade_pop

instance : Restores (init_h : M A Unit) := restores_around

instance : Restores (delete_h : M A Unit) := restores_around

instance : Restores (size_h : M A Unit) := restores_around

instance : Restores (get_max : M A Unit) := by
  apply restores_function
  apply grade_push
  repeat (with_reducible apply grade_flat; intro _)
  apply grade_pop

instance : Flat (whileloop fuel : M A Unit) := by
  induction fuel with
  | zero =>
    unfold whileloop
    infer_instance
  | succ fuel ih =>
    unfold whileloop
    repeat (with_reducible apply flat_bind; intro _)
    split
    · infer_instance
    · repeat (with_reducible apply flat_bind; intro _)
      split
      · infer_instance
      · repeat (with_reducible apply flat_bind; intro _)
        infer_instance

theorem restores_insert_h (hr : IsRealloc realloc live) : Restores (insert_h realloc) := by
  have := restores_push_v hr
  apply restores_function
  apply grade_push
  apply grade_push
  repeat (with_reducible apply grade_flat; intro _)
  apply grade_bind grade_pop
  intro _
  apply grade_bind grade_pop
  intro _
  repeat (with_reducible apply grade_flat; intro _)
  apply grade_of_flat

instance {m : M A Unit} [Flat m] {child value : Reg} : Flat (comp m child value) := by
  unfold comp
  repeat (with_reducible apply flat_bind; intro _)
  split
  · infer_instance
  · repeat (with_reducible apply flat_bind; intro _)
    infer_instance

instance {m : M A Unit} [Flat m] : Flat (choose m) := by
  unfold choose only_left comp_left comp_right
  repeat (with_reducible apply flat_bind; intro _)
  split
  · infer_instance
  · repeat (with_reducible apply flat_bind; intro _)
    split
    · repeat (with_reducible apply flat_bind; intro _)
      infer_instance
    · repeat (with_reducible apply flat_bind; intro _)
      infer_instance

theorem restores_heapify [Flat (heapify fuel : M A Unit)] :
    Restores (heapify (fuel + 1) : M A Unit) := by
  apply restores_function
  apply grade_push
  apply grade_push
  apply grade_push
  repeat (with_reducible apply grade_flat; intro _)
  apply grade_bind grade_pop
  intro _
  apply grade_bind grade_pop
  intro _
  apply grade_pop

instance : Flat (heapify fuel : M A Unit) := by
  induction fuel with
  | zero =>
    unfold heapify
    infer_instance
  | succ fuel ih =>
    have : Restores (heapify (fuel + 1) : M A Unit) := restores_heapify
    infer_instance

instance : Restores (pop_max : M A Unit) := by
  apply restores_function
  apply grade_push
  repeat (with_reducible apply grade_flat; intro _)
  apply grade_bind grade_pop
  intro _
  repeat (with_reducible apply grade_flat; intro _)
  apply grade_of_flat

instance : Restores (heapsort : M A Unit) := restores_function grade_of_flat

instance : Restores (get_element_v : M A Unit) where
  post s := by
    have hgrade : Grade (element_address : M A Unit) 0 0 := by
      apply grade_push
      apply grade_push
      repeat (with_reducible apply grade_flat; intro _)
      apply grade_bind grade_pop
      intro _
      apply grade_pop
    refine (post_enter pushedOnly).mpr ?_
    rw [post_bind]
    refine (hgrade _ _ (above_zero.mpr rfl)).imp fun _ t ht => ?_
    obtain ⟨hstack,hrbp⟩ := ht
    refine (post_leave s.reg [] (above_zero.mp hstack) hrbp).mpr ?_
    exact ⟨rfl,rfl,rfl,rfl,rfl,rfl,rfl⟩

instance : Restores (Routine.heapify.code realloc) where
  post s := by
    change Post (reg .rsi >>= fun w => heapify (w.toNat + 1)) s _ _
    rw [post_bind,post_reg]
    exact restores_heapify.post s

/-- Every routine but `delete_v` restores the registers. -/
theorem restores_code (hr : IsRealloc realloc live) {r : Routine} (hne : r ≠ .delete_v) :
    Restores (r.code realloc) := by
  cases r with
  | delete_v => exact absurd rfl hne
  | resize_v => exact restores_resize_v hr
  | push_v => exact restores_push_v hr
  | insert_h => exact restores_insert_h hr
  | heapify => infer_instance
  | _ =>
    unfold Routine.code
    infer_instance

/-- In whatever state a routine is called, if it returns it has restored the registers, but for
`delete_v` only if they are alike. -/
theorem restored_iff (hr : IsRealloc realloc live) (r : Routine) :
    (Post (r.code realloc) s (fun _ u => Restored s u) fun e _ => e ≠ .stack) ↔
      (r = .delete_v → Found s → Alike s) := by
  by_cases hd : r = .delete_v
  · subst hd
    constructor
    · intro h _ hf
      exact restored_slid.mp ((post_delete_v hf).mp h)
    · intro h
      by_cases hf : Found s
      · exact (post_delete_v hf).mpr (restored_slid.mpr (h rfl hf))
      · exact post_delete_v_lost hf fun _ => ⟨by decide,by decide⟩
  · have := restores_code hr hd
    exact iff_of_true (Restores.post s) fun hc => absurd hc hd

end

end ResumePointers.Asm
