import ResumePointers.Mips.Machine

/-! Arrays of words in the memory, and the part of the stack below an address. -/
namespace ResumePointers.Mips

/-- The address of an element. -/
def cell (base : Word) (i : ℕ) : Word := base + .ofNat 32 (4 * i)

/-- The address `j` words below another. -/
def under (sp : Word) (j : ℕ) : Word := sp - .ofNat 32 (4 * j)

/-- The words of a list are in the memory, from element `i` on. -/
def Holds (mem : Memory) (base : Word) : ℕ → List Word → Prop
  | _,[] => True
  | i,x::xs => mem (cell base i) = some x ∧ Holds mem base (i + 1) xs

/-- The memory after the words of a list have been stored, from element `i` on. -/
def fill (base : Word) : ℕ → List Word → Memory → Memory
  | _,[],mem => mem
  | i,x::xs,mem => fill base (i + 1) xs (Function.update mem (cell base i) (some x))

/-- An array of `n` words at this address lies below the addresses of the system. -/
structure Fits (base : Word) (n : ℕ) : Prop where
  aligned : base.toNat % 4 = 0
  bound : base.toNat + 4 * n ≤ 2 ^ 31

variable {mem mem' : Memory} {base sp a : Word} {i j m n : ℕ} {x : Word} {xs ys : List Word}

theorem toNat_ofNat (h : n < 2 ^ 32) : (BitVec.ofNat 32 n).toNat = n := by
  rw [BitVec.toNat_ofNat,Nat.mod_eq_of_lt h]

theorem Fits.mono (h : Fits base n) (hm : m ≤ n) : Fits base m :=
  ⟨h.aligned,by have := h.bound; omega⟩

theorem Fits.toNat_cell (h : Fits base n) (hi : i ≤ n) : (cell base i).toNat = base.toNat + 4 * i := by
  have hbound := h.bound
  rw [cell,BitVec.toNat_add,toNat_ofNat (by omega),Nat.mod_eq_of_lt (by omega)]

theorem Fits.cell_aligned (h : Fits base n) (hi : i ≤ n) : (cell base i).toNat % 4 = 0 := by
  have haligned := h.aligned
  rw [h.toNat_cell hi]
  omega

theorem Fits.cell_inj (h : Fits base n) (hi : i ≤ n) (hj : j ≤ n) :
    cell base i = cell base j ↔ i = j := by
  constructor
  · intro he
    have hnat := congrArg BitVec.toNat he
    rw [h.toNat_cell hi,h.toNat_cell hj] at hnat
    omega
  · rintro rfl
    rfl

theorem holds_append : Holds mem base i (xs ++ ys) ↔
    Holds mem base i xs ∧ Holds mem base (i + xs.length) ys := by
  induction xs generalizing i with
  | nil => simp [Holds]
  | cons x xs ih =>
    rw [List.cons_append,Holds,Holds,ih,List.length_cons,and_assoc,Nat.add_right_comm,Nat.add_assoc]

/-- Arrays are as their cells. -/
theorem Holds.congr (h : Holds mem base i xs)
    (hm : ∀ j < xs.length, mem' (cell base (i + j)) = mem (cell base (i + j))) :
    Holds mem' base i xs := by
  induction xs generalizing i with
  | nil => trivial
  | cons x xs ih =>
    refine ⟨(hm 0 (Nat.succ_pos _)).trans h.1,ih h.2 fun j hj => ?_⟩
    rw [Nat.add_assoc,Nat.add_comm 1]
    exact hm (j + 1) (Nat.succ_lt_succ hj)

theorem Holds.isSome (h : Holds mem base i xs) (hj : j < xs.length) :
    (mem (cell base (i + j))).isSome = true := by
  induction xs generalizing i j with
  | nil => exact absurd hj (Nat.not_lt_zero j)
  | cons x xs ih =>
    cases j with
    | zero =>
      rw [Nat.add_zero,h.1]
      rfl
    | succ j =>
      have hrest := ih h.2 (Nat.lt_of_succ_lt_succ hj)
      rwa [Nat.add_assoc,Nat.add_comm 1] at hrest

/-- Other addresses are left alone. -/
theorem fill_of_ne (h : ∀ j < xs.length, a ≠ cell base (i + j)) : fill base i xs mem a = mem a := by
  induction xs generalizing i mem with
  | nil => rfl
  | cons x xs ih =>
    have hne : a ≠ cell base i := h 0 (Nat.succ_pos _)
    rw [fill,ih fun j hj => ?_,Function.update_of_ne hne]
    rw [Nat.add_assoc,Nat.add_comm 1]
    exact h (j + 1) (Nat.succ_lt_succ hj)

theorem holds_fill (h : Fits base (i + xs.length)) : Holds (fill base i xs mem) base i xs := by
  induction xs generalizing i mem with
  | nil => trivial
  | cons x xs ih =>
    rw [List.length_cons] at h
    refine ⟨?_,ih (h.mono (by omega))⟩
    rw [fill,fill_of_ne fun j hj => ?_,Function.update_self]
    rw [Ne,h.cell_inj (by omega) (by omega)]
    omega

theorem fill_append : fill base i (xs ++ ys) mem =
    fill base (i + xs.length) ys (fill base i xs mem) := by
  induction xs generalizing i mem with
  | nil => rfl
  | cons x xs ih =>
    rw [List.cons_append,fill,fill,ih,List.length_cons,Nat.add_right_comm,Nat.add_assoc]

theorem fill_isSome (h : (mem a).isSome = true) : (fill base i xs mem a).isSome = true := by
  induction xs generalizing i mem with
  | nil => exact h
  | cons x xs ih =>
    refine ih ?_
    rw [Function.update_apply]
    split
    · rfl
    · exact h

theorem under_under : under (under sp i) j = under sp (i + j) := by
  rw [under,under,under,Nat.mul_add,BitVec.ofNat_add]
  bv_omega

end ResumePointers.Mips
