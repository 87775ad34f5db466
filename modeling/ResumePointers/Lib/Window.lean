import Mathlib.Data.List.Basic

/-! A window of an array that goes on at the start of the array when it gets to the end. -/
namespace ResumePointers

variable {α : Type} {A xs : List α} {x : α} {N head j k : ℕ}

theorem around_eq (h : head < N) (hk : k ≤ N) :
    (head + k) % N = if head + k < N then head + k else head + k - N := by
  by_cases hlt : head + k < N
  · rw [if_pos hlt,Nat.mod_eq_of_lt hlt]
  · rw [if_neg hlt,Nat.mod_eq_sub_mod (by omega),Nat.mod_eq_of_lt (by omega)]

theorem around_inj (h : head < N) (hj : j < N) (hk : k < N) :
    (head + j) % N = (head + k) % N ↔ j = k := by
  rw [around_eq h (Nat.le_of_lt hj),around_eq h (Nat.le_of_lt hk)]
  split_ifs <;> omega

theorem around_succ (k : ℕ) : ((head + 1) % N + k) % N = (head + (k + 1)) % N := by
  rw [Nat.mod_add_mod,Nat.add_right_comm,Nat.add_assoc]

/-- The entries of `A` from `head` on are `xs`. -/
structure Window (A : List α) (head : ℕ) (xs : List α) : Prop where
  head_lt : head < A.length
  length_le : xs.length ≤ A.length
  entry : ∀ k (hk : k < xs.length), A[(head + k) % A.length]? = some xs[k]

namespace Window

theorem nil (h : head < A.length) : Window A head [] := ⟨h,Nat.zero_le _,nofun⟩

theorem push (h : Window A head xs) (hlt : xs.length < A.length) (x : α) :
    Window (A.set ((head + xs.length) % A.length) x) head (xs ++ [x]) where
  head_lt := by
    rw [List.length_set]
    exact h.head_lt
  length_le := by
    rw [List.length_set,List.length_append,List.length_singleton]
    omega
  entry k hk := by
    rw [List.length_append,List.length_singleton] at hk
    rw [List.length_set]
    by_cases hlast : k = xs.length
    · subst hlast
      rw [List.getElem?_set_self (Nat.mod_lt _ (by omega)),List.getElem_concat_length rfl]
    · have hne : (head + xs.length) % A.length ≠ (head + k) % A.length := by
        rw [ne_eq,around_inj h.head_lt hlt (by omega)]
        omega
      rw [List.getElem?_set_ne hne,h.entry k (by omega),List.getElem_append_left (by omega)]

theorem of_append {ys : List α} (h : Window A head (xs ++ ys)) : Window A head xs where
  head_lt := h.head_lt
  length_le := by
    have := h.length_le
    rw [List.length_append] at this
    omega
  entry k hk := by
    rw [h.entry k (by rw [List.length_append]; omega),List.getElem_append_left hk]

theorem last_eq (h : Window A head (xs ++ [x])) : A[(head + xs.length) % A.length]? = some x := by
  rw [h.entry xs.length (by simp),List.getElem_concat_length rfl]

theorem head_eq (h : Window A head (x::xs)) : A[head]? = some x := by
  have h0 := h.entry 0 (Nat.succ_pos _)
  rw [Nat.add_zero,Nat.mod_eq_of_lt h.head_lt] at h0
  exact h0

theorem pop (h : Window A head (x::xs)) : Window A ((head + 1) % A.length) xs where
  head_lt := Nat.mod_lt _ (Nat.zero_lt_of_lt h.head_lt)
  length_le := Nat.le_trans (Nat.le_succ _) h.length_le
  entry k hk := by
    rw [around_succ,h.entry (k + 1) (Nat.succ_lt_succ hk)]
    rfl

/-- What is read off from `head` on. -/
theorem map_range (h : Window A head xs) (d : α) :
    (List.range xs.length).map (fun k => A.getD ((head + k) % A.length) d) = xs := by
  refine List.ext_getElem (by simp) fun k h₁ h₂ => ?_
  simp [List.getD_eq_getElem?_getD,h.entry k h₂]

end Window

end ResumePointers
