import Mathlib

/-! Bijective numeration: with digits from 1 to `b` and no zero, every natural number is written
in exactly one way. A digit is kept here as a number below `b`. -/
namespace ResumePointers.BijectiveBase

/-- The number that a word of digits writes, the highest digit first. -/
def value (b : ℕ) (ds : List ℕ) : ℕ := ds.foldl (fun n d => n * b + (d + 1)) 0

variable {b d n : ℕ} {ds : List ℕ}

@[simp] theorem value_nil (b : ℕ) : value b [] = 0 := rfl

@[simp] theorem value_concat (b : ℕ) (ds : List ℕ) (d : ℕ) :
    value b (ds ++ [d]) = value b ds * b + (d + 1) := by
  simp [value]

/-- Every number is written by a word. -/
theorem exists_value (hb : 0 < b) (n : ℕ) : ∃ ds, (∀ d ∈ ds, d < b) ∧ value b ds = n := by
  induction n using Nat.strong_induction_on with
  | _ n ih =>
    rcases Nat.eq_zero_or_pos n with rfl | hn
    · exact ⟨[],by simp,rfl⟩
    · obtain ⟨ds,hds,hval⟩ := ih ((n - 1) / b)
        (lt_of_le_of_lt (Nat.div_le_self _ _) (Nat.sub_lt hn one_pos))
      refine ⟨ds ++ [(n - 1) % b],?_,?_⟩
      · intro d hd
        rcases List.mem_append.mp hd with hd | hd
        · exact hds d hd
        · rw [List.mem_singleton.mp hd]
          exact Nat.mod_lt _ hb
      · have := Nat.div_add_mod' (n - 1) b
        rw [value_concat,hval]
        omega

theorem value_lt (hds : ∀ d ∈ ds, d < b) : value b ds < (b + 1) ^ ds.length := by
  induction ds using List.reverseRecOn with
  | nil => simp
  | append_singleton ds d ih =>
    have hd : d < b := hds d (by simp)
    have hlt := ih fun d hd => hds d (by simp [hd])
    rw [value_concat,List.length_append,List.length_singleton,pow_succ]
    nlinarith

theorem two_pow_length_le (hb : 2 ≤ b) (ds : List ℕ) : 2 ^ ds.length ≤ value b ds + 1 := by
  induction ds using List.reverseRecOn with
  | nil => simp
  | append_singleton ds d ih =>
    have hle := Nat.mul_le_mul_left (value b ds) hb
    rw [value_concat,List.length_append,List.length_singleton,pow_succ]
    omega

end ResumePointers.BijectiveBase
