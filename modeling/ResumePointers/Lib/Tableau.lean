import Mathlib

/-! Tableaux of linear programs: a column of right-hand sides and an objective row stand beside
the constraints, and a pivot divides its row and clears its column in the other rows. -/
namespace ResumePointers.Tableau

variable {ρ κ K : Type} [Field K]

section Pivot

variable [DecidableEq ρ] {M : Matrix ρ κ K} {r : ρ} {s : κ}

/-- Divide row `r` by its entry in column `s` and clear the column in the other rows. -/
def pivot (M : Matrix ρ κ K) (r : ρ) (s : κ) : Matrix ρ κ K :=
  fun i j => if i = r then M r j / M r s else M i j - M r j / M r s * M i s

@[simp] theorem pivot_self (j : κ) : pivot M r s r j = M r j / M r s := if_pos rfl

theorem pivot_of_ne {i : ρ} (hi : i ≠ r) (j : κ) :
    pivot M r s i j = M i j - M r j / M r s * M i s := if_neg hi

/-- The pivot column becomes a unit vector. -/
theorem pivot_column (hp : M r s ≠ 0) (i : ρ) : pivot M r s i s = if i = r then 1 else 0 := by
  split_ifs with hi
  · rw [hi,pivot_self,div_self hp]
  · rw [pivot_of_ne hi,div_self hp,one_mul,sub_self]

/-- A column that is zero in the pivot row is kept. -/
theorem pivot_column_of_zero {j : κ} (hj : M r j = 0) (i : ρ) : pivot M r s i j = M i j := by
  rcases eq_or_ne i r with rfl | hi
  · rw [pivot_self,hj,zero_div]
  · rw [pivot_of_ne hi,hj,zero_div,zero_mul,sub_zero]

variable [Fintype κ]

theorem pivot_mulVec_self (z : κ → K) : (pivot M r s).mulVec z r = M.mulVec z r / M r s := by
  simp only [Matrix.mulVec,dotProduct,pivot_self,Finset.sum_div]
  exact Finset.sum_congr rfl fun j _ => by ring

theorem pivot_mulVec_of_ne {i : ρ} (hi : i ≠ r) (z : κ → K) :
    (pivot M r s).mulVec z i = M.mulVec z i - M.mulVec z r / M r s * M i s := by
  simp only [Matrix.mulVec,dotProduct,pivot_of_ne hi,Finset.sum_div,Finset.sum_mul,
    ← Finset.sum_sub_distrib]
  exact Finset.sum_congr rfl fun j _ => by ring

/-- What a vector is mapped to in the other rows is kept when the pivot row maps it to zero. -/
theorem pivot_mulVec_of_zero {i : ρ} {z : κ → K} (hi : i ≠ r) (hr : M.mulVec z r = 0) :
    (pivot M r s).mulVec z i = M.mulVec z i := by
  rw [pivot_mulVec_of_ne hi,hr,zero_div,zero_mul,sub_zero]

theorem pivot_mulVec_self_eq_zero (hp : M r s ≠ 0) {z : κ → K} :
    (pivot M r s).mulVec z r = 0 ↔ M.mulVec z r = 0 := by
  rw [pivot_mulVec_self,div_eq_zero_iff]
  exact or_iff_left hp

end Pivot

/-- Constraints and right-hand sides, with the objective row below them. -/
abbrev Tab (ρ κ K : Type) := Matrix (ρ ⊕ Unit) (κ ⊕ Unit) K

def coef (M : Tab ρ κ K) (i : ρ) (j : κ) : K := M (.inl i) (.inl j)

def rhs (M : Tab ρ κ K) (i : ρ) : K := M (.inl i) (.inr ())

def cost (M : Tab ρ κ K) (j : κ) : K := M (.inr ()) (.inl j)

/-- The objective entry. -/
def value (M : Tab ρ κ K) : K := M (.inr ()) (.inr ())

/-- Pivot on a constraint row and the column of a variable. -/
def Tab.pivot [DecidableEq ρ] (M : Tab ρ κ K) (r : ρ) (s : κ) : Tab ρ κ K :=
  Tableau.pivot M (.inl r) (.inl s)

section Solutions

variable [Fintype κ] {M : Tab ρ κ K} {z : κ → K}

/-- The equations of the constraint rows. -/
def Solves (M : Tab ρ κ K) (z : κ → K) : Prop := ∀ i, ∑ j, coef M i j * z j = rhs M i

/-- The value of the objective that the last row gives to a solution. -/
def objective (M : Tab ρ κ K) (z : κ → K) : K := value M - ∑ j, cost M j * z j

theorem mulVec_constraint (i : ρ) :
    M.mulVec (Sum.elim z fun _ => -1) (.inl i) = ∑ j, coef M i j * z j - rhs M i := by
  simp [Matrix.mulVec,dotProduct,coef,rhs,sub_eq_add_neg]

theorem mulVec_objective : M.mulVec (Sum.elim z fun _ => -1) (.inr ()) = -objective M z := by
  simp only [Matrix.mulVec,dotProduct,Fintype.sum_sum_type,Finset.univ_unique,
    Finset.sum_singleton,Sum.elim_inl,Sum.elim_inr,objective,neg_sub,mul_neg,mul_one,
    ← sub_eq_add_neg]
  rfl

theorem solves_iff : Solves M z ↔ ∀ i, M.mulVec (Sum.elim z fun _ => -1) (.inl i) = 0 := by
  simp only [mulVec_constraint,sub_eq_zero,Solves]

/-- The same solutions, with the same objective. -/
def Equivalent (M N : Tab ρ κ K) : Prop :=
  ∀ z, (Solves M z ↔ Solves N z) ∧ (Solves M z → objective M z = objective N z)

theorem Equivalent.refl (M : Tab ρ κ K) : Equivalent M M := fun _ => ⟨Iff.rfl,fun _ => rfl⟩

theorem Equivalent.trans {N P : Tab ρ κ K} (h : Equivalent M N) (h' : Equivalent N P) :
    Equivalent M P := fun z =>
  ⟨(h z).1.trans (h' z).1,fun hz => ((h z).2 hz).trans ((h' z).2 ((h z).1.mp hz))⟩

/-- A pivot on a nonzero entry of a constraint row changes neither the solutions nor their
objective. -/
theorem pivot_equivalent [DecidableEq ρ] {r : ρ} {s : κ} (hp : coef M r s ≠ 0) :
    Equivalent (M.pivot r s) M := by
  have hp' : M (.inl r) (.inl s) ≠ 0 := hp
  intro z
  have hsolves : Solves (M.pivot r s) z ↔ Solves M z := by
    simp only [solves_iff,Tab.pivot]
    constructor
    · intro h i
      have hr := (pivot_mulVec_self_eq_zero hp').mp (h r)
      rcases eq_or_ne i r with rfl | hi
      · exact hr
      · rw [← pivot_mulVec_of_zero (s := .inl s) (by simpa using hi) hr]
        exact h i
    · intro h i
      rcases eq_or_ne i r with rfl | hi
      · exact (pivot_mulVec_self_eq_zero hp').mpr (h i)
      · rw [pivot_mulVec_of_zero (by simpa using hi) (h r)]
        exact h i
  refine ⟨hsolves,fun hz => ?_⟩
  have hr := solves_iff.mp (hsolves.mp hz) r
  apply neg_injective
  rw [← mulVec_objective,← mulVec_objective,Tab.pivot,pivot_mulVec_of_zero (by simp) hr]

end Solutions

section Basis

variable {M : Tab ρ κ K} {β : ρ → κ}

/-- The right-hand sides for the basic variables and zero for the others. -/
def basicSolution [Fintype ρ] [DecidableEq κ] (M : Tab ρ κ K) (β : ρ → κ) (j : κ) : K :=
  ∑ i, if β i = j then rhs M i else 0

theorem sum_mul_basicSolution [Fintype ρ] [DecidableEq κ] [Fintype κ] (f : κ → K) :
    ∑ j, f j * basicSolution M β j = ∑ i, f (β i) * rhs M i := by
  simp only [basicSolution,Finset.mul_sum]
  rw [Finset.sum_comm]
  exact Finset.sum_congr rfl fun i _ => by simp

variable [DecidableEq ρ]

/-- The columns of the basic variables are the unit vectors, with zero in the objective row. -/
structure IsBasis (M : Tab ρ κ K) (β : ρ → κ) : Prop where
  unit : ∀ i k, coef M i (β k) = if i = k then 1 else 0
  cost_zero : ∀ k, cost M (β k) = 0

/-- The entering variable takes the place of the one that was basic in the pivot row. -/
theorem IsBasis.pivot (h : IsBasis M β) {r : ρ} {s : κ} (hp : coef M r s ≠ 0) :
    IsBasis (M.pivot r s) (Function.update β r s) := by
  have hp' : M (.inl r) (.inl s) ≠ 0 := hp
  have hkeep (k : ρ) (hk : k ≠ r) : M (.inl r) (.inl (β k)) = 0 := by
    have := h.unit r k
    rwa [if_neg hk.symm] at this
  constructor
  · intro i k
    rcases eq_or_ne k r with rfl | hk
    · rw [Function.update_self,coef,Tab.pivot,pivot_column hp']
      simp
    · rw [Function.update_of_ne hk,coef,Tab.pivot,pivot_column_of_zero (hkeep k hk)]
      exact h.unit i k
  · intro k
    rcases eq_or_ne k r with rfl | hk
    · rw [Function.update_self,cost,Tab.pivot,pivot_column hp']
      simp
    · rw [Function.update_of_ne hk,cost,Tab.pivot,pivot_column_of_zero (hkeep k hk)]
      exact h.cost_zero k

variable [Fintype ρ] [DecidableEq κ] [Fintype κ]

theorem IsBasis.solves (h : IsBasis M β) : Solves M (basicSolution M β) := by
  intro i
  rw [sum_mul_basicSolution]
  simp [h.unit]

theorem IsBasis.objective_basicSolution (h : IsBasis M β) :
    objective M (basicSolution M β) = value M := by
  rw [objective,sum_mul_basicSolution]
  simp [h.cost_zero]

end Basis

section Ordered

variable [LinearOrder K] [IsStrictOrderedRing K] {M : Tab ρ κ K} {r : ρ} {s : κ}

/-- The entry is positive and no row with a positive entry in the column has a smaller ratio. -/
structure MinRatio (M : Tab ρ κ K) (r : ρ) (s : κ) : Prop where
  pos : 0 < coef M r s
  le : ∀ i, 0 < coef M i s → rhs M r / coef M r s ≤ rhs M i / coef M i s

theorem MinRatio.rhs_nonneg [DecidableEq ρ] (h : MinRatio M r s) (hrhs : ∀ i, 0 ≤ rhs M i)
    (i : ρ) : 0 ≤ rhs (M.pivot r s) i := by
  have hratio : 0 ≤ rhs M r / coef M r s := div_nonneg (hrhs r) h.pos.le
  rcases eq_or_ne i r with rfl | hi
  · rw [rhs,Tab.pivot,pivot_self]
    exact hratio
  · rw [rhs,Tab.pivot,pivot_of_ne (by simpa using hi)]
    apply sub_nonneg.mpr
    change rhs M r / coef M r s * coef M i s ≤ rhs M i
    rcases lt_or_ge 0 (coef M i s) with hpos | hneg
    · exact (le_div_iff₀ hpos).mp (h.le i hpos)
    · exact (mul_nonpos_of_nonneg_of_nonpos hratio hneg).trans (hrhs i)

/-- A column of negative cost does not make the objective entry smaller. -/
theorem MinRatio.value_le [DecidableEq ρ] (h : MinRatio M r s) (hrhs : ∀ i, 0 ≤ rhs M i)
    (hcost : cost M s ≤ 0) : value M ≤ value (M.pivot r s) := by
  have hratio : 0 ≤ rhs M r / coef M r s := div_nonneg (hrhs r) h.pos.le
  rw [value,value,Tab.pivot,pivot_of_ne (by simp)]
  have : rhs M r / coef M r s * cost M s ≤ 0 := mul_nonpos_of_nonneg_of_nonpos hratio hcost
  exact le_sub_self_iff _ |>.mpr this

theorem objective_le_value [Fintype κ] {z : κ → K} (hcost : ∀ j, 0 ≤ cost M j) (hz : 0 ≤ z) :
    objective M z ≤ value M := by
  have : 0 ≤ ∑ j, cost M j * z j := Finset.sum_nonneg fun j _ => mul_nonneg (hcost j) (hz j)
  exact sub_le_self _ this

theorem basicSolution_nonneg [Fintype ρ] [DecidableEq κ] {β : ρ → κ}
    (hrhs : ∀ i, 0 ≤ rhs M i) : 0 ≤ basicSolution M β := by
  intro j
  apply Finset.sum_nonneg
  intro i _
  split_ifs
  · exact hrhs i
  · exact le_rfl

/-- With nonnegative right-hand sides and costs the basic solution is the best of the nonnegative
solutions. -/
theorem IsBasis.optimal [DecidableEq ρ] [Fintype ρ] [DecidableEq κ] [Fintype κ] {β : ρ → κ}
    (h : IsBasis M β) (hcost : ∀ j, 0 ≤ cost M j) {z : κ → K} (hz : 0 ≤ z) :
    objective M z ≤ objective M (basicSolution M β) := by
  rw [h.objective_basicSolution]
  exact objective_le_value hcost hz

end Ordered

end ResumePointers.Tableau
