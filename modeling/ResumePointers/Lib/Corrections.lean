import Mathlib.Data.Matrix.Mul
import Mathlib.Algebra.Order.BigOperators.Ring.Finset
import Mathlib.Algebra.Order.Chebyshev
import Mathlib.Tactic.Linarith

/-! Learning a half space by corrections: in every round the vectors on the wrong side are added,
scaled, to the normal vector. If some half space has all of them on its right side, with a
margin, then the number of corrections is bounded, whatever the scale. -/
namespace ResumePointers.Corrections

open Finset

variable {ι κ K : Type} [Fintype ι] [Fintype κ] [Field K] [LinearOrder K] [IsStrictOrderedRing K]

/-- The vectors that `w` does not have on its right side. -/
def wrong (z : ι → κ → K) (w : κ → K) : Finset ι := univ.filter fun i => w ⬝ᵥ z i ≤ 0

def correct (lr : K) (z : ι → κ → K) (w : κ → K) : κ → K := w + lr • ∑ i ∈ wrong z w, z i

/-- The normal vector after `t` rounds. -/
def rounds (lr : K) (z : ι → κ → K) : ℕ → κ → K
  | 0 => 0
  | t + 1 => correct lr z (rounds lr z t)

/-- The corrections of the first `T` rounds. -/
def corrections (lr : K) (z : ι → κ → K) (T : ℕ) : ℕ :=
  ∑ t ∈ range T, (wrong z (rounds lr z t)).card

variable {lr γ R : K} {z : ι → κ → K} {u w : κ → K}

/-- Every correction turns the normal vector towards `u`. -/
theorem le_dot_correct (hlr : 0 ≤ lr) (hu : ∀ i, γ ≤ u ⬝ᵥ z i) :
    u ⬝ᵥ w + lr * (γ * (wrong z w).card) ≤ u ⬝ᵥ correct lr z w := by
  have hsum : γ * (wrong z w).card ≤ ∑ i ∈ wrong z w, u ⬝ᵥ z i := by
    rw [mul_comm,← nsmul_eq_mul]
    exact card_nsmul_le_sum _ _ _ fun i _ => hu i
  rw [correct,dotProduct_add,dotProduct_smul,dotProduct_sum,smul_eq_mul]
  exact add_le_add_right (mul_le_mul_of_nonneg_left hsum hlr) _

omit [Fintype ι] in
theorem dot_sum_self_le (s : Finset ι) (hR : ∀ i, z i ⬝ᵥ z i ≤ R) :
    (∑ i ∈ s, z i) ⬝ᵥ (∑ i ∈ s, z i) ≤ (s.card : K) ^ 2 * R := by
  have hcoord : ∀ j, (∑ i ∈ s, z i) j * (∑ i ∈ s, z i) j ≤ s.card * ∑ i ∈ s, z i j * z i j := by
    intro j
    rw [Finset.sum_apply,← sq]
    simpa only [sq] using sq_sum_le_card_mul_sum_sq (s := s) (f := fun i => z i j)
  calc (∑ i ∈ s, z i) ⬝ᵥ (∑ i ∈ s, z i)
      ≤ ∑ j, s.card * ∑ i ∈ s, z i j * z i j := sum_le_sum fun j _ => hcoord j
    _ = s.card * ∑ i ∈ s, z i ⬝ᵥ z i := by rw [← mul_sum,sum_comm]; rfl
    _ ≤ s.card * (s.card * R) := by
        refine mul_le_mul_of_nonneg_left ?_ (Nat.cast_nonneg _)
        rw [← nsmul_eq_mul]
        exact sum_le_card_nsmul _ _ _ fun i _ => hR i
    _ = (s.card : K) ^ 2 * R := by ring

/-- A correction makes the normal vector longer by at most what it adds. -/
theorem dot_correct_self_le (hlr : 0 ≤ lr) (hR : ∀ i, z i ⬝ᵥ z i ≤ R) :
    correct lr z w ⬝ᵥ correct lr z w ≤ w ⬝ᵥ w + lr ^ 2 * ((wrong z w).card ^ 2 * R) := by
  have hside : w ⬝ᵥ ∑ i ∈ wrong z w, z i ≤ 0 := by
    rw [dotProduct_sum]
    exact sum_nonpos fun i hi => (mem_filter.mp hi).2
  have hsq := dot_sum_self_le (wrong z w) hR
  rw [correct,add_dotProduct,dotProduct_add,dotProduct_add,dotProduct_smul,smul_dotProduct,
    smul_dotProduct,dotProduct_smul,dotProduct_comm (∑ i ∈ wrong z w, z i) w]
  simp only [smul_eq_mul]
  nlinarith [mul_le_mul_of_nonneg_left hside hlr,mul_le_mul_of_nonneg_left hsq (sq_nonneg lr)]

theorem le_dot_rounds (hlr : 0 ≤ lr) (hu : ∀ i, γ ≤ u ⬝ᵥ z i) (T : ℕ) :
    lr * (γ * corrections lr z T) ≤ u ⬝ᵥ rounds lr z T := by
  induction T with
  | zero => simp [corrections,rounds]
  | succ T ih =>
    have hstep := le_dot_correct (w := rounds lr z T) hlr hu
    rw [corrections,sum_range_succ,← corrections,rounds]
    push_cast
    linarith

theorem dot_rounds_self_le (hlr : 0 ≤ lr) (hR : ∀ i, z i ⬝ᵥ z i ≤ R) (hR0 : 0 ≤ R) (T : ℕ) :
    rounds lr z T ⬝ᵥ rounds lr z T ≤ lr ^ 2 * (Fintype.card ι * corrections lr z T * R) := by
  induction T with
  | zero => simp [corrections,rounds]
  | succ T ih =>
    have hstep := dot_correct_self_le (w := rounds lr z T) hlr hR
    have hcard : ((wrong z (rounds lr z T)).card : K) ^ 2 ≤
        Fintype.card ι * (wrong z (rounds lr z T)).card := by
      rw [sq]
      refine mul_le_mul_of_nonneg_right ?_ (Nat.cast_nonneg _)
      exact_mod_cast card_le_univ _
    have hscaled := mul_le_mul_of_nonneg_left (mul_le_mul_of_nonneg_right hcard hR0) (sq_nonneg lr)
    rw [corrections,sum_range_succ,← corrections,rounds]
    push_cast
    nlinarith

/-- The number of corrections is bounded by the size of the vectors and the margin. -/
theorem corrections_le (hlr : 0 < lr) (hγ : 0 < γ) (hu : ∀ i, γ ≤ u ⬝ᵥ z i)
    (hR : ∀ i, z i ⬝ᵥ z i ≤ R) (hR0 : 0 ≤ R) (T : ℕ) :
    γ ^ 2 * corrections lr z T ≤ Fintype.card ι * R * (u ⬝ᵥ u) := by
  rcases Nat.eq_zero_or_pos (corrections lr z T) with hc | hc
  · rw [hc,Nat.cast_zero,mul_zero]
    exact mul_nonneg (mul_nonneg (Nat.cast_nonneg _) hR0) (sum_nonneg fun j _ => mul_self_nonneg _)
  have hcpos : (0 : K) < corrections lr z T := by exact_mod_cast hc
  have hlow := le_dot_rounds hlr.le hu T
  have hhigh := dot_rounds_self_le hlr.le hR hR0 T
  have hcs : (u ⬝ᵥ rounds lr z T) ^ 2 ≤ u ⬝ᵥ u * (rounds lr z T ⬝ᵥ rounds lr z T) := by
    simpa only [dotProduct,sq] using sum_mul_sq_le_sq_mul_sq univ u (rounds lr z T)
  have hsq : (lr * (γ * corrections lr z T)) ^ 2 ≤ (u ⬝ᵥ rounds lr z T) ^ 2 :=
    pow_le_pow_left₀ (by positivity) hlow 2
  have huu : 0 ≤ u ⬝ᵥ u := sum_nonneg fun j _ => mul_self_nonneg _
  -- divided by the square of `lr` and by the number of corrections
  have hall : lr ^ 2 * corrections lr z T * (γ ^ 2 * corrections lr z T) ≤
      lr ^ 2 * corrections lr z T * (Fintype.card ι * R * (u ⬝ᵥ u)) :=
    calc lr ^ 2 * corrections lr z T * (γ ^ 2 * corrections lr z T)
        = (lr * (γ * corrections lr z T)) ^ 2 := by ring
      _ ≤ u ⬝ᵥ u * (rounds lr z T ⬝ᵥ rounds lr z T) := hsq.trans hcs
      _ ≤ u ⬝ᵥ u * (lr ^ 2 * (Fintype.card ι * corrections lr z T * R)) :=
          mul_le_mul_of_nonneg_left hhigh huu
      _ = lr ^ 2 * corrections lr z T * (Fintype.card ι * R * (u ⬝ᵥ u)) := by ring
  exact le_of_mul_le_mul_left hall (by positivity)

omit [IsStrictOrderedRing K] in
/-- Once there is nothing to correct, there never is. -/
theorem rounds_of_wrong_eq_empty {t : ℕ} (h : wrong z (rounds lr z t) = ∅) (k : ℕ) :
    rounds lr z (t + k) = rounds lr z t := by
  induction k with
  | zero => rfl
  | succ k ih => rw [← Nat.add_assoc,rounds,ih,correct,h,sum_empty,smul_zero,add_zero]

/-- After more rounds than there can be corrections all vectors are on the right side. -/
theorem wrong_eq_empty (hlr : 0 < lr) (hγ : 0 < γ) (hu : ∀ i, γ ≤ u ⬝ᵥ z i)
    (hR : ∀ i, z i ⬝ᵥ z i ≤ R) (hR0 : 0 ≤ R) {T : ℕ}
    (hT : Fintype.card ι * R * (u ⬝ᵥ u) < γ ^ 2 * T) : wrong z (rounds lr z T) = ∅ := by
  by_contra hne
  -- a round without corrections would have been the last one with any
  have hpos : ∀ t < T, 1 ≤ (wrong z (rounds lr z t)).card := by
    intro t ht
    rw [Nat.one_le_iff_ne_zero,ne_eq,card_eq_zero]
    intro he
    obtain ⟨k,rfl⟩ := Nat.exists_eq_add_of_lt ht
    rw [Nat.add_assoc,rounds_of_wrong_eq_empty he] at hne
    exact hne he
  have hle : T ≤ corrections lr z T := by
    calc T = ∑ t ∈ range T, 1 := by simp
      _ ≤ corrections lr z T := sum_le_sum fun t ht => hpos t (mem_range.mp ht)
  have hcast : γ ^ 2 * (T : K) ≤ γ ^ 2 * corrections lr z T :=
    mul_le_mul_of_nonneg_left (by exact_mod_cast hle) (sq_nonneg γ)
  exact absurd (hcast.trans (corrections_le hlr hγ hu hR hR0 T)) hT.not_ge

end ResumePointers.Corrections
