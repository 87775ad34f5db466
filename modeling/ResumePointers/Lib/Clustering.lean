import Mathlib

/-! Points in clusters that have a centre each. The sum of the distances is made smaller from two
sides: by nearer centres for the points, and by better centres for the clusters, which for squared
distances are the averages. -/
namespace ResumePointers.Clustering

variable {ι κ γ δ K M : Type*}

section Loss

variable [Fintype ι] [AddCommMonoid M] {dist : ι → γ → M} {centre centre' : κ → γ} {a b : ι → κ}

/-- The sum of the distances from the points to the centres they are assigned to. -/
def loss (dist : ι → γ → M) (centre : κ → γ) (a : ι → κ) : M := ∑ i, dist i (centre (a i))

theorem loss_eq_sum_clusters [Fintype κ] [DecidableEq κ] :
    loss dist centre a = ∑ k, ∑ i with a i = k, dist i (centre k) := by
  rw [loss,← Finset.sum_fiberwise _ a]
  apply Finset.sum_congr rfl
  intro k _
  apply Finset.sum_congr rfl
  intro i hi
  rw [(Finset.mem_filter.mp hi).2]

variable [PartialOrder M] [IsOrderedAddMonoid M]

theorem loss_le_of_nearest (h : ∀ i, dist i (centre (b i)) ≤ dist i (centre (a i))) :
    loss dist centre b ≤ loss dist centre a := Finset.sum_le_sum fun i _ => h i

theorem loss_le_of_centre [Fintype κ] [DecidableEq κ]
    (h : ∀ k, ∑ i with a i = k, dist i (centre' k) ≤ ∑ i with a i = k, dist i (centre k)) :
    loss dist centre' a ≤ loss dist centre a := by
  rw [loss_eq_sum_clusters,loss_eq_sum_clusters]
  exact Finset.sum_le_sum fun k _ => h k

end Loss

section Average

variable [Field K] {s : Finset ι} {f : ι → K}

def average (s : Finset ι) (f : ι → K) : K := (∑ i ∈ s, f i) / s.card

variable [LinearOrder K] [IsStrictOrderedRing K]

theorem card_mul_average (hs : s.Nonempty) : s.card * average s f = ∑ i ∈ s, f i := by
  have : (s.card : K) ≠ 0 := Nat.cast_ne_zero.mpr hs.card_ne_zero
  exact mul_div_cancel₀ _ this

/-- What another value adds to the sum of squares around the average. -/
theorem sum_sq_sub (hs : s.Nonempty) (y : K) : ∑ i ∈ s, (f i - y) ^ 2 =
    ∑ i ∈ s, (f i - average s f) ^ 2 + s.card * (average s f - y) ^ 2 := by
  have hexpand (i : ι) : (f i - y) ^ 2 = (f i - average s f) ^ 2 +
      (2 * (average s f - y) * f i + ((average s f - y) ^ 2 - 2 * (average s f - y) * average s f)) := by
    ring
  simp only [hexpand,Finset.sum_add_distrib,← Finset.mul_sum,Finset.sum_const,nsmul_eq_mul,
    ← card_mul_average (f := f) hs]
  ring

theorem sum_sq_average_le (hs : s.Nonempty) (y : K) :
    ∑ i ∈ s, (f i - average s f) ^ 2 ≤ ∑ i ∈ s, (f i - y) ^ 2 := by
  rw [sum_sq_sub hs y]
  exact le_add_of_nonneg_right (mul_nonneg (Nat.cast_nonneg _) (sq_nonneg _))

variable [Fintype δ]

def sqDist (x y : δ → K) : K := ∑ j, (x j - y j) ^ 2

/-- The average of the points, coordinate by coordinate, has the smallest sum of squared
distances. -/
theorem sum_sqDist_average_le (hs : s.Nonempty) (x : ι → δ → K) (y : δ → K) :
    ∑ i ∈ s, sqDist (x i) (fun j => average s fun i => x i j) ≤ ∑ i ∈ s, sqDist (x i) y := by
  simp only [sqDist]
  rw [Finset.sum_comm,Finset.sum_comm (s := s)]
  exact Finset.sum_le_sum fun j _ => sum_sq_average_le hs (y j)

end Average

end ResumePointers.Clustering
