import Mathlib
import ResumePointers.Lib.Corrections

/-! The perceptron (`ml_algos/classifiers/perceptron/q1.py`) with exact rationals: in an epoch all
examples on the wrong side are added at once. -/
namespace ResumePointers.Ml.Perceptron

open Corrections

variable {n d : ℕ}

/-- `weights`, `running_avg_weights`, and the two histories that `fit` returns. -/
structure Fit (d : ℕ) where
  weights : Fin (d + 1) → ℚ
  running_avg_weights : Fin (d + 1) → ℚ
  weights_history : List (Fin (d + 1) → ℚ)
  avg_weights_history : List (Fin (d + 1) → ℚ)

/-- `Perceptron(input_dim)`. -/
def new (d : ℕ) : Fit d := ⟨0,0,[],[]⟩

/-- The features with a column of ones behind them. -/
def column_stack (x : Fin n → Fin d → ℚ) (i : Fin n) : Fin (d + 1) → ℚ := Fin.snoc (x i) 1

/-- The examples with `y*y_pred <= 0`. -/
def misclassified (x : Fin n → Fin (d + 1) → ℚ) (y : Fin n → ℚ) (weights : Fin (d + 1) → ℚ) :
    Finset (Fin n) :=
  Finset.univ.filter fun i => y i * (x i ⬝ᵥ weights) ≤ 0

def epochStep (lam lr : ℚ) (x : Fin n → Fin (d + 1) → ℚ) (y : Fin n → ℚ) (p : Fit d) (epoch : ℕ) :
    Fit d :=
  let weights := p.weights + lr • ∑ i ∈ misclassified x y p.weights, y i • x i
  let avg := if epoch ≠ 0 then lam • p.running_avg_weights + (1 - lam) • weights else weights
  { weights := weights
    running_avg_weights := avg
    weights_history :=
      if epoch % 10 = 0 then p.weights_history ++ [weights] else p.weights_history
    avg_weights_history :=
      if epoch % 10 = 0 then p.avg_weights_history ++ [avg] else p.avg_weights_history }

def fit (lam : ℚ) (x : Fin n → Fin d → ℚ) (y : Fin n → ℚ) (lr : ℚ) (epochs : ℕ) (p : Fit d) : Fit d :=
  (List.range epochs).foldl (epochStep lam lr (column_stack x) y) p

/-- `np.sign`. -/
def sign (q : ℚ) : ℚ := if q < 0 then -1 else if 0 < q then 1 else 0

def predict (p : Fit d) (x : Fin n → Fin d → ℚ) (running_avg : Bool) (i : Fin n) : ℚ :=
  sign (column_stack x i ⬝ᵥ if running_avg then p.running_avg_weights else p.weights)

/-- The epochs are rounds of corrections by the examples with their labels. -/
theorem fit_weights (lam : ℚ) (x : Fin n → Fin d → ℚ) (y : Fin n → ℚ) (lr : ℚ) (epochs : ℕ) :
    (fit lam x y lr epochs (new d)).weights =
      rounds lr (fun i => y i • column_stack x i) epochs := by
  induction epochs with
  | zero => rfl
  | succ epochs ih =>
    rw [fit,List.range_succ,List.foldl_append,← fit,rounds,← ih]
    have hwrong : misclassified (column_stack x) y (fit lam x y lr epochs (new d)).weights =
        wrong (fun i => y i • column_stack x i) (fit lam x y lr epochs (new d)).weights := by
      ext i
      simp only [misclassified,wrong,Finset.mem_filter,dotProduct_smul,smul_eq_mul]
      rw [dotProduct_comm]
    simp only [List.foldl_cons,List.foldl_nil,epochStep,correct,hwrong]

theorem sign_eq {q y : ℚ} (hy : y = 1 ∨ y = -1) (h : 0 < y * q) : sign q = y := by
  rcases hy with rfl | rfl
  · rw [one_mul] at h
    rw [sign,if_neg h.not_gt,if_pos h]
  · rw [neg_one_mul,neg_pos] at h
    rw [sign,if_pos h]

/-- If some weights have all examples on their right side with the margin `γ`, then after more epochs
than `n * R * |u|² / γ²` every training example is predicted with its label, whatever the learning
rate. -/
theorem fit_predicts {lam lr γ R : ℚ} {x : Fin n → Fin d → ℚ} {y : Fin n → ℚ}
    {u : Fin (d + 1) → ℚ} {epochs : ℕ} (hy : ∀ i, y i = 1 ∨ y i = -1) (hlr : 0 < lr) (hγ : 0 < γ)
    (hu : ∀ i, γ ≤ y i * (u ⬝ᵥ column_stack x i))
    (hR : ∀ i, column_stack x i ⬝ᵥ column_stack x i ≤ R)
    (hepochs : n * R * (u ⬝ᵥ u) < γ ^ 2 * epochs) (i : Fin n) :
    predict (fit lam x y lr epochs (new d)) x false i = y i := by
  have hsq : ∀ i, y i * y i = 1 := fun i => by rcases hy i with h | h <;> rw [h] <;> norm_num
  have hR0 : 0 ≤ R := (Finset.sum_nonneg fun j _ => mul_self_nonneg _).trans (hR i)
  have hempty := wrong_eq_empty (z := fun i => y i • column_stack x i) (T := epochs) hlr hγ
    (fun i => by simpa using hu i)
    (fun i => by
      simp only [smul_dotProduct,dotProduct_smul,smul_eq_mul]
      rw [← mul_assoc,hsq,one_mul]
      exact hR i)
    hR0 (by rwa [Fintype.card_fin])
  have hright := (Finset.filter_eq_empty_iff.mp hempty) (Finset.mem_univ i)
  rw [not_le,dotProduct_smul,smul_eq_mul,dotProduct_comm] at hright
  rw [predict,fit_weights]
  exact sign_eq (hy i) hright

/-- Two examples on the two sides of the origin. -/
def twoPoints : Fin 2 → Fin 1 → ℚ := ![fun _ => 1,fun _ => -1]

theorem fit_predicts_twoPoints :
    predict (fit (4/5) twoPoints ![1,-1] (1/1000) 5 (new 1)) twoPoints false 0 = 1 ∧
      predict (fit (4/5) twoPoints ![1,-1] (1/1000) 5 (new 1)) twoPoints false 1 = -1 := by
  have hlabels : ∀ i : Fin 2, (![1,-1] : Fin 2 → ℚ) i = 1 ∨ (![1,-1] : Fin 2 → ℚ) i = -1 := by
    decide +kernel
  have hmargin : ∀ i, (1 : ℚ) ≤ ![1,-1] i * (![1,0] ⬝ᵥ column_stack twoPoints i) := by decide +kernel
  have hsize : ∀ i, column_stack twoPoints i ⬝ᵥ column_stack twoPoints i ≤ 2 := by decide +kernel
  have hall : ∀ i, predict (fit (4/5) twoPoints ![1,-1] (1/1000) 5 (new 1)) twoPoints false i =
      ![1,-1] i := fit_predicts hlabels (by norm_num) one_pos hmargin hsize (by decide +kernel)
  exact ⟨hall 0,hall 1⟩

end ResumePointers.Ml.Perceptron
