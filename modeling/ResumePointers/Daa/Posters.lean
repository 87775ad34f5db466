import Mathlib
import ResumePointers.Lib.MergeSort

/-! Posters and their sorting (`DAA/22b0944.cpp`). Coordinates are exact rationals. -/
namespace ResumePointers.Daa

structure Point where
  x : ℚ
  y : ℚ
deriving DecidableEq

/-- The upper edge of a poster. -/
abbrev Poster := Point × Point

/-- `L[i].first.X() <= R[j].first.X()`. -/
def startsBefore (l r : Poster) : Bool := l.1.x ≤ r.1.x

/-- `merge`: the ranges `low..mid` and `mid+1..high` of the vector, written back merged. -/
def merge (posters : List Poster) (low mid high : ℕ) : List Poster :=
  let n1 := mid - low + 1
  let n2 := high - mid
  let L := (posters.drop low).take n1
  let R := (posters.drop (mid + 1)).take n2
  posters.take low ++ (L.merge R startsBefore ++ posters.drop (high + 1))

def merge_sort (posters : List Poster) (low high : ℕ) : List Poster :=
  if low < high then
    let mid := low + (high - low) / 2
    let posters := merge_sort posters low mid
    let posters := merge_sort posters (mid + 1) high
    merge posters low mid high
  else posters
termination_by high - low

/-- What holds of a poster. -/
structure Poster.Valid (p : Poster) : Prop where
  width : p.1.x < p.2.x
  left : 0 ≤ p.1.y
  right : 0 ≤ p.2.y

variable {l a b b₁ b₂ c posters : List Poster} {low mid high : ℕ}

theorem merge_eq (hlow : a.length = low) (hmid : a.length + b₁.length = mid + 1)
    (hhigh : a.length + b₁.length + b₂.length = high + 1) (hb₁ : b₁ ≠ []) :
    merge (a ++ (b₁ ++ (b₂ ++ c))) low mid high = a ++ (b₁.merge b₂ startsBefore ++ c) := by
  have hpos := List.length_pos_iff.mpr hb₁
  have hn1 : mid - low + 1 = b₁.length := by omega
  have hn2 : high - mid = b₂.length := by omega
  have hdrop : (a ++ (b₁ ++ (b₂ ++ c))).drop (mid + 1) = b₂ ++ c := by
    rw [← List.append_assoc,← hmid,← List.length_append,List.drop_left]
  have hrest : (a ++ (b₁ ++ (b₂ ++ c))).drop (high + 1) = c := by
    rw [← List.append_assoc,← List.append_assoc,← hhigh,← List.length_append,
      ← List.length_append,List.drop_left]
  rw [merge,hn1,hn2,hdrop,hrest,← hlow]
  simp only [List.take_left,List.drop_left]

theorem startsBefore_trans (p q r : Poster) (hpq : startsBefore p q) (hqr : startsBefore q r) :
    startsBefore p r := by
  simp only [startsBefore,decide_eq_true_eq] at hpq hqr ⊢
  exact hpq.trans hqr

theorem startsBefore_total (p q : Poster) : startsBefore p q || startsBefore q p := by
  simpa [startsBefore] using le_total p.1.x q.1.x

/-- A range of the vector that is not empty is sorted stably, and the rest of the vector stays. -/
theorem merge_sort_append (hlow : a.length = low) (hhigh : a.length + b.length = high + 1)
    (hb : b ≠ []) :
    merge_sort (a ++ (b ++ c)) low high = a ++ (b.mergeSort startsBefore ++ c) := by
  induction b, hb using MergeSort.halves_induction generalizing a c low high with
  | single p =>
    rw [List.length_singleton] at hhigh
    rw [merge_sort,if_neg (by omega),List.mergeSort_singleton]
  | append b₁ b₂ hne₁ hne₂ hle hle' ih₁ ih₂ =>
    have hpos₂ := List.length_pos_iff.mpr hne₂
    rw [List.length_append] at hhigh
    have hmid : a.length + b₁.length = low + (high - low) / 2 + 1 := by omega
    have hlen₁ : (b₁.mergeSort startsBefore).length = b₁.length := b₁.length_mergeSort
    have hlen₂ : (b₂.mergeSort startsBefore).length = b₂.length := b₂.length_mergeSort
    have h₁ := ih₁ hlow hmid (c := b₂ ++ c)
    have hmid' : (a ++ b₁.mergeSort startsBefore).length = low + (high - low) / 2 + 1 := by
      rw [List.length_append,hlen₁,hmid]
    have hhigh' : (a ++ b₁.mergeSort startsBefore).length + b₂.length = high + 1 := by omega
    have h₂ := ih₂ hmid' hhigh' (c := c)
    rw [List.append_assoc,List.append_assoc] at h₂
    rw [merge_sort,if_pos (by omega),List.append_assoc,MergeSort.mergeSort_append hpos₂ hle hle']
    simp only [h₁,h₂]
    rw [List.length_append] at hmid'
    exact merge_eq hlow hmid' (by omega) (List.ne_nil_of_length_pos (by omega))

end ResumePointers.Daa
