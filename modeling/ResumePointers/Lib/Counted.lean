import Mathlib.Algebra.BigOperators.Group.Finset.Basic
import Mathlib.Algebra.Order.BigOperators.Group.Finset
import Mathlib.Data.Multiset.Count

/-! Reference counts. Each of finitely many holders has a multiset of references, and the count of an
object is how many there are to it. -/
namespace ResumePointers

variable {ι α : Type*} [Fintype ι] [DecidableEq α]

def Counted (ref : α → ℕ) (own : ι → Multiset α) : Prop := ∀ a, ref a = ∑ i, (own i).count a

namespace Counted

variable {ref ref' : α → ℕ} {own own' : ι → Multiset α} {a : α} {i j : ι}

theorem start (href : ∀ a, ref a = 0) (hown : ∀ i, own i = 0) : Counted ref own := fun a => by
  simp [href,hown]

theorem mem_iff (h : Counted ref own) : (∃ i, a ∈ own i) ↔ ref a ≠ 0 := by
  rw [h a,Ne,Finset.sum_eq_zero_iff]
  simp

theorem notMem (h : Counted ref own) (ha : ref a = 0) : a ∉ own i := fun hi =>
  h.mem_iff.mp ⟨i,hi⟩ ha

theorem count_le (h : Counted ref own) (i : ι) : (own i).count a ≤ ref a := by
  rw [h a]
  exact Finset.single_le_sum (f := fun i => (own i).count a) (fun _ _ => Nat.zero_le _)
    (Finset.mem_univ i)

theorem pos (h : Counted ref own) (ha : a ∈ own i) : 0 < ref a :=
  (Multiset.count_pos.mpr ha).trans_le (h.count_le i)

/-- What is referred to once has one holder. -/
theorem eq_of_one [DecidableEq ι] (h : Counted ref own) (ha : ref a = 1) (hi : a ∈ own i)
    (hj : a ∈ own j) : i = j := by
  by_contra hij
  have hle : (own i).count a + (own j).count a ≤ ref a := by
    rw [h a,← Finset.sum_pair (f := fun k => (own k).count a) hij]
    exact Finset.sum_le_sum_of_subset (Finset.subset_univ _)
  have := Multiset.count_pos.mpr hi
  have := Multiset.count_pos.mpr hj
  omega

/-- One holder takes references or gives them up. -/
theorem change [DecidableEq ι] (h : Counted ref own) (i : ι) (hown : ∀ j ≠ i, own' j = own j)
    (hi : ∀ a, ref' a + (own i).count a = ref a + (own' i).count a) : Counted ref' own' := by
  intro a
  have hsplit : ∀ f : ι → Multiset α,
      ∑ j, (f j).count a = (f i).count a + ∑ j ∈ Finset.univ.erase i, (f j).count a := fun f =>
    (Finset.add_sum_erase _ (fun j => (f j).count a) (Finset.mem_univ i)).symm
  have hrest : ∑ j ∈ Finset.univ.erase i, (own' j).count a =
      ∑ j ∈ Finset.univ.erase i, (own j).count a :=
    Finset.sum_congr rfl fun j hj => by rw [hown j (Finset.ne_of_mem_erase hj)]
  have := hi a
  rw [h a,hsplit own] at this
  rw [hsplit own',hrest]
  omega

/-- Two holders do it at once. -/
theorem change₂ [DecidableEq ι] (h : Counted ref own) (hij : i ≠ j)
    (hown : ∀ k, k ≠ i → k ≠ j → own' k = own k)
    (hi : ∀ a, ref' a + (own i).count a + (own j).count a =
      ref a + (own' i).count a + (own' j).count a) : Counted ref' own' := by
  let own₁ := Function.update own i (own' i)
  have h₁ : Counted (fun a => ref a - (own i).count a + (own' i).count a) own₁ := by
    refine h.change i (fun k hk => Function.update_of_ne hk _ _) fun a => ?_
    have := h.count_le (a := a) i
    simp only [own₁,Function.update_self]
    omega
  refine h₁.change j (fun k hk => ?_) fun a => ?_
  · by_cases hki : k = i
    · subst hki
      simp [own₁]
    · simp only [own₁]
      rw [Function.update_of_ne hki,hown k hki hk]
  · have := h.count_le (a := a) i
    have := hi a
    simp only [own₁,Function.update_of_ne hij.symm]
    omega

end Counted

end ResumePointers
