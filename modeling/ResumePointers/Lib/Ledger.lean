import Mathlib.Data.Multiset.Filter
import Mathlib.Data.Multiset.Count
import Mathlib.Algebra.Order.Group.Multiset
import Mathlib.Data.Finset.Card

/-! Free lists and the references held to what they have handed out. A resource of
the pool `M` is on the free list exactly while nobody refers to it. -/
namespace ResumePointers

variable {α : Type*} [DecidableEq α]

/-- The free list `free` and the outstanding references `R` account for the pool `M`. -/
structure Ledger (M : Finset α) (free : List α) (R : Multiset α) : Prop where
  nodup : free.Nodup
  free_mem : ∀ a ∈ free, a ∈ M
  held_mem : ∀ a ∈ R, a ∈ M
  free_iff : ∀ a ∈ M, a ∈ free ↔ a ∉ R

namespace Ledger

variable {M : Finset α} {free : List α} {R : Multiset α} {a : α}

theorem start {free : List α} (h : free.Nodup) : Ledger free.toFinset free 0 where
  nodup := h
  free_mem := by simp
  held_mem := by simp
  free_iff := by simp

omit [DecidableEq α] in
theorem not_held (h : Ledger M free R) (ha : a ∈ free) : a ∉ R :=
  (h.free_iff a (h.free_mem a ha)).mp ha

omit [DecidableEq α] in
theorem not_free (h : Ledger M free R) (ha : a ∈ R) : a ∉ free := fun hf => h.not_held hf ha

/-- Handing out the head of the list creates the first reference to it. -/
theorem pop (h : Ledger M (a::free) R) : Ledger M free (a ::ₘ R) where
  nodup := (List.nodup_cons.mp h.nodup).2
  free_mem b hb := h.free_mem b (List.mem_cons_of_mem a hb)
  held_mem b hb := by
    rcases Multiset.mem_cons.mp hb with rfl | hb
    · exact h.free_mem b (by simp)
    · exact h.held_mem b hb
  free_iff b hb := by
    have hh := h.free_iff b hb
    have hn := (List.nodup_cons.mp h.nodup).1
    by_cases hab : b = a
    · subst hab; simp [hn]
    · simpa [hab] using hh

/-- Giving back the last reference puts the resource on the list. -/
theorem push (h : Ledger M free (a ::ₘ R)) (ha : a ∉ R) : Ledger M (a::free) R where
  nodup := List.nodup_cons.mpr ⟨h.not_free (by simp),h.nodup⟩
  free_mem b hb := by
    rcases List.mem_cons.mp hb with rfl | hb
    · exact h.held_mem b (by simp)
    · exact h.free_mem b hb
  held_mem b hb := h.held_mem b (Multiset.mem_cons_of_mem hb)
  free_iff b hb := by
    have hh := h.free_iff b hb
    by_cases hab : b = a
    · subst hab; simp [ha]
    · simpa [hab] using hh

omit [DecidableEq α] in
theorem mem_cons_of_mem_iff (ha : a ∈ R) {b : α} : b ∈ a ::ₘ R ↔ b ∈ R := by
  rw [Multiset.mem_cons]
  exact or_iff_right_of_imp fun hb => hb ▸ ha

omit [DecidableEq α] in
/-- A reference can be given back while another one remains. -/
theorem unshare (h : Ledger M free (a ::ₘ R)) (ha : a ∈ R) : Ledger M free R where
  nodup := h.nodup
  free_mem := h.free_mem
  held_mem b hb := h.held_mem b (Multiset.mem_cons_of_mem hb)
  free_iff b hb := by rw [h.free_iff b hb,mem_cons_of_mem_iff ha]

omit [DecidableEq α] in
/-- Whoever has a reference can make another one. -/
theorem share (h : Ledger M free R) (ha : a ∈ R) : Ledger M free (a ::ₘ R) where
  nodup := h.nodup
  free_mem := h.free_mem
  held_mem b hb := h.held_mem b ((mem_cons_of_mem_iff ha).mp hb)
  free_iff b hb := by rw [h.free_iff b hb,mem_cons_of_mem_iff ha]

theorem length_le (h : Ledger M free R) : free.length ≤ M.card := by
  rw [← List.toFinset_card_of_nodup h.nodup]
  exact Finset.card_le_card fun b hb => h.free_mem b (List.mem_toFinset.mp hb)

/-- What is not free is referred to. -/
theorem card_le (h : Ledger M free R) : M.card ≤ free.length + R.card := by
  have hs : M.val ≤ (free : Multiset α) + R := (Multiset.le_iff_subset M.nodup).mpr fun b hb => by
    by_cases hR : b ∈ R
    · simp [hR]
    · simp [(h.free_iff b hb).mpr hR]
  simpa using Multiset.card_le_card hs

/-- An empty list means that the whole pool is in use. -/
theorem exhausted (h : Ledger M [] R) : M.card ≤ R.card := by
  simpa using h.card_le

end Ledger

/-- The references split into those that may share a resource, `U`, and those that
are the only one to theirs, `K`. -/
def Sole (U K : Multiset α) : Prop := ∀ a ∈ K, (U + K).count a = 1

namespace Sole

variable {U K : Multiset α} {a : α}

theorem zero : Sole (0 : Multiset α) 0 := by simp [Sole]

theorem not_shared (h : Sole U K) (ha : a ∈ K) : a ∉ U := by
  intro hU
  have h1 := h a ha
  have h2 := Multiset.count_pos.mpr ha
  have h3 := Multiset.count_pos.mpr hU
  rw [Multiset.count_add] at h1
  omega

theorem add_shared (h : Sole U K) (ha : a ∉ K) : Sole (a ::ₘ U) K := by
  intro b hb
  have hba : b ≠ a := fun he => ha (he ▸ hb)
  rw [Multiset.cons_add,Multiset.count_cons_of_ne hba]
  exact h b hb

theorem add_sole (h : Sole U K) (ha : a ∉ U + K) : Sole U (a ::ₘ K) := by
  intro b hb
  rw [Multiset.add_cons]
  by_cases hba : b = a
  · subst hba
    rw [Multiset.count_cons_self,Multiset.count_eq_zero.mpr ha]
  · rw [Multiset.count_cons_of_ne hba]
    exact h b ((Multiset.mem_cons.mp hb).resolve_left hba)

theorem drop_shared (h : Sole (a ::ₘ U) K) : Sole U K := by
  intro b hb
  have h1 := h b hb
  have h2 := Multiset.count_pos.mpr (Multiset.mem_add.mpr (Or.inr hb) : b ∈ U + K)
  rw [Multiset.cons_add,Multiset.count_cons] at h1
  omega

theorem drop_sole (h : Sole U (a ::ₘ K)) : Sole U K := by
  intro b hb
  have h1 := h b (Multiset.mem_cons_of_mem hb)
  have h2 := Multiset.count_pos.mpr (Multiset.mem_add.mpr (Or.inr hb) : b ∈ U + K)
  rw [Multiset.add_cons,Multiset.count_cons] at h1
  omega

theorem nodup (h : Sole U K) : K.Nodup := by
  rw [Multiset.nodup_iff_count_le_one]
  intro b
  by_cases hb : b ∈ K
  · have h1 := h b hb
    rw [Multiset.count_add] at h1
    omega
  · rw [Multiset.count_eq_zero.mpr hb]; omega

end Sole

end ResumePointers
