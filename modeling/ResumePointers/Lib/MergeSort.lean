import Mathlib

/-! The stable merge sort of a list, cut in halves and seen at the elements that are equivalent. -/
namespace ResumePointers.MergeSort

variable {α : Type*} {le : α → α → Bool} {l as bs : List α}

theorem exists_halves (h : 2 ≤ l.length) : ∃ as bs : List α, l = as ++ bs ∧ 0 < bs.length ∧
    bs.length ≤ as.length ∧ as.length ≤ bs.length + 1 := by
  refine ⟨l.take ((l.length + 1) / 2),l.drop ((l.length + 1) / 2),
    (List.take_append_drop ..).symm,?_⟩
  rw [List.length_take,List.length_drop]
  omega

/-- What holds of the lists of one element and of a list when it holds of its halves. -/
@[elab_as_elim]
theorem halves_induction {motive : (l : List α) → l ≠ [] → Prop}
    (single : ∀ x, motive [x] (List.cons_ne_nil x []))
    (append : ∀ as bs (has : as ≠ []) (hbs : bs ≠ []), bs.length ≤ as.length →
      as.length ≤ bs.length + 1 → motive as has → motive bs hbs →
      motive (as ++ bs) (List.append_ne_nil_of_left_ne_nil has bs))
    (l : List α) (hl : l ≠ []) : motive l hl := by
  induction hn : l.length using Nat.strong_induction_on generalizing l with
  | _ n ih =>
    have hpos := List.length_pos_iff.mpr hl
    by_cases hlt : 2 ≤ l.length
    · obtain ⟨as,bs,rfl,hbs,hle,hle'⟩ := exists_halves hlt
      rw [List.length_append] at hn
      exact append as bs (List.ne_nil_of_length_pos (by omega)) (List.ne_nil_of_length_pos hbs) hle
        hle' (ih as.length (by omega) as _ rfl) (ih bs.length (by omega) bs _ rfl)
    · obtain ⟨x,rfl⟩ := List.length_eq_one_iff.mp (show l.length = 1 by omega)
      exact single x

/-- The first part is as long as the second or longer by one. -/
theorem mergeSort_append (hbs : 0 < bs.length) (hle : bs.length ≤ as.length)
    (hle' : as.length ≤ bs.length + 1) :
    (as ++ bs).mergeSort le = (as.mergeSort le).merge (bs.mergeSort le) le := by
  have hlen : (as ++ bs).length = as.length + bs.length := List.length_append
  have hhalf : ((as ++ bs).length + 1) / 2 = as.length := by omega
  rcases hcut : as ++ bs with - | ⟨x,- | ⟨y,zs⟩⟩
  · rw [hcut,List.length_nil] at hlen
    omega
  · rw [hcut,List.length_singleton] at hlen
    omega
  · rw [List.mergeSort]
    simp only [List.MergeSort.Internal.splitInTwo_fst,List.MergeSort.Internal.splitInTwo_snd]
    rw [← hcut,hhalf,List.take_left,List.drop_left]

/-- Elements that are all in order with each other stay in their order. -/
theorem filter_mergeSort (trans : ∀ a b c, le a b → le b c → le a c)
    (total : ∀ a b, le a b || le b a) {p : α → Bool} (hp : ∀ a b, p a → p b → le a b) :
    (l.mergeSort le).filter p = l.filter p := by
  have hpair : (l.filter p).Pairwise fun a b => le a b := by
    apply List.pairwise_of_forall_mem_list
    intro a ha b hb
    exact hp a b (List.mem_filter.mp ha).2 (List.mem_filter.mp hb).2
  have hsub : (l.filter p).Sublist ((l.mergeSort le).filter p) := by
    have := (List.sublist_mergeSort trans total hpair List.filter_sublist).filter p
    simpa using this
  exact (hsub.eq_of_length ((List.mergeSort_perm l le).filter p).length_eq.symm).symm

end ResumePointers.MergeSort
