import ResumePointers.Xv6.Held

/-! The pages that the page allocator has to give: what `freerange` puts on the free list in
`kinit1` and `kinit2`, without the pages that leave between the two. -/
namespace ResumePointers.Xv6

variable [KernelImage]

/-- The pages given to the allocator, but for those in `out`. -/
def pool (out : List Frame) : Finset Frame :=
  (Finset.range (PHYSTOP / PGSIZE)).filter fun f => KernelImage.endPage ≤ f ∧ f ∉ out

omit [KernelImage] in
theorem PHYSTOP_pages : PHYSTOP / PGSIZE = 57344 := by decide

/-- The free list after `kinit2`, when `rest` is left of the pages of `kinit1`. -/
def fullList (rest : List Frame) : List Frame :=
  (List.range' 1024 (PHYSTOP / PGSIZE - 1024)).reverse ++ rest

/-- Every page of the pool is on the list once, and no other. -/
theorem fullList_pool {out rest : List Frame}
    (h : (List.range' KernelImage.endPage (1024 - KernelImage.endPage)).reverse = out ++ rest) :
    (fullList rest).Nodup ∧ (fullList rest).toFinset = pool out ∧ 56320 ≤ (pool out).card := by
  have hend := KernelImage.end_le
  have hphys := PHYSTOP_pages
  have hnd : (out ++ rest).Nodup := by
    rw [← h,List.nodup_reverse]; exact List.nodup_range'
  have hmem : ∀ f : ℕ, f ∈ out ∨ f ∈ rest ↔ KernelImage.endPage ≤ f ∧ f < 1024 := fun f => by
    rw [← List.mem_append,← h,List.mem_reverse,List.mem_range'_1]; omega
  have hdis := List.disjoint_of_nodup_append hnd
  have hfull : (fullList rest).Nodup := by
    rw [fullList,List.nodup_append']
    refine ⟨by rw [List.nodup_reverse]; exact List.nodup_range',(List.nodup_append'.mp hnd).2.1,
      fun (f : ℕ) h1 h2 => ?_⟩
    have h3 := (hmem f).mp (.inr h2)
    rw [List.mem_reverse,List.mem_range'_1] at h1
    omega
  have hpool : (fullList rest).toFinset = pool out := by
    ext (f : ℕ)
    rw [List.mem_toFinset,fullList,List.mem_append,List.mem_reverse,List.mem_range'_1,pool,
      Finset.mem_filter,Finset.mem_range]
    have h1 := hmem f
    constructor
    · rintro (h | h)
      · exact ⟨by omega,by omega,fun ho => by have := h1.mp (.inl ho); omega⟩
      · have h2 := h1.mp (.inr h)
        exact ⟨by omega,h2.1,fun ho => hdis ho h⟩
    · rintro ⟨h3,h2,h4⟩
      by_cases hf : f < 1024
      · exact .inr ((h1.mpr ⟨h2,hf⟩).resolve_left h4)
      · exact .inl ⟨by omega,by omega⟩
  refine ⟨hfull,hpool,?_⟩
  rw [← hpool,List.toFinset_card_of_nodup hfull,fullList,List.length_append,List.length_reverse,
    List.length_range',hphys]
  omega

theorem mem_pool {out : List Frame} {f : Frame} :
    f ∈ pool out ↔ KernelImage.endPage ≤ f ∧ f < PHYSTOP / PGSIZE ∧ f ∉ out := by
  rw [pool,Finset.mem_filter,Finset.mem_range]
  exact and_left_comm

end ResumePointers.Xv6
