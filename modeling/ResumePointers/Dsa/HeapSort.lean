import ResumePointers.Dsa.Heap
import ResumePointers.Lib.BuildHeap

/-! `buildHeap` and `heapSort` of `dsa/heap/heap.cpp`, on an array that is in no order. -/
namespace ResumePointers.Dsa.BinaryHeap

/-- The heap with its size set to `n`. -/
def Heap.sized (h : Heap) (n : ℕ) : Heap := { h with sz := n }

variable {h u : Heap} {i n m : ℕ}

theorem heapify_spec (hs : h.sz ≤ h.store.length) (hi : i < h.sz ∨ i = 0) :
    Total (heapify i) h fun _ u => Permuted h u ∧ u.entry = siftDown h.entry h.sz i := by
  rw [heapify,Total,post_bind,post_get]
  exact heapifyLoop_spec hs hi (by omega)

/-- What exchanges below `sz` leave as it was, they leave so in a longer part of the array. -/
theorem Permuted.extend (hp : Permuted h u) (hn : h.sz ≤ n) (hlen : n ≤ h.store.length) :
    Permuted (h.sized n) (u.sized n) where
  sz := rfl
  length := hp.length
  contents := by
    have hsplit (v : Heap) : v.store.take n = v.store.take h.sz ++ (v.store.take n).drop h.sz := by
      have := List.take_append_drop h.sz (v.store.take n)
      rw [List.take_take,Nat.min_eq_left hn] at this
      exact this.symm
    have hrest : (u.store.take n).drop h.sz = (h.store.take n).drop h.sz := by
      refine List.ext_getElem (by simp [hp.length]) fun k hk hk' => ?_
      rw [List.length_drop,List.length_take] at hk'
      have hlt : h.sz + k < u.store.length := by
        rw [hp.length]
        omega
      have hentry := hp.rest (h.sz + k) (Nat.le_add_right ..)
      rw [Heap.entry,Heap.entry,getElem!_pos u.store _ hlt,getElem!_pos h.store _ (by omega)] at hentry
      simpa using hentry
    have hfront := hp.contents
    rw [BinaryHeap.contents,BinaryHeap.contents,hp.sz] at hfront
    rw [BinaryHeap.contents,BinaryHeap.contents]
    change ((u.store.take n : List ℤ) : Multiset ℤ) = (h.store.take n : List ℤ)
    rw [hsplit u,hsplit h,hrest,← Multiset.coe_add,hfront,Multiset.coe_add]
  rest i hi := hp.rest i (hn.trans hi)

/-- `deleteMax` exchanges entries of the heap only. -/
theorem deleteMax_kept (hs : h.sz ≤ h.store.length) (hn : h.sz = n + 1) :
    Total deleteMax h fun _ u => Permuted h (u.sized h.sz) := by
  have hne : 0 < h.sz := by omega
  have hperm := exchange_permuted hs hne (by omega : n < h.sz)
  have hlen : n + 1 ≤ (h.exchange 0 n).store.length := by
    rw [hperm.length]
    omega
  rw [deleteMax,Total,post_bind,post_get,hn,Nat.add_sub_cancel,post_bind,
    post_countedSwap hs hne (by omega),post_bind,post_modify,hperm.sz,hn,Nat.add_sub_cancel]
  refine Post.imp (@heapify_spec ((h.exchange 0 n).sized n) 0 (Nat.le_of_succ_le hlen) (.inr rfl))
    fun _ u hu => ?_
  have hkept := hu.1.extend (Nat.le_succ n) hlen
  refine Permuted.trans ?_ hkept
  have hsame : ((h.exchange 0 n).sized n).sized (n + 1) = h.exchange 0 n := by
    rw [← hn]
    rfl
  exact hsame.symm ▸ hperm

/-- A heap in front of entries in order, none of which is smaller than one in the heap; the array
has the first `n` entries that `h` had. -/
structure Sorting (h : Heap) (n : ℕ) (u : Heap) : Prop where
  valid : Valid u
  le : u.sz ≤ n
  kept : Permuted (h.sized n) (u.sized n)
  ascending : ∀ i j, i < j → j < n → u.sz ≤ j → u.entry i ≤ u.entry j

theorem mem_contents (hs : h.sz ≤ h.store.length) {x : ℤ} :
    x ∈ contents h ↔ ∃ i < h.sz, h.entry i = x := by
  rw [contents,Multiset.mem_coe,List.mem_iff_getElem]
  constructor
  · rintro ⟨i,hi,rfl⟩
    rw [List.length_take] at hi
    exact ⟨i,by omega,by rw [Heap.entry,getElem!_pos h.store i (by omega),List.getElem_take]⟩
  · rintro ⟨i,hi,rfl⟩
    have hlt : i < (h.store.take h.sz).length := by
      rw [List.length_take]
      omega
    exact ⟨i,hlt,by rw [Heap.entry,getElem!_pos h.store i (by omega),List.getElem_take]⟩

/-- `deleteMax` puts the next entry in its place. -/
theorem Sorting.step (hu : Sorting h n u) (hn : n ≤ h.store.length) (hm : u.sz = m + 1) :
    Total deleteMax u fun _ v => Sorting h n v ∧ v.sz = m := by
  have hs := hu.valid.sized
  have hlen : n ≤ u.store.length := hn.trans_eq hu.kept.length.symm
  have hle := hu.le
  refine ((deleteMax_spec hu.valid hm).and_post (deleteMax_kept hs hm)).imp fun _ v hv => ?_
  obtain ⟨⟨hvalid,htakes,hsz,-⟩,hkept⟩ := hv
  have hfront : ∀ i < u.sz, ∃ k < u.sz, u.entry k = v.entry i := by
    intro i hi
    have hmem : v.entry i ∈ contents (v.sized u.sz) := (mem_contents (hkept.sized hs)).mpr ⟨i,hi,rfl⟩
    rw [hkept.contents] at hmem
    exact (mem_contents hs).mp hmem
  have hmore := hkept.extend hle hlen
  refine ⟨⟨hvalid,by omega,hu.kept.trans hmore,fun i j hij hj hvj => ?_⟩,hsz⟩
  by_cases hlast : j = m
  · obtain ⟨k,hk,hki⟩ := hfront i (by omega)
    rw [hlast,← hsz,← hki]
    exact htakes.max _ ((mem_contents hs).mpr ⟨k,hk,rfl⟩)
  · have hjrest : v.entry j = u.entry j := hkept.rest j (by omega)
    rw [hjrest]
    by_cases hi : i < u.sz
    · obtain ⟨k,hk,hki⟩ := hfront i hi
      rw [← hki]
      exact hu.ascending k j (by omega) hj (by omega)
    · have hirest : v.entry i = u.entry i := hkept.rest i (by omega)
      rw [hirest]
      exact hu.ascending i j hij hj (by omega)

end ResumePointers.Dsa.BinaryHeap
