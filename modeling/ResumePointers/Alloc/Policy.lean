import Mathlib.Algebra.BigOperators.Group.Finset.Basic
import Mathlib.Algebra.Group.Action.Defs
import Mathlib.Algebra.Order.BigOperators.Group.Finset
import ResumePointers.Alloc.BestFit
import ResumePointers.Alloc.Elastic
import ResumePointers.Alloc.Search

/-! When `ealloc.cpp` maps a page: where the mapped pages have too few free slots in all, in
whatever runs these lie. -/
namespace ResumePointers.Alloc

open Heap

namespace Heap

/-- A mapped page has `req` free slots in a row. -/
def HasRun (s : Heap) (req : ℕ) : Prop :=
  ∃ p < MAXPAGES, s.mem p ≠ 0 ∧ ∃ a, Room (s.bit p) NUM_ELEM req a

/-- All pages are mapped. -/
def Full (s : Heap) : Prop := ∀ j < MAXPAGES, s.mem j ≠ 0

/-- The free slots of the mapped pages. -/
def freeSlots (s : Heap) : ℕ :=
  ∑ j ∈ (Finset.range MAXPAGES).filter (s.mem · ≠ 0), freeIn (s.bit j) 0 NUM_ELEM

/-- A call that ends in `t` maps a page exactly where no mapped page has a run for the request and
not all pages are mapped, and it maps one page at most. -/
structure Grows (s : Heap) (req : ℕ) (t : Heap) : Prop where
  new : (∃ j < MAXPAGES, s.mem j = 0 ∧ t.mem j ≠ 0) ↔ ¬ s.HasRun req ∧ ¬ s.Full
  once : ∀ i < MAXPAGES, ∀ j < MAXPAGES, s.mem i = 0 → t.mem i ≠ 0 → s.mem j = 0 → t.mem j ≠ 0 →
    i = j

instance (s : Heap) (page : ℕ) : Decidable (s.Fresh page) := inferInstanceAs (Decidable (_ ∧ _))

/-- `mmap` succeeds. -/
def Mmaps (op : Op) (s : Heap) : Prop :=
  match op with
  | .alloc _ page => s.Fresh page
  | .dealloc _ => True

instance (op : Op) (s : Heap) : Decidable (Mmaps op s) :=
  match op with
  | .alloc _ page => inferInstanceAs (Decidable (s.Fresh page))
  | .dealloc _ => inferInstanceAs (Decidable True)

variable {s t : Heap} {req page k : ℕ}

theorem Mapped.full_iff (hm : s.Mapped k) : s.Full ↔ k = MAXPAGES := by
  constructor
  · intro h
    by_contra hne
    have hlt : k < MAXPAGES := Nat.lt_of_le_of_ne hm.1 hne
    exact absurd ((hm.2 k hlt).mp (h k hlt)) (lt_irrefl k)
  · rintro rfl j hj
    exact (hm.2 j hj).mpr hj

theorem Mapped.freeSlots (hm : s.Mapped k) :
    s.freeSlots = ∑ j ∈ Finset.range k, freeIn (s.bit j) 0 NUM_ELEM := by
  unfold Heap.freeSlots
  congr 1
  ext j
  rw [Finset.mem_filter,Finset.mem_range,Finset.mem_range]
  constructor
  · rintro ⟨hj,hmem⟩
    exact (hm.2 j hj).mp hmem
  · intro hjk
    have hj := hjk.trans_le hm.1
    exact ⟨hj,(hm.2 j hj).mpr hjk⟩

/-- A run counts with its slots. -/
theorem HasRun.le (h : s.HasRun req) : req ≤ s.freeSlots := by
  obtain ⟨p,hp,hmem,a,hroom⟩ := h
  have hin : p ∈ (Finset.range MAXPAGES).filter (s.mem · ≠ 0) :=
    Finset.mem_filter.mpr ⟨Finset.mem_range.mpr hp,hmem⟩
  exact hroom.le_freeIn.trans
    (Finset.single_le_sum (f := fun j => freeIn (s.bit j) 0 NUM_ELEM) (fun _ _ => Nat.zero_le _) hin)

theorem sum_free_le (s : Heap) (k : ℕ) :
    ∑ j ∈ Finset.range k, freeIn (s.bit j) 0 NUM_ELEM ≤ k * NUM_ELEM := by
  refine (Finset.sum_le_card_nsmul _ _ NUM_ELEM fun j _ => freeIn_le).trans_eq ?_
  rw [Finset.card_range,smul_eq_mul]

/-- The scan of the mapped pages takes nothing exactly where they have too few free slots. -/
theorem scans_off (hreq : 0 < req) (hk : k ≤ MAXPAGES) : (s.scans req k).off = -1 ↔
    ∑ j ∈ Finset.range k, freeIn (s.bit j) 0 NUM_ELEM < req := by
  have hseek : ∀ j, Seeks req (∑ i ∈ Finset.range j, freeIn (s.bit i) 0 NUM_ELEM) (s.scans req j) := by
    intro j
    induction j with
    | zero => exact .start
    | succ j ih =>
      rw [scans_succ,Finset.sum_range_succ]
      exact page_seeks_next (by omega) ih
  cases k with
  | zero => exact iff_of_true rfl hreq
  | succ k =>
    have hmax : ((∑ i ∈ Finset.range (k + 1), freeIn (s.bit i) 0 NUM_ELEM : ℕ) : ℤ) ≤ INT32_MAX := by
      have h1 := sum_free_le s (k + 1)
      have h2 : (k + 1) * NUM_ELEM ≤ MAXPAGES * NUM_ELEM := Nat.mul_le_mul_right _ hk
      have h3 : ((MAXPAGES * NUM_ELEM : ℕ) : ℤ) ≤ INT32_MAX := by decide
      omega
    rw [Finset.sum_range_succ] at hmax ⊢
    rw [scans_succ]
    rcases page_seeks (j := k) (hseek k) hmax with ⟨hoff,hfew⟩ | ⟨hoff,-,hle⟩
    · exact iff_of_true hoff (by omega)
    · exact iff_of_false (by omega) (by omega)

/-- The end of `alloc` leaves the pages as they are. -/
theorem enter_mem (req : ℤ) (scan : Scan) : Post (enter req scan) s
    (fun r t => r ≠ none ∧ t.mem = s.mem) fun _ t => t.mem = s.mem := by
  simp only [enter,post_bind,post_get,post_set,onBitmap,post_zoom,post_pure]
  unfold Post
  split
  · exact ⟨by simp,trivial⟩
  · trivial

/-- `alloc` maps the next page if its scan takes nothing and there is one, and no page else. -/
theorem alloc_maps {sz : ℤ} {mem : ℕ → ℕ} (hm : s.Mapped k) (hmod : sz.tmod MINALLOC = 0)
    (hmem : mem = if (s.scans (sz.tdiv MINALLOC) k).off = -1 ∧ k < MAXPAGES
      then Function.update s.mem k page else s.mem) :
    Post (alloc sz page) s (fun r t => t.mem = mem ∧
      (r = none → (s.scans (sz.tdiv MINALLOC) k).off = -1 ∧ k = MAXPAGES)) fun _ t => t.mem = mem := by
  have hno : ¬ sz.tmod MINALLOC ≠ 0 := not_not.mpr hmod
  simp only [alloc,if_neg hno,post_bind]
  refine (pages_spec page _ hm).post ?_
  rintro scan t (⟨ht,rfl,hfull⟩ | ⟨hk,hoff,hzero,-,rfl⟩)
  · obtain rfl := ht.symm
    split
    · rename_i hoff
      rw [if_neg fun h => absurd (hfull hoff) h.2.ne] at hmem
      exact ⟨hmem.symm,fun _ => ⟨hoff,hfull hoff⟩⟩
    · rename_i hoff
      rw [if_neg fun h => hoff h.1] at hmem
      rw [hmem]
      exact (enter_mem _ _).mono (fun r t h => ⟨h.2,fun hr => (h.1 hr).elim⟩) fun _ _ h => h
  · rw [if_pos ⟨hoff,hk⟩] at hmem
    rw [if_neg (by omega),hmem]
    exact (enter_mem _ _).mono (fun r t h => ⟨h.2,fun hr => (h.1 hr).elim⟩) fun _ _ h => h

theorem step_mapped (op : Op) (hm : ∃ k, s.Mapped k) (hok : Mmaps op s) :
    Partial (step op) s fun _ t => ∃ k, t.Mapped k := by
  obtain ⟨k,hm⟩ := hm
  have hkeep : ∀ {t : Heap}, t.mem = s.mem → ∃ k, t.Mapped k := fun ht => ⟨k,hm.1,ht ▸ hm.2⟩
  cases op with
  | alloc sz page =>
    by_cases hmod : sz.tmod MINALLOC = 0
    · refine (@alloc_maps s page k _ _ hm hmod rfl).mono (fun r t h => ?_) fun _ _ _ => trivial
      by_cases hnew : (s.scans (sz.tdiv MINALLOC) k).off = -1 ∧ k < MAXPAGES
      · rw [if_pos hnew] at h
        refine ⟨k + 1,hnew.2,fun j hj => ?_⟩
        rw [h.1]
        by_cases hjk : j = k
        · subst hjk
          rw [Function.update_self]
          exact iff_of_true hok.1 (Nat.lt_succ_self j)
        · rw [Function.update_of_ne hjk,hm.2 j hj]
          omega
      · rw [if_neg hnew] at h
        exact hkeep h.1
    · simp only [step,alloc,if_pos hmod]
      exact ⟨k,hm⟩
  | dealloc ptr =>
    simp only [step,dealloc,Partial,post_map,post_bind,post_get]
    cases s.ptr_to_sz_pg ptr with
    | none => exact ⟨k,hm⟩
    | some nb =>
      simp only [post_bind,onBitmap,post_zoom,post_modify]
      refine Partial.of_forall fun _ _ => ?_
      split
      · trivial
      · exact hkeep rfl

end Heap

/-- The runs of a program that calls `alloc` and `dealloc` with whatever arguments. -/
abbrev HeapReach : Heap → Prop :=
  Reach Heap.step Heap.Mmaps fun s => ∃ ram, s = Heap.init_alloc ram

variable {s : Heap} {req page : ℕ}

theorem heap_reach_mapped (h : HeapReach s) : ∃ k, s.Mapped k :=
  h.invariant (I := fun s => ∃ k, s.Mapped k)
    (fun _ ⟨ram,hs⟩ => hs ▸ (Heap.init_tiled ram).mapped) fun op _ hi ho => step_mapped op hi ho

theorem Heap.Mapped.grows_new {k : ℕ} {t : Heap} (hm : s.Mapped k) (hk : k < MAXPAGES)
    (hpage : page ≠ 0) (ht : t.mem = Function.update s.mem k page) (hrun : ¬ s.HasRun req) :
    s.Grows req t := by
  have hnull : s.mem k = 0 := by
    by_contra hne
    exact absurd ((hm.2 k hk).mp hne) (lt_irrefl k)
  have honly : ∀ j, s.mem j = 0 → t.mem j ≠ 0 → j = k := fun j h0 h1 => by
    by_contra hjk
    rw [ht,Function.update_of_ne hjk] at h1
    exact h1 h0
  refine ⟨iff_of_true ⟨k,hk,hnull,?_⟩ ⟨hrun,fun h => h k hk hnull⟩,fun i _ j _ hi hi' hj hj' => ?_⟩
  · rw [ht,Function.update_self]
    exact hpage
  · rw [honly i hi hi',honly j hj hj']

theorem grows_kept {t : Heap} (ht : t.mem = s.mem) : s.Grows req t ↔ s.Full ∨ s.HasRun req := by
  have hno : ∀ j, s.mem j = 0 → ¬ t.mem j ≠ 0 := fun j h0 h1 => h1 (by rw [ht,h0])
  constructor
  · intro h
    by_contra hor
    obtain ⟨hfull,hrun⟩ := not_or.mp hor
    obtain ⟨j,-,h0,h1⟩ := h.new.mpr ⟨hrun,hfull⟩
    exact hno j h0 h1
  · intro h
    refine ⟨iff_of_false ?_ fun h' => h.elim h'.2 h'.1,fun i _ j _ hi hi' => (hno i hi hi').elim⟩
    rintro ⟨j,-,h0,h1⟩
    exact hno j h0 h1

/-- The policy on new pages holds of a call exactly where all pages are mapped, a mapped page has a
run for the request, or the mapped pages have too few free slots for it even together. -/
theorem growth_policy_iff (h : HeapReach s) (hreq : 0 < req) (hf : s.Fresh page) :
    (Post (alloc (req * MINALLOC) page) s
      (fun r t => s.Grows req t ∧ (r = none → s.Full ∧ ¬ s.HasRun req)) fun _ t => s.Grows req t) ↔
    s.Full ∨ s.HasRun req ∨ s.freeSlots < req := by
  obtain ⟨k,hm⟩ := heap_reach_mapped h
  have hspec := @alloc_maps s page k _ _ hm (Int.mul_tmod_left req MINALLOC) rfl
  rw [Int.mul_tdiv_cancel _ (by decide)] at hspec
  have hoff := scans_off (s := s) hreq hm.1
  rw [← hm.freeSlots] at hoff
  have hfew : s.freeSlots < req → ¬ s.HasRun req := fun hlt hrun => absurd hrun.le (by omega)
  by_cases hnew : s.freeSlots < req ∧ k < MAXPAGES
  · rw [if_pos (hnew.imp_left hoff.mpr)] at hspec
    have hgrows := fun t ht => hm.grows_new (t := t) hnew.2 hf.1 ht (hfew hnew.1)
    refine iff_of_true ?_ (.inr (.inr hnew.1))
    refine hspec.mono (fun r t ht => ⟨hgrows t ht.1,fun hr => ?_⟩) fun _ t ht => hgrows t ht
    exact absurd (ht.2 hr).2 hnew.2.ne
  · rw [if_neg fun h => hnew (h.imp_left hoff.mp)] at hspec
    constructor
    · intro hpost
      have hany : s.Full ∨ s.HasRun req := (hspec.and hpost).mono
        (fun r t h => (grows_kept h.1.1).mp h.2.1) (fun _ t h => (grows_kept h.1).mp h.2) |>.const
      exact hany.imp_right .inl
    · intro hor
      have hany : s.Full ∨ s.HasRun req := by
        rcases hor with hfull | hrun | hlt
        · exact .inl hfull
        · exact .inr hrun
        · refine .inl (hm.full_iff.mpr ?_)
          have := hm.1
          omega
      refine hspec.mono (fun r t h => ⟨(grows_kept h.1).mpr hany,fun hr => ?_⟩)
        fun _ t h => (grows_kept h).mpr hany
      obtain ⟨hnone,hk⟩ := h.2 hr
      exact ⟨hm.full_iff.mpr hk,hfew (hoff.mp hnone)⟩

theorem growth_policy_iff_first :
    (Post (alloc ((1 : ℕ) * MINALLOC) 0x1000) (Heap.init_alloc fun _ => 0)
      (fun r t => (Heap.init_alloc fun _ => 0).Grows 1 t ∧ (r = none →
        (Heap.init_alloc fun _ => 0).Full ∧ ¬ (Heap.init_alloc fun _ => 0).HasRun 1))
      fun _ t => (Heap.init_alloc fun _ => 0).Grows 1 t) ∧
    (Heap.init_alloc fun _ => 0).freeSlots < 1 := by
  have hm : (Heap.init_alloc fun _ => 0).Mapped 0 :=
    ⟨Nat.zero_le _,fun j _ => iff_of_false (fun h => h rfl) (Nat.not_lt_zero j)⟩
  have hfew : (Heap.init_alloc fun _ => 0).freeSlots < 1 := by
    rw [hm.freeSlots,Finset.sum_range_zero]
    exact Nat.one_pos
  have hinit : HeapReach (Heap.init_alloc fun _ => 0) := .init ⟨_,rfl⟩
  have hf : (Heap.init_alloc fun _ => 0).Fresh 0x1000 := ⟨by decide,fun j _ h => (h rfl).elim⟩
  refine ⟨?_,hfew⟩
  rw [growth_policy_iff hinit Nat.one_pos hf]
  exact .inr (.inr hfew)

/-- The mapped page has no 511 free slots in a row, but slot 0 and the slots from 2 on are free. No
page is mapped, and slot 1 is given out a second time. -/
theorem split_page_is_taken : ∃ s t, HeapReach s ∧ s.Fresh 0x2000 ∧
    alloc 4088 0x2000 s = .ok (some 0x1000) t ∧ ¬ s.Grows 511 t := by
  have hinit : HeapReach (Heap.init_alloc fun _ => 0) := .init ⟨_,rfl⟩
  obtain ⟨s,hs,hp⟩ := exists_of_reaches hinit (by decide +kernel :
    reaches Heap.step Heap.Mmaps (fun s => decide (s.Fresh 0x2000 ∧ s.bit 0 1 = false ∧
        s.mem 0 = 0x1000 ∧ s.mem 1 = 0 ∧ s.mem 2 = 0 ∧ s.mem 3 = 0) &&
      returns (alloc 4088 0x2000) s fun r t => decide
        (r = some 0x1000 ∧ t.mem 1 = 0 ∧ t.mem 2 = 0 ∧ t.mem 3 = 0))
      [.alloc 8 0x1000,.alloc 8 0x2000,.dealloc 0x1000] (Heap.init_alloc fun _ => 0) = true)
  obtain ⟨hd,hret⟩ := (Bool.and_eq_true _ _).mp hp
  obtain ⟨hf,hused,h0,h1,h2,h3⟩ := of_decide_eq_true hd
  obtain ⟨r,t,hok,hd⟩ := exists_of_returns hret
  obtain ⟨rfl,ht1,ht2,ht3⟩ := of_decide_eq_true hd
  refine ⟨s,t,hs,hf,hok,fun hgrows => ?_⟩
  have hcase : ∀ j < MAXPAGES, j = 0 ∨ j = 1 ∨ j = 2 ∨ j = 3 := by decide
  have hrun : ¬ s.HasRun 511 := by
    rintro ⟨p,hp,hmem,a,hle,hfree⟩
    rcases hcase p hp with rfl | rfl | rfl | rfl
    · simp only [NUM_ELEM,PAGESIZE,MINALLOC] at hle
      rw [hfree 1 (by omega) (by omega)] at hused
      cases hused
    · exact hmem h1
    · exact hmem h2
    · exact hmem h3
  obtain ⟨j,hj,hs0,hne⟩ := hgrows.new.mpr ⟨hrun,fun hfull => hfull 1 (by decide) h1⟩
  rcases hcase j hj with rfl | rfl | rfl | rfl
  · rw [h0] at hs0
    cases hs0
  · exact hne ht1
  · exact hne ht2
  · exact hne ht3

end ResumePointers.Alloc
