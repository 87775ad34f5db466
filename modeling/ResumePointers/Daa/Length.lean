import ResumePointers.Daa.Posters

/-! The length that the posters cover (`find_length` of `DAA/22b0944.cpp`). A piece is added when
the next one begins or when the last poster is looked at, and that is never done with one poster. -/
namespace ResumePointers.Daa
open MeasureTheory

/-- The loop of `find_length`, with the posters from index `i` on; `i == n - 1` at the last one. -/
def lengthLoop (length start stop : ℚ) : List Poster → ℚ
  | [] => length
  | p::posters =>
    if p.1.x ≤ stop then
      let stop := max stop p.2.x
      lengthLoop (if posters = [] then length + (stop - start) else length) start stop posters
    else
      let length := length + (stop - start)
      let start := p.1.x
      let stop := p.2.x
      lengthLoop (if posters = [] then length + (stop - start) else length) start stop posters

/-- There is no `posters[0]` to begin with in an empty vector. -/
def find_length : List Poster → Option ℚ
  | [] => none
  | p::posters => some (lengthLoop 0 p.1.x p.2.x posters)

/-- The points that some poster covers. -/
def covered (posters : List Poster) : Set ℝ := ⋃ p ∈ posters, Set.Icc (p.1.x : ℝ) p.2.x

variable {posters : List Poster} {p : Poster} {length start stop : ℚ}

@[simp] theorem covered_nil : covered [] = ∅ := by simp [covered]

@[simp] theorem covered_cons (p : Poster) (posters : List Poster) :
    covered (p::posters) = Set.Icc (p.1.x : ℝ) p.2.x ∪ covered posters := by
  simp [covered]

theorem measurableSet_covered (posters : List Poster) : MeasurableSet (covered posters) := by
  induction posters with
  | nil => simp
  | cons p posters ih => simpa using measurableSet_Icc.union ih

theorem volume_covered_ne_top (posters : List Poster) : volume (covered posters) ≠ ⊤ := by
  induction posters with
  | nil => simp
  | cons p posters ih =>
    rw [covered_cons]
    exact measure_union_ne_top (by simp) ih

/-- A poster that begins in a piece makes it longer. -/
theorem Icc_union_covered (hwidth : p.1.x < p.2.x) (hstart : start ≤ p.1.x)
    (hstop : p.1.x ≤ stop) : Set.Icc (start : ℝ) stop ∪ covered (p::posters) =
      Set.Icc (start : ℝ) (max stop p.2.x : ℚ) ∪ covered posters := by
  have hunion : Set.Icc (start : ℝ) stop ∪ Set.Icc (p.1.x : ℝ) p.2.x =
      Set.Icc (start : ℝ) (max stop p.2.x : ℚ) := by
    have hmin : min (start : ℝ) p.1.x = start := min_eq_left (by exact_mod_cast hstart)
    have hstop' : (p.1.x : ℝ) ≤ stop := by exact_mod_cast hstop
    have hend : (start : ℝ) ≤ p.2.x := by exact_mod_cast hstart.trans hwidth.le
    rw [Set.Icc_union_Icc' hstop' hend,hmin,Rat.cast_max]
  rw [covered_cons,← Set.union_assoc,hunion]

/-- Posters that begin behind a piece have no part in it. -/
theorem volume_Icc_union_covered (hle : start ≤ stop) (h : ∀ q ∈ posters, stop < q.1.x) :
    volume.real (Set.Icc (start : ℝ) stop ∪ covered posters) =
      (stop - start) + volume.real (covered posters) := by
  have hdisj : ∀ x ∈ Set.Icc (start : ℝ) stop, x ∉ covered posters := by
    intro x hx hcov
    simp only [covered,Set.mem_iUnion] at hcov
    obtain ⟨q,hq,hxq⟩ := hcov
    have hlt : (stop : ℝ) < q.1.x := by exact_mod_cast h q hq
    exact absurd (hlt.trans_le hxq.1) (not_lt.mpr hx.2)
  have hle' : (start : ℝ) ≤ stop := by exact_mod_cast hle
  rw [measureReal_union (Set.disjoint_left.mpr hdisj) (measurableSet_covered posters) (by simp)
    (volume_covered_ne_top posters),Real.volume_real_Icc_of_le hle']

/-- From a piece on, the loop adds what the piece and the other posters cover. -/
theorem lengthLoop_eq (hne : posters ≠ []) (hle : start ≤ stop)
    (hwidth : ∀ p ∈ posters, p.1.x < p.2.x) (hstart : ∀ p ∈ posters, start ≤ p.1.x)
    (hsort : posters.Pairwise fun p q => p.1.x ≤ q.1.x) :
    (lengthLoop length start stop posters : ℝ) =
      length + volume.real (Set.Icc (start : ℝ) stop ∪ covered posters) := by
  induction posters generalizing length start stop with
  | nil => exact absurd rfl hne
  | cons p posters ih =>
    obtain ⟨hp,hwidth'⟩ := List.forall_mem_cons.mp hwidth
    obtain ⟨hsp,-⟩ := List.forall_mem_cons.mp hstart
    obtain ⟨hnext,hsort'⟩ := List.pairwise_cons.mp hsort
    rw [lengthLoop]
    by_cases hstop : p.1.x ≤ stop
    · rw [if_pos hstop,Icc_union_covered hp hsp hstop]
      dsimp only
      have hmax : start ≤ max stop p.2.x := hle.trans (le_max_left _ _)
      by_cases hnil : posters = []
      · have hmax' : (start : ℝ) ≤ (max stop p.2.x : ℚ) := by exact_mod_cast hmax
        subst hnil
        rw [if_pos rfl,lengthLoop,covered_nil,Set.union_empty,Real.volume_real_Icc_of_le hmax']
        push_cast
        ring
      · rw [if_neg hnil]
        exact ih hnil hmax hwidth' (fun q hq => hsp.trans (hnext q hq)) hsort'
    · have hbehind : ∀ q ∈ p::posters, stop < q.1.x := by
        intro q hq
        obtain rfl | hq := List.mem_cons.mp hq
        · exact not_le.mp hstop
        · exact (not_le.mp hstop).trans_le (hnext q hq)
      rw [if_neg hstop,volume_Icc_union_covered hle hbehind,covered_cons]
      dsimp only
      by_cases hnil : posters = []
      · have hp' : (p.1.x : ℝ) ≤ p.2.x := by exact_mod_cast hp.le
        subst hnil
        rw [if_pos rfl,lengthLoop,covered_nil,Set.union_empty,Real.volume_real_Icc_of_le hp']
        push_cast
        ring
      · rw [if_neg hnil,ih hnil hp.le hwidth' hnext hsort']
        push_cast
        ring

theorem find_length_single (p : Poster) : find_length [p] = some 0 := rfl

/-- Of sorted posters the covered length is found if and only if there are two of them. -/
theorem find_length_iff (hne : posters ≠ []) (hwidth : ∀ p ∈ posters, p.1.x < p.2.x)
    (hsort : posters.Pairwise fun p q => p.1.x ≤ q.1.x) :
    (∃ length, find_length posters = some length ∧ (length : ℝ) = volume.real (covered posters)) ↔
      2 ≤ posters.length := by
  obtain ⟨p,posters,rfl⟩ := List.exists_cons_of_ne_nil hne
  obtain ⟨hp,hwidth'⟩ := List.forall_mem_cons.mp hwidth
  obtain ⟨hnext,hsort'⟩ := List.pairwise_cons.mp hsort
  cases posters with
  | nil =>
    refine iff_of_false ?_ (by simp)
    rintro ⟨length,hfind,hlength⟩
    have hp' : (p.1.x : ℝ) < p.2.x := by exact_mod_cast hp
    obtain rfl := Option.some.inj ((find_length_single p).symm.trans hfind)
    rw [covered_cons,covered_nil,Set.union_empty,Real.volume_real_Icc_of_le hp'.le] at hlength
    push_cast at hlength
    linarith
  | cons q posters =>
    refine iff_of_true ⟨_,rfl,?_⟩ (by simp)
    rw [lengthLoop_eq (List.cons_ne_nil q posters) hp.le hwidth' hnext hsort',covered_cons]
    simp

theorem find_length_two : ∃ length, find_length [(⟨0,1⟩,⟨2,1⟩),(⟨1,1⟩,⟨3,1⟩)] = some length ∧
    (length : ℝ) = volume.real (covered [(⟨0,1⟩,⟨2,1⟩),(⟨1,1⟩,⟨3,1⟩)]) :=
  (find_length_iff (by simp) (by norm_num) (by norm_num)).mpr (by simp)

/-- One poster from 0 to 1 is said to cover nothing. -/
theorem find_length_one : find_length [(⟨0,1⟩,⟨1,1⟩)] = some 0 ∧
    volume.real (covered [(⟨0,1⟩,⟨1,1⟩)]) = 1 := by
  refine ⟨rfl,?_⟩
  simp [Real.volume_real_Icc]

end ResumePointers.Daa
