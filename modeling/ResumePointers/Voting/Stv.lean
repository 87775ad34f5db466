import ResumePointers.Voting.Ballots
import Mathlib.Data.Finset.Erase
import Mathlib.Order.Interval.Finset.Nat

/-! Single transferable vote: `find_winner` of `q1.py` for `voting_rule == "stv"`. -/
namespace ResumePointers.Voting.Stv

variable {m : ℕ}

/-- The loop over `k`: the first candidate of the rest of a ballot who does not have the score of
those who are out. Past the last candidate, `profiles[j,k]` raises. -/
def highest (candidates : List ℕ) (out : ℕ) : List ℕ → Option ℕ
  | [] => none
  | x::rest => do
    let score ← candidates[x - 1]?
    if score = out then highest candidates out rest else some x

/-- The loop over the ballots. -/
def countRemaining (out : ℕ) : Profiles m → List ℕ → Option (List ℕ)
  | [],candidates => some candidates
  | ballot::profiles,candidates => do
    let x ← highest candidates out ballot.order
    countRemaining out profiles (candidates.modify (x - 1) (· + 1))

/-- The candidate with the least votes gets the score `out`, and the others start again from zero. -/
def eliminate (out : ℕ) (candidates : List ℕ) : Option (List ℕ) := do
  let min_cand ← argmin candidates
  return (candidates.set min_cand out).map fun score => if score = out then score else 0

/-- The loop over the rounds. -/
def rounds (profiles : Profiles m) : ℕ → List ℕ → Option (List ℕ)
  | 0,candidates => some candidates
  | k + 1,candidates => do
    let counted ← countRemaining (profiles.length + 1) profiles candidates
    let next ← eliminate (profiles.length + 1) counted
    rounds profiles k next

/-- `find_winner`; `none` is an exception. -/
def find_winner (profiles : Profiles m) : Option ℕ := do
  let candidates ← rounds profiles (m - 1) (List.replicate m 0)
  let winner ← argmin candidates
  return winner + 1

/-- The number of ballots whose highest candidate in `r` is `x`. -/
def tops (profiles : Profiles m) (r : Finset ℕ) (x : ℕ) : ℕ :=
  profiles.countP fun b => b.order.find? (· ∈ r) = some x

/-- The candidates that remain after some rounds: each time one with the fewest ballots goes, the
first of them. -/
inductive Remain (profiles : Profiles m) : ℕ → Finset ℕ → Prop
  | start : Remain profiles 0 (Finset.Icc 1 m)
  | next {k : ℕ} {r : Finset ℕ} {w : ℕ} (h : Remain profiles k r)
    (hw : FirstMin r (tops profiles r) w) : Remain profiles (k + 1) (r.erase w)

/-- The array in which those of `r` have their votes and the others are out. -/
def scores (m out : ℕ) (r : Finset ℕ) (votes : ℕ → ℕ) : List ℕ :=
  (List.range' 1 m).map fun x => if x ∈ r then votes x else out

variable {profiles : Profiles m} {ballot : Ballot m} {r : Finset ℕ} {votes : ℕ → ℕ} {out w x k : ℕ}

theorem scores_get (hx : x ∈ Set.Icc 1 m) :
    (scores m out r votes)[x - 1]? = some (if x ∈ r then votes x else out) :=
  getElem?_candidates _ hx

/-- The loop stops at the first candidate that remains. -/
theorem highest_eq (hvotes : ∀ x ∈ r, votes x < out) {l : List ℕ} (hl : ∀ x ∈ l, x ∈ Set.Icc 1 m) :
    highest (scores m out r votes) out l = l.find? (· ∈ r) := by
  induction l with
  | nil => rfl
  | cons x l ih =>
    rw [highest,scores_get (hl x List.mem_cons_self),Option.bind_eq_bind,Option.bind_some]
    by_cases hx : x ∈ r
    · rw [if_pos hx,if_neg (hvotes x hx).ne,List.find?_cons_of_pos (by simpa using hx)]
    · rw [if_neg hx,if_pos rfl,List.find?_cons_of_neg (by simpa using hx)]
      exact ih fun y hy => hl y (List.mem_cons_of_mem x hy)

theorem exists_top (hr : r ⊆ Finset.Icc 1 m) (hne : r.Nonempty) (ballot : Ballot m) :
    ∃ x ∈ r, ballot.order.find? (· ∈ r) = some x := by
  obtain ⟨y,hy⟩ := hne
  have hmem : y ∈ ballot.order := Ballot.mem.mpr (Finset.mem_Icc.mp (hr hy))
  obtain ⟨x,hx⟩ := Option.isSome_iff_exists.mp
    (List.find?_isSome.mpr ⟨y,hmem,decide_eq_true hy⟩ : (ballot.order.find? (· ∈ r)).isSome = true)
  have hmem : x ∈ r := by simpa using List.find?_some hx
  exact ⟨x,hmem,hx⟩

theorem modify_scores (hx : x ∈ r) (hr : r ⊆ Finset.Icc 1 m) :
    (scores m out r votes).modify (x - 1) (· + 1) =
      scores m out r fun y => votes y + if x = y then 1 else 0 := by
  rw [scores,modify_candidates _ (Finset.mem_Icc.mp (hr hx)),scores]
  congr 1
  funext y
  by_cases hy : y ∈ r
  · rw [if_pos hy,if_pos hy]
  · rw [if_neg hy,if_neg hy,if_neg (fun he : x = y => hy (he ▸ hx)),Nat.add_zero]

theorem tops_cons (h : ballot.order.find? (· ∈ r) = some x) (y : ℕ) :
    tops (ballot::profiles) r y = (if x = y then 1 else 0) + tops profiles r y := by
  rw [tops,List.countP_cons,h,Nat.add_comm]
  simp [tops]

theorem countRemaining_eq (hr : r ⊆ Finset.Icc 1 m) (hne : r.Nonempty) (profiles : Profiles m)
    (hvotes : ∀ x ∈ r, votes x + profiles.length < out) :
    countRemaining out profiles (scores m out r votes) =
      some (scores m out r fun x => votes x + tops profiles r x) := by
  induction profiles generalizing votes with
  | nil => rfl
  | cons ballot profiles ih =>
    obtain ⟨x,hx,htop⟩ := exists_top hr hne ballot
    have hlt : ∀ x ∈ r, votes x < out := fun x hx => by
      have := hvotes x hx
      omega
    rw [countRemaining,highest_eq hlt fun y hy => Ballot.mem.mp hy,htop,Option.bind_eq_bind,
      Option.bind_some,modify_scores hx hr,ih fun y hy => ?_]
    · simp only [tops_cons htop,Nat.add_assoc]
    · have hy := hvotes y hy
      rw [List.length_cons] at hy
      split <;> omega

theorem tops_le (profiles : Profiles m) (r : Finset ℕ) (x : ℕ) : tops profiles r x ≤ profiles.length :=
  List.countP_le_length

/-- Of the scores, the smallest is one of those that remain. -/
theorem firstMin_scores (hr : r ⊆ Finset.Icc 1 m) (hne : r.Nonempty) (hvotes : ∀ x ∈ r, votes x < out)
    (hw : FirstMin (Set.Icc 1 m) (fun x => if x ∈ r then votes x else out) w) :
    FirstMin (r : Set ℕ) votes w := by
  obtain ⟨-,hle,hfirst⟩ := firstMin_iff.mp hw
  have hmem : w ∈ r := by
    obtain ⟨x,hx⟩ := hne
    by_contra hout
    have hxw := hle x (Finset.mem_Icc.mp (hr hx))
    rw [if_neg hout,if_pos hx] at hxw
    exact absurd (hvotes x hx) hxw.not_gt
  rw [if_pos hmem] at hle hfirst
  refine firstMin_iff.mpr ⟨hmem,fun x hx => ?_,fun x hx heq => ?_⟩
  · have hxw := hle x (Finset.mem_Icc.mp (hr hx))
    rwa [if_pos (Finset.mem_coe.mp hx)] at hxw
  · refine hfirst x (Finset.mem_Icc.mp (hr hx)) ?_
    rw [if_pos (Finset.mem_coe.mp hx),heq]

theorem eliminate_eq (hm : 0 < m) (hr : r ⊆ Finset.Icc 1 m) (hne : r.Nonempty)
    (hvotes : ∀ x ∈ r, votes x < out) :
    ∃ w, FirstMin (r : Set ℕ) votes w ∧
      eliminate out (scores m out r votes) = some (scores m out (r.erase w) fun _ => 0) := by
  obtain ⟨w,hw,hargmin⟩ := argmin_candidates (fun x => if x ∈ r then votes x else out) hm
  refine ⟨w,firstMin_scores hr hne hvotes hw,?_⟩
  rw [eliminate,scores,hargmin,Option.bind_eq_bind,Option.bind_some,
    set_candidates _ _ (firstMin_iff.mp hw).1,List.map_map]
  refine congrArg some (List.map_congr_left fun x _ => ?_)
  simp only [Function.comp_apply]
  by_cases hxw : w = x
  · rw [if_pos hxw,if_pos rfl,if_neg fun hx => Finset.ne_of_mem_erase hx hxw.symm]
  · rw [if_neg hxw]
    by_cases hx : x ∈ r
    · rw [if_pos hx,if_neg (hvotes x hx).ne,if_pos (Finset.mem_erase.mpr ⟨Ne.symm hxw,hx⟩)]
    · rw [if_neg hx,if_pos rfl,if_neg fun he => hx (Finset.mem_of_mem_erase he)]

theorem Remain.subset (h : Remain profiles k r) : r ⊆ Finset.Icc 1 m := by
  induction h with
  | start => exact subset_rfl
  | next h hw ih => exact (Finset.erase_subset _ _).trans ih

/-- Every round takes one candidate. -/
theorem Remain.card (h : Remain profiles k r) : r.card + k = m := by
  induction h with
  | start => simp
  | next h hw ih =>
    have herase := Finset.card_erase_add_one (Finset.mem_coe.mp hw.mem)
    omega

theorem Remain.nonempty (h : Remain profiles k r) (hk : k < m) : r.Nonempty := by
  have hcard := h.card
  exact Finset.card_pos.mp (by omega)

theorem Remain.unique {r' : Finset ℕ} (h : Remain profiles k r) (h' : Remain profiles k r') :
    r = r' := by
  induction h generalizing r' with
  | start =>
    cases h'
    rfl
  | next h hw ih =>
    cases h' with
    | next h' hw' =>
      obtain rfl := ih h'
      rw [hw.unique hw']

/-- Every round leaves the array of those that remain. -/
theorem rounds_eq (hm : 0 < m) {j : ℕ} (h : Remain profiles k r) (hj : k + j < m) :
    ∃ r', Remain profiles (k + j) r' ∧
      rounds profiles j (scores m (profiles.length + 1) r fun _ => 0) =
        some (scores m (profiles.length + 1) r' fun _ => 0) := by
  induction j generalizing k r with
  | zero => exact ⟨r,h,rfl⟩
  | succ j ih =>
    have hne : r.Nonempty := h.nonempty (by omega)
    have hcount := countRemaining_eq h.subset hne profiles fun x _ =>
      (by omega : 0 + profiles.length < profiles.length + 1)
    have hvotes : ∀ x ∈ r, 0 + tops profiles r x < profiles.length + 1 := fun x _ => by
      have hle := tops_le profiles r x
      omega
    obtain ⟨w,hw,helim⟩ := eliminate_eq hm h.subset hne hvotes
    simp only [Nat.zero_add] at hw
    obtain ⟨r',hr',hrounds⟩ := ih (h.next hw) (by omega)
    refine ⟨r',by rwa [Nat.add_comm j,← Nat.add_assoc],?_⟩
    rw [rounds,hcount,Option.bind_eq_bind,Option.bind_some,helim,Option.bind_some]
    exact hrounds

/-- `find_winner` returns the candidate that remains after `m - 1` rounds, and no index leaves a
ballot. -/
theorem find_winner_remains (hm : 0 < m) (profiles : Profiles m) :
    ∃ w, find_winner profiles = some w ∧ ∀ r, Remain profiles (m - 1) r ↔ r = {w} := by
  have hzero : List.replicate m 0 = scores m (profiles.length + 1) (Finset.Icc 1 m) fun _ => 0 := by
    rw [replicate_candidates,scores]
    refine List.map_congr_left fun x hx => (if_pos ?_).symm
    rw [List.mem_range'_1] at hx
    exact Finset.mem_Icc.mpr ⟨hx.1,by omega⟩
  have hstart : Remain profiles 0 (Finset.Icc 1 m) := .start
  obtain ⟨r,hr,hrounds⟩ := rounds_eq (j := m - 1) hm hstart (by omega)
  rw [Nat.zero_add] at hr
  obtain ⟨w,rfl⟩ : ∃ w, r = {w} := by
    have hcard := hr.card
    exact Finset.card_eq_one.mp (by omega)
  obtain ⟨v,hv,hargmin⟩ := argmin_candidates
    (fun x => if x ∈ ({w} : Finset ℕ) then 0 else profiles.length + 1) hm
  have hvw : v = w := by
    have hfirst := firstMin_scores hr.subset (Finset.singleton_nonempty w)
      (fun _ _ => Nat.succ_pos _) hv
    simpa using hfirst.mem
  have hpos : 1 ≤ v := hv.mem.1
  subst hvw
  refine ⟨v,?_,fun r => ⟨fun h => h.unique hr,fun h => h ▸ hr⟩⟩
  rw [find_winner,hzero,hrounds,Option.bind_eq_bind,Option.bind_some,scores,hargmin,
    Option.bind_eq_bind,Option.bind_some,Nat.sub_add_cancel hpos]
  rfl

/-- `1` and `3` have two ballots each; the ballot of `2` goes to `3`. -/
def transferred : Profiles 3 :=
  [[1,2,3],[1,3,2],[2,3,1],[3,2,1],[3,1,2]].filterMap Ballot.ofList?

theorem find_winner_transferred :
    find_winner transferred = some 3 ∧ Remain transferred 2 ({3} : Finset ℕ) := by
  have hthree : find_winner transferred = some 3 := by decide
  obtain ⟨w,hw,hremain⟩ := find_winner_remains (by decide) transferred
  obtain rfl : w = 3 := Option.some_inj.mp (hw.symm.trans hthree)
  exact ⟨hw,(hremain _).mpr rfl⟩

end ResumePointers.Voting.Stv
