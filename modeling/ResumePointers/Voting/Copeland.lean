import ResumePointers.Voting.Ballots
import Mathlib.Algebra.BigOperators.Group.Finset.Basic
import Mathlib.Algebra.Order.BigOperators.Group.Finset
import Mathlib.Algebra.BigOperators.Field
import Mathlib.Order.Interval.Finset.Nat
import Mathlib.Tactic.Linarith

/-! Copeland's rule: `find_winner` of `q1.py` for `voting_rule == "copeland"`. -/
namespace ResumePointers.Voting.Copeland

variable {m : ℕ}

/-- The loop over `j` that writes the places of one ballot into column `i`. -/
def fillBallot (i : ℕ) : List ℕ → ℕ → List (List ℕ) → List (List ℕ)
  | [],_,candidate_ranks => candidate_ranks
  | x::rest,j,candidate_ranks =>
    fillBallot i rest (j + 1) (candidate_ranks.modify (x - 1) fun row => row.set i j)

/-- The loop over the ballots. -/
def fillRanks : Profiles m → ℕ → List (List ℕ) → List (List ℕ)
  | [],_,candidate_ranks => candidate_ranks
  | ballot::profiles,i,candidate_ranks =>
    fillRanks profiles (i + 1) (fillBallot i ballot.order 0 candidate_ranks)

/-- The loop over `k` through two rows of `candidate_ranks`; the counts are `n_i` and `n_j`. -/
def countPair : List ℕ → List ℕ → ℕ → ℕ → ℕ × ℕ
  | a::row_i,b::row_j,n_i,n_j =>
    countPair row_i row_j (if a < b then n_i + 1 else n_i) (if a > b then n_j + 1 else n_j)
  | _,_,n_i,n_j => (n_i,n_j)

/-- The body of the loop over `j`: a point for the winner of the pair, or half a point for both. -/
def scorePair (candidate_ranks : List (List ℕ)) (i : ℕ) (candidates : List ℚ) (j : ℕ) :
    Option (List ℚ) := do
  let row_i ← candidate_ranks[i]?
  let row_j ← candidate_ranks[j]?
  let (n_i,n_j) := countPair row_i row_j 0 0
  if n_i > n_j then return candidates.modify i (· + 1)
  else if n_i < n_j then return candidates.modify j (· + 1)
  else return (candidates.modify i (· + 1 / 2)).modify j (· + 1 / 2)

/-- The loops over `i` and `j`. -/
def scorePairs (candidate_ranks : List (List ℕ)) (m : ℕ) (candidates : List ℚ) : Option (List ℚ) :=
  (List.range m).foldlM (fun candidates i =>
    (List.range i).foldlM (scorePair candidate_ranks i) candidates) candidates

/-- `find_winner`; `none` is an exception. -/
def find_winner (profiles : Profiles m) : Option ℕ := do
  let candidate_ranks := fillRanks profiles 0 (List.replicate m (List.replicate profiles.length 0))
  let candidates ← scorePairs candidate_ranks m (List.replicate m 0)
  let winner ← argmax candidates
  return winner + 1

/-- The number of ballots that prefer `x` to `y`. -/
def support (profiles : Profiles m) (x y : ℕ) : ℕ := profiles.countP fun b => b.Prefers x y

/-- `x` wins the pairwise majority against `y`. -/
def Beats (profiles : Profiles m) (x y : ℕ) : Prop := support profiles y x < support profiles x y

/-- Neither of `x` and `y` has the pairwise majority. -/
def Ties (profiles : Profiles m) (x y : ℕ) : Prop :=
  x ≠ y ∧ support profiles x y = support profiles y x

instance (profiles : Profiles m) (x y : ℕ) : Decidable (Beats profiles x y) :=
  inferInstanceAs (Decidable (_ < _))

instance (profiles : Profiles m) (x y : ℕ) : Decidable (Ties profiles x y) :=
  inferInstanceAs (Decidable (_ ∧ _))

/-- The pairwise wins of `x` and half of the pairwise ties. -/
def points (profiles : Profiles m) (x : ℕ) : ℚ :=
  ((Finset.Icc 1 m).filter (Beats profiles x)).card +
    ((Finset.Icc 1 m).filter (Ties profiles x)).card / 2

/-- What `x` gets from the pair with `y`. -/
def share (profiles : Profiles m) (x y : ℕ) : ℚ :=
  if Beats profiles x y then 1 else if Beats profiles y x then 0 else 1 / 2

/-- The opponents of `z` in the pairs before `(i,j)`. -/
def opponents (m i j z : ℕ) : Finset ℕ :=
  (Finset.Icc 1 m).filter fun y =>
    1 ≤ z ∧ y ≠ z ∧ (y ≤ i ∧ z ≤ i ∨ z = i + 1 ∧ y ≤ j ∨ y = i + 1 ∧ z ≤ j)

/-- The array in which every candidate has his shares against his opponents so far. -/
def table (profiles : Profiles m) (met : ℕ → Finset ℕ) : List ℚ :=
  (List.range' 1 m).map fun z => ∑ y ∈ met z, share profiles z y

variable {profiles : Profiles m} {i j x y z : ℕ}

theorem fillBallot_eq {l : List ℕ} (hl : ∀ x ∈ l, x ∈ Set.Icc 1 m) (hnodup : l.Nodup)
    (f : ℕ → List ℕ) :
    fillBallot i l j ((List.range' 1 m).map f) =
      (List.range' 1 m).map fun y => if y ∈ l then (f y).set i (j + l.idxOf y) else f y := by
  induction l generalizing j f with
  | nil => simp [fillBallot]
  | cons x l ih =>
    obtain ⟨hx,hnodup⟩ := List.nodup_cons.mp hnodup
    rw [fillBallot,modify_entry f _ (hl x List.mem_cons_self),
      ih (fun y hy => hl y (List.mem_cons_of_mem x hy)) hnodup]
    refine List.map_congr_left fun y _ => ?_
    by_cases hxy : x = y
    · subst hxy
      simp [hx]
    · have hmem : y ∈ x::l ↔ y ∈ l := by simp [Ne.symm hxy]
      simp only [if_neg hxy,hmem,List.idxOf_cons_ne l hxy]
      by_cases hy : y ∈ l
      · rw [if_pos hy,if_pos hy,Nat.add_right_comm,Nat.add_assoc]
      · rw [if_neg hy,if_neg hy]

theorem fillRanks_eq (profiles : Profiles m) (f : ℕ → List ℕ) (hf : ∀ x, (f x).length = i) :
    fillRanks profiles i ((List.range' 1 m).map fun x => f x ++ List.replicate profiles.length 0) =
      (List.range' 1 m).map fun x => f x ++ profiles.map fun b => b.order.idxOf x := by
  induction profiles generalizing i f with
  | nil => rfl
  | cons ballot profiles ih =>
    rw [fillRanks,fillBallot_eq (fun x hx => Ballot.mem.mp hx) ballot.nodup]
    have hset (x : ℕ) : (f x ++ List.replicate (ballot::profiles).length 0).set i
        (ballot.order.idxOf x) = (f x ++ [ballot.order.idxOf x]) ++ List.replicate profiles.length 0 := by
      rw [← hf x,List.set_append_right _ _ le_rfl,Nat.sub_self,List.append_assoc]
      rfl
    have hnext := ih (fun x => f x ++ [ballot.order.idxOf x]) (i := i + 1) fun x => by simp [hf x]
    simp only [List.append_assoc,List.singleton_append] at hnext
    rw [List.map_congr_left fun x hx => ?_]
    · exact hnext
    · have hmem : x ∈ ballot.order := Ballot.mem.mpr (by simp at hx ⊢; omega)
      rw [if_pos hmem,Nat.zero_add,hset,List.append_assoc]
      rfl

theorem support_cons (ballot : Ballot m) (x y : ℕ) : support (ballot::profiles) x y =
    (if ballot.Prefers x y then 1 else 0) + support profiles x y := by
  rw [support,List.countP_cons,Nat.add_comm]
  simp [support]

theorem countPair_eq (profiles : Profiles m) (x y n_i n_j : ℕ) :
    countPair (profiles.map fun b => b.order.idxOf x) (profiles.map fun b => b.order.idxOf y)
      n_i n_j = (n_i + support profiles x y,n_j + support profiles y x) := by
  have hite (p : Prop) [Decidable p] (n : ℕ) : (if p then n + 1 else n) = n + if p then 1 else 0 := by
    split <;> rfl
  induction profiles generalizing n_i n_j with
  | nil => rfl
  | cons ballot profiles ih =>
    rw [List.map_cons,List.map_cons,countPair,ih,support_cons,support_cons,hite _ n_i,hite _ n_j,
      Nat.add_assoc,Nat.add_assoc]
    rfl

theorem not_beats_of_beats (h : Beats profiles x y) : ¬ Beats profiles y x := fun h' => lt_asymm h h'

/-- The body of the loop gives both candidates of the pair their shares. -/
theorem scorePair_eq (hi : i < m) (hj : j < m) (candidates : List ℚ) :
    scorePair ((List.range' 1 m).map fun x => profiles.map fun b => b.order.idxOf x) i candidates j =
      some ((candidates.modify i (· + share profiles (i + 1) (j + 1))).modify j
        (· + share profiles (j + 1) (i + 1))) := by
  have hrow (k : ℕ) (hk : k < m) :
      ((List.range' 1 m).map fun x => profiles.map fun b => b.order.idxOf x)[k]? =
        some (profiles.map fun b => b.order.idxOf (k + 1)) :=
    getElem?_candidates (fun x => profiles.map fun b => b.order.idxOf x) (x := k + 1)
      ⟨by omega,by omega⟩
  have hzero (k : ℕ) (a : List ℚ) : a.modify k (· + 0) = a := by
    simp only [add_zero]
    exact List.modify_id k a
  rw [scorePair,hrow i hi,hrow j hj]
  simp only [Option.bind_eq_bind,Option.bind_some,countPair_eq,Nat.zero_add]
  by_cases hij : Beats profiles (i + 1) (j + 1)
  · rw [if_pos (show support profiles (i + 1) (j + 1) > _ from hij),share,if_pos hij,share,
      if_neg (not_beats_of_beats hij),if_pos hij,hzero]
    rfl
  · rw [if_neg (show ¬ support profiles (i + 1) (j + 1) > _ from hij)]
    by_cases hji : Beats profiles (j + 1) (i + 1)
    · rw [if_pos (show support profiles (i + 1) (j + 1) < _ from hji),share,if_neg hij,
        if_pos hji,share,if_pos hji,hzero]
      rfl
    · rw [if_neg (show ¬ support profiles (i + 1) (j + 1) < _ from hji),share,if_neg hij,
        if_neg hji,share,if_neg hji,if_neg hij]
      rfl

theorem modify_table {met : ℕ → Finset ℕ} (hi : i < m) (hy : y ∉ met (i + 1)) :
    (table profiles met).modify i (· + share profiles (i + 1) y) =
      table profiles fun z => if i + 1 = z then insert y (met z) else met z := by
  have hx : i + 1 ∈ Set.Icc 1 m := ⟨by omega,by omega⟩
  have hmodify := modify_entry (fun z => ∑ y ∈ met z, share profiles z y)
    (· + share profiles (i + 1) y) hx
  rw [Nat.add_sub_cancel] at hmodify
  rw [table,hmodify,table]
  refine List.map_congr_left fun z _ => ?_
  by_cases hz : i + 1 = z
  · subst hz
    rw [if_pos rfl,if_pos rfl,Finset.sum_insert hy,add_comm]
  · rw [if_neg hz,if_neg hz]

theorem mem_opponents : y ∈ opponents m i j z ↔
    (1 ≤ y ∧ y ≤ m) ∧ 1 ≤ z ∧ y ≠ z ∧ (y ≤ i ∧ z ≤ i ∨ z = i + 1 ∧ y ≤ j ∨ y = i + 1 ∧ z ≤ j) := by
  rw [opponents,Finset.mem_filter,Finset.mem_Icc]

theorem opponents_succ (hi : i < m) (hj : j < i) (z : ℕ) :
    opponents m i (j + 1) z = if j + 1 = z then insert (i + 1) (opponents m i j z) else
      if i + 1 = z then insert (j + 1) (opponents m i j z) else opponents m i j z := by
  ext y
  split_ifs
  all_goals simp only [Finset.mem_insert,mem_opponents]; omega

/-- One pair more. -/
theorem scorePair_table (hi : i < m) (hj : j < i) :
    scorePair ((List.range' 1 m).map fun x => profiles.map fun b => b.order.idxOf x) i
        (table profiles (opponents m i j)) j = some (table profiles (opponents m i (j + 1))) := by
  have hnew : j + 1 ∉ opponents m i j (i + 1) := by
    rw [mem_opponents]
    omega
  have hnew' : i + 1 ∉ if i + 1 = j + 1 then insert (j + 1) (opponents m i j (j + 1)) else
      opponents m i j (j + 1) := by
    rw [if_neg (by omega),mem_opponents]
    omega
  rw [scorePair_eq hi (hj.trans hi),modify_table hi hnew,modify_table (hj.trans hi) hnew']
  refine congrArg (some ∘ table profiles) (funext fun z => ?_)
  rw [opponents_succ hi hj]
  split_ifs
  · omega
  all_goals rfl

/-- The loop over `j`. -/
theorem inner_eq (hi : i < m) (hj : j ≤ i) :
    (List.range j).foldlM
        (scorePair ((List.range' 1 m).map fun x => profiles.map fun b => b.order.idxOf x) i)
        (table profiles (opponents m i 0)) = some (table profiles (opponents m i j)) := by
  induction j with
  | zero => rfl
  | succ j ih =>
    rw [List.range_succ,List.foldlM_append,ih (by omega),Option.bind_eq_bind,Option.bind_some]
    simpa using scorePair_table hi hj

theorem opponents_next (m i z : ℕ) : opponents m i i z = opponents m (i + 1) 0 z := by
  ext y
  simp only [mem_opponents]
  omega

/-- The loop over `i`. -/
theorem scorePairs_eq (hi : i ≤ m) :
    scorePairs ((List.range' 1 m).map fun x => profiles.map fun b => b.order.idxOf x) i
        (table profiles (opponents m 0 0)) = some (table profiles (opponents m i 0)) := by
  induction i with
  | zero => rfl
  | succ i ih =>
    have ih := ih (by omega)
    rw [scorePairs] at ih ⊢
    rw [List.range_succ,List.foldlM_append,ih,Option.bind_eq_bind,Option.bind_some]
    rw [← funext (opponents_next m i)]
    simpa using inner_eq hi le_rfl

theorem share_eq (h : y ≠ x) : share profiles x y =
    (if Beats profiles x y then 1 else 0) + (if Ties profiles x y then 1 else 0) / 2 := by
  have hties : Ties profiles x y ↔ ¬ Beats profiles x y ∧ ¬ Beats profiles y x := by
    simp only [Ties,Beats]
    omega
  rw [share]
  by_cases hxy : Beats profiles x y
  · rw [if_pos hxy,if_pos hxy,if_neg fun ht => (hties.mp ht).1 hxy]
    norm_num
  · rw [if_neg hxy,if_neg hxy]
    by_cases hyx : Beats profiles y x
    · rw [if_pos hyx,if_neg fun ht => (hties.mp ht).2 hyx]
      norm_num
    · rw [if_neg hyx,if_pos (hties.mpr ⟨hxy,hyx⟩),zero_add]

theorem points_eq (z : ℕ) :
    points profiles z = ∑ y ∈ (Finset.Icc 1 m).erase z, share profiles z y := by
  have hself : (if Beats profiles z z then (1 : ℚ) else 0) +
      (if Ties profiles z z then 1 else 0) / 2 = 0 := by
    simp [Beats,Ties]
  rw [Finset.sum_congr rfl fun y hy => share_eq (Finset.ne_of_mem_erase hy),
    Finset.sum_erase (f := fun y => (if Beats profiles z y then (1 : ℚ) else 0) +
      (if Ties profiles z y then 1 else 0) / 2) _ hself,Finset.sum_add_distrib,← Finset.sum_div,
    Finset.sum_boole,Finset.sum_boole]
  rfl

/-- After all pairs every candidate has his points. -/
theorem table_points :
    table profiles (opponents m m 0) = (List.range' 1 m).map (points profiles) := by
  refine List.map_congr_left fun z hz => ?_
  rw [points_eq]
  congr 1
  ext y
  rw [List.mem_range'_1] at hz
  rw [mem_opponents,Finset.mem_erase,Finset.mem_Icc]
  omega

theorem ranks_eq (profiles : Profiles m) :
    fillRanks profiles 0 (List.replicate m (List.replicate profiles.length 0)) =
      (List.range' 1 m).map fun x => profiles.map fun b => b.order.idxOf x := by
  rw [replicate_candidates]
  exact fillRanks_eq profiles (fun _ => []) fun _ => rfl

/-- A candidate who beats all the others has more points than any of them. -/
theorem points_lt {c : ℕ} (hc : c ∈ Set.Icc 1 m)
    (hbeats : ∀ y ∈ Set.Icc 1 m, y ≠ c → Beats profiles c y) (hx : x ∈ Set.Icc 1 m) (hne : x ≠ c) :
    points profiles x < points profiles c := by
  have hcard {z : ℕ} (hz : z ∈ Set.Icc 1 m) :
      ∑ y ∈ (Finset.Icc 1 m).erase z, (1 : ℚ) = (m - 1 : ℕ) := by
    rw [Finset.sum_const,Finset.card_erase_of_mem (Finset.mem_Icc.mpr hz)]
    simp
  have hone : ∀ y ∈ (Finset.Icc 1 m).erase c, share profiles c y = 1 := fun y hy => by
    obtain ⟨hne,hy⟩ := Finset.mem_erase.mp hy
    exact if_pos (hbeats y (Finset.mem_Icc.mp hy) hne)
  have hle (y : ℕ) : share profiles x y ≤ 1 := by
    rw [share]
    split_ifs <;> norm_num
  have hzero : share profiles x c = 0 := by
    have hcx := hbeats x hx hne
    rw [share,if_neg (not_beats_of_beats hcx),if_pos hcx]
  calc points profiles x = ∑ y ∈ (Finset.Icc 1 m).erase x, share profiles x y := points_eq x
    _ < ∑ y ∈ (Finset.Icc 1 m).erase x, 1 :=
      Finset.sum_lt_sum (fun y _ => hle y)
        ⟨c,Finset.mem_erase.mpr ⟨hne.symm,Finset.mem_Icc.mpr hc⟩,by rw [hzero]; norm_num⟩
    _ = ∑ y ∈ (Finset.Icc 1 m).erase c, 1 := (hcard hx).trans (hcard hc).symm
    _ = points profiles c := by rw [points_eq,Finset.sum_congr rfl hone]

/-- `find_winner` returns the first candidate with the most points, and so the candidate who beats all
the others if there is one. -/
theorem find_winner_points (hm : 0 < m) (profiles : Profiles m) :
    ∃ w, find_winner profiles = some w ∧ FirstMax (Set.Icc 1 m) (points profiles) w ∧
      ∀ c ∈ Set.Icc 1 m, (∀ y ∈ Set.Icc 1 m, y ≠ c → Beats profiles c y) → w = c := by
  obtain ⟨w,hfirst,-,hargmax⟩ := argmax_candidates (points profiles) hm
  have hzero : List.replicate m (0 : ℚ) = table profiles (opponents m 0 0) := by
    have hnone (z : ℕ) : opponents m 0 0 z = ∅ := Finset.eq_empty_of_forall_notMem fun y hy => by
      rw [mem_opponents] at hy
      omega
    simp only [table,hnone,Finset.sum_empty]
    exact replicate_candidates m 0
  refine ⟨w,?_,hfirst,fun c hc hbeats => ?_⟩
  · rw [find_winner,ranks_eq,hzero,scorePairs_eq le_rfl,table_points,Option.bind_eq_bind,
      Option.bind_some,hargmax,Option.bind_eq_bind,Option.bind_some,Nat.sub_add_cancel hfirst.mem.1]
    rfl
  · by_contra hne
    exact absurd (hfirst.le c hc) (points_lt hc hbeats hfirst.mem hne).not_ge

/-- Every candidate beats one of the others: all have one point, and `1` is the first of them. -/
def cycle : Profiles 3 := [[1,2,3],[2,3,1],[3,1,2]].filterMap Ballot.ofList?

theorem find_winner_cycle : ∃ w, find_winner cycle = some w ∧
    FirstMax (Set.Icc 1 3) (points cycle) w ∧
    ∀ c ∈ Set.Icc 1 3, (∀ y ∈ Set.Icc 1 3, y ≠ c → Beats cycle c y) → w = c :=
  find_winner_points (by decide) cycle

end ResumePointers.Voting.Copeland
