import ResumePointers.Voting.Ballots

/-! Plurality: `find_winner` and `check_manipulable` of `q1.py` for
`voting_rule == "plurality"`. -/
namespace ResumePointers.Voting.Plurality

variable {m : ℕ} {profiles : Profiles m} {f : ℕ → ℕ} {w x : ℕ}

/-- The loop `candidates[profiles[i,0] - 1] += 1`. -/
def countFirst : Profiles m → List ℕ → Option (List ℕ)
  | [],candidates => some candidates
  | ballot::profiles,candidates => do
    let first ← ballot.order[0]?
    countFirst profiles (candidates.modify (first - 1) (· + 1))

/-- `find_winner`; `none` is the exception `np.argmax` or `profiles[i,0]` raises. -/
def find_winner (profiles : Profiles m) : Option ℕ := do
  let candidates ← countFirst profiles (List.replicate m 0)
  let winner_index ← argmax candidates
  return winner_index + 1

/-- The loop of `check_manipulable` over the voters. The inner loop goes from `j = 1` to the
first candidate with `winner_score` votes. -/
def anyDiverts (candidates : List ℕ) (winner_score winner : ℕ) : Profiles m → Option Bool
  | [] => some false
  | ballot::profiles => do
    let first ← ballot.order[0]?
    if first = winner + 1 then anyDiverts candidates winner_score winner profiles
    else do
      let other ← ballot.order.tail.find? fun x => candidates[x - 1]? = some winner_score
      if other = winner + 1 then anyDiverts candidates winner_score winner profiles
      else some true

/-- `check_manipulable` -/
def check_manipulable (profiles : Profiles m) : Option Bool := do
  let candidates ← countFirst profiles (List.replicate m 0)
  let winner_score ← candidates.max?
  let winner ← argmax candidates
  if candidates.count winner_score = 1 then some false
  else anyDiverts candidates winner_score winner profiles

/-- Some voter can replace his ballot so that the winner is one he prefers. -/
def Manipulable (profiles : Profiles m) : Prop :=
  ∃ (i : ℕ) (truth lie : Ballot m) (winner winner' : ℕ), profiles[i]? = some truth ∧
    find_winner profiles = some winner ∧ find_winner (profiles.set i lie) = some winner' ∧
    truth.Prefers winner' winner

/-- The number of ballots with `x` at the top. -/
def votes (profiles : Profiles m) (x : ℕ) : ℕ := profiles.countP fun b => b.order[0]? = some x

/-- Some voter prefers to the winner a candidate other than the top of his ballot
which is so `Close` to the winner. -/
def Coveted (Close : (ℕ → ℕ) → ℕ → ℕ → Prop) (profiles : Profiles m) : Prop :=
  ∃ ballot ∈ profiles, ∃ winner x, FirstMax (Set.Icc 1 m) (votes profiles) winner ∧
    ballot.Prefers x winner ∧ ballot.order[0]? ≠ some x ∧ Close (votes profiles) winner x

/-- `x` has as many votes as the winner. -/
def Tied (f : ℕ → ℕ) (winner x : ℕ) : Prop := f x = f winner

/-- `x` has one vote less and the lower index. -/
def OneBehind (f : ℕ → ℕ) (winner x : ℕ) : Prop := f x + 1 = f winner ∧ x < winner

theorem votes_cons (ballot : Ballot m) (h : ballot.order[0]? = some x) (y : ℕ) :
    votes (ballot::profiles) y = (if x = y then 1 else 0) + votes profiles y := by
  rw [votes,List.countP_cons,h,Nat.add_comm]
  simp [votes]

theorem countFirst_eq (hm : 0 < m) (profiles : Profiles m) (f : ℕ → ℕ) :
    countFirst profiles ((List.range' 1 m).map f) =
      some ((List.range' 1 m).map fun x => f x + votes profiles x) := by
  induction profiles generalizing f with
  | nil => rfl
  | cons ballot profiles ih =>
    obtain ⟨first,hfirst⟩ := ballot.exists_first hm
    rw [countFirst,hfirst,Option.bind_eq_bind,Option.bind_some,
      modify_candidates f (Ballot.first_mem hfirst),ih]
    simp only [votes_cons ballot hfirst,Nat.add_assoc]

theorem candidates_eq (hm : 0 < m) (profiles : Profiles m) :
    countFirst profiles (List.replicate m 0) = some ((List.range' 1 m).map (votes profiles)) := by
  rw [replicate_candidates,countFirst_eq hm]
  simp only [Nat.zero_add]

/-- Without candidates a ballot has no top. -/
theorem candidates_empty (profiles : Profiles 0) :
    countFirst profiles [] = none ∨ countFirst profiles [] = some [] := by
  cases profiles with
  | nil => exact .inr rfl
  | cons ballot profiles =>
    have hnil : ballot.order = [] := List.Perm.eq_nil ballot.complete
    simp [countFirst,hnil]

theorem not_firstMax_empty (f : ℕ → ℕ) (w : ℕ) : ¬ FirstMax (Set.Icc 1 0) f w :=
  fun h => absurd (h.mem.1.trans h.mem.2) (by decide)

theorem find_winner_iff :
    find_winner profiles = some w ↔ FirstMax (Set.Icc 1 m) (votes profiles) w := by
  rcases Nat.eq_zero_or_pos m with rfl | hm
  · refine iff_of_false ?_ (not_firstMax_empty _ _)
    rcases candidates_empty profiles with h | h <;> simp [find_winner,h,argmax]
  · obtain ⟨winner,hfirst,-,hargmax⟩ := argmax_candidates (votes profiles) hm
    have hpos := hfirst.mem.1
    rw [find_winner,candidates_eq hm,Option.bind_eq_bind,Option.bind_some,hargmax]
    simp only [Option.bind_eq_bind,Option.bind_some,Option.pure_def,Nat.sub_add_cancel hpos,
      Option.some_inj]
    exact ⟨fun h => h ▸ hfirst,fun h => hfirst.unique h⟩

theorem votes_set {i : ℕ} {truth : Ballot m} (hi : profiles[i]? = some truth) (lie : Ballot m)
    (x : ℕ) : votes (profiles.set i lie) x + (if truth.order[0]? = some x then 1 else 0) =
      votes profiles x + if lie.order[0]? = some x then 1 else 0 := by
  induction profiles generalizing i with
  | nil => simp at hi
  | cons ballot profiles ih =>
    cases i with
    | zero =>
      obtain rfl : ballot = truth := by simpa using hi
      simp only [List.set_cons_zero,votes,List.countP_cons,decide_eq_true_eq]
      omega
    | succ i =>
      have hrest := ih (i := i) (by simpa using hi)
      simp only [List.set_cons_succ,votes,List.countP_cons,decide_eq_true_eq] at hrest ⊢
      omega

theorem manipulable_iff : Manipulable profiles ↔ Coveted Overtakes profiles := by
  constructor
  · rintro ⟨i,truth,lie,w,w',hi,hw,hw',hprefers⟩
    have hmax := find_winner_iff.mp hw
    have hmax' := find_winner_iff.mp hw'
    have hm : 0 < m := hmax.mem.1.trans hmax.mem.2
    obtain ⟨a,ha⟩ := truth.exists_first hm
    obtain ⟨b,hb⟩ := lie.exists_first hm
    have hvotes (x : ℕ) : votes (profiles.set i lie) x + (if x = a then 1 else 0) =
        votes profiles x + if x = b then 1 else 0 := by
      simpa [ha,hb,eq_comm] using votes_set hi lie x
    have hne : w' ≠ w := fun heq => (lt_irrefl _ (heq ▸ hprefers))
    have haw : a ≠ w := fun heq => Ballot.not_prefers_first (heq ▸ ha) hprefers
    have hab : a ≠ b := fun heq => by
      subst heq
      have hsame : votes (profiles.set i lie) = votes profiles :=
        funext fun x => Nat.add_right_cancel (hvotes x)
      exact hne ((hsame ▸ hmax').unique hmax)
    have hmoved := (hmax.moved (Ballot.first_mem hb) haw hab hvotes).unique hmax'
    split at hmoved
    · next hover =>
      subst hmoved
      exact ⟨truth,List.mem_of_getElem? hi,w,b,hmax,hprefers,by simpa [ha] using hab,hover⟩
    · exact absurd hmoved.symm hne
  · rintro ⟨truth,hmem,w,b,hmax,hprefers,hfirst,hover⟩
    obtain ⟨i,hi⟩ := List.mem_iff_getElem?.mp hmem
    have hm : 0 < m := hmax.mem.1.trans hmax.mem.2
    obtain ⟨a,ha⟩ := truth.exists_first hm
    have hb := hprefers.mem
    have haw : a ≠ w := fun heq => Ballot.not_prefers_first (heq ▸ ha) hprefers
    have hab : a ≠ b := by simpa [ha] using hfirst
    have hvotes (x : ℕ) : votes (profiles.set i (truth.raise b hb)) x + (if x = a then 1 else 0) =
        votes profiles x + if x = b then 1 else 0 := by
      simpa [ha,eq_comm,Ballot.raise] using votes_set hi (truth.raise b hb) x
    have hmoved := hmax.moved (Ballot.mem.mp hb) haw hab hvotes
    rw [if_pos hover] at hmoved
    exact ⟨i,truth,truth.raise b hb,w,b,hi,find_winner_iff.mpr hmax,find_winner_iff.mpr hmoved,
      hprefers⟩

theorem coveted_overtakes_iff :
    Coveted Overtakes profiles ↔ Coveted OneBehind profiles ∨ Coveted Tied profiles := by
  constructor
  · rintro ⟨ballot,hmem,w,x,hmax,hprefers,hfirst,htied | hbehind⟩
    · exact .inr ⟨ballot,hmem,w,x,hmax,hprefers,hfirst,htied⟩
    · exact .inl ⟨ballot,hmem,w,x,hmax,hprefers,hfirst,hbehind⟩
  · rintro (⟨ballot,hmem,w,x,hmax,hprefers,hfirst,hbehind⟩ |
      ⟨ballot,hmem,w,x,hmax,hprefers,hfirst,htied⟩)
    · exact ⟨ballot,hmem,w,x,hmax,hprefers,hfirst,.inr hbehind⟩
    · exact ⟨ballot,hmem,w,x,hmax,hprefers,hfirst,.inl htied⟩

/-- The search stops before `w` exactly when something before `w` satisfies `p`. -/
theorem find?_ne_iff {l : List ℕ} {p : ℕ → Bool} (hw : w ∈ l) (hp : p w) :
    ∃ y, l.find? p = some y ∧ (y ≠ w ↔ ∃ x, l.idxOf x < l.idxOf w ∧ p x) := by
  induction l with
  | nil => simp at hw
  | cons z l ih =>
    by_cases hz : p z
    · refine ⟨z,List.find?_cons_of_pos hz,fun hne => ⟨z,?_,hz⟩,fun h heq => ?_⟩
      · rw [List.idxOf_cons_self,List.idxOf_cons_ne l hne]
        exact Nat.succ_pos _
      · obtain ⟨x,hlt,-⟩ := h
        rw [heq,List.idxOf_cons_self] at hlt
        omega
    · have hzw : z ≠ w := fun heq => hz (heq ▸ hp)
      obtain ⟨y,hfind,hy⟩ := ih ((List.mem_cons.mp hw).resolve_left hzw.symm)
      refine ⟨y,(List.find?_cons_of_neg hz).trans hfind,hy.trans (exists_congr fun x => ?_)⟩
      refine and_congr_left fun hx => ?_
      have hzx : z ≠ x := fun heq => hz (heq ▸ hx)
      rw [List.idxOf_cons_ne l hzw,List.idxOf_cons_ne l hzx,Nat.succ_lt_succ_iff]

/-- The inner loop ends at the winner exactly when no tied candidate comes before him
below the top. -/
theorem exists_other {ballot : Ballot m} {first : ℕ} (hmax : FirstMax (Set.Icc 1 m) f w)
    (hfirst : ballot.order[0]? = some first) (hne : first ≠ w) :
    ∃ other, ballot.order.tail.find?
        (fun x => decide (((List.range' 1 m).map f)[x - 1]? = some (f w))) = some other ∧
      (other ≠ w ↔ ∃ x, ballot.Prefers x w ∧ ballot.order[0]? ≠ some x ∧ Tied f w x) := by
  obtain ⟨rest,hrest⟩ : ∃ rest, ballot.order = first::rest := by
    cases horder : ballot.order with
    | nil => simp [horder] at hfirst
    | cons head rest => exact ⟨rest,by simpa [horder] using hfirst⟩
  have hnodup : first ∉ rest := (List.nodup_cons.mp (hrest ▸ ballot.nodup)).1
  have hp (x : ℕ) (hx : x ∈ rest) :
      decide (((List.range' 1 m).map f)[x - 1]? = some (f w)) = true ↔ Tied f w x := by
    have hmem : x ∈ Set.Icc 1 m := Ballot.mem.mp (hrest ▸ List.mem_cons_of_mem first hx)
    rw [decide_eq_true_eq,getElem?_candidates f hmem,Option.some_inj,Tied]
  have hw : w ∈ rest :=
    (List.mem_cons.mp (hrest ▸ Ballot.mem.mpr hmax.mem)).resolve_left (Ne.symm hne)
  obtain ⟨other,hfind,hother⟩ := find?_ne_iff
    (p := fun x => decide (((List.range' 1 m).map f)[x - 1]? = some (f w))) hw ((hp w hw).mpr rfl)
  rw [hfirst]
  refine ⟨other,by rwa [hrest,List.tail_cons],hother.trans (exists_congr fun x => ?_)⟩
  rw [Ballot.Prefers,hrest,List.idxOf_cons_ne rest hne]
  constructor
  · rintro ⟨hlt,hx⟩
    have hmem : x ∈ rest :=
      List.idxOf_lt_length_iff.mp (Nat.lt_of_lt_of_le hlt List.idxOf_le_length)
    have hfx : first ≠ x := fun heq => hnodup (heq ▸ hmem)
    rw [List.idxOf_cons_ne rest hfx]
    exact ⟨Nat.succ_lt_succ hlt,fun heq => hfx (Option.some_inj.mp heq),(hp x hmem).mp hx⟩
  · rintro ⟨hlt,hfx,htied⟩
    rw [List.idxOf_cons_ne rest fun heq => hfx (congrArg some heq)] at hlt
    have hlt := Nat.lt_of_succ_lt_succ hlt
    have hmem : x ∈ rest :=
      List.idxOf_lt_length_iff.mp (Nat.lt_of_lt_of_le hlt List.idxOf_le_length)
    exact ⟨hlt,(hp x hmem).mpr htied⟩

theorem anyDiverts_iff (hmax : FirstMax (Set.Icc 1 m) f w) (profiles : Profiles m) :
    anyDiverts ((List.range' 1 m).map f) (f w) (w - 1) profiles = some true ↔
      ∃ ballot ∈ profiles, ∃ x, ballot.Prefers x w ∧ ballot.order[0]? ≠ some x ∧ Tied f w x := by
  have hm : 0 < m := hmax.mem.1.trans hmax.mem.2
  induction profiles with
  | nil => simp [anyDiverts]
  | cons ballot profiles ih =>
    obtain ⟨first,hfirst⟩ := ballot.exists_first hm
    rw [anyDiverts,hfirst,Option.bind_eq_bind,Option.bind_some,Nat.sub_add_cancel hmax.mem.1]
    simp only [List.mem_cons,or_and_right,exists_or,exists_eq_left]
    by_cases hne : first = w
    · rw [if_pos hne]
      refine ih.trans (or_iff_right ?_).symm
      rintro ⟨x,hprefers,-⟩
      exact Ballot.not_prefers_first (hne ▸ hfirst) hprefers
    · obtain ⟨other,hfind,hother⟩ := exists_other hmax hfirst hne
      rw [if_neg hne,hfind,Option.bind_some,← hother]
      by_cases hw : other = w
      · rw [if_pos hw]
        exact ih.trans (or_iff_right (not_not.mpr hw)).symm
      · rw [if_neg hw]
        exact iff_of_true rfl (.inl hw)

theorem eq_of_count_one (hmax : FirstMax (Set.Icc 1 m) f w)
    (hone : ((List.range' 1 m).map f).count (f w) = 1) (hx : x ∈ Set.Icc 1 m)
    (htied : Tied f w x) : x = w := by
  rw [List.count_eq_countP,List.countP_map,List.countP_eq_length_filter] at hone
  obtain ⟨y,hy⟩ := List.length_eq_one_iff.mp hone
  have hmem (z : ℕ) (hz : z ∈ Set.Icc 1 m) (heq : f z = f w) : z = y := by
    rw [← List.mem_singleton,← hy,List.mem_filter,List.mem_range'_1]
    obtain ⟨hpos,hle⟩ := hz
    exact ⟨⟨hpos,by omega⟩,by simpa using heq⟩
  exact (hmem x hx htied).trans (hmem w hmax.mem rfl).symm

theorem check_manipulable_iff : check_manipulable profiles = some true ↔ Coveted Tied profiles := by
  rcases Nat.eq_zero_or_pos m with rfl | hm
  · refine iff_of_false ?_ ?_
    · rcases candidates_empty profiles with h | h <;> simp [check_manipulable,h]
    · rintro ⟨-,-,w,-,hmax,-⟩
      exact not_firstMax_empty _ _ hmax
  · obtain ⟨w,hmax,htop,hargmax⟩ := argmax_candidates (votes profiles) hm
    have hcoveted : Coveted Tied profiles ↔ ∃ ballot ∈ profiles, ∃ x, ballot.Prefers x w ∧
        ballot.order[0]? ≠ some x ∧ Tied (votes profiles) w x := by
      constructor
      · rintro ⟨ballot,hmem,w',x,hmax',h⟩
        exact ⟨ballot,hmem,x,hmax'.unique hmax ▸ h⟩
      · rintro ⟨ballot,hmem,x,h⟩
        exact ⟨ballot,hmem,w,x,hmax,h⟩
    rw [check_manipulable,candidates_eq hm,hcoveted]
    simp only [Option.bind_eq_bind,Option.bind_some,htop,hargmax]
    split
    · next hone =>
      refine iff_of_false (by simp) ?_
      rintro ⟨ballot,-,x,hprefers,-,htied⟩
      have heq := eq_of_count_one hmax hone (Ballot.mem.mp hprefers.mem) htied
      exact lt_irrefl _ (heq ▸ hprefers)
    · exact anyDiverts_iff hmax profiles

/-- `check_manipulable` is right about a profile exactly when a candidate one vote behind
matters only where a tied one does. -/
theorem check_manipulable_right_iff (profiles : Profiles m) :
    (check_manipulable profiles = some true ↔ Manipulable profiles) ↔
      (Coveted OneBehind profiles → Coveted Tied profiles) := by
  rw [check_manipulable_iff,manipulable_iff,coveted_overtakes_iff]
  tauto

/-- `3` wins with two votes; `1` and `2` have one each. -/
def oneBehind : Profiles 3 :=
  [⟨[3,1,2],by decide⟩,⟨[3,1,2],by decide⟩,⟨[1,3,2],by decide⟩,⟨[2,1,3],by decide⟩]

/-- The last voter can make `1` win, whom he prefers to `3`. -/
theorem check_manipulable_one_behind :
    ¬ (check_manipulable oneBehind = some true ↔ Manipulable oneBehind) := by
  have hfalse : check_manipulable oneBehind = some false := by decide
  have hlie : Manipulable oneBehind :=
    ⟨3,⟨[2,1,3],by decide⟩,⟨[1,2,3],by decide⟩,3,1,rfl,by decide,by decide,by decide⟩
  rw [hfalse]
  exact fun h => absurd (h.mpr hlie) (by decide)

end ResumePointers.Voting.Plurality
