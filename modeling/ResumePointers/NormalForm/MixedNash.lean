import ResumePointers.NormalForm.PureNash
import Mathlib.Algebra.Order.Field.Rat
import Mathlib.Algebra.Order.Field.Basic
import Mathlib.Tactic.FieldSimp
import Mathlib.Tactic.Linarith

/-! `msne_gen` of `game_theory_algos/normal_form/q1.py`, on rational payoffs. -/
namespace ResumePointers.NormalForm

inductive MsneFault
  | index
  | zeroDivision
deriving DecidableEq

/-- `num / den` -/
def divide (num den : ℚ) : Except MsneFault ℚ :=
  if den = 0 then .error .zeroDivision else .ok (num / den)

/-- `util_matrix[i][j][target]` -/
def utility (util_matrix : Ndarray (List ℚ)) (i j target : ℕ) : Except MsneFault ℚ :=
  match payoffAt util_matrix [i,j] target with
  | some x => .ok x
  | none => .error .index

/-- `(u11 - u01) / (u00 - u01 - u10 + u11)` for the payoffs of a player. -/
def ratio (util_matrix : Ndarray (List ℚ)) (target : ℕ) : Except MsneFault ℚ := do
  let u11 ← utility util_matrix 1 1 target
  let u01 ← utility util_matrix 0 1 target
  let u00 ← utility util_matrix 0 0 target
  let u10 ← utility util_matrix 1 0 target
  divide (u11 - u01) (u00 - u01 - u10 + u11)

def msne_gen (util_matrix : Ndarray (List ℚ)) : Except MsneFault (List (List ℚ)) := do
  let p ← ratio util_matrix 1
  let q ← ratio util_matrix 0
  return [[p,1 - p],[q,1 - q]]

/-- The end of `main`: `msne_gen` is called for two players with two strategies each if the number of pure
equilibria is even. -/
def callsMsne (num_players : ℕ) (strategies : List ℕ) (psnelist : List (List ℕ)) : Bool :=
  psnelist.length % 2 = 0 ∧ num_players = 2 ∧ strategies[0]? = some 2 ∧ strategies[1]? = some 2

/-- The expected payoff of a player when the others play their first strategies with these
probabilities. -/
def expected (u : List ℕ → ℕ → ℚ) (player : ℕ) (p q : ℚ) : ℚ :=
  p * q * u [0,0] player + p * (1 - q) * u [0,1] player + (1 - p) * q * u [1,0] player +
    (1 - p) * (1 - q) * u [1,1] player

def Probability (p : ℚ) : Prop := 0 ≤ p ∧ p ≤ 1

/-- Neither player gains by another mixture. -/
structure MixedNash (u : List ℕ → ℕ → ℚ) (p q : ℚ) : Prop where
  first : Probability p
  second : Probability q
  best_first : ∀ x, Probability x → expected u 0 x q ≤ expected u 0 p q
  best_second : ∀ y, Probability y → expected u 1 p y ≤ expected u 1 p q

/-- The two terms of a denominator have the same sign, and they are not both zero. -/
def SameSign (x y : ℚ) : Prop := 0 ≤ x * y ∧ x + y ≠ 0

/-- The games for which the formulas of `msne_gen` give an equilibrium. -/
structure Fitting (u : List ℕ → ℕ → ℚ) : Prop where
  second : SameSign (u [1,1] 1 - u [0,1] 1) (u [0,0] 1 - u [1,0] 1)
  first : SameSign (u [1,1] 0 - u [0,1] 0) (u [0,0] 0 - u [1,0] 0)
  slope : u [1,0] 1 = u [0,1] 1 ∨ u [0,1] 1 < u [1,0] 1 ∧ u [0,0] 0 = u [1,0] 0 ∨
    u [1,0] 1 < u [0,1] 1 ∧ u [1,1] 0 = u [0,1] 0

variable {u : List ℕ → ℕ → ℚ} {util_matrix : Ndarray (List ℚ)} {p q x y slope c : ℚ}

theorem probability_ratio_iff (h : x + y ≠ 0) : Probability (x / (x + y)) ↔ 0 ≤ x * y := by
  rw [Probability]
  rcases lt_or_gt_of_ne h with hneg | hpos
  · rw [div_le_iff_of_neg hneg,le_div_iff_of_neg hneg,zero_mul,one_mul]
    constructor
    · rintro ⟨hx,hy⟩
      exact mul_nonneg_of_nonpos_of_nonpos hx (by linarith)
    · intro hxy
      constructor <;> nlinarith
  · rw [div_le_one hpos,le_div_iff₀ hpos,zero_mul]
    constructor
    · rintro ⟨hx,hy⟩
      exact mul_nonneg hx (by linarith)
    · intro hxy
      constructor <;> nlinarith

/-- Where a line is highest between 0 and 1. -/
theorem best_iff_slope (hp : Probability p) : (∀ x, Probability x → slope * x + c ≤ slope * p + c) ↔
    slope = 0 ∨ 0 < slope ∧ p = 1 ∨ slope < 0 ∧ p = 0 := by
  constructor
  · intro h
    have hzero := h 0 ⟨le_rfl,zero_le_one⟩
    have hone := h 1 ⟨zero_le_one,le_rfl⟩
    rcases lt_trichotomy slope 0 with hneg | heq | hpos
    · refine .inr (.inr ⟨hneg,le_antisymm ?_ hp.1⟩)
      nlinarith
    · exact .inl heq
    · refine .inr (.inl ⟨hpos,le_antisymm hp.2 ?_⟩)
      nlinarith
  · rintro (rfl | ⟨hpos,rfl⟩ | ⟨hneg,rfl⟩) x ⟨hx,hx'⟩
    · linarith
    · nlinarith
    · nlinarith

/-- The payoffs of the first player as a line over the own probability. -/
theorem expected_first (u : List ℕ → ℕ → ℚ) (x q : ℚ) : expected u 0 x q =
    (q * (u [1,1] 0 - u [0,1] 0 + (u [0,0] 0 - u [1,0] 0)) - (u [1,1] 0 - u [0,1] 0)) * x +
      (q * u [1,0] 0 + (1 - q) * u [1,1] 0) := by
  rw [expected]
  ring

theorem expected_second (u : List ℕ → ℕ → ℚ) (p y : ℚ) : expected u 1 p y =
    (p * (u [1,1] 1 - u [0,1] 1 + (u [0,0] 1 - u [1,0] 1)) - (u [1,1] 1 - u [1,0] 1)) * y +
      (p * u [0,1] 1 + (1 - p) * u [1,1] 1) := by
  rw [expected]
  ring

theorem ratio_eq_one_iff (h : x + y ≠ 0) : x / (x + y) = 1 ↔ y = 0 := by
  rw [div_eq_one_iff_eq h]
  constructor <;> intro he <;> linarith

theorem ratio_eq_zero_iff (h : x + y ≠ 0) : x / (x + y) = 0 ↔ x = 0 := by
  rw [div_eq_zero_iff]
  exact or_iff_left h

/-- With the formulas of `msne_gen` the first player is indifferent, and the second one would be with
`u10` in the place of `u01`. -/
theorem mixedNash_iff (hp : u [1,1] 1 - u [0,1] 1 + (u [0,0] 1 - u [1,0] 1) ≠ 0)
    (hq : u [1,1] 0 - u [0,1] 0 + (u [0,0] 0 - u [1,0] 0) ≠ 0) :
    MixedNash u ((u [1,1] 1 - u [0,1] 1) / (u [1,1] 1 - u [0,1] 1 + (u [0,0] 1 - u [1,0] 1)))
      ((u [1,1] 0 - u [0,1] 0) / (u [1,1] 0 - u [0,1] 0 + (u [0,0] 0 - u [1,0] 0))) ↔ Fitting u := by
  have hslope : ∀ q, Probability q → ((∀ y, Probability y →
      expected u 1 ((u [1,1] 1 - u [0,1] 1) / (u [1,1] 1 - u [0,1] 1 + (u [0,0] 1 - u [1,0] 1))) y ≤
        expected u 1 ((u [1,1] 1 - u [0,1] 1) / (u [1,1] 1 - u [0,1] 1 + (u [0,0] 1 - u [1,0] 1))) q) ↔
      u [1,0] 1 = u [0,1] 1 ∨ u [0,1] 1 < u [1,0] 1 ∧ q = 1 ∨ u [1,0] 1 < u [0,1] 1 ∧ q = 0) := by
    intro q hq
    simp only [expected_second,div_mul_cancel₀ _ hp]
    rw [best_iff_slope hq,sub_sub_sub_cancel_left,sub_eq_zero,sub_pos,sub_neg]
  constructor
  · rintro ⟨hfirst,hsecond,-,hbest⟩
    have hbest := (hslope _ hsecond).mp hbest
    rw [ratio_eq_one_iff hq,ratio_eq_zero_iff hq,sub_eq_zero,sub_eq_zero] at hbest
    exact ⟨⟨(probability_ratio_iff hp).mp hfirst,hp⟩,⟨(probability_ratio_iff hq).mp hsecond,hq⟩,hbest⟩
  · rintro ⟨⟨hsecond,-⟩,⟨hfirst,-⟩,hbest⟩
    have hprob := (probability_ratio_iff hq).mpr hfirst
    refine ⟨(probability_ratio_iff hp).mpr hsecond,hprob,fun x _ => ?_,(hslope _ hprob).mpr ?_⟩
    · rw [expected_first,expected_first,div_mul_cancel₀ _ hq,sub_self,zero_mul,zero_mul]
    · rwa [ratio_eq_one_iff hq,ratio_eq_zero_iff hq,sub_eq_zero,sub_eq_zero]

/-- The array has the payoffs of the game. -/
def Entries (util_matrix : Ndarray (List ℚ)) (u : List ℕ → ℕ → ℚ) : Prop :=
  ∀ i < 2, ∀ j < 2, ∀ target < 2, payoffAt util_matrix [i,j] target = some (u [i,j] target)

theorem Entries.utility (h : Entries util_matrix u) {i j target : ℕ} (hi : i < 2) (hj : j < 2)
    (htarget : target < 2) : utility util_matrix i j target = .ok (u [i,j] target) := by
  rw [NormalForm.utility,h i hi j hj target htarget]

theorem Entries.ratio (h : Entries util_matrix u) {target : ℕ} (htarget : target < 2) :
    ratio util_matrix target = divide (u [1,1] target - u [0,1] target)
      (u [1,1] target - u [0,1] target + (u [0,0] target - u [1,0] target)) := by
  have hden : u [0,0] target - u [0,1] target - u [1,0] target + u [1,1] target =
      u [1,1] target - u [0,1] target + (u [0,0] target - u [1,0] target) := by ring
  rw [NormalForm.ratio,h.utility Nat.one_lt_two Nat.one_lt_two htarget,
    h.utility Nat.two_pos Nat.one_lt_two htarget,h.utility Nat.two_pos Nat.two_pos htarget,
    h.utility Nat.one_lt_two Nat.two_pos htarget,← hden]
  rfl

/-- `msne_gen` returns an equilibrium. -/
def FindsMixed (util_matrix : Ndarray (List ℚ)) (u : List ℕ → ℕ → ℚ) : Prop :=
  ∃ p q, msne_gen util_matrix = .ok [[p,1 - p],[q,1 - q]] ∧ MixedNash u p q

theorem divide_zero {num den : ℚ} (h : den = 0) : divide num den = .error .zeroDivision := if_pos h

theorem divide_ne {num den : ℚ} (h : den ≠ 0) : divide num den = .ok (num / den) := if_neg h

theorem Entries.findsMixed_iff (h : Entries util_matrix u) : FindsMixed util_matrix u ↔ Fitting u := by
  rw [FindsMixed,msne_gen,h.ratio Nat.one_lt_two,h.ratio Nat.two_pos]
  by_cases hp : u [1,1] 1 - u [0,1] 1 + (u [0,0] 1 - u [1,0] 1) = 0
  · refine iff_of_false ?_ fun hl => hl.second.2 hp
    rw [divide_zero hp]
    rintro ⟨p,q,he,-⟩
    cases he
  by_cases hq : u [1,1] 0 - u [0,1] 0 + (u [0,0] 0 - u [1,0] 0) = 0
  · refine iff_of_false ?_ fun hl => hl.first.2 hq
    rw [divide_ne hp,divide_zero hq]
    rintro ⟨p,q,he,-⟩
    cases he
  rw [divide_ne hp,divide_ne hq,← mixedNash_iff hp hq]
  constructor
  · rintro ⟨p,q,he,hnash⟩
    have hlists := Except.ok.inj he
    simp only [List.cons.injEq,and_true] at hlists
    obtain ⟨⟨rfl,-⟩,rfl,-⟩ := hlists
    exact hnash
  · exact fun hnash => ⟨_,_,rfl,hnash⟩

theorem entries_of_listed {gamedata : List ℚ} (hgame : Listed [2,2] u gamedata) :
    ∃ util_matrix, make_util_matrix 2 [2,2] gamedata = some util_matrix ∧ Entries util_matrix u := by
  obtain ⟨util_matrix,hmatrix,hentry⟩ := make_util_matrix_spec Nat.two_pos hgame.length
  refine ⟨util_matrix,hmatrix,fun i hi j hj target htarget => ?_⟩
  have hdigits : Digits [i,j] [2,2] := .cons hi (.cons hj .nil)
  exact (hentry _ hdigits target htarget).trans (hgame.payoff _ hdigits target htarget)

/-- What `msne_gen` computes for a game of two players with two strategies each is a mixed equilibrium
exactly if the payoffs meet the conditions of `Fitting`. -/
theorem msne_gen_finds_iff {gamedata : List ℚ} (hgame : Listed [2,2] u gamedata) :
    ∃ util_matrix, make_util_matrix 2 [2,2] gamedata = some util_matrix ∧
      (FindsMixed util_matrix u ↔ Fitting u) := by
  obtain ⟨util_matrix,hmatrix,hentries⟩ := entries_of_listed hgame
  exact ⟨util_matrix,hmatrix,hentries.findsMixed_iff⟩

/-- The first player wants to match and the second one does not. -/
def pennies : List ℚ := [1,0,0,1,0,1,1,0]

theorem msne_gen_finds_iff_pennies :
    ∃ util_matrix, make_util_matrix 2 [2,2] pennies = some util_matrix ∧
      (FindsMixed util_matrix (listedGame [2,2] pennies) ↔ Fitting (listedGame [2,2] pennies)) :=
  msne_gen_finds_iff (listed_listedGame (by decide))

/-- The second player prefers one of the two ways not to match. -/
def biasedPennies : List ℚ := [1,0,0,1,0,2,1,0]

/-- It has no pure equilibrium, and what `msne_gen` returns is no equilibrium. -/
theorem not_finds_biasedPennies :
    ∃ util_matrix psnelist, make_util_matrix 2 [2,2] biasedPennies = some util_matrix ∧
      psne_gen 2 [2,2] util_matrix = some psnelist ∧ callsMsne 2 [2,2] psnelist = true ∧
      ¬ FindsMixed util_matrix (listedGame [2,2] biasedPennies) := by
  obtain ⟨util_matrix,hmatrix,hentries⟩ :=
    entries_of_listed (listed_listedGame (by decide : biasedPennies.length = [2,2].length * [2,2].prod))
  have hpsne : (make_util_matrix 2 [2,2] biasedPennies).bind (psne_gen 2 [2,2]) = some [] := by
    decide +kernel
  rw [hmatrix] at hpsne
  refine ⟨util_matrix,[],hmatrix,hpsne,rfl,?_⟩
  rw [hentries.findsMixed_iff]
  rintro ⟨-,-,hslope⟩
  revert hslope
  decide +kernel

end ResumePointers.NormalForm
