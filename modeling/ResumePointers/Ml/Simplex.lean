import Mathlib
import ResumePointers.Lib.Rounding
import ResumePointers.Lib.Runs
import ResumePointers.Lib.Tableau

/-! The simplex method (`ml_algos/cs240_22b0944_lab1/q1/q1_simplex.py`) with exact rationals. The
table has a column for each variable, one for each slack variable and one of right-hand sides. -/
namespace ResumePointers.Ml.Simplex

open ResumePointers.Tableau

variable {n : ℕ}

/-- Maximise `c x` subject to `A_matrix x ≤ b` and `0 ≤ x`. -/
structure LinearProgram (n : ℕ) where
  A_matrix : Matrix (Fin n) (Fin n) ℚ
  c : Fin n → ℚ
  b : Fin n → ℚ

def LinearProgram.Feasible (lp : LinearProgram n) (x : Fin n → ℚ) : Prop :=
  lp.A_matrix.mulVec x ≤ lp.b ∧ 0 ≤ x

abbrev Table (n : ℕ) := Tab (Fin n) (Fin n ⊕ Fin n) ℚ

abbrev Column (n : ℕ) := (Fin n ⊕ Fin n) ⊕ Unit

/-- The table in front of the loop. -/
def LinearProgram.table (lp : LinearProgram n) : Table n :=
  let slackVar : Matrix (Fin n) (Fin n) ℚ := 1
  let opFunc := Sum.elim (Sum.elim (fun i => -lp.c i) 0) 0
  Matrix.fromRows
    (Matrix.fromCols (Matrix.fromCols lp.A_matrix slackVar) (Matrix.replicateCol Unit lp.b))
    (Matrix.replicateRow Unit opFunc)

/-- The columns from left to right. -/
def columns (n : ℕ) : List (Column n) :=
  (List.finRange n).map (fun i => .inl (.inl i)) ++
    (List.finRange n).map (fun i => .inl (.inr i)) ++ [.inr ()]

/-- `numpy.argmin(table[-1,:])`. -/
def minCol (table : Table n) : Column n := ((columns n).argmin (table (.inr ()))).getD (.inr ())

/-- `table[-1,:].min() < 0`. -/
def Running (table : Table n) : Prop := table (.inr ()) (minCol table) < 0

instance (table : Table n) : Decidable (Running table) := inferInstanceAs (Decidable (_ < _))

def ratio (table : Table n) (col : Column n) (i : Fin n) : ℚ := rhs table i / table (.inl i) col

/-- The row and the `min_theta` that the search for the leaving row has found up to a row. -/
def ratioTest (table : Table n) (col : Column n) (found : Option (Fin n) × ℚ) (i : Fin n) :
    Option (Fin n) × ℚ :=
  if table (.inl i) col ≠ 0 then
    if found.2 > ratio table col i ∧ ratio table col i > 0 then (some i,rhs table i) else found
  else found

/-- `min_row`, with `none` for the -1 it starts with. -/
def minRow (table : Table n) (col : Column n) : Option (Fin n) :=
  ((List.finRange n).foldl (ratioTest table col) (none,999999)).1

/-- Index -1 is that of the last row. -/
def rowOf (minRow : Option (Fin n)) : Fin n ⊕ Unit := minRow.elim (.inr ()) .inl

/-- Divide `min_row` and clear the column in the rows that have another index than it. -/
def eliminate (table : Table n) (minRow : Option (Fin n)) (col : Column n) : Table n :=
  let row := rowOf minRow
  let divided := Matrix.updateRow table row fun j => table row j / table row col
  fun i => if some i ≠ minRow.map .inl then fun j => divided i j - divided row j * divided i col
    else divided i

structure State (n : ℕ) where
  table : Table n
  pivot_value_list : List ℚ

def start (lp : LinearProgram n) : State n := ⟨lp.table,[]⟩

/-- `round(3)`. -/
def round3 (x : ℚ) : ℚ := Rounding.roundEven (x * 1000) / 1000

/-- The body of the loop. -/
def iteration (s : State n) : State n :=
  let col := minCol s.table
  let row := minRow s.table col
  ⟨eliminate s.table row col,s.pivot_value_list ++ [round3 (s.table (rowOf row) col)]⟩

def pass (_ : Unit) : EStateM Unit (State n) Unit := fun s =>
  if Running s.table then .ok () (iteration s) else .error () s

/-- The loop, when it ends within `fuel` passes. -/
def loop : ℕ → State n → Option (State n)
  | 0,s => if Running s.table then none else some s
  | fuel+1,s => if Running s.table then loop fuel (iteration s) else some s

/-- The pivot values in the order in which they were met. -/
def simplexSolver (lp : LinearProgram n) (fuel : ℕ) : Option (List ℚ) :=
  (loop fuel (start lp)).map (·.pivot_value_list)

theorem pass_of_running {s : State n} (h : Running s.table) : pass () s = .ok () (iteration s) :=
  if_pos h

theorem loop_reach {fuel : ℕ} {s t : State n} (h : loop fuel s = some t) :
    Reach pass (fun _ _ => True) (· = s) t ∧ ¬ Running t.table := by
  induction fuel generalizing s with
  | zero =>
    rw [loop] at h
    split at h
    · cases h
    · cases h
      exact ⟨.init rfl,‹_›⟩
  | succ fuel ih =>
    rw [loop] at h
    split at h
    · next hrun =>
      obtain ⟨ht,hend⟩ := ih h
      have hfirst : Reach pass (fun _ _ => True) (· = s) (iteration s) :=
        .step () (.init rfl) trivial (pass_of_running hrun)
      exact ⟨hfirst.trans ht,hend⟩
    · cases h
      exact ⟨.init rfl,‹_›⟩

/-- A returned list is that of a reached state in which the loop has ended. -/
theorem simplexSolver_reach {lp : LinearProgram n} {fuel : ℕ} {l : List ℚ}
    (h : simplexSolver lp fuel = some l) : ∃ t, Reach pass (fun _ _ => True) (· = start lp) t ∧
      ¬ Running t.table ∧ t.pivot_value_list = l := by
  obtain ⟨t,ht,rfl⟩ := Option.map_eq_some_iff.mp h
  obtain ⟨hreach,hend⟩ := loop_reach ht
  exact ⟨t,hreach,hend,rfl⟩

section Search

variable {table : Table n} {col : Column n} {i k : Fin n} {m : ℕ}

/-- Row `k` has the smallest ratio below the bound of those with a positive entry before row `m`,
and is the first that has it. -/
structure Leads (table : Table n) (col : Column n) (m : ℕ) (k : Fin n) : Prop where
  lt : k < m
  pos : 0 < table (.inl k) col
  bounded : ratio table col k < 999999
  le : ∀ i : Fin n, i < m → 0 < table (.inl i) col → ratio table col k ≤ ratio table col i
  first : ∀ i < k, 0 < table (.inl i) col → ratio table col k < ratio table col i

/-- No right-hand side beside a positive entry is zero, one of the ratios is below the bound, and
a ratio is smaller than the right-hand side of the leading row exactly when it is smaller than that
row's ratio. -/
structure Comparable (table : Table n) (col : Column n) : Prop where
  rhs_ne_zero : ∀ i, 0 < table (.inl i) col → rhs table i ≠ 0
  bounded : ∃ i, 0 < table (.inl i) col ∧ ratio table col i < 999999
  agrees : ∀ i k, 0 < table (.inl i) col → Leads table col i k →
    (ratio table col i < rhs table k ↔ ratio table col i < ratio table col k)

theorem Leads.succ (h : Leads table col i k)
    (hi : 0 < table (.inl i) col → ratio table col k ≤ ratio table col i) :
    Leads table col (i + 1) k := by
  refine ⟨h.lt.trans (Nat.lt_succ_self _),h.pos,h.bounded,fun i' hlt hpos => ?_,h.first⟩
  rcases Nat.lt_succ_iff_lt_or_eq.mp hlt with hlt | heq
  · exact h.le i' hlt hpos
  · obtain rfl := Fin.ext heq
    exact hi hpos

theorem leads_last (hpos : 0 < table (.inl i) col) (hbound : ratio table col i < 999999)
    (hfirst : ∀ i' : Fin n, i' < i → 0 < table (.inl i') col →
      ratio table col i < ratio table col i') : Leads table col (i + 1) i := by
  refine ⟨Nat.lt_succ_self _,hpos,hbound,fun i' hlt hpos' => ?_,hfirst⟩
  rcases Nat.lt_succ_iff_lt_or_eq.mp hlt with hlt | heq
  · exact (hfirst i' hlt hpos').le
  · obtain rfl := Fin.ext heq
    exact le_rfl

/-- What the search has found in front of row `m`. -/
def search (table : Table n) (col : Column n) (m : ℕ) : Option (Fin n) × ℚ :=
  ((List.finRange n).take m).foldl (ratioTest table col) (none,999999)

theorem search_succ (table : Table n) (col : Column n) (i : Fin n) :
    search table col (i + 1) = ratioTest table col (search table col i) i := by
  simp [search,List.take_add_one]

theorem minRow_eq : minRow table col = (search table col n).1 := by
  rw [minRow,search,List.take_of_length_le (by simp)]

/-- Only rows with a positive entry take part when no right-hand side is negative. -/
theorem ratio_pos (hrhs : ∀ i, 0 ≤ rhs table i) (h : Comparable table col) :
    table (.inl i) col ≠ 0 ∧ 0 < ratio table col i ↔ 0 < table (.inl i) col := by
  constructor
  · rintro ⟨hne,hpos⟩
    by_contra hneg
    exact hpos.not_ge (div_nonpos_of_nonneg_of_nonpos (hrhs i) (not_lt.mp hneg))
  · intro hpos
    have : 0 < rhs table i := lt_of_le_of_ne (hrhs i) (h.rhs_ne_zero i hpos).symm
    exact ⟨hpos.ne',div_pos this hpos⟩

theorem ratioTest_eq (hrhs : ∀ i, 0 ≤ rhs table i) (h : Comparable table col)
    (found : Option (Fin n) × ℚ) : ratioTest table col found i =
      if 0 < table (.inl i) col ∧ ratio table col i < found.2 then (some i,rhs table i)
      else found := by
  have := ratio_pos (i := i) hrhs h
  rw [ratioTest]
  split_ifs <;> first | rfl | (exfalso; tauto)

/-- The search has found the leading row, or none has a ratio below the bound. -/
def Found (table : Table n) (col : Column n) (m : ℕ) (found : Option (Fin n) × ℚ) : Prop :=
  (∃ k, Leads table col m k ∧ found = (some k,rhs table k)) ∨
    (∀ i : Fin n, i < m → 0 < table (.inl i) col → 999999 ≤ ratio table col i) ∧
      found = (none,999999)

/-- One row more. -/
theorem Found.succ (hrhs : ∀ i, 0 ≤ rhs table i) (h : Comparable table col)
    {found : Option (Fin n) × ℚ} (hfound : Found table col i found) :
    Found table col (i + 1) (ratioTest table col found i) := by
  rw [ratioTest_eq hrhs h]
  obtain ⟨k,hk,rfl⟩ | ⟨hall,rfl⟩ := hfound
  · dsimp only
    split_ifs with htest
    · obtain ⟨hpos,hlt⟩ := htest
      have hlt : ratio table col i < ratio table col k := (h.agrees i k hpos hk).mp hlt
      exact .inl ⟨i,leads_last hpos (hlt.trans hk.bounded) fun i' hi' hpos' =>
        hlt.trans_le (hk.le i' hi' hpos'),rfl⟩
    · refine .inl ⟨k,hk.succ fun hpos => ?_,rfl⟩
      exact not_lt.mp fun hlt => htest ⟨hpos,(h.agrees i k hpos hk).mpr hlt⟩
  · dsimp only
    split_ifs with htest
    · obtain ⟨hpos,hlt⟩ := htest
      exact .inl ⟨i,leads_last hpos hlt fun i' hi' hpos' => hlt.trans_le (hall i' hi' hpos'),rfl⟩
    · refine .inr ⟨fun i' hlt hpos => ?_,rfl⟩
      rcases Nat.lt_succ_iff_lt_or_eq.mp hlt with hlt | heq
      · exact hall i' hlt hpos
      · obtain rfl := Fin.ext heq
        exact not_lt.mp fun hlt => htest ⟨hpos,hlt⟩

theorem search_found (hrhs : ∀ i, 0 ≤ rhs table i) (h : Comparable table col) (hm : m ≤ n) :
    Found table col m (search table col m) := by
  induction m with
  | zero => exact .inr ⟨fun i hi => absurd hi (Nat.not_lt_zero _),rfl⟩
  | succ m ih =>
    have hsucc := search_succ table col ⟨m,hm⟩
    have := (ih (Nat.le_of_succ_le hm)).succ (i := ⟨m,hm⟩) hrhs h
    dsimp only at hsucc this
    rwa [← hsucc] at this

/-- The leaving row has the smallest ratio. -/
theorem minRow_leads (hrhs : ∀ i, 0 ≤ rhs table i) (h : Comparable table col) :
    ∃ r, minRow table col = some r ∧ Leads table col n r := by
  obtain ⟨r,hr,heq⟩ | ⟨hall,-⟩ := search_found hrhs h le_rfl
  · exact ⟨r,by rw [minRow_eq,heq],hr⟩
  · obtain ⟨i,hpos,hlt⟩ := h.bounded
    exact absurd hlt (hall i i.isLt hpos).not_gt

end Search

section Columns

variable {table : Table n} {j : Column n}

theorem mem_columns (j : Column n) : j ∈ columns n := by
  rcases j with (j | j) | ⟨⟩ <;> simp [columns]

/-- The number of a column, from the left. -/
def number (j : Column n) : ℕ := (columns n).findIdx (· = j)

/-- The column is the first of those with the smallest entry in the objective row. -/
def Entering (table : Table n) (j : Column n) : Prop :=
  ∀ j', table (.inr ()) j ≤ table (.inr ()) j' ∧
    (table (.inr ()) j' = table (.inr ()) j → number j ≤ number j')

theorem entering_minCol (table : Table n) : Entering table (minCol table) := by
  obtain ⟨j,hj⟩ : ∃ j, (columns n).argmin (table (.inr ())) = some j := by
    apply Option.ne_none_iff_exists'.mp
    simp [List.argmin_eq_none,columns]
  obtain ⟨-,hle,hfirst⟩ := List.argmin_eq_some_iff.mp hj
  rw [minCol,hj,Option.getD_some]
  exact fun j' => ⟨hle j' (mem_columns j'),fun heq => hfirst j' (mem_columns j') heq.le⟩

/-- A negative entry of the objective row is that of a variable. -/
theorem Running.minCol_eq (h : Running table) (hvalue : 0 ≤ value table) :
    ∃ j, minCol table = .inl j ∧ cost table j < 0 := by
  rw [Running] at h
  cases hcol : minCol table with
  | inl j =>
    rw [hcol] at h
    exact ⟨j,rfl,h⟩
  | inr u =>
    rw [hcol] at h
    exact absurd h hvalue.not_gt

theorem cost_nonneg (h : ¬ Running table) (j : Fin n ⊕ Fin n) : 0 ≤ cost table j :=
  (not_lt.mp h).trans (entering_minCol table (.inl j)).1

end Columns

section Elimination

variable {table : Table n} {r : Fin n} {col : Column n}

/-- The passes with a leaving row are pivots. -/
theorem eliminate_some : eliminate table (some r) col = Tableau.pivot table (.inl r) col := by
  funext i j
  rcases eq_or_ne i (.inl r) with rfl | hi
  · simp [eliminate,rowOf]
  · simp [eliminate,rowOf,hi,pivot_of_ne hi]

/-- Without a leaving row the objective row is divided by its own entry and cleared. -/
theorem eliminate_none (h : table (.inr ()) col ≠ 0) (j : Column n) :
    eliminate table none col (.inr ()) j = 0 := by
  simp [eliminate,rowOf,h]

/-- A pass without a leaving row is the last one. -/
theorem not_running_of_none {s : State n} (h : Running s.table)
    (hnone : minRow s.table (minCol s.table) = none) : ¬ Running (iteration s).table := by
  rw [Running,iteration,hnone]
  exact (eliminate_none h.ne _).not_lt

end Elimination

section Program

variable {lp : LinearProgram n} {x : Fin n → ℚ} {z : Fin n ⊕ Fin n → ℚ}

theorem solves_table : Solves lp.table z ↔
    ∀ i, lp.A_matrix.mulVec (fun j => z (.inl j)) i + z (.inr i) = lp.b i := by
  simp [Solves,coef,rhs,LinearProgram.table,Matrix.mulVec,dotProduct,Matrix.one_apply]

theorem objective_table : objective lp.table z = lp.c ⬝ᵥ fun j => z (.inl j) := by
  simp [objective,cost,value,LinearProgram.table,dotProduct]

/-- A feasible point, with the slack that it leaves. -/
def LinearProgram.slack (lp : LinearProgram n) (x : Fin n → ℚ) : Fin n ⊕ Fin n → ℚ :=
  Sum.elim x fun i => lp.b i - lp.A_matrix.mulVec x i

theorem solves_slack : Solves lp.table (lp.slack x) :=
  solves_table.mpr fun i => add_sub_cancel (lp.A_matrix.mulVec x i) (lp.b i)

theorem slack_nonneg (h : lp.Feasible x) : 0 ≤ lp.slack x := by
  rintro (j | i)
  · exact h.2 j
  · exact sub_nonneg.mpr (h.1 i)

theorem feasible_of_solves (h : Solves lp.table z) (hz : 0 ≤ z) :
    lp.Feasible fun j => z (.inl j) := by
  refine ⟨fun i => ?_,fun j => hz (.inl j)⟩
  rw [← solves_table.mp h i]
  exact le_add_of_nonneg_right (hz (.inr i))

/-- The slack variables are basic in front of the loop. -/
theorem isBasis_table (lp : LinearProgram n) : IsBasis lp.table .inr := by
  constructor
  · intro i k
    simp [coef,LinearProgram.table,Matrix.one_apply]
  · intro k
    simp [cost,LinearProgram.table]

/-- What every reached table has. -/
structure Inv (lp : LinearProgram n) (table : Table n) : Prop where
  rhs_nonneg : ∀ i, 0 ≤ rhs table i
  value_nonneg : 0 ≤ value table
  basis : ∃ β, IsBasis table β
  equivalent : Equivalent table lp.table

theorem inv_table (hb : 0 ≤ lp.b) : Inv lp lp.table := by
  refine ⟨fun i => ?_,?_,⟨_,isBasis_table lp⟩,.refl _⟩
  · simpa [rhs,LinearProgram.table] using hb i
  · simp [value,LinearProgram.table]

/-- The first column with the smallest entry in the objective row is comparable. -/
def Sound (s : State n) : Prop := ∀ j, Entering s.table j → Comparable s.table j

variable {s : State n}

theorem Leads.minRatio {r : Fin n} {j : Fin n ⊕ Fin n} {table : Table n}
    (h : Leads table (.inl j) n r) : MinRatio table r j :=
  ⟨h.pos,fun i hpos => h.le i i.isLt hpos⟩

/-- A sound pass is a pivot on the smallest ratio in a column of negative cost. -/
theorem iteration_pivot (h : Inv lp s.table) (hrun : Running s.table) (hsound : Sound s) :
    ∃ r j, minRow s.table (minCol s.table) = some r ∧ minCol s.table = .inl j ∧
      MinRatio s.table r j ∧ cost s.table j < 0 ∧ (iteration s).table = s.table.pivot r j := by
  obtain ⟨j,hj,hcost⟩ := hrun.minCol_eq h.value_nonneg
  obtain ⟨r,hr,hleads⟩ := minRow_leads h.rhs_nonneg (hsound _ (entering_minCol _))
  rw [hj] at hleads
  refine ⟨r,j,hr,hj,hleads.minRatio,hcost,?_⟩
  rw [iteration,hr,hj]
  exact eliminate_some

theorem Inv.iteration (h : Inv lp s.table) (hrun : Running s.table) (hsound : Sound s) :
    Inv lp (iteration s).table := by
  obtain ⟨r,j,-,-,hmin,hcost,heq⟩ := iteration_pivot h hrun hsound
  obtain ⟨β,hβ⟩ := h.basis
  have hp := hmin.pos.ne'
  rw [heq]
  exact ⟨hmin.rhs_nonneg h.rhs_nonneg,h.value_nonneg.trans (hmin.value_le h.rhs_nonneg hcost.le),
    ⟨_,hβ.pivot hp⟩,(pivot_equivalent hp).trans h.equivalent⟩

theorem inv_of_reach (hb : 0 ≤ lp.b) (h : Reach pass (fun _ s => Sound s) (· = start lp) s) :
    Inv lp s.table := by
  induction h with
  | init h =>
    rw [h]
    exact inv_table hb
  | step _ _ hok hs ih =>
    rw [pass] at hs
    split at hs
    · cases hs
      exact ih.iteration ‹_› hok
    · cases hs

/-- The point of the basic solution. -/
def basicPoint (table : Table n) (β : Fin n → Fin n ⊕ Fin n) (j : Fin n) : ℚ :=
  basicSolution table β (.inl j)

theorem Inv.optimal (h : Inv lp s.table) (hend : ¬ Running s.table) {β : Fin n → Fin n ⊕ Fin n}
    (hβ : IsBasis s.table β) : lp.Feasible (basicPoint s.table β) ∧
      ∀ x, lp.Feasible x → lp.c ⬝ᵥ x ≤ lp.c ⬝ᵥ basicPoint s.table β := by
  obtain ⟨hsolves,hobjective⟩ := h.equivalent (basicSolution s.table β)
  refine ⟨feasible_of_solves (hsolves.mp hβ.solves) (basicSolution_nonneg h.rhs_nonneg),?_⟩
  intro x hx
  obtain ⟨hslack,heq⟩ := h.equivalent (lp.slack x)
  calc lp.c ⬝ᵥ x = objective lp.table (lp.slack x) := (objective_table (z := lp.slack x)).symm
    _ = objective s.table (lp.slack x) := (heq (hslack.mpr solves_slack)).symm
    _ ≤ objective s.table (basicSolution s.table β) :=
      hβ.optimal (cost_nonneg hend) (slack_nonneg hx)
    _ = objective lp.table (basicSolution s.table β) := hobjective hβ.solves
    _ = lp.c ⬝ᵥ basicPoint s.table β := objective_table

/-- In every run of sound passes the right-hand sides stay nonnegative, each pivot is on a nonzero
entry of a constraint row and does not make the objective entry smaller, and the basic solution
that the run ends with is feasible and optimal. -/
theorem simplexSolver_sound (hb : 0 ≤ lp.b)
    (h : Reach pass (fun _ s => Sound s) (· = start lp) s) :
    (∀ i, 0 ≤ rhs s.table i) ∧
    (Running s.table → Sound s → ∃ r, minRow s.table (minCol s.table) = some r ∧
      s.table (.inl r) (minCol s.table) ≠ 0 ∧ (∀ i, 0 ≤ rhs (iteration s).table i) ∧
      value s.table ≤ value (iteration s).table) ∧
    (¬ Running s.table → (∃ β, IsBasis s.table β) ∧ ∀ β, IsBasis s.table β →
      lp.Feasible (basicPoint s.table β) ∧
      ∀ x, lp.Feasible x → lp.c ⬝ᵥ x ≤ lp.c ⬝ᵥ basicPoint s.table β) := by
  have hinv := inv_of_reach hb h
  refine ⟨hinv.rhs_nonneg,fun hrun hsound => ?_,fun hend => ⟨hinv.basis,fun β => hinv.optimal hend⟩⟩
  obtain ⟨r,j,hr,hj,hmin,hcost,heq⟩ := iteration_pivot hinv hrun hsound
  refine ⟨r,hr,?_,(hinv.iteration hrun hsound).rhs_nonneg,?_⟩
  · rw [hj]
    exact hmin.pos.ne'
  · rw [heq]
    exact hmin.value_le hinv.rhs_nonneg hcost.le

/-- Maximise `x` subject to `x ≤ 1`. -/
def one : LinearProgram 1 := ⟨!![1],![1],![1]⟩

theorem sound_one : Sound (start one) := by
  have hentry : ∀ (i : Fin 1) (j : Column 1), one.table (.inl i) j = 1 := by decide +kernel
  have hrhs (i : Fin 1) : rhs one.table i = 1 := hentry i (.inr ())
  intro j _
  change Comparable one.table j
  refine ⟨fun i _ => ?_,⟨0,?_,?_⟩,fun i k _ hleads => ?_⟩
  · exact (hrhs i).trans_ne one_ne_zero
  · rw [hentry]
    exact one_pos
  · rw [ratio,hrhs,hentry]
    norm_num
  · have := hleads.lt
    omega

theorem reach_one : Reach pass (fun _ s => Sound s) (· = start one) (iteration (start one)) :=
  .step () (.init rfl) sound_one (pass_of_running (by decide +kernel))

theorem simplexSolver_sound_one : (∃ β, IsBasis (iteration (start one)).table β) ∧
    ∀ β, IsBasis (iteration (start one)).table β →
      one.Feasible (basicPoint (iteration (start one)).table β) ∧ ∀ x, one.Feasible x →
        one.c ⬝ᵥ x ≤ one.c ⬝ᵥ basicPoint (iteration (start one)).table β := by
  have hb : ∀ i, 0 ≤ one.b i := by decide +kernel
  exact (simplexSolver_sound hb reach_one).2.2 (by decide +kernel)

/-- Maximise the first variable, which is at most 2 by the first row and at most 3 by the
second. -/
def skipped : LinearProgram 2 := ⟨!![2,0;1,0],![1,0],![4,3]⟩

/-- The ratio of the second row is compared with the right-hand side of the first, not with its
ratio, and the loop ends in a point that the first row forbids. -/
theorem simplexSolver_infeasible : 0 ≤ skipped.b ∧ ∃ s β,
    Reach pass (fun _ _ => True) (· = start skipped) s ∧ ¬ Running s.table ∧
    IsBasis s.table β ∧ rhs s.table 0 = -2 ∧ ¬ skipped.Feasible (basicPoint s.table β) := by
  have hb : ∀ i, 0 ≤ skipped.b i := by decide +kernel
  refine ⟨hb,iteration (start skipped),![.inr 0,.inl 0],?_,?_,?_,?_,?_⟩
  · exact .step () (.init rfl) trivial (pass_of_running (by decide +kernel))
  · decide +kernel
  · exact ⟨by decide +kernel,by decide +kernel⟩
  · decide +kernel
  · intro h
    exact absurd (h.1 0) (by decide +kernel)

end Program

end ResumePointers.Ml.Simplex
