import ResumePointers.NormalForm.Game
import Mathlib.Order.Defs.LinearOrder

/-! `psne_gen` of `game_theory_algos/normal_form/q1.py`, with `check` and `make_allpermut`. -/
namespace ResumePointers.NormalForm

variable {α β γ : Type}

/-- A loop that adds 1 to a counter for every element that passes a test. -/
def countM (p : β → Option Bool) : List β → ℕ → Option ℕ
  | [],count => some count
  | x::xs,count => do
    let b ← p x
    countM p xs (if b then count + 1 else count)

/-- A loop that adds a number for every element. -/
def sumM (f : β → Option ℕ) : List β → ℕ → Option ℕ
  | [],total => some total
  | x::xs,total => do
    let a ← f x
    sumM f xs (total + a)

/-- A loop that appends something to a list for some of the elements. -/
def collectM (f : β → Option (Option γ)) : List β → Option (List γ)
  | [] => some []
  | x::xs => do
    let found ← f x
    let rest ← collectM f xs
    some (found.toList ++ rest)

/-- `itertools.product` -/
def product : List (List ℕ) → List (List ℕ)
  | [] => [[]]
  | l::ls => l.flatMap fun a => (product ls).map fun s => a::s

def make_allpermut (num_players : ℕ) (strategy : List ℕ) : Option (List (List ℕ)) := do
  let somelists ← (List.range num_players).mapM fun k => strategy[k]?.map List.range
  return product somelists

/-- `util_matrix[tuple(s)][target]` -/
def payoffAt (util_matrix : Ndarray (List α)) (s : List ℕ) (target : ℕ) : Option α :=
  (util_matrix.entry s).bind (·[target]?)

variable [LinearOrder α]

def check (array : List ℕ) (target : ℕ) (forstrat : List ℕ) (num_players : ℕ) (strategy : List ℕ)
    (util_matrix : Ndarray (List α)) : Option ℕ := do
  let allpermut ← make_allpermut num_players strategy
  let getindex ← array.mapM (allpermut[·]?)
  let tf ← countM (fun s => do
    let deviation ← payoffAt util_matrix s target
    let payoff ← payoffAt util_matrix forstrat target
    some (decide (deviation ≤ payoff))) getindex 0
  some (if tf = array.length then 1 else 0)

/-- The profiles that agree with profile `i` but for player `j`. -/
def comparisonarray (allpermut : List (List ℕ)) (num_players i j : ℕ) : Option (List ℕ) := do
  let current ← allpermut[i]?
  collectM (fun l => do
    let other ← allpermut[l]?
    let matchflag ← countM (fun k => do
      let a ← other[k]?
      let b ← current[k]?
      some (decide (a = b ∨ j = k ∧ l ≠ i))) (List.range current.length) 0
    some (if matchflag = num_players then some l else none)) (List.range allpermut.length)

def psne_gen (num_players : ℕ) (strategy : List ℕ) (util_matrix : Ndarray (List α)) :
    Option (List (List ℕ)) := do
  let allpermut ← make_allpermut num_players strategy
  collectM (fun i => do
    let current ← allpermut[i]?
    let flag ← sumM (fun j => do
      let array ← comparisonarray allpermut num_players i j
      check array j current num_players strategy util_matrix) (List.range current.length) 0
    some (if flag = num_players then some current else none)) (List.range allpermut.length)

variable {strategies s s' : List ℕ} {u : List ℕ → ℕ → α} {util_matrix : Ndarray (List α)}
  {allpermut : List (List ℕ)} {i j n count : ℕ}

theorem mem_product : s ∈ product (strategies.map List.range) ↔ Digits s strategies := by
  induction strategies generalizing s with
  | nil => simp [product]
  | cons c strategies ih =>
    rw [List.map_cons,product,List.mem_flatMap,Digits,List.forall₂_cons_right_iff]
    constructor
    · rintro ⟨a,ha,hs⟩
      obtain ⟨rest,hrest,rfl⟩ := List.mem_map.mp hs
      exact ⟨a,rest,List.mem_range.mp ha,ih.mp hrest,rfl⟩
    · rintro ⟨a,rest,ha,hrest,rfl⟩
      exact ⟨a,List.mem_range.mpr ha,List.mem_map.mpr ⟨rest,ih.mpr hrest,rfl⟩⟩

/-- The list has all profiles, each once. -/
def Profiles (allpermut : List (List ℕ)) (strategies : List ℕ) : Prop :=
  allpermut.Nodup ∧ ∀ s, s ∈ allpermut ↔ Digits s strategies

end ResumePointers.NormalForm
