import Mathlib.Data.List.Dedup
import Mathlib.Data.ENat.Basic
import Mathlib.Order.Defs.LinearOrder

/-! The decision tree of `ml_algos/classifiers/Decision trees/q1.py`, whose gain, a
floating-point number, may prefer any of the attributes that are left. -/
namespace ResumePointers.Ml

variable {α : Type} {d : ℕ}

/-- A row of `features` and its entry of `classes`. -/
structure Example (α : Type) (d : ℕ) where
  features : List α
  label : Fin 2
  complete : features.length = d

variable {examples : List (Example α d)} {attributes : List ℕ} {e : Example α d} {i : ℕ} {v : α}

/-- `classes.sum()` -/
def sum (examples : List (Example α d)) : ℕ := (examples.map fun e => e.label.val).sum

theorem Example.label_le (e : Example α d) : e.label.val ≤ 1 := Nat.le_of_lt_succ e.label.isLt

theorem Example.exists_feature (e : Example α d) (hi : i < d) : ∃ v, e.features[i]? = some v :=
  ⟨_,List.getElem?_eq_getElem (e.complete.symm ▸ hi)⟩

theorem sum_cons (e : Example α d) (examples : List (Example α d)) :
    sum (e::examples) = e.label.val + sum examples := by
  rw [sum,List.map_cons,List.sum_cons,sum]

theorem sum_le (examples : List (Example α d)) : sum examples ≤ examples.length := by
  induction examples with
  | nil => exact Nat.le_refl 0
  | cons e examples ih =>
    have := e.label_le
    rw [sum_cons,List.length_cons]
    omega

theorem sum_eq_zero_iff : sum examples = 0 ↔ ∀ e ∈ examples, e.label.val = 0 := by
  induction examples with
  | nil => simp [sum]
  | cons e examples ih => simp [sum_cons,ih]

theorem sum_eq_length_iff : sum examples = examples.length ↔ ∀ e ∈ examples, e.label.val = 1 := by
  induction examples with
  | nil => simp [sum]
  | cons e examples ih =>
    have hle := e.label_le
    have hsum := sum_le examples
    rw [List.forall_mem_cons,← ih,sum_cons,List.length_cons]
    omega

/-- `rem_attr` -/
def without (attributes : List ℕ) (best_attr : ℕ) : List ℕ := attributes.filter (· ≠ best_attr)

theorem length_without {attributes : List ℕ} {i : ℕ} (h : i ∈ attributes) :
    (without attributes i).length < attributes.length :=
  List.length_filter_lt_length_iff_exists.mpr ⟨i,h,by simp⟩

/-- A leaf has the attribute -1. The children are a dictionary. -/
inductive DecisionNode (α : Type)
  | mk (default : ℕ) (attr_to_split : ℤ) (children : List (α × DecisionNode α))

/-- `DecisionNode(default)` -/
def DecisionNode.leaf (default : ℕ) : DecisionNode α := .mk default (-1) []

/-- What picks the best attribute of a node: one of those left. -/
structure Gain (α : Type) (d : ℕ) where
  best : List (Example α d) → List ℕ → ℕ
  mem : ∀ examples attributes, attributes ≠ [] → best examples attributes ∈ attributes

variable [LinearOrder α] {gain : Gain α d}

mutual

/-- `DecisionNode.predict`; `none` is an `IndexError`. -/
def DecisionNode.predict (attributes : List α) : DecisionNode α → Option ℕ
  | .mk default attr_to_split children =>
    if attr_to_split = -1 then some default
    else
      match attributes[attr_to_split.toNat]? with
      | some key => predictChild attributes key default children
      | none => none

def predictChild (attributes : List α) (key : α) (default : ℕ) :
    List (α × DecisionNode α) → Option ℕ
  | [] => some default
  | (v,child)::children =>
    if v = key then child.predict attributes else predictChild attributes key default children

end

/-- `features[:,i]` -/
def column (examples : List (Example α d)) (i : ℕ) : List α :=
  examples.filterMap fun e => e.features[i]?

/-- `np.unique` -/
def unique (a : List α) : List α := a.dedup.mergeSort

/-- The rows with `v` in column `i`. -/
def select (examples : List (Example α d)) (i : ℕ) (v : α) : List (Example α d) :=
  examples.filter fun e => e.features[i]? = some v

/-- `__build_tree__` -/
def build_tree (gain : Gain α d) (examples : List (Example α d)) (attributes : List ℕ)
    (depth : ℕ) : DecisionNode α :=
  if sum examples = examples.length then .leaf 1
  else if sum examples = 0 then .leaf 0
  else if hne : attributes = [] then
    if sum examples * 2 ≥ examples.length then .leaf 1 else .leaf 0
  else
    let best_attr := gain.best examples attributes
    .mk (if sum examples * 2 > examples.length then 1 else 0) best_attr <|
      (unique (column examples best_attr)).map fun v =>
        (v,build_tree gain (select examples best_attr v) (without attributes best_attr)
          (depth + 1))
termination_by attributes.length
decreasing_by exact length_without (gain.mem examples attributes hne)

structure DecisionTree (α : Type) where
  root : Option (DecisionNode α) := none
  depth_limit : ℕ∞ := ⊤

def DecisionTree.fit (gain : Gain α d) (self : DecisionTree α) (examples : List (Example α d)) :
    DecisionTree α :=
  { self with root := some (build_tree gain examples (List.range d) 0) }

def DecisionTree.predict (self : DecisionTree α) (attributes : List α) : Option ℕ := do
  let root ← self.root
  root.predict attributes

/-- The label of most of the examples; ties give 1. -/
def majority (examples : List (Example α d)) : ℕ :=
  if examples.length ≤ 2 * sum examples then 1 else 0

@[simp] theorem predict_leaf (default : ℕ) (features : List α) :
    (DecisionNode.leaf default).predict features = some default := by
  rw [DecisionNode.leaf,DecisionNode.predict,if_pos rfl]

theorem predictChild_map {features keys : List α} {default : ℕ} {f : α → DecisionNode α}
    (hv : v ∈ keys) : predictChild features v default (keys.map fun v => (v,f v)) =
      (f v).predict features := by
  induction keys with
  | nil => simp at hv
  | cons w keys ih =>
    rw [List.map_cons,predictChild]
    by_cases hw : w = v
    · rw [if_pos hw,hw]
    · rw [if_neg hw]
      exact ih ((List.mem_cons.mp hv).resolve_left (Ne.symm hw))

theorem mem_unique_column (he : e ∈ examples) (hv : e.features[i]? = some v) :
    v ∈ unique (column examples i) := by
  rw [unique,List.mem_mergeSort,List.mem_dedup,column,List.mem_filterMap]
  exact ⟨e,he,hv⟩

/-- The examples that agree with `e` in all features. -/
def alike (examples : List (Example α d)) (e : Example α d) : List (Example α d) :=
  examples.filter fun x => x.features = e.features

theorem mem_alike (he : e ∈ examples) : e ∈ alike examples e := by
  rw [alike,List.mem_filter]
  exact ⟨he,by simp⟩

theorem alike_select (hv : e.features[i]? = some v) :
    alike (select examples i v) e = alike examples e := by
  rw [alike,select,List.filter_filter]
  refine List.filter_congr fun x _ => ?_
  by_cases hx : x.features = e.features
  · simp [hx,hv]
  · simp [hx]

/-- The examples agree in the features that are not among the attributes. -/
def AgreeOutside (examples : List (Example α d)) (attributes : List ℕ) : Prop :=
  ∀ x ∈ examples, ∀ y ∈ examples, ∀ i, i ∉ attributes → x.features[i]? = y.features[i]?

theorem AgreeOutside.select (h : AgreeOutside examples attributes) (i : ℕ) (v : α) :
    AgreeOutside (select examples i v) (without attributes i) := by
  intro x hx y hy j hj
  rw [Ml.select,List.mem_filter,decide_eq_true_eq] at hx hy
  by_cases hji : j = i
  · rw [hji,hx.2,hy.2]
  · refine h x hx.1 y hy.1 j fun hmem => hj ?_
    rw [without,List.mem_filter]
    exact ⟨hmem,by simpa using hji⟩

/-- The branch that a training row takes ends in the majority of the rows like it. -/
theorem build_tree_predict (hrange : ∀ i ∈ attributes, i < d)
    (hagree : AgreeOutside examples attributes) (he : e ∈ examples) (depth : ℕ) :
    (build_tree gain examples attributes depth).predict e.features =
      some (majority (alike examples e)) := by
  induction hn : attributes.length using Nat.strongRecOn generalizing examples attributes depth with
  | ind n ih =>
    rw [build_tree]
    have hmem := mem_alike he
    have hsub : alike examples e ⊆ examples := List.filter_subset_self _
    by_cases hone : sum examples = examples.length
    · have hall := sum_eq_length_iff.mpr fun x hx => sum_eq_length_iff.mp hone x (hsub hx)
      rw [if_pos hone,predict_leaf,majority,if_pos (by omega)]
    by_cases hzero : sum examples = 0
    · have hall := sum_eq_zero_iff.mpr fun x hx => sum_eq_zero_iff.mp hzero x (hsub hx)
      have hpos := List.length_pos_of_mem hmem
      rw [if_neg hone,if_pos hzero,predict_leaf,majority,if_neg (by omega)]
    by_cases hne : attributes = []
    · have hall : alike examples e = examples := by
        refine List.filter_eq_self.mpr fun x hx => ?_
        rw [decide_eq_true_eq]
        exact List.ext_getElem? fun i => hagree x hx e he i (by simp [hne])
      rw [if_neg hone,if_neg hzero,dif_pos hne,majority,hall,Nat.mul_comm 2]
      by_cases hties : examples.length ≤ sum examples * 2
      · rw [if_pos hties,if_pos hties,predict_leaf]
      · rw [if_neg hties,if_neg hties,predict_leaf]
    · have hbest := gain.mem examples attributes hne
      obtain ⟨v,hv⟩ := e.exists_feature (hrange _ hbest)
      have hchild : e ∈ select examples (gain.best examples attributes) v := by
        rw [select,List.mem_filter,decide_eq_true_eq]
        exact ⟨he,hv⟩
      rw [if_neg hone,if_neg hzero,dif_neg hne,DecisionNode.predict,if_neg (by omega)]
      simp only [Int.toNat_natCast,hv]
      rw [predictChild_map (mem_unique_column he hv),← alike_select hv]
      refine ih _ (hn ▸ length_without hbest) (fun i hi => hrange i ?_) (hagree.select _ v) hchild _ rfl
      rw [without,List.mem_filter] at hi
      exact hi.1

/-- Whatever the gain picks, the tree answers a training row with the majority label of the training
rows that agree with it in all features. -/
theorem predict_training_row (gain : Gain α d) (self : DecisionTree α)
    (examples : List (Example α d)) (e : Example α d) (he : e ∈ examples) :
    (self.fit gain examples).predict e.features = some (majority (alike examples e)) := by
  refine build_tree_predict (fun i hi => List.mem_range.mp hi) (fun x hx y hy i hi => ?_) he 0
  rw [List.mem_range,not_lt] at hi
  rw [List.getElem?_eq_none (x.complete.le.trans hi),List.getElem?_eq_none (y.complete.le.trans hi)]

/-- The attribute that is left with the lowest index. -/
def firstLeft : Gain α d where
  best _ attributes := attributes.headI
  mem _ attributes hne := by
    cases attributes with
    | nil => exact absurd rfl hne
    | cons i attributes => exact List.mem_cons_self

/-- The first two rows are alike and have different labels. -/
def tied : List (Example ℕ 1) := [⟨[0],1,rfl⟩,⟨[0],0,rfl⟩,⟨[1],0,rfl⟩]

theorem predict_training_row_tied :
    (DecisionTree.fit firstLeft {} tied).predict [0] = some 1 := by
  have h := predict_training_row firstLeft {} tied ⟨[0],1,rfl⟩ List.mem_cons_self
  exact h.trans (by decide)

end ResumePointers.Ml
