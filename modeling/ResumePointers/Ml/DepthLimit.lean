import Mathlib
import ResumePointers.Ml.DecisionTree

/-! The depth limit of the decision tree (`ml_algos/classifiers/Decision trees/q1.py`), which
`__init__` keeps and nobody asks for. -/
namespace ResumePointers.Ml

variable {α : Type} {d : ℕ}

/-- A path from a node to a leaf, with the number of its inner nodes. -/
inductive RootToLeaf : DecisionNode α → ℕ → Prop
  | leaf (default : ℕ) (children : List (α × DecisionNode α)) :
    RootToLeaf (.mk default (-1) children) 0
  | node {default : ℕ} {attr : ℤ} {children : List (α × DecisionNode α)} {v : α}
    {child : DecisionNode α} {n : ℕ} (hattr : attr ≠ -1) (hmem : (v,child) ∈ children)
    (hpath : RootToLeaf child n) : RootToLeaf (.mk default attr children) (n + 1)

/-- No path from the root to a leaf has more than `depth_limit` inner nodes. -/
def DecisionTree.Limited (self : DecisionTree α) : Prop :=
  ∀ root, self.root = some root → ∀ n, RootToLeaf root n → (n : ℕ∞) ≤ self.depth_limit

def OneLabel (examples : List (Example α d)) : Prop :=
  ∀ x ∈ examples, ∀ y ∈ examples, x.label = y.label

variable {examples : List (Example α d)} {attributes is : List ℕ} {e : Example α d} {i n : ℕ} {v : α}
  {default : ℕ} {children : List (α × DecisionNode α)}

theorem rootToLeaf_leaf : RootToLeaf (DecisionNode.leaf default : DecisionNode α) n ↔ n = 0 := by
  constructor
  · intro h
    cases h with
    | leaf => rfl
    | node hattr => exact absurd rfl hattr
  · rintro rfl
    exact .leaf default []

theorem rootToLeaf_node : RootToLeaf (.mk default (i : ℤ) children) n ↔
    ∃ v child m, (v,child) ∈ children ∧ RootToLeaf child m ∧ n = m + 1 := by
  constructor
  · intro h
    generalize hattr : (i : ℤ) = attr at h
    cases h with
    | leaf => omega
    | node _ hmem hpath => exact ⟨_,_,_,hmem,hpath,rfl⟩
  · rintro ⟨v,child,m,hmem,hpath,rfl⟩
    exact .node (by omega) hmem hpath

theorem oneLabel_iff : OneLabel examples ↔ sum examples = examples.length ∨ sum examples = 0 := by
  rw [sum_eq_length_iff,sum_eq_zero_iff]
  constructor
  · intro h
    cases examples with
    | nil => simp
    | cons x examples =>
      have hx := x.label_le
      have hall (y : Example α d) (hy : y ∈ x::examples) : y.label.val = x.label.val :=
        congrArg Fin.val (h y hy x List.mem_cons_self)
      rcases Nat.le_one_iff_eq_zero_or_eq_one.mp hx with h0 | h1
      · exact .inr fun y hy => (hall y hy).trans h0
      · exact .inl fun y hy => (hall y hy).trans h1
  · rintro (h | h) x hx y hy
    · exact Fin.ext ((h x hx).trans (h y hy).symm)
    · exact Fin.ext ((h x hx).trans (h y hy).symm)

theorem OneLabel.mono {rows : List (Example α d)} (h : OneLabel examples)
    (hsub : ∀ x ∈ rows, x ∈ examples) : OneLabel rows :=
  fun x hx y hy => h x (hsub x hx) y (hsub y hy)

theorem exists_of_not_oneLabel (h : ¬ OneLabel examples) : ∃ e, e ∈ examples := by
  by_contra hnone
  exact h fun x hx => absurd ⟨x,hx⟩ hnone

variable [LinearOrder α] {gain : Gain α d}

/-- The rows that agree with `e` in these attributes. -/
def agreeing (examples : List (Example α d)) (e : Example α d) (is : List ℕ) :
    List (Example α d) :=
  examples.filter fun x => ∀ i ∈ is, x.features[i]? = e.features[i]?

/-- The first attributes that the gain picks for the rows like `e`. -/
def picks (gain : Gain α d) (examples : List (Example α d)) (attributes : List ℕ)
    (e : Example α d) : ℕ → List ℕ
  | 0 => []
  | n + 1 =>
    let is := picks gain examples attributes e n
    let left := attributes.filter (· ∉ is)
    if left = [] then is else is ++ [gain.best (agreeing examples e is) left]

/-- A node with one label or without attributes is a leaf. -/
theorem build_tree_leaf (gain : Gain α d) (h : OneLabel examples ∨ attributes = []) (depth : ℕ) :
    ∃ default, build_tree gain examples attributes depth = .leaf default := by
  rw [build_tree]
  by_cases hone : sum examples = examples.length
  · exact ⟨1,if_pos hone⟩
  by_cases hzero : sum examples = 0
  · exact ⟨0,by rw [if_neg hone,if_pos hzero]⟩
  have hnil : attributes = [] := h.resolve_left fun h => (oneLabel_iff.mp h).elim hone hzero
  rw [if_neg hone,if_neg hzero,dif_pos hnil]
  split_ifs
  · exact ⟨1,rfl⟩
  · exact ⟨0,rfl⟩

theorem build_tree_node (gain : Gain α d) (h : ¬ OneLabel examples) (hne : attributes ≠ []) (depth : ℕ) :
    ∃ default, build_tree gain examples attributes depth =
      .mk default (gain.best examples attributes : ℕ)
        ((unique (column examples (gain.best examples attributes))).map fun v =>
          (v,build_tree gain (select examples (gain.best examples attributes) v)
            (without attributes (gain.best examples attributes)) (depth + 1))) := by
  rw [oneLabel_iff,not_or] at h
  refine ⟨if sum examples * 2 > examples.length then 1 else 0,?_⟩
  rw [build_tree,if_neg h.1,if_neg h.2,dif_neg hne]

theorem mem_select : e ∈ select examples i v ↔ e ∈ examples ∧ e.features[i]? = some v := by
  rw [select,List.mem_filter,decide_eq_true_eq]

theorem mem_unique_column_iff :
    v ∈ unique (column examples i) ↔ ∃ e ∈ examples, e.features[i]? = some v := by
  rw [unique,List.mem_mergeSort,List.mem_dedup,column,List.mem_filterMap]

theorem agreeing_nil (examples : List (Example α d)) (e : Example α d) :
    agreeing examples e [] = examples := by
  simp [agreeing]

theorem agreeing_cons (hv : e.features[i]? = some v) :
    agreeing examples e (i::is) = agreeing (select examples i v) e is := by
  rw [agreeing,agreeing,select,List.filter_filter]
  apply List.filter_congr
  intro x _
  rw [Bool.and_comm]
  simp [hv]

/-- Behind the first pick the others are those for the rows of one child. -/
theorem picks_succ (hne : attributes ≠ [])
    (hv : e.features[gain.best examples attributes]? = some v) (n : ℕ) :
    picks gain examples attributes e (n + 1) = gain.best examples attributes ::
      picks gain (select examples (gain.best examples attributes) v)
        (without attributes (gain.best examples attributes)) e n := by
  induction n with
  | zero =>
    have hall : attributes.filter (· ∉ ([] : List ℕ)) = attributes := by simp
    have hfirst : picks gain examples attributes e 1 =
        if attributes.filter (· ∉ ([] : List ℕ)) = [] then []
        else [gain.best (agreeing examples e []) (attributes.filter (· ∉ []))] := rfl
    rw [hfirst,hall,if_neg hne,agreeing_nil]
    rfl
  | succ n ih =>
    have hleft (is : List ℕ) : attributes.filter (· ∉ gain.best examples attributes::is) =
        (without attributes (gain.best examples attributes)).filter (· ∉ is) := by
      rw [without,List.filter_filter]
      apply List.filter_congr
      intro j _
      simp [and_comm]
    rw [picks,ih]
    simp only [hleft,agreeing_cons hv]
    rw [picks]
    split_ifs <;> simp

theorem length_without_eq (hnd : attributes.Nodup) (hi : i ∈ attributes) :
    (without attributes i).length + 1 = attributes.length := by
  have herase : without attributes i = attributes.erase i := by
    rw [without,hnd.erase_eq_filter]
    apply List.filter_congr
    intro j _
    by_cases h : j = i <;> simp [h]
  have hpos := List.length_pos_of_mem hi
  rw [herase,List.length_erase_of_mem hi]
  omega

theorem mem_without {j : ℕ} (h : j ∈ without attributes i) : j ∈ attributes :=
  List.mem_of_mem_filter h

/-- An example of every child, and a child for every example. -/
theorem exists_child {f : α → DecisionNode α} {child : DecisionNode α} :
    (∃ v, (v,child) ∈ (unique (column examples i)).map fun v => (v,f v)) ↔
      ∃ e ∈ examples, ∃ v, e.features[i]? = some v ∧ child = f v := by
  constructor
  · rintro ⟨v,hv⟩
    obtain ⟨w,hw,heq⟩ := List.mem_map.mp hv
    obtain ⟨rfl,rfl⟩ := Prod.mk.inj heq
    obtain ⟨e,he,hwe⟩ := mem_unique_column_iff.mp hw
    exact ⟨e,he,w,hwe,rfl⟩
  · rintro ⟨e,he,v,hv,rfl⟩
    exact ⟨v,List.mem_map.mpr ⟨v,mem_unique_column_iff.mpr ⟨e,he,hv⟩,rfl⟩⟩

theorem exists_rootToLeaf (gain : Gain α d) (examples : List (Example α d)) {attributes : List ℕ}
    (hrange : ∀ i ∈ attributes, i < d) (depth : ℕ) :
    ∃ n, RootToLeaf (build_tree gain examples attributes depth) n := by
  induction hn : attributes.length using Nat.strong_induction_on
    generalizing examples attributes depth with
  | _ n ih =>
    by_cases hleaf : OneLabel examples ∨ attributes = []
    · obtain ⟨default,htree⟩ := build_tree_leaf gain hleaf depth
      rw [htree]
      exact ⟨0,rootToLeaf_leaf.mpr rfl⟩
    · rw [not_or] at hleaf
      obtain ⟨default,htree⟩ := build_tree_node gain hleaf.1 hleaf.2 depth
      have hbest := gain.mem examples attributes hleaf.2
      obtain ⟨e,he⟩ := exists_of_not_oneLabel hleaf.1
      obtain ⟨v,hv⟩ := e.exists_feature (hrange _ hbest)
      obtain ⟨m,hm⟩ := ih _ (hn ▸ length_without hbest)
        (select examples (gain.best examples attributes) v)
        (fun i hi => hrange i (mem_without hi)) (depth + 1) rfl
      rw [htree]
      exact ⟨m + 1,rootToLeaf_node.mpr ⟨v,_,m,List.mem_map.mpr
        ⟨v,mem_unique_column he hv,rfl⟩,hm,rfl⟩⟩

/-- The inner nodes below an inner node, by the rows that get there. -/
theorem longer_node (h : ¬ OneLabel examples) (hne : attributes ≠ []) (limit depth : ℕ) :
    (∃ n, limit < n ∧ RootToLeaf (build_tree gain examples attributes depth) n) ↔
      ∃ e ∈ examples, ∃ v, e.features[gain.best examples attributes]? = some v ∧
        ∃ m, limit < m + 1 ∧
          RootToLeaf (build_tree gain (select examples (gain.best examples attributes) v)
            (without attributes (gain.best examples attributes)) (depth + 1)) m := by
  obtain ⟨default,htree⟩ := build_tree_node gain h hne depth
  rw [htree]
  simp only [rootToLeaf_node]
  constructor
  · rintro ⟨_,hlt,w,child,m,hmem,hpath,rfl⟩
    obtain ⟨e,he,v,hv,rfl⟩ := exists_child.mp ⟨w,hmem⟩
    exact ⟨e,he,v,hv,m,hlt,hpath⟩
  · rintro ⟨e,he,v,hv,m,hlt,hpath⟩
    obtain ⟨w,hmem⟩ := exists_child.mpr ⟨e,he,v,hv,rfl⟩
    exact ⟨m + 1,hlt,w,_,m,hmem,hpath,rfl⟩

theorem longer_leaf (hleaf : OneLabel examples ∨ attributes = []) (limit depth : ℕ) :
    (∃ n, limit < n ∧ RootToLeaf (build_tree gain examples attributes depth) n) ↔
      limit < attributes.length ∧ ∃ e ∈ examples,
        ¬ OneLabel (agreeing examples e (picks gain examples attributes e limit)) := by
  obtain ⟨default,htree⟩ := build_tree_leaf gain hleaf depth
  rw [htree]
  apply iff_of_false
  · rintro ⟨n,hlt,hpath⟩
    rw [rootToLeaf_leaf] at hpath
    omega
  · rintro ⟨hlt,e,he,hmixed⟩
    rcases hleaf with hone | rfl
    · exact hmixed (hone.mono fun x hx => List.mem_of_mem_filter hx)
    · exact absurd hlt (Nat.not_lt_zero _)

/-- A path with more than `limit` inner nodes belongs to rows that the first `limit` picks do not
tell apart. -/
theorem exists_longer_iff (gain : Gain α d) (examples : List (Example α d))
    (attributes : List ℕ) (hnd : attributes.Nodup) (hrange : ∀ i ∈ attributes, i < d)
    (limit depth : ℕ) :
    (∃ n, limit < n ∧ RootToLeaf (build_tree gain examples attributes depth) n) ↔
      limit < attributes.length ∧ ∃ e ∈ examples,
        ¬ OneLabel (agreeing examples e (picks gain examples attributes e limit)) := by
  induction limit generalizing examples attributes depth with
  | zero =>
    by_cases hleaf : OneLabel examples ∨ attributes = []
    · exact longer_leaf hleaf 0 depth
    · obtain ⟨hmixed,hne⟩ := not_or.mp hleaf
      obtain ⟨e,he⟩ := exists_of_not_oneLabel hmixed
      obtain ⟨v,hv⟩ := e.exists_feature (hrange _ (gain.mem examples attributes hne))
      obtain ⟨m,hm⟩ := exists_rootToLeaf gain
        (select examples (gain.best examples attributes) v)
        (fun i hi => hrange i (mem_without hi)) (depth + 1)
      rw [longer_node hmixed hne]
      apply iff_of_true
      · exact ⟨e,he,v,hv,m,Nat.succ_pos m,hm⟩
      · refine ⟨List.length_pos_iff.mpr hne,e,he,?_⟩
        rwa [picks,agreeing_nil]
  | succ limit ih =>
    by_cases hleaf : OneLabel examples ∨ attributes = []
    · exact longer_leaf hleaf (limit + 1) depth
    · obtain ⟨hmixed,hne⟩ := not_or.mp hleaf
      have hlen := length_without_eq hnd (gain.mem examples attributes hne)
      have hchild (v : α) := ih (select examples (gain.best examples attributes) v)
        (without attributes (gain.best examples attributes)) (hnd.filter _)
        (fun i hi => hrange i (mem_without hi)) (depth + 1)
      rw [longer_node hmixed hne]
      simp only [Nat.add_lt_add_iff_right]
      constructor
      · rintro ⟨e,he,v,hv,hlong⟩
        obtain ⟨hlt,e',he',hsplit⟩ := (hchild v).mp hlong
        obtain ⟨hmem,hv'⟩ := mem_select.mp he'
        refine ⟨by omega,e',hmem,?_⟩
        rwa [picks_succ hne hv',agreeing_cons hv']
      · rintro ⟨hlt,e,he,hsplit⟩
        obtain ⟨v,hv⟩ := e.exists_feature (hrange _ (gain.mem examples attributes hne))
        rw [picks_succ hne hv,agreeing_cons hv] at hsplit
        exact ⟨e,he,v,hv,(hchild v).mpr ⟨by omega,e,mem_select.mpr ⟨he,hv⟩,hsplit⟩⟩

/-- The fitted tree keeps to its depth limit if and only if that is no less than the number of
attributes, or the rows that agree in as many picked attributes have one label. -/
theorem fit_limited_iff (gain : Gain α d) (self : DecisionTree α) (examples : List (Example α d)) :
    (self.fit gain examples).Limited ↔ ∀ limit : ℕ, self.depth_limit = limit → limit < d →
      ∀ e ∈ examples, OneLabel (agreeing examples e (picks gain examples (List.range d) e limit)) := by
  have hlonger (limit : ℕ) := exists_longer_iff gain examples (List.range d)
    List.nodup_range (fun i (hi : i ∈ List.range d) => List.mem_range.mp hi) limit 0
  simp only [List.length_range] at hlonger
  have hroot : (self.fit gain examples).Limited ↔ ∀ n,
      RootToLeaf (build_tree gain examples (List.range d) 0) n → (n : ℕ∞) ≤ self.depth_limit := by
    constructor
    · exact fun h n hn => h _ rfl n hn
    · rintro h root hroot n hn
      obtain rfl := Option.some.inj hroot
      exact h n hn
  rw [hroot]
  constructor
  · intro h limit hlimit hlt e he
    by_contra hmixed
    obtain ⟨n,hn,hpath⟩ := (hlonger limit).mpr ⟨hlt,e,he,hmixed⟩
    have hle := h n hpath
    rw [hlimit,Nat.cast_le] at hle
    omega
  · intro h n hpath
    by_contra hnot
    obtain ⟨limit,hlimit⟩ := ENat.ne_top_iff_exists.mp (ne_top_of_lt (not_le.mp hnot))
    rw [← hlimit,not_le,Nat.cast_lt] at hnot
    obtain ⟨hlt,e,he,hmixed⟩ := (hlonger limit).mp ⟨n,hnot,hpath⟩
    exact hmixed (h limit hlimit.symm hlt e he)

/-- With limit 0 the tree of three rows still asks for a feature. -/
theorem fit_beyond_limit :
    ¬ ((⟨none,0⟩ : DecisionTree ℕ).fit firstLeft tied).Limited := by
  have hmixed : ¬ OneLabel tied := by
    rw [oneLabel_iff]
    decide
  have hlonger := exists_longer_iff firstLeft tied (List.range 1) (by decide) (by decide) 0 0
  obtain ⟨n,hlt,hpath⟩ := hlonger.mpr ⟨by decide,_,List.mem_cons_self,by
    rwa [picks,agreeing_nil]⟩
  intro h
  have hle : (n : ℕ∞) ≤ 0 := h _ rfl n hpath
  rw [nonpos_iff_eq_zero,Nat.cast_eq_zero] at hle
  omega

end ResumePointers.Ml
