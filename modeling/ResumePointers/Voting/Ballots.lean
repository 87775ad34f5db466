import Mathlib.Data.List.MinMax
import Mathlib.Data.List.Nodup
import Mathlib.Order.Interval.Set.Defs
import Mathlib.Data.List.Range
import ResumePointers.Lib.FirstMax

/-! Preference profiles (`voting_rules_gale_shapley/q1.py`). Row `i` of a profile is the
strict order of voter `i`; the candidates are `1, …, m`. -/
namespace ResumePointers.Voting

variable {m : ℕ} {α : Type}

/-- A complete ballot: every candidate once, the most preferred one first. -/
structure Ballot (m : ℕ) where
  order : List ℕ
  complete : order.Perm (List.range' 1 m)

/-- A row of an array as a ballot, if it is one. -/
def Ballot.ofList? (order : List ℕ) : Option (Ballot m) :=
  if h : order.Perm (List.range' 1 m) then some ⟨order,h⟩ else none

/-- `profiles`, an array of shape `(n,m)`. -/
abbrev Profiles (m : ℕ) := List (Ballot m)

/-- `np.argmax`: the first index of the largest entry; an empty array raises. -/
def argmax [LinearOrder α] (a : List α) : Option ℕ := a.max?.map a.idxOf

/-- `np.argmin`: the first index of the smallest entry; an empty array raises. -/
def argmin [LinearOrder α] (a : List α) : Option ℕ := a.min?.map a.idxOf

theorem Ballot.nodup (b : Ballot m) : b.order.Nodup :=
  b.complete.nodup_iff.mpr List.nodup_range'

theorem Ballot.mem {b : Ballot m} {x : ℕ} : x ∈ b.order ↔ x ∈ Set.Icc 1 m := by
  rw [b.complete.mem_iff,List.mem_range'_1,Set.mem_Icc]
  omega

/-- The voter prefers `x` to `y`. -/
def Ballot.Prefers (b : Ballot m) (x y : ℕ) : Prop := b.order.idxOf x < b.order.idxOf y

instance (b : Ballot m) (x y : ℕ) : Decidable (b.Prefers x y) :=
  inferInstanceAs (Decidable (_ < _))

theorem Ballot.exists_first (b : Ballot m) (hm : 0 < m) : ∃ x, b.order[0]? = some x := by
  have hlen : 0 < b.order.length := by rwa [b.complete.length_eq,List.length_range']
  exact ⟨_,List.getElem?_eq_getElem hlen⟩

/-- The ballot on which `x` has been moved to the front. -/
def Ballot.raise (b : Ballot m) (x : ℕ) (hx : x ∈ b.order) : Ballot m where
  order := x::b.order.erase x
  complete := (List.perm_cons_erase hx).symm.trans b.complete

/-- `np.zeros(m)`, or any other array whose entries are the same. -/
theorem replicate_candidates (m : ℕ) (a : α) :
    List.replicate m a = (List.range' 1 m).map fun _ => a := by
  rw [List.map_const',List.length_range']

/-- The entry of candidate `x` of an array over the candidates. -/
theorem getElem?_candidates (f : ℕ → α) {x : ℕ} (hx : x ∈ Set.Icc 1 m) :
    ((List.range' 1 m).map f)[x - 1]? = some (f x) := by
  obtain ⟨hpos,hle⟩ := hx
  rw [List.getElem?_map,List.getElem?_range' (by omega)]
  simp only [Option.map_some,Nat.one_mul]
  rw [Nat.add_sub_cancel' hpos]

/-- A change of the entry of one candidate. -/
theorem modify_entry (f : ℕ → α) (g : α → α) {x : ℕ} (hx : x ∈ Set.Icc 1 m) :
    ((List.range' 1 m).map f).modify (x - 1) g =
      (List.range' 1 m).map fun y => if x = y then g (f y) else f y := by
  refine List.ext_getElem? fun k => ?_
  rw [List.getElem?_modify]
  rcases lt_or_ge k m with hk | hk
  · have hk' : k + 1 ∈ Set.Icc 1 m := ⟨by omega,by omega⟩
    have hf := getElem?_candidates f hk'
    have hg := getElem?_candidates (fun y => if x = y then g (f y) else f y) hk'
    rw [Nat.add_sub_cancel] at hf hg
    rw [hf,hg]
    obtain ⟨hpos,-⟩ := hx
    rw [Option.map_eq_map,Option.map_some]
    by_cases hxk : x - 1 = k
    · rw [if_pos hxk,if_pos (by omega)]
    · rw [if_neg hxk,if_neg (by omega)]
  · have hnone (g : ℕ → α) : ((List.range' 1 m).map g)[k]? = none :=
      List.getElem?_eq_none (by rwa [List.length_map,List.length_range'])
    rw [hnone,hnone]
    rfl

/-- One vote more for a candidate. -/
theorem modify_candidates (f : ℕ → ℕ) {x : ℕ} (hx : x ∈ Set.Icc 1 m) :
    ((List.range' 1 m).map f).modify (x - 1) (· + 1) =
      (List.range' 1 m).map fun y => f y + if x = y then 1 else 0 := by
  rw [modify_entry f _ hx]
  refine List.map_congr_left fun y _ => ?_
  split <;> rfl

theorem set_candidates (f : ℕ → α) (a : α) {x : ℕ} (hx : x ∈ Set.Icc 1 m) :
    ((List.range' 1 m).map f).set (x - 1) a =
      (List.range' 1 m).map fun y => if x = y then a else f y := by
  rw [List.set_eq_modify]
  exact modify_entry f (fun _ => a) hx

theorem idxOf_le_of_getElem? [DecidableEq α] {a : List α} {x : α} {i : ℕ} (h : a[i]? = some x) :
    a.idxOf x ≤ i := by
  obtain ⟨hi,rfl⟩ := List.getElem?_eq_some_iff.mp h
  refine not_lt.mp fun hlt => ?_
  have := List.not_of_lt_findIdx (p := (· == a[i])) hlt
  simp at this

/-- What `np.max` and `np.argmax` find in an array over the candidates. -/
theorem argmax_candidates [LinearOrder α] (f : ℕ → α) (hm : 0 < m) :
    ∃ w, FirstMax (Set.Icc 1 m) f w ∧ ((List.range' 1 m).map f).max? = some (f w) ∧
      argmax ((List.range' 1 m).map f) = some (w - 1) := by
  obtain ⟨top,htop⟩ : ∃ top, ((List.range' 1 m).map f).max? = some top := by
    refine Option.ne_none_iff_exists'.mp fun hnone => ?_
    simp [List.max?_eq_none_iff] at hnone
    omega
  obtain ⟨hmem,hle⟩ := List.max?_eq_some_iff.mp htop
  have hlt := List.idxOf_lt_length_of_mem hmem
  have hget := List.getElem?_idxOf hmem
  generalize hk : ((List.range' 1 m).map f).idxOf top = k at hlt hget
  rw [List.length_map,List.length_range'] at hlt
  have hw : k + 1 ∈ Set.Icc 1 m := ⟨by omega,by omega⟩
  obtain rfl : f (k + 1) = top := by
    rw [← Option.some_inj,← hget,← getElem?_candidates f hw,Nat.add_sub_cancel]
  refine ⟨k + 1,⟨hw,fun x hx => ?_,fun x hx heq => ?_⟩,htop,?_⟩
  · exact hle _ (List.mem_of_getElem? (getElem?_candidates f hx))
  · have hfirst := idxOf_le_of_getElem? ((getElem?_candidates f hx).trans (congrArg _ heq))
    obtain ⟨hpos,-⟩ := hx
    omega
  · rw [argmax,htop,Option.map_some,hk,Nat.add_sub_cancel]

/-- What `np.argmin` finds in an array over the candidates. -/
theorem argmin_candidates [LinearOrder α] (f : ℕ → α) (hm : 0 < m) :
    ∃ w, FirstMin (Set.Icc 1 m) f w ∧ argmin ((List.range' 1 m).map f) = some (w - 1) := by
  obtain ⟨w,hw,-,hargmax⟩ := @argmax_candidates m αᵒᵈ _ f hm
  exact ⟨w,hw,hargmax⟩

theorem Ballot.first_mem {b : Ballot m} {x : ℕ} (h : b.order[0]? = some x) : x ∈ Set.Icc 1 m :=
  Ballot.mem.mp (List.mem_of_getElem? h)

theorem Ballot.not_prefers_first {b : Ballot m} {x w : ℕ} (h : b.order[0]? = some w) :
    ¬ b.Prefers x w := by
  have hzero := idxOf_le_of_getElem? h
  rw [Ballot.Prefers]
  omega

theorem Ballot.Prefers.mem {b : Ballot m} {x w : ℕ} (h : b.Prefers x w) : x ∈ b.order :=
  List.idxOf_lt_length_iff.mp (Nat.lt_of_lt_of_le h List.idxOf_le_length)

end ResumePointers.Voting
