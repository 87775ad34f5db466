import Mathlib.Data.List.Basic
import Mathlib.Order.Lattice

/-! Binary search by halving, where the reading of a place may fail. -/
namespace ResumePointers

variable {α : Type} [LinearOrder α]

/-- The search for `key` in the `m` places from `l` on: `none` if it reads a place that is not there, and
otherwise the place that it finds, if any. -/
def bisect (read : ℕ → Option α) (key : α) (l : ℕ) : ℕ → Option (Option ℕ)
  | 0 => some none
  | m + 1 =>
    match read (l + m / 2) with
    | none => none
    | some x =>
      if x = key then some (some (l + m / 2))
      else if key < x then bisect read key l (m / 2)
      else bisect read key (l + m / 2 + 1) (m - m / 2)
termination_by m => m

variable {read read' : ℕ → Option α} {key x y : α} {i j l m : ℕ} {r : Option ℕ} {xs : List α}

theorem bisect_zero : bisect read key l 0 = some none := by rw [bisect]

theorem bisect_none (h : read (l + m / 2) = none) : bisect read key l (m + 1) = none := by
  rw [bisect,h]

theorem bisect_found (h : read (l + m / 2) = some x) (he : x = key) :
    bisect read key l (m + 1) = some (some (l + m / 2)) := by
  rw [bisect,h]
  exact if_pos he

theorem bisect_lower (h : read (l + m / 2) = some x) (hlt : key < x) :
    bisect read key l (m + 1) = bisect read key l (m / 2) := by
  rw [bisect,h]
  exact (if_neg hlt.ne').trans (if_pos hlt)

theorem bisect_upper (h : read (l + m / 2) = some x) (hlt : x < key) :
    bisect read key l (m + 1) = bisect read key (l + m / 2 + 1) (m - m / 2) := by
  rw [bisect,h]
  exact (if_neg hlt.ne).trans (if_neg hlt.asymm)

/-- The search reads no other places. -/
theorem bisect_congr (h : ∀ i, l ≤ i → i < l + m → read' i = read i) :
    bisect read' key l m = bisect read key l m := by
  fun_induction bisect read key l m with
  | case1 => exact bisect_zero
  | case2 l m hx => exact bisect_none ((h _ (by omega) (by omega)).trans hx)
  | case3 l m hx => exact bisect_found ((h _ (by omega) (by omega)).trans hx) rfl
  | case4 l m x hx hne hlt ih =>
    rw [bisect_lower ((h _ (by omega) (by omega)).trans hx) hlt]
    exact ih fun i hi hi' => h i hi (by omega)
  | case5 l m x hx hne hlt ih =>
    have hgt : x < key := lt_of_le_of_ne (not_lt.mp hlt) hne
    rw [bisect_upper ((h _ (by omega) (by omega)).trans hx) hgt]
    exact ih fun i hi hi' => h i (by omega) (by omega)

/-- A search that succeeds goes the same way where more places are there. -/
theorem bisect_mono (h : ∀ i x, read i = some x → read' i = some x)
    (hr : bisect read key l m = some r) : bisect read' key l m = some r := by
  fun_induction bisect read key l m with
  | case1 => rwa [bisect_zero]
  | case2 => cases hr
  | case3 l m hx => rwa [bisect_found (h _ _ hx) rfl]
  | case4 l m x hx hne hlt ih =>
    rw [bisect_lower (h _ _ hx) hlt]
    exact ih hr
  | case5 l m x hx hne hlt ih =>
    rw [bisect_upper (h _ _ hx) (lt_of_le_of_ne (not_lt.mp hlt) hne)]
    exact ih hr

theorem le_of_getElem? (hs : xs.Pairwise (· ≤ ·)) (hi : xs[i]? = some x) (hj : xs[j]? = some y)
    (hij : i ≤ j) : x ≤ y := by
  obtain ⟨hi',rfl⟩ := List.getElem?_eq_some_iff.mp hi
  obtain ⟨hj',rfl⟩ := List.getElem?_eq_some_iff.mp hj
  rcases Nat.eq_or_lt_of_le hij with rfl | hlt
  · exact le_rfl
  · exact List.pairwise_iff_getElem.mp hs i j hi' hj' hlt

/-- All words of the list that are below place `l` are below the key. -/
def BelowKey (xs : List α) (key : α) (l : ℕ) : Prop := ∀ i x, xs[i]? = some x → i < l → x < key

/-- All words of the list that are from place `l` on are above the key. -/
def AboveKey (xs : List α) (key : α) (l : ℕ) : Prop := ∀ i x, xs[i]? = some x → l ≤ i → key < x

theorem BelowKey.of_lt (hs : xs.Pairwise (· ≤ ·)) (hj : xs[j]? = some y) (hlt : y < key) :
    BelowKey xs key (j + 1) :=
  fun _ _ hi hij => (le_of_getElem? hs hi hj (Nat.le_of_lt_succ hij)).trans_lt hlt

theorem AboveKey.of_lt (hs : xs.Pairwise (· ≤ ·)) (hj : xs[j]? = some y) (hlt : key < y) :
    AboveKey xs key j :=
  fun _ _ hi hij => hlt.trans_le (le_of_getElem? hs hj hi hij)

/-- In a sorted list the search finds the key, or it shows that the key is not there. -/
theorem bisect_correct (hs : xs.Pairwise (· ≤ ·)) (hlow : BelowKey xs key l)
    (hhigh : AboveKey xs key (l + m))
    (hr : bisect (xs[·]?) key l m = some r) :
    (∀ i, r = some i → xs[i]? = some key) ∧ (r = none → key ∉ xs) := by
  fun_induction bisect (xs[·]?) key l m with
  | case1 l =>
    obtain rfl := Option.some.inj hr
    refine ⟨fun i hi => (by cases hi),fun _ hmem => ?_⟩
    obtain ⟨i,hi⟩ := List.mem_iff_getElem?.mp hmem
    rcases Nat.lt_or_ge i l with hlt | hge
    · exact lt_irrefl _ (hlow i key hi hlt)
    · exact lt_irrefl _ (hhigh i key hi hge)
  | case2 => cases hr
  | case3 l m hx =>
    obtain rfl := Option.some.inj hr
    refine ⟨fun i hi => ?_,fun hn => (by cases hn)⟩
    obtain rfl := Option.some.inj hi
    exact hx
  | case4 l m x hx hne hlt ih => exact ih hlow (AboveKey.of_lt hs hx hlt) hr
  | case5 l m x hx hne hlt ih =>
    have hbelow := BelowKey.of_lt hs hx (lt_of_le_of_ne (not_lt.mp hlt) hne)
    refine ih hbelow ?_ hr
    rwa [show l + m / 2 + 1 + (m - m / 2) = l + (m + 1) by omega]

/-- A search inside the list succeeds. -/
theorem bisect_isSome (h : l + m ≤ xs.length) : (bisect (xs[·]?) key l m).isSome = true := by
  fun_induction bisect (xs[·]?) key l m with
  | case1 => rfl
  | case2 l m hx =>
    have hlen := List.getElem?_eq_none_iff.mp hx
    omega
  | case3 => rfl
  | case4 l m x hx hne hlt ih => exact ih (by omega)
  | case5 l m x hx hne hlt ih => exact ih (by omega)

/-- A search that may go one place past the end of a sorted list goes there exactly if the key is above
the whole list. -/
theorem bisect_past_isSome_iff (hs : xs.Pairwise (· ≤ ·)) (hlow : BelowKey xs key l) (hm : 0 < m)
    (h : l + m = xs.length + 1) : (bisect (xs[·]?) key l m).isSome = true ↔ ∃ x ∈ xs, key ≤ x := by
  fun_induction bisect (xs[·]?) key l m with
  | case1 => cases hm
  | case2 l m hx =>
    have hlen := List.getElem?_eq_none_iff.mp hx
    constructor
    · intro hc
      cases hc
    · rintro ⟨x,hmem,hle⟩
      obtain ⟨i,hi⟩ := List.mem_iff_getElem?.mp hmem
      have hilt := (List.getElem?_eq_some_iff.mp hi).1
      exact absurd (hlow i x hi (by omega)) (not_lt.mpr hle)
  | case3 l m hx => exact iff_of_true rfl ⟨key,List.mem_of_getElem? hx,le_rfl⟩
  | case4 l m x hx hne hlt ih =>
    have hlen := (List.getElem?_eq_some_iff.mp hx).1
    exact iff_of_true (bisect_isSome (by omega)) ⟨x,List.mem_of_getElem? hx,hlt.le⟩
  | case5 l m x hx hne hlt ih =>
    have hlen := (List.getElem?_eq_some_iff.mp hx).1
    exact ih (BelowKey.of_lt hs hx (lt_of_le_of_ne (not_lt.mp hlt) hne)) (by omega) (by omega)

end ResumePointers
