import Mathlib.Data.Multiset.Filter
import Mathlib.Data.Multiset.Range
import Mathlib.Algebra.Order.Group.Multiset
import Mathlib.Data.Finset.Card
import Mathlib.Data.Finset.Range

/-! The multiset of values a partial function takes on `0, …, n - 1`, and how it
moves when the function changes at one place. -/
namespace ResumePointers

variable {α : Type*}

/-- No element or the one there is. -/
def optional : Option α → Multiset α
  | none => 0
  | some a => {a}

@[simp] theorem optional_none : optional (none : Option α) = 0 := rfl
@[simp] theorem optional_some (a : α) : optional (some a) = {a} := rfl

theorem mem_optional {a : α} {x : Option α} : a ∈ optional x ↔ x = some a := by
  cases x <;> simp [eq_comm]

def tally (n : ℕ) (f : ℕ → Option α) : Multiset α := (Multiset.range n).filterMap f

theorem mem_tally {n : ℕ} {f : ℕ → Option α} {a : α} :
    a ∈ tally n f ↔ ∃ i < n, f i = some a := by
  simp [tally,Multiset.mem_filterMap]

theorem tally_succ (n : ℕ) (f : ℕ → Option α) :
    tally (n+1) f = tally n f + optional (f n) := by
  unfold tally
  rw [Multiset.range_succ]
  cases h : f n with
  | none => simp [h,Multiset.filterMap_cons_none]
  | some a =>
    rw [Multiset.filterMap_cons_some _ _ _ h,optional_some,← Multiset.singleton_add,add_comm]

@[simp] theorem tally_zero (f : ℕ → Option α) : tally 0 f = 0 := by simp [tally]

theorem tally_congr {n : ℕ} {f g : ℕ → Option α} (h : ∀ i < n, f i = g i) :
    tally n f = tally n g := by
  induction n with
  | zero => simp
  | succ n ih => rw [tally_succ,tally_succ,ih fun i hi => h i (by omega),h n (by omega)]

theorem tally_eq_zero {n : ℕ} {f : ℕ → Option α} : tally n f = 0 ↔ ∀ i < n, f i = none := by
  rw [Multiset.eq_zero_iff_forall_notMem]
  simp only [mem_tally,not_exists,not_and,Option.eq_none_iff_forall_ne_some]
  exact ⟨fun h i hi a => h a i hi,fun h a i hi => h i hi a⟩

/-- Changing `f` at one index trades the old value for the new one. -/
theorem tally_change {n i : ℕ} {f g : ℕ → Option α} (hi : i < n)
    (h : ∀ j < n, j ≠ i → g j = f j) :
    tally n g + optional (f i) = tally n f + optional (g i) := by
  induction n with
  | zero => omega
  | succ n ih =>
    rw [tally_succ,tally_succ]
    by_cases hin : i = n
    · subst hin
      rw [tally_congr fun j hj => h j (by omega) (by omega),add_right_comm]
    · have hg : g n = f n := h n (by omega) (Ne.symm hin)
      have hh := ih (by omega) fun j hj => h j (by omega)
      rw [hg,add_right_comm,hh,add_right_comm]

theorem tally_card_le (n : ℕ) (f : ℕ → Option α) : (tally n f).card ≤ n := by
  induction n with
  | zero => simp
  | succ n ih =>
    rw [tally_succ,Multiset.card_add]
    have : (optional (f n)).card ≤ 1 := by cases f n <;> simp
    omega

theorem tally_card_mono {n : ℕ} {f g : ℕ → Option α}
    (h : ∀ i < n, (f i).isSome → (g i).isSome) : (tally n f).card ≤ (tally n g).card := by
  induction n with
  | zero => simp
  | succ n ih =>
    rw [tally_succ,tally_succ,Multiset.card_add,Multiset.card_add]
    have hn := h n (by omega)
    have hrest := ih fun i hi => h i (by omega)
    have hlast : (optional (f n)).card ≤ (optional (g n)).card := by
      cases hf : f n with
      | none => simp
      | some a =>
        obtain ⟨b,hb⟩ := Option.isSome_iff_exists.mp (hn (by rw [hf]; rfl))
        rw [hb]
        simp
    omega

theorem count_optional [DecidableEq α] (a : α) (x : Option α) :
    (optional x).count a = if x = some a then 1 else 0 := by
  cases x with
  | none => simp
  | some b => simp [Multiset.count_singleton,eq_comm]

/-- The tally counts a value as often as it has preimages. -/
theorem count_tally [DecidableEq α] (n : ℕ) (f : ℕ → Option α) (a : α) :
    (tally n f).count a = ((Finset.range n).filter fun i => f i = some a).card := by
  induction n with
  | zero => simp
  | succ n ih =>
    rw [tally_succ,Multiset.count_add,ih,count_optional,Finset.range_add_one,Finset.filter_insert]
    split
    · rw [Finset.card_insert_of_notMem (by simp)]
    · rfl

end ResumePointers
