import Mathlib.Logic.Equiv.Basic
import Mathlib.Order.Lattice
import Mathlib.Order.Nat

/-! Heap order on the first entries of an array, and what exchanging an entry with its
parent does to it when the order is violated in one place. -/
namespace ResumePointers

variable {α : Type} [LinearOrder α] {f g : ℕ → α} {n t c i j : ℕ}

/-- The children of `t` are `2 * t + 1` and `2 * t + 2`. -/
def parentIndex (i : ℕ) : ℕ := (i - 1) / 2

theorem parentIndex_lt (h : 0 < i) : parentIndex i < i := by
  rw [parentIndex]
  omega

theorem parentIndex_eq (h : 0 < i) : parentIndex i = t ↔ i = 2 * t + 1 ∨ i = 2 * t + 2 := by
  rw [parentIndex]
  omega

/-- No entry is larger than its parent. -/
def Heaped (f : ℕ → α) (n : ℕ) : Prop := ∀ i, 0 < i → i < n → f i ≤ f (parentIndex i)

theorem Heaped.le_root (h : Heaped f n) (hi : i < n) : f i ≤ f 0 := by
  induction i using Nat.strongRecOn with
  | ind i ih =>
    by_cases hzero : i = 0
    · rw [hzero]
    · have hlt := parentIndex_lt (Nat.pos_of_ne_zero hzero)
      exact (h i (Nat.pos_of_ne_zero hzero) hi).trans (ih _ hlt (hlt.trans hi))

/-- Heap order, but `t` may be larger than its parent. -/
structure Rising (f : ℕ → α) (n t : ℕ) : Prop where
  order : ∀ i, 0 < i → i < n → i ≠ t → f i ≤ f (parentIndex i)
  above : ∀ i, 0 < i → i < n → parentIndex i = t → 0 < t → f i ≤ f (parentIndex t)

theorem Heaped.rising (h : Heaped f n) : Rising f (n + 1) n where
  order i hi hn hne := h i hi (by omega)
  above i hi hn hp := by
    have := parentIndex_lt hi
    omega

theorem Rising.ordered (h : Rising f n t) (hstop : 0 < t → f t ≤ f (parentIndex t)) : Heaped f n := by
  intro i hi hn
  by_cases hit : i = t
  · subst hit
    exact hstop hi
  · exact h.order i hi hn hit

theorem Rising.step (h : Rising f n t) (ht : 0 < t) (hn : t < n) (hlt : f (parentIndex t) < f t) :
    Rising (f ∘ Equiv.swap (parentIndex t) t) n (parentIndex t) := by
  have hp := parentIndex_lt ht
  have hroot (hpos : 0 < parentIndex t) : f (parentIndex t) ≤ f (parentIndex (parentIndex t)) :=
    h.order _ hpos (hp.trans hn) (Nat.ne_of_lt hp)
  have hother {i : ℕ} (hip : i ≠ parentIndex t) (hit : i ≠ t) :
      (f ∘ Equiv.swap (parentIndex t) t) i = f i := congrArg f (Equiv.swap_apply_of_ne_of_ne hip hit)
  have hupper : (f ∘ Equiv.swap (parentIndex t) t) (parentIndex t) = f t :=
    congrArg f (Equiv.swap_apply_left ..)
  have hlower : (f ∘ Equiv.swap (parentIndex t) t) t = f (parentIndex t) :=
    congrArg f (Equiv.swap_apply_right ..)
  constructor
  · intro i hi hin hip
    by_cases hit : i = t
    · rw [hit,hlower,hupper]
      exact hlt.le
    · rw [hother hip hit]
      by_cases hpp : parentIndex i = parentIndex t
      · rw [hpp,hupper]
        exact (hpp ▸ h.order i hi hin hit).trans hlt.le
      · by_cases hpt : parentIndex i = t
        · rw [hpt,hlower]
          exact h.above i hi hin hpt ht
        · rw [hother hpp hpt]
          exact h.order i hi hin hit
  · intro i hi hin hip hpos
    have hpp := parentIndex_lt hpos
    rw [hother (Nat.ne_of_lt hpp) (Nat.ne_of_lt (hpp.trans hp))]
    by_cases hit : i = t
    · rw [hit,hlower]
      exact hroot hpos
    · have hine : i ≠ parentIndex t := fun he => Nat.ne_of_lt (parentIndex_lt hi) (hip.trans he.symm)
      rw [hother hine hit]
      exact (hip ▸ h.order i hi hin hit).trans (hroot hpos)

/-- Heap order, but `t` may be smaller than its children. -/
structure Sinking (f : ℕ → α) (n t : ℕ) : Prop where
  order : ∀ i, 0 < i → i < n → parentIndex i ≠ t → f i ≤ f (parentIndex i)
  above : ∀ i, 0 < i → i < n → parentIndex i = t → 0 < t → f i ≤ f (parentIndex t)

/-- The last entry, moved to the root. -/
theorem Heaped.sinking (h : Heaped f (n + 1)) : Sinking (f ∘ Equiv.swap 0 n) n 0 where
  order i hi hn hp := by
    have hlt := parentIndex_lt hi
    simp only [Function.comp_apply]
    rw [Equiv.swap_apply_of_ne_of_ne (by omega) (by omega),Equiv.swap_apply_of_ne_of_ne hp (by omega)]
    exact h i hi (by omega)
  above _ _ _ _ h := absurd h (Nat.lt_irrefl 0)

theorem Sinking.ordered (h : Sinking f n t)
    (hstop : ∀ i, 0 < i → i < n → parentIndex i = t → f i ≤ f t) : Heaped f n := by
  intro i hi hn
  by_cases hit : parentIndex i = t
  · rw [hit]
    exact hstop i hi hn hit
  · exact h.order i hi hn hit

/-- Exchange with the largest child. -/
theorem Sinking.step (h : Sinking f n t) (hc : 0 < c) (hn : c < n) (hparent : parentIndex c = t)
    (hlt : f t < f c) (hmax : ∀ i, 0 < i → i < n → parentIndex i = t → f i ≤ f c) :
    Sinking (f ∘ Equiv.swap c t) n c := by
  have htc : t < c := hparent ▸ parentIndex_lt hc
  have hother {i : ℕ} (hic : i ≠ c) (hit : i ≠ t) : (f ∘ Equiv.swap c t) i = f i :=
    congrArg f (Equiv.swap_apply_of_ne_of_ne hic hit)
  have hupper : (f ∘ Equiv.swap c t) t = f c := congrArg f (Equiv.swap_apply_right ..)
  have hlower : (f ∘ Equiv.swap c t) c = f t := congrArg f (Equiv.swap_apply_left ..)
  constructor
  · intro i hi hin hic
    by_cases hit : i = t
    · subst hit
      have hp := parentIndex_lt hi
      rw [hupper,hother (Nat.ne_of_lt (hp.trans htc)) (Nat.ne_of_lt hp)]
      exact h.above c hc hn hparent hi
    · by_cases hpt : parentIndex i = t
      · rw [hpt,hupper]
        by_cases hic' : i = c
        · rw [hic',hlower]
          exact hlt.le
        · rw [hother hic' hit]
          exact hmax i hi hin hpt
      · have hine : i ≠ c := fun he => hpt (he ▸ hparent)
        rw [hother hine hit,hother hic hpt]
        exact h.order i hi hin hpt
  · intro i hi hin hic _
    have hci : c < i := hic ▸ parentIndex_lt hi
    rw [hother (Nat.ne_of_gt hci) (Nat.ne_of_gt (htc.trans hci)),hparent,hupper]
    have := h.order i hi hin (by omega)
    rwa [hic] at this

/-- Exchange `t` with its parent as long as it is larger. -/
def siftUp (f : ℕ → α) (t : ℕ) : ℕ → α :=
  if 0 < t ∧ f (parentIndex t) < f t then
    siftUp (f ∘ Equiv.swap (parentIndex t) t) (parentIndex t)
  else f
termination_by t
decreasing_by exact parentIndex_lt (by omega)

/-- The larger child of `t`, the left one if they are equal. -/
def bestChild (f : ℕ → α) (n t : ℕ) : ℕ :=
  if 2 * t + 2 < n ∧ f (2 * t + 1) < f (2 * t + 2) then 2 * t + 2 else 2 * t + 1

theorem lt_bestChild (f : ℕ → α) (n t : ℕ) : t < bestChild f n t := by
  rw [bestChild]
  split <;> omega

/-- Exchange `t` with its larger child as long as that is larger. -/
def siftDown (f : ℕ → α) (n t : ℕ) : ℕ → α :=
  if bestChild f n t < n ∧ f t < f (bestChild f n t) then
    siftDown (f ∘ Equiv.swap (bestChild f n t) t) n (bestChild f n t)
  else f
termination_by n - t
decreasing_by
  have := lt_bestChild f n t
  omega

theorem siftUp_heaped (h : Rising f n t) (ht : t < n) : Heaped (siftUp f t) n := by
  induction t using Nat.strongRecOn generalizing f with
  | ind t ih =>
    rw [siftUp]
    by_cases hc : 0 < t ∧ f (parentIndex t) < f t
    · rw [if_pos hc]
      have hp := parentIndex_lt hc.1
      exact ih _ hp (h.step hc.1 ht hc.2) (hp.trans ht)
    · rw [if_neg hc]
      exact h.ordered fun hpos => not_lt.mp fun hlt => hc ⟨hpos,hlt⟩

theorem parentIndex_bestChild (f : ℕ → α) (n t : ℕ) : parentIndex (bestChild f n t) = t := by
  rw [bestChild]
  split <;> rw [parentIndex] <;> omega

theorem le_bestChild (hi : 0 < i) (hn : i < n) (hp : parentIndex i = t) :
    bestChild f n t < n ∧ f i ≤ f (bestChild f n t) := by
  rw [bestChild]
  obtain rfl | rfl := (parentIndex_eq hi).mp hp
  · split
    · next hc => exact ⟨hc.1,hc.2.le⟩
    · exact ⟨hn,le_rfl⟩
  · split
    · next hc => exact ⟨hn,le_rfl⟩
    · next hc => exact ⟨by omega,not_lt.mp fun hlt => hc ⟨hn,hlt⟩⟩

theorem siftDown_heaped (h : Sinking f n t) : Heaped (siftDown f n t) n := by
  induction hm : n - t using Nat.strongRecOn generalizing f t with
  | ind m ih =>
    have hlt := lt_bestChild f n t
    rw [siftDown]
    by_cases hc : bestChild f n t < n ∧ f t < f (bestChild f n t)
    · rw [if_pos hc]
      have hstep := h.step (by omega) hc.1 (parentIndex_bestChild f n t) hc.2
        fun i hi hn hp => (le_bestChild hi hn hp).2
      exact ih _ (by omega) hstep rfl
    · rw [if_neg hc]
      refine h.ordered fun i hi hn hp => ?_
      obtain ⟨hbest,hle⟩ := le_bestChild (f := f) hi hn hp
      exact hle.trans (not_lt.mp fun hlt' => hc ⟨hbest,hlt'⟩)

/-- Exchanges below `n` read entries below `n` only. -/
theorem swap_congr {β : Type} {f g : ℕ → β} (h : ∀ k < n, f k = g k) (hi : i < n) (hj : j < n) :
    ∀ k < n, (f ∘ Equiv.swap i j) k = (g ∘ Equiv.swap i j) k := by
  intro k hk
  refine h _ ?_
  rw [Equiv.swap_apply_def]
  split_ifs <;> assumption

theorem siftUp_congr (h : ∀ k < n, f k = g k) (ht : t < n) : ∀ k < n, siftUp f t k = siftUp g t k := by
  induction t using Nat.strongRecOn generalizing f g with
  | ind t ih =>
    rw [siftUp,siftUp.eq_def g]
    by_cases hpos : 0 < t
    · have hp := parentIndex_lt hpos
      rw [h t ht,h _ (hp.trans ht)]
      split
      · exact ih _ hp (swap_congr h (hp.trans ht) ht) (hp.trans ht)
      · exact h
    · rw [if_neg fun hc => hpos hc.1,if_neg fun hc => hpos hc.1]
      exact h

theorem bestChild_congr (h : ∀ k < n, f k = g k) : bestChild f n t = bestChild g n t := by
  rw [bestChild,bestChild]
  by_cases hn : 2 * t + 2 < n
  · rw [h _ hn,h (2 * t + 1) (by omega)]
  · rw [if_neg fun hc => hn hc.1,if_neg fun hc => hn hc.1]

theorem siftDown_congr (h : ∀ k < n, f k = g k) : ∀ k < n, siftDown f n t k = siftDown g n t k := by
  induction hm : n - t using Nat.strongRecOn generalizing f g t with
  | ind m ih =>
    have hlt := lt_bestChild g n t
    rw [siftDown,siftDown.eq_def g,bestChild_congr h]
    by_cases hn : bestChild g n t < n
    · rw [h t (by omega),h _ hn]
      split
      · exact ih _ (by omega) (swap_congr h hn (by omega)) rfl
      · exact h
    · rw [if_neg fun hc => hn hc.1,if_neg fun hc => hn hc.1]
      exact h

end ResumePointers
