import Mathlib.Order.Lattice
import Mathlib.Data.Set.Basic
import Mathlib.Data.Nat.Basic

/-! The first of the indices at which a function is largest, and where it goes when one
unit is moved from one index to another. -/
namespace ResumePointers

variable {ι α : Type} [LinearOrder ι] [LinearOrder α] {s : Set ι} {v w a b : ι}

/-- `w` has the largest value on `s` and is the first that has it. -/
structure FirstMax (s : Set ι) (f : ι → α) (w : ι) : Prop where
  mem : w ∈ s
  le : ∀ x ∈ s, f x ≤ f w
  first : ∀ x ∈ s, f x = f w → w ≤ x

theorem FirstMax.unique {f : ι → α} (h : FirstMax s f w) (h' : FirstMax s f v) : w = v := by
  have heq : f v = f w := le_antisymm (h.le v h'.mem) (h'.le w h.mem)
  exact le_antisymm (h.first v h'.mem heq) (h'.first w h.mem heq.symm)

/-- `w` has the smallest value on `s` and is the first that has it. -/
def FirstMin (s : Set ι) (f : ι → α) (w : ι) : Prop := FirstMax s (fun x => OrderDual.toDual (f x)) w

theorem firstMin_iff {f : ι → α} :
    FirstMin s f w ↔ w ∈ s ∧ (∀ x ∈ s, f w ≤ f x) ∧ ∀ x ∈ s, f x = f w → w ≤ x :=
  ⟨fun h => ⟨h.mem,h.le,h.first⟩,fun h => ⟨h.1,h.2.1,h.2.2⟩⟩

/-- `b` becomes the first maximum instead of `w` when its value grows by one. -/
def Overtakes (f : ι → ℕ) (w b : ι) : Prop := f b = f w ∨ f b + 1 = f w ∧ b < w

instance (f : ι → ℕ) (w b : ι) : Decidable (Overtakes f w b) :=
  inferInstanceAs (Decidable (_ ∨ _))

theorem FirstMax.moved {f g : ι → ℕ} (h : FirstMax s f w) (hb : b ∈ s) (ha : a ≠ w) (hab : a ≠ b)
    (hg : ∀ x, g x + (if x = a then 1 else 0) = f x + if x = b then 1 else 0) :
    FirstMax s g (if Overtakes f w b then b else w) := by
  have hgb := hg b
  have hgw := hg w
  have hle := h.le b hb
  rw [if_neg hab.symm,if_pos rfl] at hgb
  rw [if_neg ha.symm] at hgw
  have hother (x : ι) (hx : x ∈ s) (hne : x ≠ b) : g x ≤ f x ∧ f x ≤ f w := by
    have hgx := hg x
    rw [if_neg hne] at hgx
    exact ⟨by omega,h.le x hx⟩
  split
  · next hover =>
    have hlt : f w ≤ g b := by
      rcases hover with heq | ⟨heq,-⟩ <;> omega
    refine ⟨hb,fun x hx => ?_,fun x hx heq => ?_⟩
    · rcases eq_or_ne x b with rfl | hne
      · exact le_rfl
      · have := hother x hx hne
        omega
    · rcases eq_or_ne x b with rfl | hne
      · exact le_rfl
      · have hx' := hother x hx hne
        obtain ⟨-,hbw⟩ := hover.resolve_left (by omega)
        exact (hbw.trans_le (h.first x hx (by omega))).le
  · next hover =>
    have hne : f b ≠ f w := fun heq => hover (.inl heq)
    have hbw : w ≠ b := fun heq => hne (heq ▸ rfl)
    rw [if_neg hbw] at hgw
    refine ⟨h.mem,fun x hx => ?_,fun x hx heq => ?_⟩
    · rcases eq_or_ne x b with rfl | hxb
      · omega
      · have := hother x hx hxb
        omega
    · rcases eq_or_ne x b with rfl | hxb
      · exact not_lt.mp fun hlt => hover (.inr ⟨by omega,hlt⟩)
      · have := hother x hx hxb
        exact h.first x hx (by omega)

end ResumePointers
