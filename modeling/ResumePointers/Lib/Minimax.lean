import Mathlib.Data.Finset.Lattice.Fold
import Mathlib.Order.BoundedOrder.Lattice

/-! Finite games between a maximizing and a minimizing player: the value of a
position by backward induction, and what a search that looks only for values in a
window may answer. -/
namespace ResumePointers

variable {P V : Type} [LinearOrder V]

/-- Positions with the moves between them; every move makes `size` smaller. -/
structure Game (P V : Type) where
  final : P → Option V
  maximizes : P → Bool
  next : P → Finset P
  size : P → ℕ
  size_lt : ∀ {p q}, q ∈ next p → size q < size p

namespace Game

variable [BoundedOrder V]

/-- The value of a position when both players play best. -/
def value (G : Game P V) (p : P) : V :=
  match G.final p with
  | some v => v
  | none =>
    if G.maximizes p then (G.next p).attach.sup fun q => value G q.1
    else (G.next p).attach.inf fun q => value G q.1
termination_by G.size p
decreasing_by all_goals exact G.size_lt q.2

variable {G : Game P V} {p : P} {v : V}

theorem value_final (h : G.final p = some v) : G.value p = v := by
  rw [value,h]

theorem value_max (h : G.final p = none) (hp : G.maximizes p = true) :
    G.value p = (G.next p).sup G.value := by
  rw [value,h]
  simp only [hp,if_true]
  exact Finset.sup_attach _ _

theorem value_min (h : G.final p = none) (hp : G.maximizes p = false) :
    G.value p = (G.next p).inf G.value := by
  rw [value,h]
  simp only [hp,Bool.false_eq_true,if_false]
  exact Finset.inf_attach _ _

/-- If every position that is not final has a move, all values are those of final positions. -/
theorem value_mem {S : Set V} (hfinal : ∀ q v, G.final q = some v → v ∈ S)
    (hnext : ∀ q, G.final q = none → (G.next q).Nonempty) (p : P) : G.value p ∈ S := by
  induction hsize : G.size p using Nat.strong_induction_on generalizing p with
  | h k ih =>
    have hchild : ∀ q ∈ G.next p, G.value q ∈ S := fun q hq => ih _ (hsize ▸ G.size_lt hq) q rfl
    cases hv : G.final p with
    | some v =>
      rw [value_final hv]
      exact hfinal p v hv
    | none =>
      cases hp : G.maximizes p with
      | true =>
        obtain ⟨q,hq,he⟩ := Finset.exists_mem_eq_sup _ (hnext p hv) G.value
        rw [value_max hv hp,he]
        exact hchild q hq
      | false =>
        obtain ⟨q,hq,he⟩ := Finset.exists_mem_eq_inf _ (hnext p hv) G.value
        rw [value_min hv hp,he]
        exact hchild q hq

end Game

/-- `x` answers a search for `v` in the window from `alpha` to `beta`. -/
structure Answers (alpha beta v x : V) : Prop where
  high : beta ≤ v → beta ≤ x
  low : v ≤ alpha → x ≤ alpha
  exact : alpha < v → v < beta → x = v

namespace Answers

variable {alpha beta v w x y : V}

theorem refl (alpha beta v : V) : Answers alpha beta v v := ⟨id,id,fun _ _ => rfl⟩

/-- The same answer, seen by the other player. -/
theorem dual (h : Answers alpha beta v x) :
    @Answers Vᵒᵈ _ (.toDual beta) (.toDual alpha) (.toDual v) (.toDual x) :=
  ⟨h.low,h.high,fun hv hv' => h.exact hv' hv⟩

theorem of_dual
    (h : @Answers Vᵒᵈ _ (.toDual beta) (.toDual alpha) (.toDual v) (.toDual x)) :
    Answers alpha beta v x :=
  ⟨h.low,h.high,fun hv hv' => h.exact hv' hv⟩

theorem lt_of_lt (h : Answers alpha beta v x) (hx : x < beta) : v < beta :=
  lt_of_not_ge fun hv => (h.high hv).not_gt hx

/-- With the window open on both sides the answer is the value. -/
theorem eq_of_full [BoundedOrder V] (h : Answers ⊥ ⊤ v x) : x = v := by
  rcases eq_or_ne v ⊥ with rfl | hbot
  · exact le_bot_iff.mp (h.low le_rfl)
  · rcases eq_or_ne v ⊤ with rfl | htop
    · exact top_le_iff.mp (h.high le_rfl)
    · exact h.exact (bot_lt_iff_ne_bot.mpr hbot) (lt_top_iff_ne_top.mpr htop)

/-- The maximizing player has the answer `y` for the moves seen so far, and gets `x` for
the next move from a window that begins at the best answer. -/
theorem max (h : Answers alpha beta w y) (hy : y < beta)
    (hx : Answers (alpha ⊔ y) beta v x) : Answers alpha beta (w ⊔ v) (y ⊔ x) := by
  have hw := h.lt_of_lt hy
  refine ⟨fun hb => ?_,fun ha => ?_,fun ha hb => ?_⟩
  · rcases le_sup_iff.mp hb with hb | hb
    · exact absurd hb hw.not_ge
    · exact le_sup_of_le_right (hx.high hb)
  · have hya := h.low (le_sup_left.trans ha)
    rw [sup_eq_left.mpr hya] at hx
    exact sup_le hya (hx.low (le_sup_right.trans ha))
  · have hv : v < beta := le_sup_right.trans_lt hb
    rcases le_or_gt w alpha with hwa | hwa
    · have hya := h.low hwa
      rw [sup_eq_left.mpr hya] at hx
      have hva : alpha < v := (lt_sup_iff.mp ha).resolve_left hwa.not_gt
      rw [hx.exact hva hv,sup_eq_right.mpr (hya.trans hva.le),
        sup_eq_right.mpr (hwa.trans hva.le)]
    · have hyw := h.exact hwa hw
      subst hyw
      rw [sup_eq_right.mpr hwa.le] at hx
      rcases le_or_gt v y with hvy | hvy
      · rw [sup_eq_left.mpr (hx.low hvy),sup_eq_left.mpr hvy]
      · rw [hx.exact hvy hv]

/-- An answer at `beta` or above stays one whatever the moves not seen are worth. -/
theorem cut (h : Answers alpha beta w y) (hab : alpha < beta) (hy : beta ≤ y)
    (hwv : w ≤ v) : Answers alpha beta v y := by
  have hw : beta ≤ w := by
    by_contra hw
    rcases le_or_gt w alpha with hwa | hwa
    · exact (hy.trans (h.low hwa)).not_gt hab
    · exact hw (hy.trans (h.exact hwa (lt_of_not_ge hw)).le)
  have hv := hw.trans hwv
  exact ⟨fun _ => hy,fun ha => absurd (hv.trans ha) hab.not_ge,
    fun _ hb => absurd hv hb.not_ge⟩

/-- The minimizing player, in the same way. -/
theorem min (h : Answers alpha beta w y) (hy : alpha < y)
    (hx : Answers alpha (beta ⊓ y) v x) : Answers alpha beta (w ⊓ v) (y ⊓ x) :=
  of_dual (h.dual.max hy hx.dual)

theorem cut_min (h : Answers alpha beta w y) (hab : alpha < beta) (hy : y ≤ alpha)
    (hvw : v ≤ w) : Answers alpha beta v y :=
  of_dual (h.dual.cut hab hy hvw)

end Answers

end ResumePointers
