import ResumePointers.Lib.Minimax

/-! Plans for the two players of a finite game, and when no player gains by another plan, from
whatever position the game goes on. -/
namespace ResumePointers.Game

variable {P V : Type}

/-- A move in every position that has one. -/
structure Plan (G : Game P V) where
  move : P → P
  legal : ∀ p, (G.next p).Nonempty → move p ∈ G.next p

variable {G : Game P V}

/-- Where the plans go from `p`. -/
def choose (σ τ : Plan G) (p : P) : P := if G.maximizes p then σ.move p else τ.move p

theorem choose_mem (σ τ : Plan G) {p : P} (h : (G.next p).Nonempty) : choose σ τ p ∈ G.next p := by
  rw [choose]
  split
  · exact σ.legal p h
  · exact τ.legal p h

variable [LinearOrder V] [BoundedOrder V]

/-- The result when the maximizing player follows `σ` and the other one `τ`. -/
def play (σ τ : Plan G) (p : P) : V :=
  match G.final p with
  | some v => v
  | none => if _h : (G.next p).Nonempty then play σ τ (choose σ τ p) else G.value p
termination_by G.size p
decreasing_by exact G.size_lt (choose_mem σ τ _h)

/-- Neither player gains by another plan, in any position. -/
def SubgamePerfect (σ τ : Plan G) : Prop :=
  ∀ p (σ' τ' : Plan G), play σ' τ p ≤ play σ τ p ∧ play σ τ p ≤ play σ τ' p

/-- `σ` keeps the value wherever the maximizing player moves. -/
def Plan.KeepsMax (σ : Plan G) : Prop :=
  ∀ p, G.final p = none → (G.next p).Nonempty → G.maximizes p = true →
    G.value (σ.move p) = G.value p

/-- `τ` keeps the value wherever the minimizing player moves. -/
def Plan.KeepsMin (τ : Plan G) : Prop :=
  ∀ p, G.final p = none → (G.next p).Nonempty → G.maximizes p = false →
    G.value (τ.move p) = G.value p

theorem play_le_value {τ : Plan G} (hτ : τ.KeepsMin) (σ : Plan G) (p : P) :
    play σ τ p ≤ G.value p := by
  induction hsize : G.size p using Nat.strong_induction_on generalizing p with | _ k ih =>
  subst hsize
  rw [play]
  cases hv : G.final p with
  | some v => exact (value_final hv).ge
  | none =>
    dsimp only
    split
    · rename_i hne
      have hmem := choose_mem σ τ hne
      refine (ih _ (G.size_lt hmem) _ rfl).trans ?_
      cases hp : G.maximizes p with
      | true =>
        rw [value_max hv hp]
        exact Finset.le_sup hmem
      | false =>
        rw [choose,hp]
        exact (hτ p hv hne hp).le
    · exact le_rfl

theorem value_le_play {σ : Plan G} (hσ : σ.KeepsMax) (τ : Plan G) (p : P) :
    G.value p ≤ play σ τ p := by
  induction hsize : G.size p using Nat.strong_induction_on generalizing p with | _ k ih =>
  subst hsize
  rw [play]
  cases hv : G.final p with
  | some v => exact (value_final hv).le
  | none =>
    dsimp only
    split
    · rename_i hne
      have hmem := choose_mem σ τ hne
      refine le_trans ?_ (ih _ (G.size_lt hmem) _ rfl)
      cases hp : G.maximizes p with
      | true =>
        rw [choose,hp]
        exact (hσ p hv hne hp).ge
      | false =>
        rw [value_min hv hp]
        exact Finset.inf_le hmem
    · exact le_rfl

theorem play_eq_value {σ τ : Plan G} (hσ : σ.KeepsMax) (hτ : τ.KeepsMin) (p : P) :
    play σ τ p = G.value p :=
  le_antisymm (play_le_value hτ σ p) (value_le_play hσ τ p)

theorem subgamePerfect {σ τ : Plan G} (hσ : σ.KeepsMax) (hτ : τ.KeepsMin) : SubgamePerfect σ τ := by
  intro p σ' τ'
  rw [play_eq_value hσ hτ]
  exact ⟨play_le_value hτ σ' p,value_le_play hσ τ' p⟩

end ResumePointers.Game
