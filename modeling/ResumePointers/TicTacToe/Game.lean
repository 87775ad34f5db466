import ResumePointers.TicTacToe.History
import Mathlib.Algebra.Order.BigOperators.Group.Finset

/-! The game of tic-tac-toe: histories of legal moves, and what finished ones are worth. -/
namespace ResumePointers.TicTacToe

variable {h : History} {a : Fin 9}

@[simp] theorem get_board_nil : get_board [] = fun _ => '0' := rfl

@[simp] theorem get_board_snoc (h : History) (a : Fin 9) :
    get_board (h ++ [a]) = Function.update (get_board h) a (mark h.length) := by
  simp [get_board,List.zipIdx_append]

theorem mark_ne_zero (i : ℕ) : mark i ≠ '0' := by
  rw [mark]
  split <;> decide

/-- Moves on empty squares, until the game is over. -/
inductive Legal : History → Prop
  | nil : Legal []
  | snoc {h : History} {a : Fin 9} (hl : Legal h) (ht : is_terminal_history h = false)
      (ha : get_board h a = '0') : Legal (h ++ [a])

theorem Legal.of_snoc (hl : Legal (h ++ [a])) :
    Legal h ∧ is_terminal_history h = false ∧ get_board h a = '0' := by
  generalize hg : h ++ [a] = g at hl
  cases hl with
  | nil => simp at hg
  | snoc hl ht ha =>
    obtain ⟨rfl,he⟩ := List.append_inj' hg rfl
    cases he
    exact ⟨hl,ht,ha⟩

theorem Legal.of_append {r : History} (hl : Legal (h ++ r)) : Legal h := by
  induction r using List.reverseRecOn with
  | nil => simpa using hl
  | append_singleton r b ih =>
    rw [← List.append_assoc] at hl
    exact ih hl.of_snoc.1

theorem mem_get_valid_actions : a ∈ get_valid_actions h ↔ get_board h a = '0' := by
  simp [get_valid_actions]

/-- The empty squares. -/
def empties (h : History) : Finset (Fin 9) := Finset.univ.filter fun i => get_board h i = '0'

theorem mem_empties : a ∈ empties h ↔ get_board h a = '0' := by simp [empties]

theorem empties_snoc (h : History) (a : Fin 9) : empties (h ++ [a]) = (empties h).erase a := by
  ext i
  rw [Finset.mem_erase,mem_empties,mem_empties,get_board_snoc,Function.update_apply]
  split
  · simp [*,mark_ne_zero]
  · simp [*]

theorem Legal.length_add (hl : Legal h) : h.length + (empties h).card = 9 := by
  induction hl with
  | nil => rfl
  | @snoc h a _ _ ha ih =>
    have hmem := mem_empties.mpr ha
    have hpos := Finset.card_pos.mpr ⟨a,hmem⟩
    rw [empties_snoc,Finset.card_erase_of_mem hmem,List.length_append,List.length_singleton]
    omega

/-- A game that goes on has an empty square. -/
theorem exists_empty (ht : is_terminal_history h = false) : (empties h).Nonempty := by
  rw [is_terminal_history,is_draw,Bool.or_eq_false_iff] at ht
  have hover : is_over h = false := by
    cases ho : is_win h with
    | none => simpa [ho] using ht.2
    | some w => simp [ho] at ht
  rw [is_over,decide_eq_false_iff_not] at hover
  push Not at hover
  obtain ⟨i,hi⟩ := hover
  exact ⟨i,mem_empties.mpr hi⟩

theorem Legal.length_lt (hl : Legal h) (ht : is_terminal_history h = false) : h.length < 9 := by
  have := hl.length_add
  have := Finset.card_pos.mpr (exists_empty ht)
  omega

/-- Only the player of the last move can have won. -/
theorem is_win_snoc (ht : is_terminal_history h = false) {w : Char}
    (hw : is_win (h ++ [a]) = some w) : w = mark h.length := by
  have hno : is_win h = none := by
    cases ho : is_win h with
    | none => rfl
    | some w => simp [is_terminal_history,ho] at ht
  rw [is_win,Option.map_eq_none_iff,List.find?_eq_none] at hno
  rw [is_win,Option.map_eq_some_iff] at hw
  obtain ⟨l,hl,rfl⟩ := hw
  have hfull : (get_board (h ++ [a])).full l := by simpa using List.find?_some hl
  have hold : ¬ (get_board h).full l := by simpa using hno l (List.mem_of_find?_eq_some hl)
  rw [get_board_snoc] at hfull ⊢
  obtain ⟨h₁,h₂,h₃⟩ := hfull
  by_contra hne
  -- the new mark is on none of the three squares
  have hn₁ : l.1 ≠ a := by
    rintro rfl
    exact hne (Function.update_self ..)
  have hn₂ : l.2.1 ≠ a := by
    rintro rfl
    exact hne (h₁.trans (Function.update_self ..))
  have hn₃ : l.2.2 ≠ a := by
    rintro rfl
    exact hne (h₁.trans (h₂.trans (Function.update_self ..)))
  rw [Function.update_of_ne hn₁,Function.update_of_ne hn₂] at h₁
  rw [Function.update_of_ne hn₂,Function.update_of_ne hn₃] at h₂
  rw [Function.update_of_ne hn₃] at h₃
  exact hold ⟨h₁,h₂,h₃⟩

/-- What a finished game is worth for `x`. -/
def payoff (h : History) : SignType :=
  match is_win h with
  | some w => if w = 'x' then 1 else -1
  | none => 0

abbrev Position := {h : History // Legal h}

/-- The histories with one move more. -/
def nexts (p : Position) : Finset Position :=
  if ht : is_terminal_history p.1 = false then
    (empties p.1).attach.image fun a => ⟨p.1 ++ [a.1],.snoc p.2 ht (mem_empties.mp a.2)⟩
  else ∅

theorem mem_nexts {p q : Position} : q ∈ nexts p ↔
    is_terminal_history p.1 = false ∧ ∃ a, get_board p.1 a = '0' ∧ q.1 = p.1 ++ [a] := by
  rw [nexts]
  split
  · rename_i ht
    simp only [Finset.mem_image,Finset.mem_attach,true_and,Subtype.exists,mem_empties,ht]
    constructor
    · rintro ⟨a,ha,rfl⟩
      exact ⟨a,ha,rfl⟩
    · rintro ⟨a,ha,he⟩
      exact ⟨a,ha,Subtype.ext he.symm⟩
  · rename_i ht
    simp [ht]

/-- Player `x` maximizes, and moves when the number of moves is even. -/
def game : Game Position SignType where
  final p := if is_terminal_history p.1 then some (payoff p.1) else none
  maximizes p := p.1.length % 2 = 0
  next := nexts
  size p := (empties p.1).card
  size_lt hq := by
    obtain ⟨-,a,ha,he⟩ := mem_nexts.mp hq
    rw [he,empties_snoc]
    exact Finset.card_erase_lt_of_mem (mem_empties.mpr ha)

theorem final_of_terminal {p : Position} (ht : is_terminal_history p.1 = true) :
    game.final p = some (payoff p.1) := if_pos ht

theorem final_eq_none {p : Position} : game.final p = none ↔ is_terminal_history p.1 = false := by
  simp [game]

end ResumePointers.TicTacToe
