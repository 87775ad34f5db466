import ResumePointers.Lib.Post
import ResumePointers.Lib.Minimax
import Mathlib.Data.Sign.Defs
import Mathlib.Data.Fintype.Card

/-! Tic-tac-toe (`game_theory_algos/alpha_beta_pruning/q1.py`): histories with the boards they lead
to, the search by backward induction, and the game that it searches. -/
namespace ResumePointers.TicTacToe

abbrev History := List (Fin 9)
abbrev Board := Fin 9 → Char

/-- The player of move number `i`. -/
def mark (i : ℕ) : Char := if i % 2 = 0 then 'x' else 'o'

def current_player (h : History) : Option Char :=
  if h.length < 9 then some (mark h.length) else none

def get_board (h : History) : Board :=
  h.zipIdx.foldl (fun b m => Function.update b m.1 (mark m.2)) fun _ => '0'

/-- The lines in the order in which `is_win` looks at them: the rows and columns, then the diagonals. -/
def lines : List (Fin 9 × Fin 9 × Fin 9) :=
  (List.finRange 3).flatMap (fun i => [(⟨3 * i,by omega⟩,⟨3 * i + 1,by omega⟩,⟨3 * i + 2,by omega⟩),
      (⟨i,by omega⟩,⟨i + 3,by omega⟩,⟨i + 6,by omega⟩)]) ++
    [(⟨0,by decide⟩,⟨4,by decide⟩,⟨8,by decide⟩),(⟨2,by decide⟩,⟨4,by decide⟩,⟨6,by decide⟩)]

def Board.full (b : Board) (l : Fin 9 × Fin 9 × Fin 9) : Prop :=
  b l.1 = b l.2.1 ∧ b l.2.1 = b l.2.2 ∧ b l.2.2 ≠ '0'

instance (b : Board) (l : Fin 9 × Fin 9 × Fin 9) : Decidable (b.full l) :=
  inferInstanceAs (Decidable (_ ∧ _ ∧ _))

/-- The winner, from the first line that is full. -/
def is_win (h : History) : Option Char :=
  (lines.find? fun l => (get_board h).full l).map fun l => get_board h l.1

def is_over (h : History) : Bool := decide (∀ i, get_board h i ≠ '0')

def is_draw (h : History) : Bool := (is_win h).isNone && is_over h

def get_valid_actions (h : History) : List (Fin 9) :=
  (List.finRange 9).filter fun i => get_board h i = '0'

def is_terminal_history (h : History) : Bool := (is_win h).isSome || is_draw h

/-- `strategy_dict_x` and `strategy_dict_o`: for the string of a history the numbers of the
actions. -/
structure Dicts where
  strategy_dict_x : String → Option (Fin 9 → ℕ)
  strategy_dict_o : String → Option (Fin 9 → ℕ)

abbrev M := EStateM String Dicts

def get_utility_given_terminal_history (h : History) : M SignType :=
  match is_win h with
  | some win_player => pure (if some win_player = current_player h then -1 else 1)
  | none => if is_draw h then pure 0 else throw "Not a terminal history"

/-- The key of a history: its actions, one digit each. -/
def key (h : History) : String := String.ofList (h.map fun a => Nat.digitChar a.val)

/-- The one action gets 1 and the others 0. -/
def only (best_action : Fin 9) : Fin 9 → ℕ := fun act => if act = best_action then 1 else 0

def record (h : History) (best_action : Fin 9) (d : Dicts) : Dicts :=
  if current_player h = some 'x' then
    { d with strategy_dict_x := Function.update d.strategy_dict_x (key h) (some (only best_action)) }
  else if current_player h = some 'o' then
    { d with strategy_dict_o := Function.update d.strategy_dict_o (key h) (some (only best_action)) }
  else d

/-- What the loop over the actions keeps: the best of the utilities so far and its action. The first
action is better than nothing. -/
def better (best : Option (SignType × Fin 9)) (util : SignType) (action : Fin 9) :
    Option (SignType × Fin 9) :=
  match best with
  | some (u,_) => if u < util then some (util,action) else best
  | none => some (util,action)

/-- The recursion stops with an error where `fuel` is too small for its depth, or where there is no
action. -/
def backward_induction : ℕ → History → M SignType
  | 0, _ => throw "fuel"
  | fuel + 1, h =>
    if is_terminal_history h then get_utility_given_terminal_history h
    else do
      let best ← (get_valid_actions h).foldlM
        (fun best action => do
          let util_at_child ← backward_induction fuel (h ++ [action])
          pure (better best util_at_child action)) none
      match best with
      | none => throw "no action"
      | some (best_action_util,best_action) =>
        modify (record h best_action)
        pure (-best_action_util)

def solve_tictactoe : M SignType := backward_induction 10 []

end ResumePointers.TicTacToe
