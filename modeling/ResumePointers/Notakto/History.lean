import Mathlib
import ResumePointers.Lib.Post

/-! The class `History` (`game_theory_algos/alpha_beta_pruning/q2.py`) and the global tables of
its searches. -/
namespace ResumePointers.Notakto

inductive Failure
  | index
  | notTerminal
  | fuel
deriving DecidableEq

abbrev Board := Fin 9 → Char

/-- Integers, floats and the two infinities. -/
abbrev Value := WithBot (WithTop ℚ)

structure Globals where
  board_positions_val_dict : String → Option Value
  visited_histories_list : List (List ℕ)

abbrev M := EStateM Failure Globals

structure History (num_boards : ℕ) where
  history : List ℕ
  boards : Fin num_boards → Board
  active_board_stats : Fin num_boards → ℕ
  current_player : ℕ

variable {num_boards : ℕ}

def emptyBoard : Board := fun _ => '0'

/-- One round of the loop of `get_boards`. -/
def play (boards : Fin num_boards → Board) (action : ℕ) :
    Except Failure (Fin num_boards → Board) :=
  if h : action / 9 < num_boards then
    let board_num : Fin num_boards := ⟨action / 9,h⟩
    let play_position : Fin 9 := ⟨action % 9,Nat.mod_lt _ (by decide)⟩
    .ok (Function.update boards board_num
      (Function.update (boards board_num) play_position 'x'))
  else .error .index

def get_boards (num_boards : ℕ) (history : List ℕ) : Except Failure (Fin num_boards → Board) :=
  history.foldlM play fun _ => emptyBoard

/-- The comparison `board[i] == board[j] == board[k] != '0'`. -/
def same (board : Board) (i j k : Fin 9) : Bool :=
  board i = board j ∧ board j = board k ∧ board k ≠ '0'

def is_board_win (board : Board) : Bool :=
  ((List.finRange 3).any fun i =>
    same board (Fin.ofNat 9 (3 * i)) (Fin.ofNat 9 (3 * i + 1)) (Fin.ofNat 9 (3 * i + 2)) ||
      same board (Fin.ofNat 9 i) (Fin.ofNat 9 (i + 3)) (Fin.ofNat 9 (i + 6))) ||
    same board 0 4 8 || same board 2 4 6

/-- The rows, columns and diagonals of a board. -/
def lines : List (Fin 9 × Fin 9 × Fin 9) :=
  [(0,1,2),(0,3,6),(3,4,5),(1,4,7),(6,7,8),(2,5,8),(0,4,8),(2,4,6)]

theorem is_board_win_eq (board : Board) :
    is_board_win board = lines.any fun l => same board l.1 l.2.1 l.2.2 := by
  have hrange : List.finRange 3 = [0,1,2] := rfl
  simp only [is_board_win,hrange,lines,List.any_cons,List.any_nil,Bool.or_false,← Bool.or_assoc]
  rfl

def check_active_boards (boards : Fin num_boards → Board) : Fin num_boards → ℕ :=
  fun i => if is_board_win (boards i) then 0 else 1

def get_current_player (history : List ℕ) : ℕ :=
  if history.length % 2 = 0 then 1 else 2

namespace History

/-- `History(num_boards, history)`; `none` is the default of `history`. -/
def init (num_boards : ℕ) (history : Option (List ℕ)) : Except Failure (History num_boards) :=
  match history with
  | some history => do
    let boards ← get_boards num_boards history
    pure ⟨history,boards,check_active_boards boards,get_current_player history⟩
  | none =>
    let boards := fun _ => emptyBoard
    pure ⟨[],boards,check_active_boards boards,get_current_player []⟩

def get_boards_str (h : History num_boards) : String :=
  String.ofList ((List.finRange num_boards).flatMap fun i =>
    (List.finRange 9).map (h.boards i))

def is_win (h : History num_boards) : Bool × Option ℕ :=
  if (List.ofFn (check_active_boards h.boards)).sum = 0 then (true,some h.current_player)
  else (false,none)

def get_valid_actions (h : History num_boards) : List ℕ :=
  let valid_actions := (List.finRange num_boards).flatMap fun i =>
    if h.active_board_stats i ≠ 0 then
      ((List.finRange 9).filter fun j => h.boards i j = '0').map fun j => i.val * 9 + j.val
    else []
  let centers := (List.range num_boards).map fun j => 9 * j + 4
  let corner_list := (List.range num_boards).map (fun j => 9 * j) ++
    (List.range num_boards).map (fun j => 9 * j + 2) ++
    (List.range num_boards).map (fun j => 9 * j + 6) ++
    (List.range num_boards).map (fun j => 9 * j + 8)
  valid_actions.filter (fun a => a ∈ centers) ++
    valid_actions.filter (fun a => a ∈ corner_list) ++
    valid_actions.filter (fun a => ¬ (a ∈ corner_list ∨ a ∈ centers))

def is_terminal_history (h : History num_boards) : Bool := h.is_win.1

def get_value_given_terminal_history (h : History num_boards) : Except Failure Value :=
  match h.is_win with
  | (true,win_player) => if win_player = some 1 then .ok (1 : ℚ) else .ok (-1 : ℚ)
  | (false,_) => .error .notTerminal

/-- `update_history` on a deep copy. -/
def update_history (h : History num_boards) (action : ℕ) :
    Except Failure (History num_boards) := do
  let history := h.history ++ [action]
  let boards ← get_boards num_boards history
  pure ⟨history,boards,check_active_boards boards,get_current_player history⟩

end History

end ResumePointers.Notakto
