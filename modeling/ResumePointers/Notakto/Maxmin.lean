import ResumePointers.Lib.Runs
import ResumePointers.Notakto.Game

/-! Minimax with the table of board positions (`maxmin` of `q2.py`), and the same recursion
without a table. -/
namespace ResumePointers.Notakto

variable {n fuel : ℕ} {hs : List ℕ}

/-- The loop of the maximizing player over `valid_actions`; `call` is the call for a child. -/
def largest (call : History n → M Value) (history_obj : History n) : List ℕ → Value → M Value
  | [],value => pure value
  | action::actions,value => do
    let new_history ← ofExcept (history_obj.update_history action)
    let value_at_child ← call new_history
    largest call history_obj actions (if value_at_child > value then value_at_child else value)

/-- The loop of the minimizing player. -/
def smallest (call : History n → M Value) (history_obj : History n) : List ℕ → Value → M Value
  | [],value => pure value
  | action::actions,value => do
    let new_history ← ofExcept (history_obj.update_history action)
    let value_at_child ← call new_history
    smallest call history_obj actions (if value_at_child < value then value_at_child else value)

/-- `board_positions_val_dict[current_board_str] = value`. -/
def store (current_board_str : String) (value : Value) : M Unit :=
  modify fun s => { s with
    board_positions_val_dict :=
      Function.update s.board_positions_val_dict current_board_str (some value) }

/-- `maxmin`; the fuel bounds the depth of the recursion. -/
def maxmin : ℕ → History n → Bool → M Value
  | 0,_,_ => throw .fuel
  | fuel + 1,history_obj,max_player_flag => do
    match (← get).board_positions_val_dict history_obj.get_boards_str with
    | some value => pure value
    | none =>
      if history_obj.is_terminal_history then
        ofExcept history_obj.get_value_given_terminal_history
      else if max_player_flag then do
        let value ← largest (fun new_history => maxmin fuel new_history false) history_obj
          history_obj.get_valid_actions ⊥
        store history_obj.get_boards_str value
        pure value
      else do
        let value ← smallest (fun new_history => maxmin fuel new_history true) history_obj
          history_obj.get_valid_actions ⊤
        store history_obj.get_boards_str value
        pure value

/-- `maxmin` without the table. -/
def minimax : ℕ → History n → Bool → M Value
  | 0,_,_ => throw .fuel
  | fuel + 1,history_obj,max_player_flag =>
    if history_obj.is_terminal_history then
      ofExcept history_obj.get_value_given_terminal_history
    else if max_player_flag then
      largest (fun new_history => minimax fuel new_history false) history_obj
        history_obj.get_valid_actions ⊥
    else
      smallest (fun new_history => minimax fuel new_history true) history_obj
        history_obj.get_valid_actions ⊤

/-- A call of `maxmin` from outside, with the flag of the player to move. -/
structure Call where
  num_boards : ℕ
  history : List ℕ
  fuel : ℕ

def Call.exec (call : Call) : M Value := do
  let history_obj ← ofExcept (History.init call.num_boards (some call.history))
  maxmin call.fuel history_obj (decide (history_obj.current_player = 1))

/-- The moves are legal, and the recursion may be as deep as squares are left. -/
def Call.Ok (call : Call) : Prop :=
  Legal call.num_boards call.history ∧
    9 * call.num_boards < call.fuel + call.history.length

/-- The table holds values of positions only. -/
def Sound (s : Globals) : Prop :=
  ∀ n hs v, Legal n hs → s.board_positions_val_dict (shown n hs).get_boards_str = some v →
    v = (game n).value hs.toFinset

theorem Sound.store {s : Globals} (h : Sound s) (hl : Legal n hs) : Sound { s with
    board_positions_val_dict := Function.update s.board_positions_val_dict
      (shown n hs).get_boards_str (some ((game n).value hs.toFinset)) } := by
  intro m gs v hg hv
  by_cases he : (shown m gs).get_boards_str = (shown n hs).get_boards_str
  · obtain ⟨rfl,hset⟩ := get_boards_str_inj hg hl he
    dsimp only at hv
    rw [he,Function.update_self] at hv
    rw [hset,Option.some.inj hv]
  · exact h m gs v hg ((Function.update_of_ne he ..).symm.trans hv)

theorem largest_spec {call : History n → M Value} (hs : List ℕ) {I : Globals → Prop}
    {actions : List ℕ} (hl : ∀ c ∈ actions, Legal n (hs ++ [c]))
    (hcall : ∀ c ∈ actions, ∀ s, I s → Total (call (shown n (hs ++ [c]))) s fun x t =>
      x = after n hs c ∧ I t) (value : Value) {s : Globals} (hI : I s) :
    Total (largest call (shown n hs) actions value) s fun x t =>
      x = value ⊔ actions.toFinset.sup (after n hs) ∧ I t := by
  induction actions generalizing value s with
  | nil => simpa [largest] using hI
  | cons c actions ih =>
    rw [List.toFinset_cons,Finset.sup_insert,← sup_assoc,largest,Total,post_bind]
    refine total_ofExcept (update_history_shown (hl c (by simp))) ?_
    rw [post_bind]
    refine (hcall c (by simp) s hI).imp fun x t hx => ?_
    rw [show (if x > value then x else value) = max value x from (max_def_lt ..).symm,hx.1]
    exact ih (fun c hc => hl c (by simp [hc])) (fun c hc => hcall c (by simp [hc])) _ hx.2

theorem smallest_spec {call : History n → M Value} (hs : List ℕ) {I : Globals → Prop}
    {actions : List ℕ} (hl : ∀ c ∈ actions, Legal n (hs ++ [c]))
    (hcall : ∀ c ∈ actions, ∀ s, I s → Total (call (shown n (hs ++ [c]))) s fun x t =>
      x = after n hs c ∧ I t) (value : Value) {s : Globals} (hI : I s) :
    Total (smallest call (shown n hs) actions value) s fun x t =>
      x = value ⊓ actions.toFinset.inf (after n hs) ∧ I t := by
  induction actions generalizing value s with
  | nil => simpa [smallest] using hI
  | cons c actions ih =>
    rw [List.toFinset_cons,Finset.inf_insert,← inf_assoc,smallest,Total,post_bind]
    refine total_ofExcept (update_history_shown (hl c (by simp))) ?_
    rw [post_bind]
    refine (hcall c (by simp) s hI).imp fun x t hx => ?_
    rw [show (if x < value then x else value) = min x value from (min_def_lt ..).symm,
      min_comm,hx.1]
    exact ih (fun c hc => hl c (by simp [hc])) (fun c hc => hcall c (by simp [hc])) _ hx.2

/-- With children that are worth what they should be, a position that is not terminal is. -/
theorem largest_value (call : History n → M Value) (hl : Legal n hs) {I : Globals → Prop}
    (ht : ¬ (shown n hs).is_terminal_history = true)
    (hm : (game n).maximizes hs.toFinset = true)
    (hchild : ∀ c ∈ (shown n hs).get_valid_actions, ∀ s, I s →
      Total (call (shown n (hs ++ [c]))) s fun x t => x = after n hs c ∧ I t)
    {s : Globals} (hI : I s) :
    Total (largest call (shown n hs) (shown n hs).get_valid_actions ⊥) s fun x t =>
      x = (game n).value hs.toFinset ∧ I t := by
  rw [value_shown_max ht hm]
  exact largest_spec hs (fun c hc => legal_action hl hc) hchild ⊥ hI

theorem smallest_value (call : History n → M Value) (hl : Legal n hs) {I : Globals → Prop}
    (ht : ¬ (shown n hs).is_terminal_history = true)
    (hm : (game n).maximizes hs.toFinset = false)
    (hchild : ∀ c ∈ (shown n hs).get_valid_actions, ∀ s, I s →
      Total (call (shown n (hs ++ [c]))) s fun x t => x = after n hs c ∧ I t)
    {s : Globals} (hI : I s) :
    Total (smallest call (shown n hs) (shown n hs).get_valid_actions ⊤) s fun x t =>
      x = (game n).value hs.toFinset ∧ I t := by
  rw [value_shown_min ht hm]
  exact smallest_spec hs (fun c hc => legal_action hl hc) hchild ⊤ hI

theorem minimax_spec (hl : Legal n hs) (hf : 9 * n < fuel + hs.length) (s : Globals) :
    Total (minimax fuel (shown n hs) ((game n).maximizes hs.toFinset)) s fun x _ =>
      x = (game n).value hs.toFinset ∧ True := by
  induction fuel generalizing hs s with
  | zero =>
    have := hl.length_le
    omega
  | succ fuel ih =>
    have hchild (c : ℕ) (hc : c ∈ (shown n hs).get_valid_actions) (s : Globals) (_ : True) :
        Total (minimax fuel (shown n (hs ++ [c])) (!(game n).maximizes hs.toFinset)) s
          fun x _ => x = after n hs c ∧ True := by
      have hlc := legal_action hl hc
      have hspec := ih hlc (by rw [List.length_append,List.length_singleton]; omega) s
      rw [hl.maximizes_snoc hlc] at hspec
      rw [after,← toFinset_snoc]
      exact hspec
    rw [minimax]
    by_cases ht : (shown n hs).is_terminal_history = true
    · rw [if_pos ht]
      exact total_ofExcept (get_value_shown hl ht) ⟨rfl,trivial⟩
    · rw [if_neg ht]
      cases hm : (game n).maximizes hs.toFinset with
      | true =>
        rw [hm] at hchild
        rw [if_pos rfl]
        exact largest_value _ hl ht hm hchild trivial
      | false =>
        rw [hm] at hchild
        rw [if_neg Bool.false_ne_true]
        exact smallest_value _ hl ht hm hchild trivial

/-- From a sound table `maxmin` returns the value of the position, and leaves a sound table. -/
theorem maxmin_spec (hl : Legal n hs) (hf : 9 * n < fuel + hs.length) {s : Globals}
    (hs' : Sound s) :
    Total (maxmin fuel (shown n hs) ((game n).maximizes hs.toFinset)) s fun x t =>
      x = (game n).value hs.toFinset ∧ Sound t := by
  induction fuel generalizing hs s with
  | zero =>
    have := hl.length_le
    omega
  | succ fuel ih =>
    have hchild (c : ℕ) (hc : c ∈ (shown n hs).get_valid_actions) (s : Globals) (hs' : Sound s) :
        Total (maxmin fuel (shown n (hs ++ [c])) (!(game n).maximizes hs.toFinset)) s
          fun x t => x = after n hs c ∧ Sound t := by
      have hlc := legal_action hl hc
      have hspec := ih hlc (by rw [List.length_append,List.length_singleton]; omega) hs'
      rw [hl.maximizes_snoc hlc] at hspec
      rw [after,← toFinset_snoc]
      exact hspec
    rw [maxmin,Total,post_bind,post_get]
    cases hv : s.board_positions_val_dict (shown n hs).get_boards_str with
    | some v => exact ⟨hs' n hs v hl hv,hs'⟩
    | none =>
      dsimp only
      by_cases ht : (shown n hs).is_terminal_history = true
      · rw [if_pos ht]
        exact total_ofExcept (get_value_shown hl ht) ⟨rfl,hs'⟩
      · rw [if_neg ht]
        cases hm : (game n).maximizes hs.toFinset with
        | true =>
          rw [hm] at hchild
          rw [if_pos rfl,post_bind]
          refine (largest_value _ hl ht hm hchild hs').imp fun x t hx => ?_
          rw [hx.1]
          exact ⟨rfl,hx.2.store hl⟩
        | false =>
          rw [hm] at hchild
          rw [if_neg Bool.false_ne_true,post_bind]
          refine (smallest_value _ hl ht hm hchild hs').imp fun x t hx => ?_
          rw [hx.1]
          exact ⟨rfl,hx.2.store hl⟩

theorem exec_spec {call : Call} (hc : call.Ok) {s : Globals} (hs : Sound s) :
    Total call.exec s fun x t =>
      x = (game call.num_boards).value call.history.toFinset ∧ Sound t := by
  rw [Call.exec,Total,post_bind]
  refine total_ofExcept (init_shown hc.1) ?_
  rw [current_player_shown hc.1]
  exact maxmin_spec hc.1 hc.2 hs

/-- After any calls that were made before, from an empty table, `maxmin` returns what minimax
without a table returns. -/
theorem maxmin_eq_minimax (visited : List (List ℕ)) {calls : List Call} (hc : ∀ c ∈ calls, c.Ok)
    (hl : Legal n hs) (hf : 9 * n < fuel + hs.length) :
    ∃ h, History.init n (some hs) = .ok h ∧
      Total (runOps Call.exec calls) ⟨fun _ => none,visited⟩ fun _ s =>
        Total (maxmin fuel h (decide (h.current_player = 1))) s fun x _ =>
          x = (game n).value hs.toFinset ∧
          ∀ t, Total (minimax fuel h (decide (h.current_player = 1))) t fun y _ => y = x := by
  refine ⟨_,init_shown hl,?_⟩
  rw [current_player_shown hl]
  have hempty : Sound ⟨fun _ => none,visited⟩ := fun _ _ _ _ hv => by cases hv
  refine (runOps_total (fun c s hc hs => (exec_spec hc hs).imp fun _ _ h => h.2) hc hempty).imp
    fun _ s hs => (maxmin_spec hl hf hs).imp fun x _ hx => ⟨hx.1,fun t => ?_⟩
  rw [hx.1]
  exact (minimax_spec hl hf t).imp fun _ _ h => h.1

/-- After the first move is searched on its own, the empty board and two boards are. -/
theorem maxmin_eq_minimax_empty :
    ∃ h, History.init 1 (some []) = .ok h ∧
      Total (runOps Call.exec [⟨1,[4],9⟩,⟨2,[],19⟩]) ⟨fun _ => none,[]⟩ fun _ s =>
        Total (maxmin 10 h (decide (h.current_player = 1))) s fun x _ =>
          x = (game 1).value ∅ ∧
          ∀ t, Total (minimax 10 h (decide (h.current_player = 1))) t fun y _ => y = x :=
  maxmin_eq_minimax [] (by
    intro c hc
    rcases List.mem_pair.mp hc with rfl | rfl
    · exact ⟨.snoc .nil (by decide),by decide⟩
    · exact ⟨.nil,by decide⟩) .nil (by decide)

end ResumePointers.Notakto
