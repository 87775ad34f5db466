import ResumePointers.Notakto.Game

/-! Alpha-beta search (`alpha_beta_pruning` of `q2.py`). -/
namespace ResumePointers.Notakto

variable {n fuel : ℕ} {hs : List ℕ} {c : ℕ}

/-- The loop of the maximizing player over `valid_actions`; `call` is the call for a child. -/
def maxLoop (call : History n → Value → M Value) (history_obj : History n) (beta : Value) :
    List ℕ → Value → Value → M Value
  | [],value,_ => pure value
  | action::actions,value,alpha => do
    let new_history ← ofExcept (history_obj.update_history action)
    let value_at_child ← call new_history alpha
    let value := if value_at_child > value then value_at_child else value
    let alpha := max alpha value_at_child
    if value ≥ beta then pure value else maxLoop call history_obj beta actions value alpha

/-- The loop of the minimizing player. -/
def minLoop (call : History n → Value → M Value) (history_obj : History n) (alpha : Value) :
    List ℕ → Value → Value → M Value
  | [],value,_ => pure value
  | action::actions,value,beta => do
    let new_history ← ofExcept (history_obj.update_history action)
    let value_at_child ← call new_history beta
    let value := if value_at_child < value then value_at_child else value
    let beta := min beta value_at_child
    if value ≤ alpha then pure value else minLoop call history_obj alpha actions value beta

/-- `alpha_beta_pruning`; the fuel bounds the depth of the recursion. -/
def alpha_beta_pruning : ℕ → History n → Value → Value → Bool → M Value
  | 0,_,_,_,_ => throw .fuel
  | fuel + 1,history_obj,alpha,beta,max_player_flag => do
    modify fun s =>
      { s with visited_histories_list := s.visited_histories_list ++ [history_obj.history] }
    if history_obj.is_terminal_history then
      ofExcept history_obj.get_value_given_terminal_history
    else if max_player_flag then
      maxLoop (fun new_history alpha => alpha_beta_pruning fuel new_history alpha beta false)
        history_obj beta history_obj.get_valid_actions ⊥ alpha
    else
      minLoop (fun new_history beta => alpha_beta_pruning fuel new_history alpha beta true)
        history_obj alpha history_obj.get_valid_actions ⊤ beta

theorem maxLoop_spec {call : History n → Value → M Value} {alpha beta : Value} (hs : List ℕ)
    (hab : alpha < beta) {actions : List ℕ} (hl : ∀ c ∈ actions, Legal n (hs ++ [c]))
    (hcall : ∀ c ∈ actions, ∀ a < beta, ∀ s, Total (call (shown n (hs ++ [c])) a) s fun x _ =>
      Answers a beta (after n hs c) x)
    {w value : Value} (hw : Answers alpha beta w value) (hv : value < beta) (s : Globals) :
    Total (maxLoop call (shown n hs) beta actions value (max alpha value)) s fun x _ =>
      Answers alpha beta (w ⊔ actions.toFinset.sup (after n hs)) x := by
  induction actions generalizing w value s with
  | nil => simpa [maxLoop] using hw
  | cons c actions ih =>
    rw [List.toFinset_cons,Finset.sup_insert,← sup_assoc,maxLoop,Total,post_bind]
    refine total_ofExcept (update_history_shown (hl c (by simp))) ?_
    rw [post_bind]
    refine (hcall c (by simp) _ (max_lt hab hv) s).imp fun x t hx => ?_
    have hmax := hw.max hv hx
    rw [show (if x > value then x else value) = max value x from (max_def_lt ..).symm,max_assoc]
    dsimp only
    split_ifs with hcut
    · exact hmax.cut hab hcut le_sup_left
    · exact ih (fun c hc => hl c (by simp [hc])) (fun c hc => hcall c (by simp [hc])) hmax
        (not_le.mp hcut) t

theorem minLoop_spec {call : History n → Value → M Value} {alpha beta : Value} (hs : List ℕ)
    (hab : alpha < beta) {actions : List ℕ} (hl : ∀ c ∈ actions, Legal n (hs ++ [c]))
    (hcall : ∀ c ∈ actions, ∀ b, alpha < b → ∀ s, Total (call (shown n (hs ++ [c])) b) s
      fun x _ => Answers alpha b (after n hs c) x)
    {w value : Value} (hw : Answers alpha beta w value) (hv : alpha < value) (s : Globals) :
    Total (minLoop call (shown n hs) alpha actions value (min beta value)) s fun x _ =>
      Answers alpha beta (w ⊓ actions.toFinset.inf (after n hs)) x := by
  induction actions generalizing w value s with
  | nil => simpa [minLoop] using hw
  | cons c actions ih =>
    rw [List.toFinset_cons,Finset.inf_insert,← inf_assoc,minLoop,Total,post_bind]
    refine total_ofExcept (update_history_shown (hl c (by simp))) ?_
    rw [post_bind]
    refine (hcall c (by simp) _ (lt_min hab hv) s).imp fun x t hx => ?_
    have hmin := hw.min hv hx
    rw [show (if x < value then x else value) = min x value from (min_def_lt ..).symm,
      min_comm x value,min_assoc]
    dsimp only
    split_ifs with hcut
    · exact hmin.cut_min hab hcut inf_le_left
    · exact ih (fun c hc => hl c (by simp [hc])) (fun c hc => hcall c (by simp [hc])) hmin
        (not_le.mp hcut) t

/-- The search of every legal history answers for the value of its position. -/
theorem search_spec (hl : Legal n hs) (hf : 9 * n < fuel + hs.length) {alpha beta : Value}
    (hab : alpha < beta) (s : Globals) :
    Total (alpha_beta_pruning fuel (shown n hs) alpha beta ((game n).maximizes hs.toFinset)) s
      fun x _ => Answers alpha beta ((game n).value hs.toFinset) x := by
  induction fuel generalizing hs alpha beta s with
  | zero =>
    have := hl.length_le
    omega
  | succ fuel ih =>
    have hchild (c : ℕ) (hc : c ∈ (shown n hs).get_valid_actions) (a b : Value) (hab : a < b)
        (s : Globals) : Total (alpha_beta_pruning fuel (shown n (hs ++ [c])) a b
          (!(game n).maximizes hs.toFinset)) s fun x _ => Answers a b (after n hs c) x := by
      have hlc := legal_action hl hc
      have hspec := ih hlc (by rw [List.length_append,List.length_singleton]; omega) hab s
      rw [hl.maximizes_snoc hlc] at hspec
      rw [after,← toFinset_snoc]
      exact hspec
    rw [alpha_beta_pruning,Total,post_bind,post_modify]
    by_cases ht : (shown n hs).is_terminal_history = true
    · rw [if_pos ht]
      exact total_ofExcept (get_value_shown hl ht) (.refl ..)
    · rw [if_neg ht]
      cases hm : (game n).maximizes hs.toFinset with
      | true =>
        rw [if_pos rfl,value_shown_max ht hm]
        rw [hm] at hchild
        have hloop := @maxLoop_spec n
          (fun new_history alpha => alpha_beta_pruning fuel new_history alpha beta false) alpha beta
          hs hab _ (fun c hc => legal_action hl hc) (fun c hc a hab s => hchild c hc a beta hab s)
          ⊥ ⊥ (.refl ..) (bot_le.trans_lt hab)
        rw [max_bot_right] at hloop
        exact hloop _
      | false =>
        rw [if_neg Bool.false_ne_true,value_shown_min ht hm]
        rw [hm] at hchild
        have hloop := @minLoop_spec n
          (fun new_history beta => alpha_beta_pruning fuel new_history alpha beta true) alpha beta
          hs hab _ (fun c hc => legal_action hl hc) (fun c hc b hab s => hchild c hc alpha b hab s)
          ⊤ ⊤ (.refl ..) (hab.trans_le le_top)
        rw [min_top_right] at hloop
        exact hloop _

/-- For a history of legal moves the search answers for the minimax value of the position; with
the full window it returns the value. -/
theorem alpha_beta_pruning_answers (hl : Legal n hs) (hf : 9 * n < fuel + hs.length)
    {alpha beta : Value} (hab : alpha < beta) (s : Globals) :
    ∃ h, History.init n (some hs) = .ok h ∧
      Total (alpha_beta_pruning fuel h alpha beta (decide (h.current_player = 1))) s fun x _ =>
        (beta ≤ (game n).value hs.toFinset → beta ≤ x) ∧
        ((game n).value hs.toFinset ≤ alpha → x ≤ alpha) ∧
        (alpha < (game n).value hs.toFinset → (game n).value hs.toFinset < beta →
          x = (game n).value hs.toFinset) ∧
        (alpha = ⊥ → beta = ⊤ → x = (game n).value hs.toFinset) := by
  refine ⟨_,init_shown hl,?_⟩
  rw [current_player_shown hl]
  refine (search_spec hl hf hab s).imp fun x t h => ⟨h.high,h.low,h.exact,?_⟩
  rintro rfl rfl
  exact h.eq_of_full

/-- A first move to the middle of the only board, searched with the full window. -/
theorem alpha_beta_pruning_answers_middle :
    ∃ h, History.init 1 (some [4]) = .ok h ∧
      Total (alpha_beta_pruning 10 h ⊥ ⊤ (decide (h.current_player = 1))) ⟨fun _ => none,[]⟩ fun x _ =>
        (⊤ ≤ (game 1).value {4} → ⊤ ≤ x) ∧ ((game 1).value {4} ≤ ⊥ → x ≤ ⊥) ∧
        (⊥ < (game 1).value {4} → (game 1).value {4} < ⊤ → x = (game 1).value {4}) ∧
        ((⊥ : Value) = ⊥ → (⊤ : Value) = ⊤ → x = (game 1).value {4}) :=
  alpha_beta_pruning_answers (.snoc .nil (by decide)) (by decide) bot_lt_top _

end ResumePointers.Notakto
