import ResumePointers.Notakto.AlphaBeta
import ResumePointers.Notakto.Maxmin

/-! The positions that legal moves lead to: the actions are the empty cells of the boards that are not
won, there is one unless the game is over, and every search returns 1 or -1. -/
namespace ResumePointers.Notakto

/-- Cell `j` of board `i` is empty, and nobody has won on the board. -/
def Open {n : ℕ} (h : History n) (i : Fin n) (j : Fin 9) : Prop :=
  h.boards i j = '0' ∧ is_board_win (h.boards i) = false

/-- One of the two values that a game can end with. -/
def Decided (x : Value) : Prop := x = (1 : ℚ) ∨ x = (-1 : ℚ)

variable {n fuel c : ℕ} {hs actions : List ℕ} {s : Finset ℕ} {x value alpha beta : Value}

/-- A board without a completed line has an empty square. -/
theorem exists_empty {i : ℕ} (h : ¬ Dead s i) : ∃ j < 9, 9 * i + j ∉ s := by
  by_contra hall
  push Not at hall
  exact h ⟨(0,1,2),by simp [lines],hall _ (by decide),hall _ (by decide),hall _ (by decide)⟩

theorem moves_nonempty (h : (game n).final s = none) : (moves n s).Nonempty := by
  rw [game_final] at h
  have hdead : ¬ ∀ i < n, Dead s i := fun hd => by rw [if_pos hd] at h; cases h
  push Not at hdead
  obtain ⟨i,hi,hlive⟩ := hdead
  obtain ⟨j,hj,hempty⟩ := exists_empty hlive
  refine ⟨9 * i + j,mem_moves.mpr ⟨by omega,hempty,?_⟩⟩
  rwa [show (9 * i + j) / 9 = i by omega]

theorem get_valid_actions_ne_nil (ht : ¬ (shown n hs).is_terminal_history = true) :
    (shown n hs).get_valid_actions ≠ [] := by
  obtain ⟨c,hc⟩ := moves_nonempty (final_none ht)
  exact List.ne_nil_of_mem ((mem_get_valid_actions hs).mpr hc)

theorem mem_moves_iff_open : c ∈ moves n hs.toFinset ↔
    ∃ (i : Fin n) (j : Fin 9), c = 9 * i.val + j.val ∧ Open (shown n hs) i j := by
  rw [mem_moves]
  constructor
  · rintro ⟨hlt,hempty,hlive⟩
    refine ⟨⟨c / 9,by omega⟩,⟨c % 9,Nat.mod_lt _ (by decide)⟩,(Nat.div_add_mod c 9).symm,?_,?_⟩
    · exact (marked_eq_zero _ _).mpr (by rwa [Nat.div_add_mod c 9])
    · rw [← Bool.not_eq_true,shown,is_board_win_marked]
      exact hlive
  · rintro ⟨i,j,rfl,hempty,hwin⟩
    have hdiv : (9 * i.val + j.val) / 9 = i.val := by omega
    rw [← Bool.not_eq_true,shown,is_board_win_marked] at hwin
    exact ⟨by omega,(marked_eq_zero i j).mp hempty,by rwa [hdiv]⟩

/-- Sorting by centers, corners and the rest repeats nothing. -/
theorem sorted_nodup {l centers corners : List ℕ} (hl : l.Nodup)
    (hne : ∀ c ∈ centers, c ∉ corners) : (l.filter (fun a => a ∈ centers) ++
      l.filter (fun a => a ∈ corners) ++
      l.filter (fun a => ¬ (a ∈ corners ∨ a ∈ centers))).Nodup := by
  rw [List.nodup_append',List.nodup_append']
  refine ⟨⟨hl.filter _,hl.filter _,fun c hc hc' => ?_⟩,hl.filter _,fun c hc hc' => ?_⟩
  · simp only [List.mem_filter,decide_eq_true_eq] at hc hc'
    exact hne c hc.2 hc'.2
  · simp only [List.mem_append,List.mem_filter,decide_eq_true_eq] at hc hc'
    tauto

theorem get_valid_actions_nodup (h : History n) : h.get_valid_actions.Nodup := by
  refine sorted_nodup ?_ fun c hc hc' => ?_
  · rw [List.nodup_flatMap]
    refine ⟨fun i _ => ?_,(List.nodup_finRange n).imp fun {i j} hne c hc hc' => ?_⟩
    · split_ifs
      · refine ((List.nodup_finRange 9).filter _).map fun j k he => Fin.ext ?_
        exact Nat.add_left_cancel he
      · exact List.nodup_nil
    · dsimp only at hc hc'
      split_ifs at hc hc'
      · obtain ⟨k,-,rfl⟩ := List.mem_map.mp hc
        obtain ⟨l,-,he⟩ := List.mem_map.mp hc'
        exact hne (Fin.ext (by omega))
      all_goals exact absurd ‹_› List.not_mem_nil
  · simp only [List.mem_append,List.mem_map] at hc hc'
    obtain ⟨i,-,rfl⟩ := hc
    rcases hc' with ((⟨j,-,he⟩ | ⟨j,-,he⟩) | ⟨j,-,he⟩) | ⟨j,-,he⟩ <;> omega

theorem Decided.bot_lt (h : Decided x) : ⊥ < x := by
  rcases h with rfl | rfl <;> exact WithBot.bot_lt_coe _

theorem Decided.lt_top (h : Decided x) : x < ⊤ := by
  rcases h with rfl | rfl <;> exact WithBot.coe_lt_coe.mpr (WithTop.coe_lt_top _)

/-- Some value has been seen, or there are actions left to see one. -/
def Pending (initial value : Value) (actions : List ℕ) : Prop :=
  Decided value ∨ value = initial ∧ actions ≠ []

theorem Decided.largest (h : Pending ⊥ value (c::actions)) (hx : Decided x) :
    Decided (if x > value then x else value) := by
  rcases h with h | ⟨rfl,-⟩
  · split_ifs
    · exact hx
    · exact h
  · rwa [if_pos hx.bot_lt]

theorem Decided.smallest (h : Pending ⊤ value (c::actions)) (hx : Decided x) :
    Decided (if x < value then x else value) := by
  rcases h with h | ⟨rfl,-⟩
  · split_ifs
    · exact hx
    · exact h
  · rwa [if_pos hx.lt_top]

theorem maxLoop_decided {call : History n → Value → M Value} (hs : List ℕ) (beta : Value)
    (hl : ∀ c ∈ actions, Legal n (hs ++ [c]))
    (hcall : ∀ c ∈ actions, ∀ a s, Total (call (shown n (hs ++ [c])) a) s fun x _ => Decided x)
    (hv : Pending ⊥ value actions) (alpha : Value) (s : Globals) :
    Total (maxLoop call (shown n hs) beta actions value alpha) s fun x _ => Decided x := by
  induction actions generalizing value alpha s with
  | nil => exact hv.resolve_right fun h => h.2 rfl
  | cons c actions ih =>
    rw [maxLoop,Total,post_bind]
    refine total_ofExcept (update_history_shown (hl c (by simp))) ?_
    rw [post_bind]
    refine (hcall c (by simp) _ s).imp fun x t hx => ?_
    have hbest := Decided.largest hv hx
    generalize (if x > value then x else value) = best at hbest ⊢
    dsimp only
    split_ifs with hcut
    · exact hbest
    · exact ih (fun c hc => hl c (by simp [hc])) (fun c hc => hcall c (by simp [hc])) (.inl hbest) _ t

theorem minLoop_decided {call : History n → Value → M Value} (hs : List ℕ) (alpha : Value)
    (hl : ∀ c ∈ actions, Legal n (hs ++ [c]))
    (hcall : ∀ c ∈ actions, ∀ b s, Total (call (shown n (hs ++ [c])) b) s fun x _ => Decided x)
    (hv : Pending ⊤ value actions) (beta : Value) (s : Globals) :
    Total (minLoop call (shown n hs) alpha actions value beta) s fun x _ => Decided x := by
  induction actions generalizing value beta s with
  | nil => exact hv.resolve_right fun h => h.2 rfl
  | cons c actions ih =>
    rw [minLoop,Total,post_bind]
    refine total_ofExcept (update_history_shown (hl c (by simp))) ?_
    rw [post_bind]
    refine (hcall c (by simp) _ s).imp fun x t hx => ?_
    have hbest := Decided.smallest hv hx
    generalize (if x < value then x else value) = best at hbest ⊢
    dsimp only
    split_ifs with hcut
    · exact hbest
    · exact ih (fun c hc => hl c (by simp [hc])) (fun c hc => hcall c (by simp [hc])) (.inl hbest) _ t

theorem outcome_decided (s : Finset ℕ) : Decided (outcome s) := by
  rw [outcome]
  split_ifs
  · exact .inl rfl
  · exact .inr rfl

theorem value_decided (n : ℕ) (s : Finset ℕ) : Decided ((game n).value s) := by
  refine Game.value_mem (S := {x | Decided x}) (fun q v hv => ?_) (fun q hq => ?_) s
  · rw [game_final] at hv
    split_ifs at hv
    rw [← Option.some.inj hv]
    exact outcome_decided q
  · exact (moves_nonempty hq).image _

/-- Whatever the window and the flag are, the search of a legal history returns 1 or -1. -/
theorem alpha_beta_pruning_decided (hl : Legal n hs) (hf : 9 * n < fuel + hs.length)
    (alpha beta : Value) (max_player_flag : Bool) (s : Globals) :
    Total (alpha_beta_pruning fuel (shown n hs) alpha beta max_player_flag) s
      fun x _ => Decided x := by
  induction fuel generalizing hs alpha beta max_player_flag s with
  | zero =>
    have hlen := hl.length_le
    omega
  | succ fuel ih =>
    have hchild : ∀ c ∈ (shown n hs).get_valid_actions, ∀ a b flag s,
        Total (alpha_beta_pruning fuel (shown n (hs ++ [c])) a b flag) s fun x _ => Decided x := by
      intro c hc
      refine ih (legal_action hl hc) ?_
      rw [List.length_append,List.length_singleton]
      omega
    rw [alpha_beta_pruning,Total,post_bind,post_modify]
    by_cases ht : (shown n hs).is_terminal_history = true
    · rw [if_pos ht]
      exact total_ofExcept (get_value_shown hl ht) (value_decided n _)
    · rw [if_neg ht]
      have hne := get_valid_actions_ne_nil ht
      cases max_player_flag with
      | true =>
        rw [if_pos rfl]
        exact maxLoop_decided hs beta (fun c hc => legal_action hl hc)
          (fun c hc a s => hchild c hc a beta false s) (.inr ⟨rfl,hne⟩) alpha _
      | false =>
        rw [if_neg Bool.false_ne_true]
        exact minLoop_decided hs alpha (fun c hc => legal_action hl hc)
          (fun c hc b s => hchild c hc alpha b true s) (.inr ⟨rfl,hne⟩) beta _

/-- After any legal moves the valid actions are the open cells, each once, there is one unless the game is
over, and both searches return 1 or -1. -/
theorem positions_playable (hl : Legal n hs) :
    ∃ h, History.init n (some hs) = .ok h ∧
      (h.get_valid_actions.Nodup ∧ ∀ c, c ∈ h.get_valid_actions ↔
        ∃ (i : Fin n) (j : Fin 9), c = 9 * i.val + j.val ∧ Open h i j) ∧
      (h.is_terminal_history = false → h.get_valid_actions ≠ []) ∧
      ∀ fuel, 9 * n < fuel + hs.length → ∀ s,
        (∀ alpha beta max_player_flag,
          Total (alpha_beta_pruning fuel h alpha beta max_player_flag) s fun x _ => Decided x) ∧
        Total (minimax fuel h (decide (h.current_player = 1))) s fun x _ => Decided x := by
  refine ⟨_,init_shown hl,⟨get_valid_actions_nodup _,fun c => ?_⟩,fun ht => ?_,fun fuel hf s => ⟨?_,?_⟩⟩
  · rw [mem_get_valid_actions,mem_moves_iff_open]
  · exact get_valid_actions_ne_nil (by rw [ht]; exact Bool.false_ne_true)
  · exact fun alpha beta flag => alpha_beta_pruning_decided hl hf alpha beta flag s
  · rw [current_player_shown hl]
    refine (minimax_spec hl hf s).imp fun x _ hx => ?_
    rw [hx.1]
    exact value_decided n _

/-- Two boards, with a move to the middle of the second one. -/
theorem positions_playable_middle :
    ∃ h, History.init 2 (some [13]) = .ok h ∧
      (h.get_valid_actions.Nodup ∧ ∀ c, c ∈ h.get_valid_actions ↔
        ∃ (i : Fin 2) (j : Fin 9), c = 9 * i.val + j.val ∧ Open h i j) ∧
      (h.is_terminal_history = false → h.get_valid_actions ≠ []) ∧
      ∀ fuel, 9 * 2 < fuel + [13].length → ∀ s,
        (∀ alpha beta max_player_flag,
          Total (alpha_beta_pruning fuel h alpha beta max_player_flag) s fun x _ => Decided x) ∧
        Total (minimax fuel h (decide (h.current_player = 1))) s fun x _ => Decided x :=
  positions_playable (.snoc .nil (by decide))

end ResumePointers.Notakto
