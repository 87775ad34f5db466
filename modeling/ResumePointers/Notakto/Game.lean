import ResumePointers.Notakto.History
import ResumePointers.Lib.Minimax

/-! The game of Notakto on any number of boards: the squares that are marked, the moves, and who
wins. A `History` of legal moves shows its position, and nothing more than its position is in
the string of its boards. -/
namespace ResumePointers.Notakto

/-- A line of board `i` is completed. -/
def Dead (s : Finset ℕ) (i : ℕ) : Prop :=
  ∃ l ∈ lines, 9 * i + l.1 ∈ s ∧ 9 * i + l.2.1 ∈ s ∧ 9 * i + l.2.2 ∈ s

instance (s : Finset ℕ) (i : ℕ) : Decidable (Dead s i) :=
  inferInstanceAs (Decidable
    (∃ l ∈ lines, 9 * i + l.1 ∈ s ∧ 9 * i + l.2.1 ∈ s ∧ 9 * i + l.2.2 ∈ s))

/-- The empty squares of the boards without a completed line. -/
def moves (n : ℕ) (s : Finset ℕ) : Finset ℕ :=
  (Finset.range (9 * n)).filter fun c => c ∉ s ∧ ¬ Dead s (c / 9)

theorem mem_moves {n c : ℕ} {s : Finset ℕ} :
    c ∈ moves n s ↔ c < 9 * n ∧ c ∉ s ∧ ¬ Dead s (c / 9) := by
  rw [moves,Finset.mem_filter,Finset.mem_range]

/-- The value of a finished game: player 1 wins when it is player 1 to move. -/
def outcome (s : Finset ℕ) : Value := if s.card % 2 = 0 then (1 : ℚ) else (-1 : ℚ)

/-- Player 1 maximizes and moves when the number of marks is even; who completes the last line
loses. -/
def game (n : ℕ) : Game (Finset ℕ) Value where
  final s := if ∀ i < n, Dead s i then some (outcome s) else none
  maximizes s := s.card % 2 = 0
  next s := (moves n s).image fun c => insert c s
  size s := (Finset.range (9 * n) \ s).card
  size_lt h := by
    obtain ⟨c,hc,rfl⟩ := Finset.mem_image.mp h
    obtain ⟨hlt,hnot,-⟩ := mem_moves.mp hc
    refine Finset.card_lt_card (Finset.ssubset_iff_of_subset ?_ |>.mpr ⟨c,?_,?_⟩)
    · exact Finset.sdiff_subset_sdiff subset_rfl (Finset.subset_insert _ _)
    · simp [hlt,hnot]
    · simp

theorem game_final (n : ℕ) (s : Finset ℕ) :
    (game n).final s = if ∀ i < n, Dead s i then some (outcome s) else none := rfl

theorem game_next (n : ℕ) (s : Finset ℕ) :
    (game n).next s = (moves n s).image fun c => insert c s := rfl

/-- A history of moves, each legal when it was made. -/
inductive Legal (n : ℕ) : List ℕ → Prop
  | nil : Legal n []
  | snoc {hs : List ℕ} {c : ℕ} (h : Legal n hs) (hc : c ∈ moves n hs.toFinset) :
    Legal n (hs ++ [c])

variable {n c : ℕ} {hs : List ℕ} {s t : Finset ℕ}

theorem toFinset_snoc (hs : List ℕ) (c : ℕ) : (hs ++ [c]).toFinset = insert c hs.toFinset := by
  ext a
  simp

theorem Legal.card (h : Legal n hs) : hs.toFinset.card = hs.length := by
  induction h with
  | nil => rfl
  | snoc h hc ih =>
    rw [toFinset_snoc,Finset.card_insert_of_notMem (mem_moves.mp hc).2.1,ih,List.length_append,
      List.length_singleton]

theorem Legal.subset (h : Legal n hs) : hs.toFinset ⊆ Finset.range (9 * n) := by
  induction h with
  | nil => simp
  | snoc h hc ih =>
    rw [toFinset_snoc]
    exact Finset.insert_subset (Finset.mem_range.mpr (mem_moves.mp hc).1) ih

theorem Legal.length_le (h : Legal n hs) : hs.length ≤ 9 * n := by
  rw [← h.card,← Finset.card_range (9 * n)]
  exact Finset.card_le_card h.subset

theorem Legal.even_iff (h : Legal n hs) :
    (game n).maximizes hs.toFinset = decide (hs.length % 2 = 0) := by
  rw [← h.card]
  rfl

/-- What the boards look like with the squares of `s` marked. -/
def marked (n : ℕ) (s : Finset ℕ) : Fin n → Board :=
  fun i j => if 9 * i.val + j.val ∈ s then 'x' else '0'

theorem marked_eq_zero (i : Fin n) (j : Fin 9) :
    marked n s i j = '0' ↔ 9 * i.val + j.val ∉ s := by
  rw [marked]
  split_ifs with h <;> simp [h]

theorem play_marked (hc : c < 9 * n) :
    play (marked n s) c = .ok (marked n (insert c s)) := by
  have hlt : c / 9 < n := by omega
  rw [play,dif_pos hlt]
  dsimp only
  congr 1
  funext i j
  by_cases hi : i = ⟨c / 9,hlt⟩
  · subst hi
    rw [Function.update_self]
    by_cases hj : j = ⟨c % 9,Nat.mod_lt _ (by decide)⟩
    · subst hj
      rw [Function.update_self,marked,if_pos]
      exact Finset.mem_insert.mpr (.inl (Nat.div_add_mod c 9))
    · have hne : ¬ 9 * (c / 9) + j.val = c := fun he => hj (Fin.ext (by simp only; omega))
      simp only [Function.update_of_ne hj,marked,Finset.mem_insert,hne,false_or]
  · have hne : ¬ 9 * i.val + j.val = c := fun he => hi (Fin.ext (by simp only; omega))
    simp only [Function.update_of_ne hi,marked,Finset.mem_insert,hne,false_or]

theorem get_boards_marked (h : hs.toFinset ⊆ Finset.range (9 * n)) :
    get_boards n hs = .ok (marked n hs.toFinset) := by
  induction hs using List.reverseRecOn with
  | nil => rfl
  | append_singleton hs c ih =>
    rw [toFinset_snoc,Finset.insert_subset_iff,Finset.mem_range] at h
    have hs' := ih h.2
    rw [get_boards] at hs' ⊢
    rw [List.foldlM_append,hs',toFinset_snoc]
    exact (bind_pure _).trans (play_marked h.1)

theorem same_marked (s : Finset ℕ) (i : Fin n) (j k l : Fin 9) :
    same (marked n s i) j k l = true ↔
      9 * i.val + j ∈ s ∧ 9 * i.val + k ∈ s ∧ 9 * i.val + l ∈ s := by
  simp only [same,marked]
  by_cases hj : 9 * i.val + j ∈ s <;> by_cases hk : 9 * i.val + k ∈ s <;>
    by_cases hl : 9 * i.val + l ∈ s <;> simp [hj,hk,hl]

theorem is_board_win_marked (s : Finset ℕ) (i : Fin n) :
    is_board_win (marked n s i) = true ↔ Dead s i := by
  rw [is_board_win_eq,List.any_eq_true]
  exact exists_congr fun l => and_congr_right fun _ => same_marked ..

/-- The `History` of the moves `hs`. -/
def shown (n : ℕ) (hs : List ℕ) : History n :=
  ⟨hs,marked n hs.toFinset,check_active_boards (marked n hs.toFinset),get_current_player hs⟩

theorem init_shown (h : Legal n hs) : History.init n (some hs) = .ok (shown n hs) := by
  rw [History.init,get_boards_marked h.subset]
  rfl

theorem update_history_shown (h : Legal n (hs ++ [c])) :
    (shown n hs).update_history c = .ok (shown n (hs ++ [c])) := by
  rw [History.update_history,shown,get_boards_marked h.subset]
  rfl

theorem current_player_shown (h : Legal n hs) :
    decide ((shown n hs).current_player = 1) = (game n).maximizes hs.toFinset := by
  rw [h.even_iff,shown,get_current_player]
  split_ifs with h' <;> simp [h']

theorem check_active_boards_eq_zero (s : Finset ℕ) (i : Fin n) :
    check_active_boards (marked n s) i = 0 ↔ Dead s i := by
  rw [← is_board_win_marked,check_active_boards]
  split_ifs with h <;> simp [h]

theorem is_win_shown (hs : List ℕ) : (shown n hs).is_win =
    if ∀ i < n, Dead hs.toFinset i then (true,some (get_current_player hs)) else (false,none) := by
  have hiff : (List.ofFn (check_active_boards (shown n hs).boards)).sum = 0 ↔
      ∀ i < n, Dead hs.toFinset i := by
    rw [List.sum_eq_zero_iff_forall_eq_nat,List.forall_mem_ofFn_iff]
    simp only [shown,check_active_boards_eq_zero]
    exact ⟨fun h i hi => h ⟨i,hi⟩,fun h i => h i i.2⟩
  rw [History.is_win,if_congr hiff rfl rfl]
  rfl

theorem is_terminal_shown (hs : List ℕ) :
    (shown n hs).is_terminal_history = ((game n).final hs.toFinset).isSome := by
  rw [History.is_terminal_history,is_win_shown,game_final]
  split_ifs <;> rfl

/-- A terminal history has the value of the game. -/
theorem get_value_shown (h : Legal n hs)
    (ht : (shown n hs).is_terminal_history = true) :
    (shown n hs).get_value_given_terminal_history = .ok ((game n).value hs.toFinset) := by
  rw [is_terminal_shown] at ht
  obtain ⟨v,hv⟩ := Option.isSome_iff_exists.mp ht
  rw [Game.value_final hv,History.get_value_given_terminal_history,is_win_shown]
  rw [game_final] at hv
  by_cases hdead : ∀ i < n, Dead hs.toFinset i
  · rw [if_pos hdead] at hv ⊢
    rw [← Option.some.inj hv,outcome,h.card,get_current_player]
    by_cases heven : hs.length % 2 = 0
    · rw [if_pos heven,if_pos heven]
      rfl
    · rw [if_neg heven,if_neg heven]
      rfl
  · rw [if_neg hdead] at hv
    cases hv

theorem mem_get_valid_actions (hs : List ℕ) :
    c ∈ (shown n hs).get_valid_actions ↔ c ∈ moves n hs.toFinset := by
  -- the three filters only sort the actions: every action is in one of them
  have hsort (l centers corners : List ℕ) : (c ∈ l.filter (fun a => a ∈ centers) ++
      l.filter (fun a => a ∈ corners) ++
      l.filter (fun a => ¬ (a ∈ corners ∨ a ∈ centers))) ↔ c ∈ l := by
    simp only [List.mem_append,List.mem_filter,decide_eq_true_eq]
    tauto
  rw [History.get_valid_actions,hsort,List.mem_flatMap,mem_moves]
  constructor
  · rintro ⟨i,-,hi⟩
    have hdead := check_active_boards_eq_zero hs.toFinset i
    split_ifs at hi with hstat
    · obtain ⟨j,hj,rfl⟩ := List.mem_map.mp hi
      rw [List.mem_filter,decide_eq_true_eq] at hj
      have hempty := (marked_eq_zero i j).mp hj.2
      have hdiv : (i.val * 9 + j.val) / 9 = i.val := by omega
      rw [Nat.mul_comm] at hempty
      rw [hdiv]
      exact ⟨by omega,hempty,fun hd => hstat (hdead.mpr hd)⟩
    · exact absurd hi List.not_mem_nil
  · rintro ⟨hlt,hnot,hdead⟩
    have hstat : (shown n hs).active_board_stats ⟨c / 9,by omega⟩ ≠ 0 := fun h =>
      hdead ((check_active_boards_eq_zero hs.toFinset ⟨c / 9,by omega⟩).mp h)
    refine ⟨⟨c / 9,by omega⟩,List.mem_finRange _,?_⟩
    rw [if_pos hstat,List.mem_map]
    have hc : c / 9 * 9 + c % 9 = c := by omega
    refine ⟨⟨c % 9,Nat.mod_lt _ (by decide)⟩,?_,hc⟩
    refine List.mem_filter.mpr ⟨List.mem_finRange _,decide_eq_true ((marked_eq_zero _ _).mpr ?_)⟩
    rw [Nat.mul_comm,hc]
    exact hnot

theorem get_boards_str_shown (hs : List ℕ) : (shown n hs).get_boards_str =
    String.ofList ((List.range (9 * n)).map fun c => if c ∈ hs.toFinset then 'x' else '0') := by
  have hrange (n : ℕ) (f : ℕ → Char) : ((List.range n).flatMap fun i =>
      (List.finRange 9).map fun j => f (9 * i + j.val)) = (List.range (9 * n)).map f := by
    induction n with
    | zero => rfl
    | succ n ih =>
      rw [List.range_succ,List.flatMap_append,ih,Nat.mul_add,List.range_add,List.map_append]
      simp [List.range,List.range.loop,List.finRange]
  rw [History.get_boards_str,← hrange,← List.map_coe_finRange_eq_range,List.flatMap_map]
  rfl

/-- The string of the boards tells the number of boards and the squares that are marked. -/
theorem get_boards_str_inj {m : ℕ} {gs : List ℕ} (hh : Legal n hs) (hg : Legal m gs)
    (h : (shown n hs).get_boards_str = (shown m gs).get_boards_str) :
    n = m ∧ hs.toFinset = gs.toFinset := by
  rw [get_boards_str_shown,get_boards_str_shown,String.ofList_inj] at h
  have hn : n = m := by
    have := congrArg List.length h
    simp only [List.length_map,List.length_range] at this
    omega
  subst hn
  refine ⟨rfl,Finset.ext fun c => ?_⟩
  by_cases hc : c < 9 * n
  · have := List.map_inj_left.mp h c (List.mem_range.mpr hc)
    by_cases h₁ : c ∈ hs.toFinset <;> by_cases h₂ : c ∈ gs.toFinset <;> simp_all
  · have hout {l : List ℕ} (hl : Legal n l) : c ∉ l.toFinset := fun hm =>
      hc (Finset.mem_range.mp (hl.subset hm))
    exact iff_of_false (hout hh) (hout hg)

theorem legal_action (h : Legal n hs) (hc : c ∈ (shown n hs).get_valid_actions) :
    Legal n (hs ++ [c]) :=
  h.snoc ((mem_get_valid_actions hs).mp hc)

theorem toFinset_get_valid_actions (hs : List ℕ) :
    (shown n hs).get_valid_actions.toFinset = moves n hs.toFinset := by
  ext c
  rw [List.mem_toFinset,mem_get_valid_actions]

theorem Legal.maximizes_snoc (h : Legal n hs) (h' : Legal n (hs ++ [c])) :
    (game n).maximizes (hs ++ [c]).toFinset = !(game n).maximizes hs.toFinset := by
  rw [h.even_iff,h'.even_iff,List.length_append,List.length_singleton]
  rcases Nat.mod_two_eq_zero_or_one hs.length with h | h <;> simp [h,Nat.add_mod]

/-- The value of the position after one more move. -/
noncomputable def after (n : ℕ) (hs : List ℕ) (c : ℕ) : Value :=
  (game n).value (insert c hs.toFinset)

theorem final_none (ht : ¬ (shown n hs).is_terminal_history = true) :
    (game n).final hs.toFinset = none := by
  rw [is_terminal_shown,Bool.not_eq_true,Option.isSome_eq_false_iff,Option.isNone_iff_eq_none] at ht
  exact ht

theorem value_shown_max (ht : ¬ (shown n hs).is_terminal_history = true)
    (hm : (game n).maximizes hs.toFinset = true) : (game n).value hs.toFinset =
      ⊥ ⊔ (shown n hs).get_valid_actions.toFinset.sup (after n hs) := by
  rw [Game.value_max (final_none ht) hm,game_next,Finset.sup_image,toFinset_get_valid_actions,
    bot_sup_eq]
  rfl

theorem value_shown_min (ht : ¬ (shown n hs).is_terminal_history = true)
    (hm : (game n).maximizes hs.toFinset = false) : (game n).value hs.toFinset =
      ⊤ ⊓ (shown n hs).get_valid_actions.toFinset.inf (after n hs) := by
  rw [Game.value_min (final_none ht) hm,game_next,Finset.inf_image,toFinset_get_valid_actions,
    top_inf_eq]
  rfl

end ResumePointers.Notakto
