import ResumePointers.TicTacToe.Game
import ResumePointers.Lib.Plans

/-! Backward induction finds the values of all histories, and the strategies that it records are a
subgame-perfect equilibrium. -/
namespace ResumePointers.TicTacToe

open ResumePointers.Game

variable {d d' : Dicts} {p q : Position} {h g : History} {a : Fin 9}

theorem key_injective : Function.Injective key := by
  intro h g heq
  have hdigit : Function.Injective fun a : Fin 9 => Nat.digitChar a.val := by
    intro a b hab
    revert a b
    decide
  exact List.map_injective_iff.mpr hdigit (String.ofList_injective heq)

/-- The dictionary of the player who moves after `h`. -/
def Dicts.of (d : Dicts) (h : History) : String → Option (Fin 9 → ℕ) :=
  if h.length % 2 = 0 then d.strategy_dict_x else d.strategy_dict_o

theorem current_player_eq (hl : h.length < 9) :
    current_player h = if h.length % 2 = 0 then some 'x' else some 'o' := by
  rw [current_player,if_pos hl,mark]
  split <;> rfl

theorem record_of (hl : h.length < 9) (a : Fin 9) (d : Dicts) (g : History) :
    (record h a d).of g (key g) = if g = h then some (only a) else d.of g (key g) := by
  have hkey : g ≠ h → key g ≠ key h := fun hne he => hne (key_injective he)
  rw [record,current_player_eq hl]
  by_cases hgh : g = h
  · subst hgh
    by_cases hp : g.length % 2 = 0
    · simp [hp,Dicts.of]
    · simp [hp,Dicts.of]
  · rw [if_neg hgh]
    have hk := hkey hgh
    by_cases hp : h.length % 2 = 0
    · by_cases hq : g.length % 2 = 0
      · simp [hp,hq,Dicts.of,Function.update_of_ne hk]
      · simp [hp,hq,Dicts.of]
    · by_cases hq : g.length % 2 = 0
      · simp [hp,hq,Dicts.of]
      · simp [hp,hq,Dicts.of,Function.update_of_ne hk]

/-- `a` keeps the value of `p`. -/
def Best (p : Position) (a : Fin 9) : Prop :=
  ∃ q ∈ nexts p, q.1 = p.1 ++ [a] ∧ game.value q = game.value p

/-- Every strategy that is recorded is a best action. -/
def Good (d : Dicts) : Prop :=
  ∀ p : Position, is_terminal_history p.1 = false → ∀ f, d.of p.1 (key p.1) = some f →
    ∃ a, f = only a ∧ Best p a

/-- All histories from `h` on have a strategy. -/
def Covers (d : Dicts) (h : History) : Prop :=
  ∀ q : Position, h <+: q.1 → is_terminal_history q.1 = false → d.of q.1 (key q.1) ≠ none

/-- No strategy is lost. -/
def Keeps (d d' : Dicts) : Prop := ∀ h, d.of h (key h) ≠ none → d'.of h (key h) ≠ none

theorem Keeps.refl (d : Dicts) : Keeps d d := fun _ h => h

theorem Keeps.trans {d₁ d₂ d₃ : Dicts} (h : Keeps d₁ d₂) (h' : Keeps d₂ d₃) : Keeps d₁ d₃ :=
  fun g hg => h' g (h g hg)

theorem Covers.mono (hc : Covers d h) (hk : Keeps d d') : Covers d' h :=
  fun q hq ht => hk q.1 (hc q hq ht)

/-- What `p` is worth for the player who moved last. -/
def gain (p : Position) : SignType :=
  if p.1.length % 2 = 0 then -game.value p else game.value p

theorem neg_le_neg_sign {u v : SignType} (h : u ≤ v) : -v ≤ -u := by
  revert u v
  decide

/-- The loop ends with the best of the utilities. -/
theorem foldl_better (U : Fin 9 → SignType) {as : List (Fin 9)} (hne : as ≠ []) :
    ∃ a ∈ as, as.foldl (fun best b => better best (U b) b) none = some (U a,a) ∧
      ∀ b ∈ as, U b ≤ U a := by
  induction as using List.reverseRecOn with
  | nil => exact (hne rfl).elim
  | append_singleton as c ih =>
    rw [List.foldl_append]
    rcases eq_or_ne as [] with rfl | has
    · exact ⟨c,by simp,rfl,by simp⟩
    · obtain ⟨a,ha,hfold,hmax⟩ := ih has
      rw [hfold]
      simp only [List.foldl_cons,List.foldl_nil,better]
      split
      · rename_i hlt
        refine ⟨c,by simp,rfl,fun b hb => ?_⟩
        rcases List.mem_append.mp hb with hb | hb
        · exact (hmax b hb).trans hlt.le
        · rw [List.mem_singleton.mp hb]
      · rename_i hle
        refine ⟨a,List.mem_append_left _ ha,rfl,fun b hb => ?_⟩
        rcases List.mem_append.mp hb with hb | hb
        · exact hmax b hb
        · rw [List.mem_singleton.mp hb]
          exact not_lt.mp hle

theorem utility_spec (ht : is_terminal_history p.1 = true) (d : Dicts) :
    Total (get_utility_given_terminal_history p.1) d fun u d' => u = gain p ∧ d' = d := by
  have hvalue : game.value p = payoff p.1 := value_final (final_of_terminal ht)
  rw [get_utility_given_terminal_history,gain,hvalue,payoff]
  obtain ⟨h,hl⟩ := p
  cases hw : is_win h with
  | none =>
    have hdraw : is_draw h = true := by simpa [is_terminal_history,hw] using ht
    simp only [hdraw,if_true]
    exact ⟨by split <;> rfl,rfl⟩
  | some w =>
    dsimp only
    refine ⟨?_,rfl⟩
    cases hl with
    | nil => cases hw
    | @snoc g a hl' ht' _ =>
      obtain rfl := is_win_snoc ht' hw
      have hturn : some (mark g.length) ≠ current_player (g ++ [a]) := by
        rw [current_player,List.length_append,List.length_singleton]
        split
        · rcases Nat.mod_two_eq_zero_or_one g.length with hm | hm
          · simp [mark,hm,Nat.add_mod]
          · simp [mark,hm,Nat.add_mod]
        · exact Option.some_ne_none _
      rw [if_neg hturn,List.length_append,List.length_singleton]
      rcases Nat.mod_two_eq_zero_or_one g.length with hm | hm
      · simp [mark,hm,Nat.add_mod]
      · simp [mark,hm,Nat.add_mod]

/-- What a call for `p` leaves. -/
structure Solved (d d' : Dicts) (h : History) : Prop where
  good : Good d'
  keeps : Keeps d d'
  covers : Covers d' h

section Step

variable {fuel : ℕ}

/-- The position after an action. -/
def child (p : Position) (ht : is_terminal_history p.1 = false) (ha : get_board p.1 a = '0') :
    Position := ⟨p.1 ++ [a],.snoc p.2 ht ha⟩

/-- The utilities that the loop compares. -/
def util (p : Position) (ht : is_terminal_history p.1 = false) (a : Fin 9) : SignType :=
  if ha : get_board p.1 a = '0' then gain (child p ht ha) else 0

theorem loop_spec (ht : is_terminal_history p.1 = false)
    (hrec : ∀ (a : Fin 9) (ha : get_board p.1 a = '0') (d : Dicts), Good d →
      Total (backward_induction fuel (p.1 ++ [a])) d fun u d' =>
        u = gain (child p ht ha) ∧ Solved d d' (p.1 ++ [a]))
    {as : List (Fin 9)} (has : ∀ a ∈ as, get_board p.1 a = '0') (best : Option (SignType × Fin 9))
    (d : Dicts) (hd : Good d) :
    Total (as.foldlM (fun best action => do
        let util_at_child ← backward_induction fuel (p.1 ++ [action])
        pure (better best util_at_child action)) best) d fun best' d' =>
      best' = as.foldl (fun best b => better best (util p ht b) b) best ∧ Good d' ∧ Keeps d d' ∧
        ∀ a ∈ as, Covers d' (p.1 ++ [a]) := by
  induction as generalizing best d with
  | nil => exact ⟨rfl,hd,.refl d,by simp⟩
  | cons a as ih =>
    have ha := has a (List.mem_cons_self ..)
    rw [List.foldlM_cons,Total,post_bind,post_bind]
    refine (hrec a ha d hd).imp fun u d₁ ⟨hu,hs⟩ => ?_
    rw [post_pure]
    refine (ih (fun b hb => has b (List.mem_cons_of_mem _ hb)) _ d₁ hs.good).imp
      fun best' d' ⟨hb,hg,hk,hc⟩ => ?_
    refine ⟨?_,hg,hs.keeps.trans hk,fun b hb' => ?_⟩
    · rw [hb,List.foldl_cons,util,dif_pos ha,hu]
    · rcases List.mem_cons.mp hb' with rfl | hb'
      · exact hs.covers.mono hk
      · exact hc b hb'

/-- The best of the utilities is that of a best action, and the value of the position. -/
theorem best_of_max (ht : is_terminal_history p.1 = false) (ha : get_board p.1 a = '0')
    (hmax : ∀ b ∈ get_valid_actions p.1, util p ht b ≤ util p ht a) :
    Best p a ∧ -util p ht a = gain p := by
  have hfinal : game.final p = none := final_eq_none.mpr ht
  have hmem : child p ht ha ∈ nexts p := mem_nexts.mpr ⟨ht,a,ha,rfl⟩
  have hutil : ∀ b (hb : get_board p.1 b = '0'), util p ht b =
      if p.1.length % 2 = 0 then game.value (child p ht hb) else -game.value (child p ht hb) := by
    intro b hb
    rw [util,dif_pos hb,gain]
    have hlen : (child p ht hb).1.length = p.1.length + 1 := by simp [child]
    rw [hlen]
    split_ifs <;> first | rfl | omega
  have hle : ∀ q ∈ nexts p, ∃ b, ∃ hb : get_board p.1 b = '0', q = child p ht hb ∧
      util p ht b ≤ util p ht a := by
    intro q hq
    obtain ⟨-,b,hb,he⟩ := mem_nexts.mp hq
    exact ⟨b,hb,Subtype.ext he,hmax b (mem_get_valid_actions.mpr hb)⟩
  have hvalue : game.value (child p ht ha) = game.value p := by
    by_cases hp : p.1.length % 2 = 0
    · rw [value_max hfinal (decide_eq_true hp)]
      refine le_antisymm (Finset.le_sup hmem) (Finset.sup_le fun q hq => ?_)
      obtain ⟨b,hb,rfl,hub⟩ := hle q hq
      rwa [hutil b hb,hutil a ha,if_pos hp,if_pos hp] at hub
    · rw [value_min hfinal (decide_eq_false hp)]
      refine le_antisymm (Finset.le_inf fun q hq => ?_) (Finset.inf_le hmem)
      obtain ⟨b,hb,rfl,hub⟩ := hle q hq
      rw [hutil b hb,hutil a ha,if_neg hp,if_neg hp] at hub
      simpa using neg_le_neg_sign hub
  refine ⟨⟨_,hmem,rfl,hvalue⟩,?_⟩
  rw [hutil a ha,gain,hvalue]
  split_ifs <;> simp

theorem record_solved (ht : is_terminal_history p.1 = false) (hb : Best p a) (hd : Good d)
    (hc : ∀ b ∈ get_valid_actions p.1, Covers d (p.1 ++ [b])) :
    Solved d (record p.1 a d) p.1 := by
  have hof := record_of (p.2.length_lt ht) a d
  refine ⟨fun q hq f hf => ?_,fun g hg => ?_,fun q hpre hq => ?_⟩
  · rw [hof] at hf
    split at hf
    · rename_i he
      obtain rfl : q = p := Subtype.ext he
      exact ⟨a,(Option.some.inj hf).symm,hb⟩
    · exact hd q hq f hf
  · rw [hof]
    split
    · simp
    · exact hg
  · rw [hof]
    split
    · simp
    · rename_i hne
      obtain ⟨r,hr⟩ := hpre
      cases r with
      | nil => exact (hne (by simpa using hr.symm)).elim
      | cons b r =>
        have hl : Legal (p.1 ++ [b] ++ r) := by
          rw [List.append_assoc,List.singleton_append,hr]
          exact q.2
        exact hc b (mem_get_valid_actions.mpr hl.of_append.of_snoc.2.2) q ⟨r,by simpa using hr⟩ hq

end Step

theorem backward_induction_spec {fuel : ℕ} (p : Position) (hfuel : (empties p.1).card < fuel)
    (d : Dicts) (hd : Good d) :
    Total (backward_induction fuel p.1) d fun u d' => u = gain p ∧ Solved d d' p.1 := by
  induction fuel generalizing p d with
  | zero => omega
  | succ fuel ih =>
    rw [backward_induction]
    split
    · rename_i ht
      refine (utility_spec ht d).imp fun u d' => ?_
      rintro ⟨hu,rfl⟩
      refine ⟨hu,hd,.refl _,fun q hpre hq => ?_⟩
      obtain ⟨r,hr⟩ := hpre
      cases r with
      | nil =>
        rw [← hr,List.append_nil,ht] at hq
        cases hq
      | cons b r =>
        have hl : Legal (p.1 ++ [b] ++ r) := by
          rw [List.append_assoc,List.singleton_append,hr]
          exact q.2
        rw [hl.of_append.of_snoc.2.1] at ht
        cases ht
    · rename_i hnt
      have ht : is_terminal_history p.1 = false := by simpa using hnt
      have hrec : ∀ (a : Fin 9) (ha : get_board p.1 a = '0') (d : Dicts), Good d →
          Total (backward_induction fuel (p.1 ++ [a])) d fun u d' =>
            u = gain (child p ht ha) ∧ Solved d d' (p.1 ++ [a]) := by
        intro a ha d hd
        refine ih (child p ht ha) ?_ d hd
        have := game.size_lt (mem_nexts.mpr ⟨ht,a,ha,rfl⟩ : child p ht ha ∈ nexts p)
        exact lt_of_lt_of_le this (Nat.le_of_lt_succ hfuel)
      rw [Total,post_bind]
      refine (loop_spec ht hrec (fun a ha => mem_get_valid_actions.mp ha) none d hd).imp
        fun best d₁ ⟨hbest,hg,hk,hc⟩ => ?_
      obtain ⟨b,hb⟩ := exists_empty ht
      obtain ⟨a,ha,hfold,hmax⟩ := foldl_better (util p ht)
        (List.ne_nil_of_mem (mem_get_valid_actions.mpr (mem_empties.mp hb)))
      rw [hbest,hfold]
      obtain ⟨hba,hu⟩ := best_of_max ht (mem_get_valid_actions.mp ha) hmax
      have hs := record_solved ht hba hg hc
      exact ⟨hu,hs.good,hk.trans hs.keeps,hs.covers⟩

/-- A plan of `x` that does what the dictionary says. -/
def FollowsX (d : Dicts) (σ : Plan game) : Prop :=
  ∀ p : Position, is_terminal_history p.1 = false → p.1.length % 2 = 0 →
    ∃ a, d.strategy_dict_x (key p.1) = some (only a) ∧ (σ.move p).1 = p.1 ++ [a]

/-- A plan of `o` that does what the dictionary says. -/
def FollowsO (d : Dicts) (τ : Plan game) : Prop :=
  ∀ p : Position, is_terminal_history p.1 = false → ¬ p.1.length % 2 = 0 →
    ∃ a, d.strategy_dict_o (key p.1) = some (only a) ∧ (τ.move p).1 = p.1 ++ [a]

theorem only_injective : Function.Injective only := by
  intro a b hab
  have := congrFun hab a
  by_contra hne
  simp [only,hne] at this

/-- A plan that moves as the dictionary says keeps the value. -/
theorem Good.keeps (hd : Good d) (ht : is_terminal_history p.1 = false)
    (ha : d.of p.1 (key p.1) = some (only a)) (hq : q.1 = p.1 ++ [a]) :
    game.value q = game.value p := by
  obtain ⟨b,hb,r,-,hr,hv⟩ := hd p ht _ ha
  obtain rfl := only_injective hb
  rw [← hv]
  exact congrArg game.value (Subtype.ext (hq.trans hr.symm))

theorem Good.keepsMax (hd : Good d) {σ : Plan game} (hσ : FollowsX d σ) : σ.KeepsMax := by
  intro p hf _ hp
  have ht := final_eq_none.mp hf
  have hp' : p.1.length % 2 = 0 := of_decide_eq_true hp
  obtain ⟨a,ha,hm⟩ := hσ p ht hp'
  exact hd.keeps ht (by rw [Dicts.of,if_pos hp',ha]) hm

theorem Good.keepsMin (hd : Good d) {τ : Plan game} (hτ : FollowsO d τ) : τ.KeepsMin := by
  intro p hf _ hp
  have ht := final_eq_none.mp hf
  have hp' : ¬ p.1.length % 2 = 0 := of_decide_eq_false hp
  obtain ⟨a,ha,hm⟩ := hτ p ht hp'
  exact hd.keeps ht (by rw [Dicts.of,if_neg hp',ha]) hm

/-- A plan that follows both dictionaries. -/
theorem exists_plan (hd : Good d) (hc : Covers d []) :
    ∃ σ : Plan game, FollowsX d σ ∧ FollowsO d σ := by
  have hmove : ∀ p : Position, ∃ q : Position, ((game.next p).Nonempty → q ∈ game.next p) ∧
      (is_terminal_history p.1 = false →
        ∃ a, d.of p.1 (key p.1) = some (only a) ∧ q.1 = p.1 ++ [a]) := by
    intro p
    cases ht : is_terminal_history p.1 with
    | true =>
      refine ⟨p,fun ⟨q,hq⟩ => ?_,nofun⟩
      rw [(mem_nexts.mp hq).1] at ht
      cases ht
    | false =>
      obtain ⟨f,hf⟩ := Option.ne_none_iff_exists'.mp (hc p List.nil_prefix ht)
      obtain ⟨a,rfl,q,hq,he,-⟩ := hd p ht f hf
      exact ⟨q,fun _ => hq,fun _ => ⟨a,hf,he⟩⟩
  choose move hlegal hfollow using hmove
  refine ⟨⟨move,hlegal⟩,fun p ht hp => ?_,fun p ht hp => ?_⟩
  · obtain ⟨a,ha,he⟩ := hfollow p ht
    exact ⟨a,by rwa [Dicts.of,if_pos hp] at ha,he⟩
  · obtain ⟨a,ha,he⟩ := hfollow p ht
    exact ⟨a,by rwa [Dicts.of,if_neg hp] at ha,he⟩

theorem exists_solved {fuel : ℕ} (hfuel : 9 < fuel) (hd : Good d) :
    ∃ u d', backward_induction fuel [] d = .ok u d' ∧ Solved d d' [] := by
  have hcard : (empties []).card < fuel := hfuel
  obtain ⟨u,d',hrun,-,hs⟩ := (backward_induction_spec ⟨[],.nil⟩ hcard d hd).exists_ok
  exact ⟨u,d',hrun,hs⟩

/-- `solve_tictactoe` returns, its dictionaries have a legal pure strategy for every history that is not
finished, and plans that follow them are a subgame-perfect equilibrium. -/
theorem solve_tictactoe_equilibrium : ∃ u d,
    solve_tictactoe ⟨fun _ => none,fun _ => none⟩ = .ok u d ∧
      (∃ σ, FollowsX d σ) ∧ (∃ τ, FollowsO d τ) ∧
      ∀ σ τ, FollowsX d σ → FollowsO d τ → SubgamePerfect σ τ := by
  have hempty : Good ⟨fun _ => none,fun _ => none⟩ := fun p _ f hf => by simp [Dicts.of] at hf
  obtain ⟨u,d,hrun,hs⟩ := exists_solved (by decide : 9 < 10) hempty
  obtain ⟨σ,hx,ho⟩ := exists_plan hs.good hs.covers
  exact ⟨u,d,hrun,⟨σ,hx⟩,⟨σ,ho⟩,fun σ τ hσ hτ => subgamePerfect (hs.good.keepsMax hσ)
    (hs.good.keepsMin hτ)⟩

end ResumePointers.TicTacToe
