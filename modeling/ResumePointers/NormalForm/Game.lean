import ResumePointers.NormalForm.Payoffs
import Mathlib.Data.List.Nodup
import Mathlib.Data.List.Range

/-! Games in normal form, and the profiles that a player's own strategy completes. -/
namespace ResumePointers.NormalForm

variable {α : Type}

/-- `gamedata` lists the payoffs of the game `u`, profile by profile. The strategy of the first player
changes fastest, and the payoffs for a profile are those of the players in order. -/
structure Listed (strategies : List ℕ) (u : List ℕ → ℕ → α) (gamedata : List α) : Prop where
  length : gamedata.length = strategies.length * strategies.prod
  payoff : ∀ s, Digits s strategies → ∀ player < strategies.length,
    gamedata[radix s strategies * strategies.length + player]? = some (u s player)

/-- The game that a list of payoffs describes. -/
def listedGame [Inhabited α] (strategies : List ℕ) (gamedata : List α) (s : List ℕ) (player : ℕ) : α :=
  gamedata.getD (radix s strategies * strategies.length + player) default

/-- `insert` of Python's lists. -/
def insertAt (l : List ℕ) (i a : ℕ) : List ℕ := l.take i ++ a::l.drop i

/-- `gamedata[sel_index(playerno, temp1, multiplier, num_players)]`, where `temp1` is `strategyarr` with
the strategy of the player put in. -/
def cur_payoff (gamedata : List α) (playerno : ℕ) (multiplier : List ℕ) (num_players : ℕ)
    (strategyarr : List ℕ) (strategy : ℕ) : Option α := do
  let index ← sel_index playerno (insertAt strategyarr playerno strategy) multiplier num_players
  gamedata[index]?

/-- `tempplayerlist` of `main`: all players but one. -/
def opponents (num_players i : ℕ) : List ℕ := (List.range num_players).erase i

/-- The payoff of a player's strategy against the strategies of the opponents. -/
def against (u : List ℕ → ℕ → α) (player : ℕ) (others : List ℕ) (strategy : ℕ) : α :=
  u (insertAt others player strategy) player

variable {strategies others : List ℕ} {u : List ℕ → ℕ → α} {gamedata : List α} {player count t n : ℕ}

/-- Every list of the right length describes a game. -/
theorem listed_listedGame [Inhabited α] (h : gamedata.length = strategies.length * strategies.prod) :
    Listed strategies (listedGame strategies gamedata) gamedata where
  length := h
  payoff s hs player hplayer := by
    rw [listedGame,List.getD_eq_getElem?_getD,List.getElem?_eq_getElem (index_lt hs hplayer h)]
    rfl

@[simp] theorem insertAt_zero (l : List ℕ) (a : ℕ) : insertAt l 0 a = a::l := rfl

@[simp] theorem insertAt_succ (b : ℕ) (l : List ℕ) (i a : ℕ) :
    insertAt (b::l) (i + 1) a = b::insertAt l i a := rfl

theorem digits_insertAt (h : Digits others (strategies.eraseIdx player))
    (hcount : strategies[player]? = some count) (ht : t < count) :
    Digits (insertAt others player t) strategies := by
  induction strategies generalizing others player with
  | nil => cases hcount
  | cons c strategies ih =>
    cases player with
    | zero =>
      obtain rfl := Option.some.inj hcount
      exact .cons ht h
    | succ player =>
      obtain ⟨a,others,ha,hrest,rfl⟩ := List.forall₂_cons_right_iff.mp h
      exact .cons ha (ih hrest hcount)

/-- The payoff that is read is the one of the game. -/
theorem cur_payoff_eq (h : Listed strategies u gamedata) (hothers : Digits others (strategies.eraseIdx player))
    (hcount : strategies[player]? = some count) (ht : t < count) :
    cur_payoff gamedata player (multiplier strategies) strategies.length others t =
      some (against u player others t) := by
  have hdigits := digits_insertAt hothers hcount ht
  rw [cur_payoff,sel_index_eq hdigits]
  exact h.payoff _ hdigits player (List.getElem?_eq_some_iff.mp hcount).1

theorem against_mem (h : Listed strategies u gamedata) (hothers : Digits others (strategies.eraseIdx player))
    (hcount : strategies[player]? = some count) (ht : t < count) :
    against u player others t ∈ gamedata :=
  List.mem_of_getElem? (h.payoff _ (digits_insertAt hothers hcount ht) player
    (List.getElem?_eq_some_iff.mp hcount).1)

/-- The opponents can choose their first strategies. -/
theorem exists_others (hpos : ∀ c ∈ strategies, 0 < c) (player : ℕ) :
    ∃ others, Digits others (strategies.eraseIdx player) := by
  refine ⟨(strategies.eraseIdx player).map fun _ => 0,?_⟩
  rw [Digits,List.forall₂_map_left_iff,List.forall₂_same]
  exact fun c hc => hpos c (List.mem_of_mem_eraseIdx hc)

/-- What holds of a strategy against all others can be asked with its bound for each of them. -/
theorem exists_count_iff {P : List ℕ → ℕ → Prop} (hpos : ∀ c ∈ strategies, 0 < c)
    (hcount : strategies[player]? = some count) :
    (∃ c, strategies[player]? = some c ∧ t < c ∧
      ∀ others, Digits others (strategies.eraseIdx player) → P others c) ↔
    ∀ others, Digits others (strategies.eraseIdx player) → t < count ∧ P others count := by
  constructor
  · rintro ⟨c,hc,ht,hall⟩ others hothers
    obtain rfl := Option.some.inj (hc.symm.trans hcount)
    exact ⟨ht,hall others hothers⟩
  · intro hall
    obtain ⟨others,hothers⟩ := exists_others hpos player
    exact ⟨count,hcount,(hall others hothers).1,fun others hothers => (hall others hothers).2⟩

/-- The completions of the strategies chosen so far, by the next opponent's strategy. -/
theorem forall_digits_cons {P : List ℕ → Prop} {c : ℕ} {counts chosen : List ℕ} :
    (∀ a ∈ List.range c, ∀ rest, Digits rest counts → P (chosen ++ [a] ++ rest)) ↔
      ∀ rest, Digits rest (c::counts) → P (chosen ++ rest) := by
  constructor
  · intro hall whole hwhole
    obtain ⟨a,rest,ha,hrest,rfl⟩ := List.forall₂_cons_right_iff.mp hwhole
    rw [List.append_cons]
    exact hall a (List.mem_range.mpr ha) rest hrest
  · intro hall a ha rest hrest
    rw [← List.append_cons]
    exact hall _ (.cons (List.mem_range.mp ha) hrest)

theorem forall₂_eraseIdx {β γ : Type} {R : β → γ → Prop} {l : List β} {m : List γ}
    (h : List.Forall₂ R l m) (i : ℕ) : List.Forall₂ R (l.eraseIdx i) (m.eraseIdx i) := by
  induction h generalizing i with
  | nil => exact .nil
  | cons h hrest ih =>
    cases i with
    | zero => exact hrest
    | succ i => exact .cons h (ih i)

/-- The counts of the opponents are those that are left without the player's own. -/
theorem forall₂_opponents (hplayer : player < strategies.length) :
    List.Forall₂ (fun p c => strategies[p]? = some c) (opponents strategies.length player)
      (strategies.eraseIdx player) := by
  have hlen : player < (List.range strategies.length).length := by rwa [List.length_range]
  have herase := List.nodup_range.erase_getElem player hlen
  rw [List.getElem_range] at herase
  rw [opponents,herase]
  refine forall₂_eraseIdx (List.forall₂_iff_get.mpr ⟨List.length_range,fun i hi hi' => ?_⟩) player
  simp

theorem exists_range_cons (hcount : 0 < count) : ∃ l, List.range count = 0::l := by
  obtain ⟨k,rfl⟩ := Nat.exists_eq_succ_of_ne_zero hcount.ne'
  exact ⟨_,List.range_succ_eq_map⟩

/-- Each of the strategies that a loop goes through is new. -/
theorem notMem_of_nodup {seen l : List ℕ} (h : (seen ++ [t] ++ l).Nodup) : t ∉ seen := by
  have hsplit := (List.nodup_append'.mp h).1
  exact fun hmem => (List.nodup_append'.mp hsplit).2.2 hmem (List.mem_singleton_self t)

end ResumePointers.NormalForm
