import ResumePointers.NormalForm.Game
import Mathlib.Data.List.Dedup
import Mathlib.Data.List.Sort
import Mathlib.Tactic.Common

/-! `find_weakly_dominant_eq` of `game_theory_algos/normal_form/q1.py`. -/
namespace ResumePointers.NormalForm

/-- `list(set(a) & set(b))`. Sets are not ordered: `order` is the order in which they are listed. -/
def intersect (order : List ℤ → List ℤ) (a b : List ℤ) : List ℤ := order (a.filter (· ∈ b)).dedup

/-- The loop over the player's own strategies. -/
def weakLoop (cur_payoff : ℕ → Option ℤ) : List ℕ → ℤ → List ℤ → Option (ℤ × List ℤ)
  | [],max_payoff,max_index => some (max_payoff,max_index)
  | strategy::strategies,max_payoff,max_index => do
    let payoff ← cur_payoff strategy
    if max_payoff < payoff then weakLoop cur_payoff strategies payoff [(strategy : ℤ)]
    else if max_payoff = payoff then
      weakLoop cur_payoff strategies max_payoff (max_index ++ [(strategy : ℤ)])
    else weakLoop cur_payoff strategies max_payoff max_index

/-- What is returned with the equilibrium indices: the first of them. -/
def weakResult (maxsize : ℤ) (eqindex : List ℤ) : ℤ × List ℤ :=
  match eqindex with
  | [] => (-maxsize,[])
  | i::rest => (i,i::rest)

/-- The branch without remaining players. `maxsize` is `sys.maxsize`. -/
def weakLeaf (maxsize : ℤ) (order : List ℤ → List ℤ) (cur_payoff : ℕ → Option ℤ) (count : ℕ)
    (eqindex : List ℤ) : Option (ℤ × List ℤ) := do
  let (_,max_index) ← weakLoop cur_payoff (List.range count) (-maxsize) []
  let first ← eqindex.head?
  if first = -1 then some (weakResult maxsize max_index)
  else some (weakResult maxsize (intersect order eqindex max_index))

/-- The loop over the strategies of `cur_player`, which ends early without an equilibrium. -/
def weakCalls (maxsize : ℤ) (call : ℕ → List ℤ → Option (ℤ × List ℤ)) :
    List ℕ → ℤ → List ℤ → Option (ℤ × List ℤ)
  | [],temp,eqindex => some (temp,eqindex)
  | strategy::strategies,_,eqindex => do
    let (temp,eqindex) ← call strategy eqindex
    if temp = -maxsize then some (temp,eqindex) else weakCalls maxsize call strategies temp eqindex

def find_weakly_dominant_eq (maxsize : ℤ) (order : List ℤ → List ℤ) (gamedata : List ℤ) (playerno : ℕ)
    (strategies multiplier : List ℕ) (num_players : ℕ) :
    List ℕ → List ℤ → List ℕ → Option (ℤ × List ℤ)
  | [],eqindex,strategyarr => do
    let count ← strategies[playerno]?
    weakLeaf maxsize order (cur_payoff gamedata playerno multiplier num_players strategyarr) count eqindex
  | cur_player::totalplayer,eqindex,strategyarr => do
    let count ← strategies[cur_player]?
    weakCalls maxsize (fun strategy eqindex =>
      find_weakly_dominant_eq maxsize order gamedata playerno strategies multiplier num_players totalplayer
        eqindex (strategyarr ++ [strategy])) (List.range count) 0 eqindex

/-- `s` is not worse than any strategy below `count`. -/
def Best (f : ℕ → ℤ) (count s : ℕ) : Prop := s < count ∧ ∀ t < count, f t ≤ f s

/-- `s` is a best response of the player to all strategies of the opponents. -/
def AlwaysBest (strategies : List ℕ) (u : List ℕ → ℕ → ℤ) (player s : ℕ) : Prop :=
  ∃ count, strategies[player]? = some count ∧ s < count ∧
    ∀ others, Digits others (strategies.eraseIdx player) → ∀ t < count,
      u (insertAt others player t) player ≤ u (insertAt others player s) player

/-- The list has the numbers that meet `P`, each once. -/
def Lists (P : ℕ → Prop) (l : List ℤ) : Prop := l.Nodup ∧ ∀ x : ℤ, x ∈ l ↔ ∃ s : ℕ, x = s ∧ P s

/-- What the equilibrium indices allow: anything while they are not set. -/
def Allowed (eqindex : List ℤ) (s : ℕ) : Prop := eqindex = [-1] ∨ (s : ℤ) ∈ eqindex

/-- The equilibrium indices are not set, or they are some strategies. -/
def Indices (eqindex : List ℤ) : Prop := eqindex = [-1] ∨ eqindex ≠ [] ∧ ∃ P, Lists P eqindex

variable {maxsize m : ℤ} {P P' : ℕ → Prop} {Q : ℕ → ℕ → Prop} {f : ℕ → ℤ} {count s t : ℕ}
  {order : List ℤ → List ℤ} {seen l : List ℕ} {o eqindex r : List ℤ}

theorem Lists.congr (h : Lists P r) (hP : ∀ s, P s ↔ P' s) : Lists P' r :=
  ⟨h.1,fun x => (h.2 x).trans (exists_congr fun s => and_congr_right fun _ => hP s)⟩

theorem Lists.mem (h : Lists P r) : (s : ℤ) ∈ r ↔ P s := by
  rw [h.2]
  exact ⟨fun ⟨t,he,ht⟩ => Nat.cast_inj.mp he ▸ ht,fun hs => ⟨s,rfl,hs⟩⟩

theorem mem_intersect (horder : ∀ l, (order l).Perm l) (a b : List ℤ) (x : ℤ) :
    x ∈ intersect order a b ↔ x ∈ a ∧ x ∈ b := by
  rw [intersect,(horder _).mem_iff,List.mem_dedup,List.mem_filter,decide_eq_true_eq]

theorem nodup_intersect (horder : ∀ l, (order l).Perm l) (a b : List ℤ) :
    (intersect order a b).Nodup := (horder _).nodup_iff.mpr (List.nodup_dedup _)

theorem Lists.intersect {a b : List ℤ} (horder : ∀ l, (order l).Perm l) (ha : Lists P a) (hb : Lists P' b) :
    Lists (fun s => P s ∧ P' s) (intersect order a b) := by
  refine ⟨nodup_intersect horder a b,fun x => ?_⟩
  rw [mem_intersect horder,ha.2,hb.2]
  constructor
  · rintro ⟨⟨s,rfl,hs⟩,t,he,ht⟩
    obtain rfl := Nat.cast_inj.mp he
    exact ⟨s,rfl,hs,ht⟩
  · rintro ⟨s,rfl,hs,ht⟩
    exact ⟨⟨s,rfl,hs⟩,s,rfl,ht⟩

/-- What the loop over the own strategies has found among those that it has seen. -/
structure Leaders (f : ℕ → ℤ) (seen : List ℕ) (m : ℤ) (o : List ℤ) : Prop where
  le : ∀ t ∈ seen, f t ≤ m
  reached : ∃ t ∈ seen, f t = m
  lists : Lists (fun s => s ∈ seen ∧ f s = m) o

theorem Leaders.larger (hle : ∀ k ∈ seen, f k ≤ m) (hlt : m < f t) :
    Leaders f (seen ++ [t]) (f t) [(t : ℤ)] where
  le k hk := by
    rcases List.mem_append.mp hk with hk | hk
    · exact (hle k hk).trans hlt.le
    · rw [List.mem_singleton.mp hk]
  reached := ⟨t,by simp,rfl⟩
  lists := by
    refine ⟨List.nodup_singleton _,fun x => ?_⟩
    rw [List.mem_singleton]
    constructor
    · rintro rfl
      exact ⟨t,rfl,by simp,rfl⟩
    · rintro ⟨k,rfl,hk,heq⟩
      rcases List.mem_append.mp hk with hk | hk
      · exact absurd (hle k hk) (heq ▸ hlt.not_ge)
      · rw [List.mem_singleton.mp hk]

theorem Leaders.tie (h : Leaders f seen m o) (heq : m = f t) (ht : t ∉ seen) :
    Leaders f (seen ++ [t]) m (o ++ [(t : ℤ)]) where
  le k hk := by
    rcases List.mem_append.mp hk with hk | hk
    · exact h.le k hk
    · rw [List.mem_singleton.mp hk,heq]
  reached := ⟨t,by simp,heq.symm⟩
  lists := by
    constructor
    · refine List.nodup_append'.mpr ⟨h.lists.1,List.nodup_singleton _,?_⟩
      rw [List.disjoint_singleton,h.lists.mem]
      exact fun hmem => ht hmem.1
    · intro x
      rw [List.mem_append,h.lists.2,List.mem_singleton]
      constructor
      · rintro (⟨k,rfl,hk,hm⟩ | rfl)
        · exact ⟨k,rfl,List.mem_append_left _ hk,hm⟩
        · exact ⟨t,rfl,by simp,heq.symm⟩
      · rintro ⟨k,rfl,hk,hm⟩
        rcases List.mem_append.mp hk with hk | hk
        · exact .inl ⟨k,rfl,hk,hm⟩
        · rw [List.mem_singleton.mp hk]
          exact .inr rfl

theorem Leaders.smaller (h : Leaders f seen m o) (hlt : f t < m) : Leaders f (seen ++ [t]) m o where
  le k hk := by
    rcases List.mem_append.mp hk with hk | hk
    · exact h.le k hk
    · rw [List.mem_singleton.mp hk]
      exact hlt.le
  reached := by
    obtain ⟨k,hk,hm⟩ := h.reached
    exact ⟨k,List.mem_append_left _ hk,hm⟩
  lists := by
    refine h.lists.congr fun s => and_congr_left fun hs => ?_
    rw [List.mem_append,List.mem_singleton]
    refine (or_iff_left ?_).symm
    rintro rfl
    exact hlt.ne hs

theorem weakLoop_spec {cur_payoff : ℕ → Option ℤ} (hf : ∀ t ∈ l, cur_payoff t = some (f t))
    (h : Leaders f seen m o) (hnodup : (seen ++ l).Nodup) :
    ∃ m' o', weakLoop cur_payoff l m o = some (m',o') ∧ Leaders f (seen ++ l) m' o' := by
  induction l generalizing seen m o with
  | nil => exact ⟨m,o,rfl,by rwa [List.append_nil]⟩
  | cons t l ih =>
    rw [List.append_cons] at hnodup ⊢
    have ht := notMem_of_nodup hnodup
    rw [weakLoop,hf t List.mem_cons_self,Option.bind_eq_bind,Option.bind_some]
    have hf' : ∀ k ∈ l, cur_payoff k = some (f k) := fun k hk => hf k (List.mem_cons_of_mem t hk)
    split_ifs with hlt heq
    · exact ih hf' (Leaders.larger h.le hlt) hnodup
    · exact ih hf' (h.tie heq ht) hnodup
    · exact ih hf' (h.smaller (lt_of_le_of_ne (not_lt.mp hlt) (Ne.symm heq))) hnodup

/-- The first strategy is better than nothing. -/
theorem weakLoop_range {cur_payoff : ℕ → Option ℤ} (hcount : 0 < count)
    (hf : ∀ t < count, cur_payoff t = some (f t)) (hlow : ∀ t < count, -maxsize < f t) :
    ∃ m o, weakLoop cur_payoff (List.range count) (-maxsize) [] = some (m,o) ∧
      Leaders f (List.range count) m o := by
  have hnodup : (List.range count).Nodup := List.nodup_range
  have hf' : ∀ t ∈ List.range count, cur_payoff t = some (f t) := fun t ht =>
    hf t (List.mem_range.mp ht)
  obtain ⟨l,hl⟩ := exists_range_cons hcount
  have hbelow : ∀ k ∈ ([] : List ℕ), f k ≤ -maxsize := by simp
  have hfirst : Leaders f [0] (f 0) [((0 : ℕ) : ℤ)] := Leaders.larger hbelow (hlow 0 hcount)
  rw [hl] at hnodup hf' ⊢
  rw [weakLoop,hf' 0 List.mem_cons_self,Option.bind_eq_bind,Option.bind_some,if_pos (hlow 0 hcount)]
  exact weakLoop_spec (fun t ht => hf' t (List.mem_cons_of_mem _ ht)) hfirst hnodup

/-- The maximum is reached, so the strategies that reach it are the best ones. -/
theorem Leaders.best (h : Leaders f (List.range count) m o) : Lists (fun s => Best f count s) o := by
  obtain ⟨k,hk,hm⟩ := h.reached
  refine h.lists.congr fun s => ?_
  rw [List.mem_range]
  refine and_congr_right fun hs => ⟨fun heq t ht => ?_,fun hbest => ?_⟩
  · exact heq ▸ h.le t (List.mem_range.mpr ht)
  · exact le_antisymm (h.le s (List.mem_range.mpr hs)) (hm ▸ hbest k (List.mem_range.mp hk))

theorem weakLeaf_spec {cur_payoff : ℕ → Option ℤ} (horder : ∀ l, (order l).Perm l) (hcount : 0 < count)
    (hf : ∀ t < count, cur_payoff t = some (f t)) (hlow : ∀ t < count, -maxsize < f t)
    (hindices : Indices eqindex) :
    ∃ r, weakLeaf maxsize order cur_payoff count eqindex = some (weakResult maxsize r) ∧
      Lists (fun s => Allowed eqindex s ∧ Best f count s) r := by
  obtain ⟨m,o,hloop,hlead⟩ := weakLoop_range hcount hf hlow
  have hbest := hlead.best
  rw [weakLeaf,hloop,Option.bind_eq_bind,Option.bind_some]
  dsimp only
  rcases hindices with rfl | ⟨hne,P,hP⟩
  · refine ⟨o,rfl,hbest.congr fun s => ?_⟩
    exact (and_iff_right (.inl rfl)).symm
  · obtain ⟨i,rest,rfl⟩ := List.exists_cons_of_ne_nil hne
    obtain ⟨k,rfl,-⟩ := (hP.2 i).mp List.mem_cons_self
    have hset : ((k : ℕ) : ℤ) ≠ -1 := by omega
    refine ⟨intersect order (↑k::rest) o,?_,(hP.intersect horder hbest).congr fun s => ?_⟩
    · rw [List.head?_cons,Option.bind_eq_bind,Option.bind_some,if_neg hset]
    · refine and_congr_left fun _ => ?_
      rw [Allowed,hP.mem]
      refine (or_iff_right fun he => ?_).symm
      exact hset (List.cons.inj he).1

theorem weakResult_eq_neg (hmax : 0 < maxsize) (h : Lists P r) :
    (weakResult maxsize r).1 = -maxsize ↔ r = [] := by
  cases r with
  | nil => exact iff_of_true rfl rfl
  | cons i rest =>
    obtain ⟨k,rfl,-⟩ := (h.2 i).mp List.mem_cons_self
    refine iff_of_false (fun he => ?_) (List.cons_ne_nil _ _)
    change (k : ℤ) = -maxsize at he
    omega

@[simp] theorem weakResult_snd (maxsize : ℤ) (r : List ℤ) : (weakResult maxsize r).2 = r := by
  cases r <;> rfl

theorem weakResult_mk (maxsize : ℤ) (r : List ℤ) :
    ((weakResult maxsize r).1,r) = weakResult maxsize r := Prod.ext rfl (weakResult_snd maxsize r).symm

/-- The loop over the strategies of an opponent asks for all of them. -/
theorem weakCalls_spec {call : ℕ → List ℤ → Option (ℤ × List ℤ)} (hmax : 0 < maxsize) (temp : ℤ)
    (hcall : ∀ a ∈ l, ∀ e, Indices e →
      ∃ r, call a e = some (weakResult maxsize r) ∧ Lists (fun s => Allowed e s ∧ Q a s) r)
    (hindices : Indices eqindex)
    (hempty : l = [] → (temp,eqindex) = weakResult maxsize eqindex ∧ Lists (Allowed eqindex) eqindex) :
    ∃ r, weakCalls maxsize call l temp eqindex = some (weakResult maxsize r) ∧
      Lists (fun s => Allowed eqindex s ∧ ∀ a ∈ l, Q a s) r := by
  induction l generalizing temp eqindex with
  | nil =>
    obtain ⟨heq,hlists⟩ := hempty rfl
    refine ⟨eqindex,congrArg some heq,hlists.congr fun s => ?_⟩
    simp
  | cons a l ih =>
    obtain ⟨r,hr,hlists⟩ := hcall a List.mem_cons_self eqindex hindices
    rw [weakCalls,hr,Option.bind_eq_bind,Option.bind_some]
    dsimp only
    rw [weakResult_snd,if_congr (weakResult_eq_neg hmax hlists) rfl rfl]
    split_ifs with hnone
    · subst hnone
      refine ⟨[],rfl,List.nodup_nil,fun x => iff_of_false List.not_mem_nil ?_⟩
      rintro ⟨s,rfl,hs⟩
      exact List.not_mem_nil (hlists.mem.mpr ⟨hs.1,hs.2 a List.mem_cons_self⟩)
    · have hset : ∀ t : ℕ, Allowed r t ↔ Allowed eqindex t ∧ Q a t := by
        intro t
        rw [← hlists.mem (s := t),Allowed]
        refine or_iff_right fun he => ?_
        obtain ⟨k,hk,-⟩ := (hlists.2 (-1)).mp (he ▸ List.mem_singleton_self _)
        omega
      have hcall' : ∀ b ∈ l, ∀ e, Indices e →
          ∃ r, call b e = some (weakResult maxsize r) ∧ Lists (fun s => Allowed e s ∧ Q b s) r :=
        fun b hb => hcall b (List.mem_cons_of_mem a hb)
      obtain ⟨r',hr',hrest⟩ := ih _ hcall' (.inr ⟨hnone,_,hlists⟩) fun _ =>
        ⟨weakResult_mk maxsize r,hlists.congr fun t => (hset t).symm⟩
      refine ⟨r',hr',hrest.congr fun t => ?_⟩
      rw [hset,List.forall_mem_cons,and_assoc]

/-- The recursion looks at every completion of the strategies that have been chosen. -/
theorem find_weakly_dominant_eq_spec {strategies totalplayer counts : List ℕ} {u : List ℕ → ℕ → ℤ}
    {gamedata : List ℤ} {player : ℕ} (hmax : 0 < maxsize) (horder : ∀ l, (order l).Perm l)
    (hgame : Listed strategies u gamedata) (hpos : ∀ c ∈ strategies, 0 < c)
    (hlow : ∀ x ∈ gamedata, -maxsize < x) (hcount : strategies[player]? = some count)
    (hcounts : List.Forall₂ (fun p c => strategies[p]? = some c) totalplayer counts)
    {strategyarr : List ℕ} (harr : ∀ rest, Digits rest counts →
      Digits (strategyarr ++ rest) (strategies.eraseIdx player)) (hindices : Indices eqindex) :
    ∃ r, find_weakly_dominant_eq maxsize order gamedata player strategies (multiplier strategies)
        strategies.length totalplayer eqindex strategyarr = some (weakResult maxsize r) ∧
      Lists (fun s => Allowed eqindex s ∧ ∀ rest, Digits rest counts →
        Best (against u player (strategyarr ++ rest)) count s) r := by
  induction hcounts generalizing strategyarr eqindex with
  | nil =>
    have hothers := harr [] .nil
    rw [List.append_nil] at hothers
    obtain ⟨r,hr,hlists⟩ := weakLeaf_spec horder (hpos count (List.mem_of_getElem? hcount))
      (fun t ht => cur_payoff_eq hgame hothers hcount ht)
      (fun t ht => hlow _ (against_mem hgame hothers hcount ht)) hindices
    rw [find_weakly_dominant_eq,hcount]
    refine ⟨r,hr,hlists.congr fun s => ?_⟩
    simp
  | @cons cur_player c totalplayer counts hc _ ih =>
    have hcpos := hpos c (List.mem_of_getElem? hc)
    have hcall : ∀ a ∈ List.range c, ∀ e, Indices e → ∃ r,
        find_weakly_dominant_eq maxsize order gamedata player strategies (multiplier strategies)
          strategies.length totalplayer e (strategyarr ++ [a]) = some (weakResult maxsize r) ∧
        Lists (fun s => Allowed e s ∧ ∀ rest, Digits rest counts →
          Best (against u player (strategyarr ++ [a] ++ rest)) count s) r := by
      refine fun a ha e he => ih (fun rest hrest => ?_) he
      rw [← List.append_cons]
      exact harr _ (.cons (List.mem_range.mp ha) hrest)
    obtain ⟨r,hr,hlists⟩ := weakCalls_spec hmax 0 hcall hindices fun hnil =>
      absurd (List.range_eq_nil.mp hnil) hcpos.ne'
    rw [find_weakly_dominant_eq,hc]
    refine ⟨r,hr,hlists.congr fun s => and_congr_right fun _ => ?_⟩
    exact forall_digits_cons (P := fun others => Best (against u player others) count s)

theorem alwaysBest_iff {strategies : List ℕ} {u : List ℕ → ℕ → ℤ} {player : ℕ}
    (hpos : ∀ c ∈ strategies, 0 < c) (hcount : strategies[player]? = some count) :
    AlwaysBest strategies u player s ↔ ∀ others, Digits others (strategies.eraseIdx player) →
      Best (against u player others) count s :=
  exists_count_iff hpos hcount

/-- Called as `main` does it, the search returns the strategies of the player that are a best response to
every choice of the opponents, each once, and `-sys.maxsize` with them exactly if there are none. -/
theorem find_weakly_dominant_eq_lists {strategies : List ℕ} {u : List ℕ → ℕ → ℤ} {gamedata : List ℤ}
    {player : ℕ} (hmax : 0 < maxsize) (horder : ∀ l, (order l).Perm l)
    (hgame : Listed strategies u gamedata) (hpos : ∀ c ∈ strategies, 0 < c)
    (hlow : ∀ x ∈ gamedata, -maxsize < x) (hplayer : player < strategies.length) :
    ∃ value result_index, find_weakly_dominant_eq maxsize order gamedata player strategies
        (multiplier strategies) strategies.length (opponents strategies.length player) [-1] [] =
          some (value,result_index) ∧
      (value = -maxsize ↔ result_index = []) ∧ result_index.Nodup ∧
      ∀ x, x ∈ result_index ↔ ∃ s : ℕ, x = s ∧ AlwaysBest strategies u player s := by
  have hcount := List.getElem?_eq_getElem hplayer
  have hnone : ∀ rest, Digits rest (strategies.eraseIdx player) →
      Digits ([] ++ rest) (strategies.eraseIdx player) := fun _ h => h
  obtain ⟨r,hr,hlists⟩ := find_weakly_dominant_eq_spec hmax horder hgame hpos hlow hcount
    (forall₂_opponents hplayer) hnone (.inl rfl)
  have hall : Lists (AlwaysBest strategies u player) r := hlists.congr fun s => by
    rw [alwaysBest_iff hpos hcount]
    exact and_iff_right (.inl rfl)
  refine ⟨(weakResult maxsize r).1,r,?_,weakResult_eq_neg hmax hall,hall⟩
  rw [hr]
  exact congrArg some (weakResult_mk maxsize r).symm

/-- A game in which the first player's two strategies never differ. -/
theorem find_weakly_dominant_eq_equal :
    ∃ value result_index, find_weakly_dominant_eq (2 ^ 63 - 1) (·.mergeSort) [1,2,1,3,4,5,4,6] 0 [2,2]
        (multiplier [2,2]) 2 (opponents 2 0) [-1] [] = some (value,result_index) ∧
      (value = -(2 ^ 63 - 1) ↔ result_index = []) ∧ result_index.Nodup ∧
      ∀ x, x ∈ result_index ↔
        ∃ s : ℕ, x = s ∧ AlwaysBest [2,2] (listedGame [2,2] [1,2,1,3,4,5,4,6]) 0 s :=
  find_weakly_dominant_eq_lists (by decide) (fun l => List.mergeSort_perm l _)
    (listed_listedGame (by decide)) (by decide) (by decide) (by decide)

end ResumePointers.NormalForm
