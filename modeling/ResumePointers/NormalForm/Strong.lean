import ResumePointers.NormalForm.Game
import Mathlib.Tactic.Common

/-! `find_strongly_dominant_eq` of `game_theory_algos/normal_form/q1.py`. -/
namespace ResumePointers.NormalForm

/-- The loop over the player's own strategies. -/
def strongLoop (cur_payoff : ℕ → Option ℤ) : List ℕ → ℤ → ℤ → List ℤ → Option (ℤ × ℤ × List ℤ)
  | [],max_payoff,max_index,other_payoffs => some (max_payoff,max_index,other_payoffs)
  | strategy::strategies,max_payoff,max_index,other_payoffs => do
    let payoff ← cur_payoff strategy
    if max_payoff < payoff then strongLoop cur_payoff strategies payoff strategy other_payoffs
    else strongLoop cur_payoff strategies max_payoff max_index (other_payoffs ++ [payoff])

/-- The branch without remaining players. `maxsize` is `sys.maxsize`. -/
def strongLeaf (maxsize : ℤ) (cur_payoff : ℕ → Option ℤ) (count : ℕ) (eqindex : ℤ) : Option ℤ := do
  let (max_payoff,max_index,other_payoffs) ←
    strongLoop cur_payoff (List.range count) (-maxsize) (-1) []
  if max_payoff ∈ other_payoffs then some (-maxsize)
  else if eqindex = -1 then some max_index
  else if eqindex ≠ max_index then some (-maxsize)
  else some eqindex

/-- The loop over the strategies of `cur_player`, which ends early without an equilibrium. -/
def strongCalls (maxsize : ℤ) (call : ℕ → ℤ → Option ℤ) : List ℕ → ℤ → ℤ → Option ℤ
  | [],temp,_ => some temp
  | strategy::strategies,_,eqindex => do
    let temp ← call strategy eqindex
    if temp = -maxsize then some temp else strongCalls maxsize call strategies temp temp

def find_strongly_dominant_eq (maxsize : ℤ) (gamedata : List ℤ) (playerno : ℕ)
    (strategies multiplier : List ℕ) (num_players : ℕ) : List ℕ → List ℕ → ℤ → Option ℤ
  | [],strategyarr,eqindex => do
    let count ← strategies[playerno]?
    strongLeaf maxsize (cur_payoff gamedata playerno multiplier num_players strategyarr) count eqindex
  | cur_player::totalplayer,strategyarr,eqindex => do
    let count ← strategies[cur_player]?
    strongCalls maxsize (fun strategy eqindex =>
      find_strongly_dominant_eq maxsize gamedata playerno strategies multiplier num_players totalplayer
        (strategyarr ++ [strategy]) eqindex) (List.range count) 0 eqindex

/-- `s` is better than all of the other strategies below `count`. -/
def StrictlyBest (f : ℕ → ℤ) (count s : ℕ) : Prop := s < count ∧ ∀ t < count, t ≠ s → f t < f s

/-- `s` is strictly better for the player than each of the other strategies, against all strategies of the
opponents. -/
def StronglyDominant (strategies : List ℕ) (u : List ℕ → ℕ → ℤ) (player s : ℕ) : Prop :=
  ∃ count, strategies[player]? = some count ∧ s < count ∧
    ∀ others, Digits others (strategies.eraseIdx player) → ∀ t < count, t ≠ s →
      u (insertAt others player t) player < u (insertAt others player s) player

/-- The answer is the number that meets `P`, or that there is none. -/
def Answer (maxsize : ℤ) (P : ℕ → Prop) (r : ℤ) : Prop :=
  (∀ s : ℕ, r = s ↔ P s) ∧ (r = -maxsize ↔ ∀ s, ¬ P s)

/-- What the equilibrium index allows: anything while it is not set. -/
def Allows (eqindex : ℤ) (s : ℕ) : Prop := eqindex = -1 ∨ eqindex = s

/-- The equilibrium index is not set, or it is a strategy. -/
def Index (eqindex : ℤ) : Prop := eqindex = -1 ∨ ∃ s : ℕ, eqindex = s

variable {maxsize r eqindex m j : ℤ} {P P' : ℕ → Prop} {Q : ℕ → ℕ → Prop} {f : ℕ → ℤ} {count s t : ℕ}
  {seen l : List ℕ} {o : List ℤ}

theorem Answer.congr (h : Answer maxsize P r) (hP : ∀ s, P s ↔ P' s) : Answer maxsize P' r :=
  ⟨fun s => (h.1 s).trans (hP s),h.2.trans (forall_congr' fun s => not_congr (hP s))⟩

theorem Answer.found (hmax : 0 < maxsize) (hs : ∀ t : ℕ, P t ↔ s = t) : Answer maxsize P s := by
  refine ⟨fun t => ?_,iff_of_false (by omega) fun hnone => hnone s ((hs s).mpr rfl)⟩
  rw [hs,Nat.cast_inj]

theorem Answer.none (hmax : 0 < maxsize) (h : ∀ s, ¬ P s) : Answer maxsize P (-maxsize) :=
  ⟨fun s => iff_of_false (by omega) (h s),iff_of_true rfl h⟩

/-- An answer is one of the two kinds. -/
theorem Answer.cases (h : Answer maxsize P r) : r = -maxsize ∨ ∃ s : ℕ, r = s := by
  by_cases hs : ∃ s, P s
  · obtain ⟨s,hs⟩ := hs
    exact .inr ⟨s,(h.1 s).mpr hs⟩
  · exact .inl (h.2.mpr (not_exists.mp hs))

/-- What the loop over the own strategies has found among those that it has seen. -/
structure Scanned (f : ℕ → ℤ) (seen : List ℕ) (m j : ℤ) (o : List ℤ) : Prop where
  others_le : ∀ x ∈ o, x ≤ m
  le : ∀ t ∈ seen, f t ≤ m
  best : ∃ s ∈ seen, j = s ∧ f s = m ∧ (m ∈ o ↔ ∃ t ∈ seen, t ≠ s ∧ f t = m)

theorem Scanned.first (t : ℕ) : Scanned f [t] (f t) t [] where
  others_le := by simp
  le := by simp
  best := ⟨t,by simp⟩

theorem Scanned.larger (h : Scanned f seen m j o) (hlt : m < f t) :
    Scanned f (seen ++ [t]) (f t) t o where
  others_le x hx := (h.others_le x hx).trans hlt.le
  le k hk := by
    rcases List.mem_append.mp hk with hk | hk
    · exact (h.le k hk).trans hlt.le
    · rw [List.mem_singleton.mp hk]
  best := by
    refine ⟨t,by simp,rfl,rfl,iff_of_false (fun hmem => ?_) ?_⟩
    · exact absurd (h.others_le _ hmem) hlt.not_ge
    · rintro ⟨k,hk,hne,heq⟩
      rcases List.mem_append.mp hk with hk | hk
      · exact absurd (h.le k hk) (heq ▸ hlt.not_ge)
      · exact hne (List.mem_singleton.mp hk)

theorem Scanned.other (h : Scanned f seen m j o) (hle : f t ≤ m) (ht : t ∉ seen) :
    Scanned f (seen ++ [t]) m j (o ++ [f t]) where
  others_le x hx := by
    rcases List.mem_append.mp hx with hx | hx
    · exact h.others_le x hx
    · rwa [List.mem_singleton.mp hx]
  le k hk := by
    rcases List.mem_append.mp hk with hk | hk
    · exact h.le k hk
    · rwa [List.mem_singleton.mp hk]
  best := by
    obtain ⟨s,hs,hj,hm,htie⟩ := h.best
    have hts : t ≠ s := fun he => ht (he ▸ hs)
    refine ⟨s,List.mem_append_left _ hs,hj,hm,?_⟩
    rw [List.mem_append,htie,List.mem_singleton]
    constructor
    · rintro (⟨k,hk,hne,heq⟩ | heq)
      · exact ⟨k,List.mem_append_left _ hk,hne,heq⟩
      · exact ⟨t,by simp,hts,heq.symm⟩
    · rintro ⟨k,hk,hne,heq⟩
      rcases List.mem_append.mp hk with hk | hk
      · exact .inl ⟨k,hk,hne,heq⟩
      · rw [List.mem_singleton.mp hk] at heq
        exact .inr heq.symm

theorem strongLoop_spec {cur_payoff : ℕ → Option ℤ} (hf : ∀ t ∈ l, cur_payoff t = some (f t))
    (h : Scanned f seen m j o) (hnodup : (seen ++ l).Nodup) :
    ∃ m' j' o', strongLoop cur_payoff l m j o = some (m',j',o') ∧ Scanned f (seen ++ l) m' j' o' := by
  induction l generalizing seen m j o with
  | nil => exact ⟨m,j,o,rfl,by rwa [List.append_nil]⟩
  | cons t l ih =>
    rw [List.append_cons] at hnodup ⊢
    have ht := notMem_of_nodup hnodup
    rw [strongLoop,hf t List.mem_cons_self,Option.bind_eq_bind,Option.bind_some]
    have hf' : ∀ k ∈ l, cur_payoff k = some (f k) := fun k hk => hf k (List.mem_cons_of_mem t hk)
    split_ifs with hlt
    · exact ih hf' (h.larger hlt) hnodup
    · exact ih hf' (h.other (not_lt.mp hlt) ht) hnodup

/-- The first strategy is better than nothing. -/
theorem strongLoop_range {cur_payoff : ℕ → Option ℤ} (hcount : 0 < count)
    (hf : ∀ t < count, cur_payoff t = some (f t)) (hlow : ∀ t < count, -maxsize < f t) :
    ∃ m j o, strongLoop cur_payoff (List.range count) (-maxsize) (-1) [] = some (m,j,o) ∧
      Scanned f (List.range count) m j o := by
  have hnodup : (List.range count).Nodup := List.nodup_range
  have hf' : ∀ t ∈ List.range count, cur_payoff t = some (f t) := fun t ht =>
    hf t (List.mem_range.mp ht)
  obtain ⟨l,hl⟩ := exists_range_cons hcount
  rw [hl] at hnodup hf' ⊢
  rw [strongLoop,hf' 0 List.mem_cons_self,Option.bind_eq_bind,Option.bind_some,
    if_pos (hlow 0 hcount)]
  exact strongLoop_spec (fun t ht => hf' t (List.mem_cons_of_mem _ ht)) (Scanned.first 0) hnodup

/-- Without a tie the first best strategy is the only one that is strictly best, and with a tie none is. -/
theorem Scanned.strictlyBest (h : Scanned f (List.range count) m j o) :
    (m ∈ o → ∀ s, ¬ StrictlyBest f count s) ∧
      (m ∉ o → ∃ s : ℕ, j = s ∧ ∀ t, StrictlyBest f count t ↔ s = t) := by
  obtain ⟨s,hs,hj,hm,htie⟩ := h.best
  have hle : ∀ t < count, f t ≤ f s := fun t ht => hm ▸ h.le t (List.mem_range.mpr ht)
  have honly : ∀ t, StrictlyBest f count t → s = t := by
    rintro t ⟨ht,hbest⟩
    by_contra hne
    exact absurd (hbest s (List.mem_range.mp hs) hne) (hle t ht).not_gt
  constructor
  · intro hmem t hbest
    obtain ⟨k,hk,hne,heq⟩ := htie.mp hmem
    obtain rfl := honly t hbest
    have hlt := hbest.2 k (List.mem_range.mp hk) hne
    omega
  · intro hmem
    refine ⟨s,hj,fun t => ⟨honly t,?_⟩⟩
    rintro rfl
    refine ⟨List.mem_range.mp hs,fun t ht hne => lt_of_le_of_ne (hle t ht) fun heq => ?_⟩
    exact hmem (htie.mpr ⟨t,List.mem_range.mpr ht,hne,heq.trans hm⟩)

theorem strongLeaf_spec {cur_payoff : ℕ → Option ℤ} (hmax : 0 < maxsize) (hcount : 0 < count)
    (hf : ∀ t < count, cur_payoff t = some (f t)) (hlow : ∀ t < count, -maxsize < f t)
    (hindex : Index eqindex) :
    ∃ r, strongLeaf maxsize cur_payoff count eqindex = some r ∧
      Answer maxsize (fun s => Allows eqindex s ∧ StrictlyBest f count s) r := by
  obtain ⟨m,j,o,hloop,hscan⟩ := strongLoop_range hcount hf hlow
  rw [strongLeaf,hloop,Option.bind_eq_bind,Option.bind_some]
  dsimp only
  split_ifs with htie hunset hother
  · exact ⟨_,rfl,.none hmax fun s hs => hscan.strictlyBest.1 htie s hs.2⟩
  · obtain ⟨s,rfl,hbest⟩ := hscan.strictlyBest.2 htie
    refine ⟨_,rfl,.found hmax fun t => ?_⟩
    rw [hbest,Allows]
    exact and_iff_right (.inl hunset)
  · obtain ⟨s,rfl,hbest⟩ := hscan.strictlyBest.2 htie
    refine ⟨_,rfl,.none hmax fun t ht => hother ?_⟩
    rw [hbest] at ht
    exact ht.2 ▸ ht.1.resolve_left hunset
  · obtain ⟨s,rfl,hbest⟩ := hscan.strictlyBest.2 htie
    obtain rfl := not_not.mp hother
    refine ⟨_,rfl,.found hmax fun t => ?_⟩
    rw [hbest]
    exact and_iff_right_of_imp fun he => .inr (congrArg _ he)

/-- The loop over the strategies of an opponent asks for all of them. -/
theorem strongCalls_spec {call : ℕ → ℤ → Option ℤ} (hmax : 0 < maxsize) (temp : ℤ)
    (hcall : ∀ a ∈ l, ∀ e, Index e →
      ∃ r, call a e = some r ∧ Answer maxsize (fun s => Allows e s ∧ Q a s) r)
    (hindex : Index eqindex) (hempty : l = [] → Answer maxsize (Allows eqindex) temp) :
    ∃ r, strongCalls maxsize call l temp eqindex = some r ∧
      Answer maxsize (fun s => Allows eqindex s ∧ ∀ a ∈ l, Q a s) r := by
  induction l generalizing temp eqindex with
  | nil =>
    refine ⟨temp,rfl,(hempty rfl).congr fun s => ?_⟩
    simp
  | cons a l ih =>
    obtain ⟨r,hr,hanswer⟩ := hcall a List.mem_cons_self eqindex hindex
    rw [strongCalls,hr,Option.bind_eq_bind,Option.bind_some]
    split_ifs with hnone
    · subst hnone
      refine ⟨_,rfl,.none hmax fun s hs => ?_⟩
      exact hanswer.2.mp rfl s ⟨hs.1,hs.2 a List.mem_cons_self⟩
    · obtain ⟨s,rfl⟩ := hanswer.cases.resolve_left hnone
      have hset : ∀ t : ℕ, Allows (s : ℤ) t ↔ Allows eqindex t ∧ Q a t := by
        intro t
        refine Iff.trans ?_ (hanswer.1 t)
        rw [Allows]
        omega
      have hcall' : ∀ b ∈ l, ∀ e, Index e →
          ∃ r, call b e = some r ∧ Answer maxsize (fun s => Allows e s ∧ Q b s) r :=
        fun b hb => hcall b (List.mem_cons_of_mem a hb)
      obtain ⟨r,hr,hrest⟩ := ih s hcall' (.inr ⟨s,rfl⟩) fun _ =>
        hanswer.congr fun t => (hset t).symm
      refine ⟨r,hr,hrest.congr fun t => ?_⟩
      rw [hset,List.forall_mem_cons,and_assoc]

/-- The recursion looks at every completion of the strategies that have been chosen. -/
theorem find_strongly_dominant_eq_spec {strategies totalplayer counts : List ℕ} {u : List ℕ → ℕ → ℤ}
    {gamedata : List ℤ} {player : ℕ} (hmax : 0 < maxsize) (hgame : Listed strategies u gamedata)
    (hpos : ∀ c ∈ strategies, 0 < c) (hlow : ∀ x ∈ gamedata, -maxsize < x)
    (hcount : strategies[player]? = some count)
    (hcounts : List.Forall₂ (fun p c => strategies[p]? = some c) totalplayer counts)
    {strategyarr : List ℕ} (harr : ∀ rest, Digits rest counts →
      Digits (strategyarr ++ rest) (strategies.eraseIdx player)) (hindex : Index eqindex) :
    ∃ r, find_strongly_dominant_eq maxsize gamedata player strategies (multiplier strategies)
        strategies.length totalplayer strategyarr eqindex = some r ∧
      Answer maxsize (fun s => Allows eqindex s ∧ ∀ rest, Digits rest counts →
        StrictlyBest (against u player (strategyarr ++ rest)) count s) r := by
  induction hcounts generalizing strategyarr eqindex with
  | nil =>
    have hothers := harr [] .nil
    rw [List.append_nil] at hothers
    have hleaf := strongLeaf_spec hmax (hpos count (List.mem_of_getElem? hcount))
      (fun t ht => cur_payoff_eq hgame hothers hcount ht)
      (fun t ht => hlow _ (against_mem hgame hothers hcount ht)) hindex
    obtain ⟨r,hr,hanswer⟩ := hleaf
    rw [find_strongly_dominant_eq,hcount]
    refine ⟨r,hr,hanswer.congr fun s => ?_⟩
    simp
  | @cons cur_player c totalplayer counts hc _ ih =>
    have hcpos := hpos c (List.mem_of_getElem? hc)
    have hcall : ∀ a ∈ List.range c, ∀ e, Index e → ∃ r,
        find_strongly_dominant_eq maxsize gamedata player strategies (multiplier strategies)
          strategies.length totalplayer (strategyarr ++ [a]) e = some r ∧
        Answer maxsize (fun s => Allows e s ∧ ∀ rest, Digits rest counts →
          StrictlyBest (against u player (strategyarr ++ [a] ++ rest)) count s) r := by
      refine fun a ha e he => ih (fun rest hrest => ?_) he
      rw [← List.append_cons]
      exact harr _ (.cons (List.mem_range.mp ha) hrest)
    obtain ⟨r,hr,hanswer⟩ := strongCalls_spec hmax 0 hcall hindex fun hnil =>
      absurd (List.range_eq_nil.mp hnil) hcpos.ne'
    rw [find_strongly_dominant_eq,hc]
    refine ⟨r,hr,hanswer.congr fun s => and_congr_right fun _ => ?_⟩
    exact forall_digits_cons (P := fun others => StrictlyBest (against u player others) count s)

theorem stronglyDominant_iff {strategies : List ℕ} {u : List ℕ → ℕ → ℤ} {player : ℕ}
    (hpos : ∀ c ∈ strategies, 0 < c) (hcount : strategies[player]? = some count) :
    StronglyDominant strategies u player s ↔ ∀ others, Digits others (strategies.eraseIdx player) →
      StrictlyBest (against u player others) count s :=
  exists_count_iff hpos hcount

/-- Called as `main` does it, the search returns the strongly dominant strategy of the player, or
`-sys.maxsize` exactly if there is none. -/
theorem find_strongly_dominant_eq_answer {strategies : List ℕ} {u : List ℕ → ℕ → ℤ} {gamedata : List ℤ}
    {player : ℕ} (hmax : 0 < maxsize) (hgame : Listed strategies u gamedata)
    (hpos : ∀ c ∈ strategies, 0 < c) (hlow : ∀ x ∈ gamedata, -maxsize < x)
    (hplayer : player < strategies.length) :
    ∃ r, find_strongly_dominant_eq maxsize gamedata player strategies (multiplier strategies)
        strategies.length (opponents strategies.length player) [] (-1) = some r ∧
      (∀ s : ℕ, r = s ↔ StronglyDominant strategies u player s) ∧
      (r = -maxsize ↔ ∀ s, ¬ StronglyDominant strategies u player s) := by
  have hcount := List.getElem?_eq_getElem hplayer
  have hnone : ∀ rest, Digits rest (strategies.eraseIdx player) →
      Digits ([] ++ rest) (strategies.eraseIdx player) := fun _ h => h
  obtain ⟨r,hr,hanswer⟩ := find_strongly_dominant_eq_spec hmax hgame hpos hlow hcount
    (forall₂_opponents hplayer) hnone (.inl rfl)
  refine ⟨r,hr,hanswer.congr fun s => ?_⟩
  rw [stronglyDominant_iff hpos hcount]
  exact and_iff_right (.inl rfl)

/-- In the prisoner's dilemma. -/
theorem find_strongly_dominant_eq_prisoner :
    ∃ r, find_strongly_dominant_eq (2 ^ 63 - 1) [3,3,5,0,0,5,1,1] 0 [2,2] (multiplier [2,2]) 2
        (opponents 2 0) [] (-1) = some r ∧
      (∀ s : ℕ, r = s ↔ StronglyDominant [2,2] (listedGame [2,2] [3,3,5,0,0,5,1,1]) 0 s) ∧
      (r = -(2 ^ 63 - 1) ↔
        ∀ s, ¬ StronglyDominant [2,2] (listedGame [2,2] [3,3,5,0,0,5,1,1]) 0 s) :=
  find_strongly_dominant_eq_answer (by decide) (listed_listedGame (by decide)) (by decide) (by decide)
    (by decide)

end ResumePointers.NormalForm
