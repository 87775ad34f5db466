import Mathlib.Logic.Relation
import ResumePointers.Alloc.Scan

/-! What one page makes of the scan, whatever its bitmap: the free slots fall into groups of
neighbouring runs, each just large enough for the request, and the scan takes group after group
until one is larger than the one before it. -/
namespace ResumePointers.Alloc
open Relation

/-- The free slots of `[a, e)`. -/
def freeIn (bit : ℕ → Bool) (a e : ℕ) : ℕ := ((Finset.Ico a e).filter (bit · = true)).card

/-- The first group behind slot `c`: it begins with the first free slot, and ends with the first
run of free slots that makes it `req` slots large. -/
structure Group (bit : ℕ → Bool) (n req c a e : ℕ) : Prop where
  behind : c ≤ a
  gap : ∀ i, c ≤ i → i < a → bit i = false
  first : bit a = true
  lt : a < e
  le : e ≤ n
  right : e < n → bit e = false
  full : req ≤ freeIn bit a e
  tight : ∀ i, a < i → i < e → bit i = false → freeIn bit a i < req

/-- The group behind `g`, where it is not larger than `g`. -/
def Next (bit : ℕ → Bool) (n req : ℕ) (g g' : ℕ × ℕ) : Prop :=
  Group bit n req g.2 g'.1 g'.2 ∧ freeIn bit g'.1 g'.2 ≤ freeIn bit g.1 g.2

/-- No group from the first one to `g` is larger than the one before it. -/
def Taken (bit : ℕ → Bool) (n req : ℕ) (g : ℕ × ℕ) : Prop :=
  ∃ f : ℕ × ℕ, Group bit n req 0 f.1 f.2 ∧ ReflTransGen (Next bit n req) f g

/-- The group behind such a `g` is larger than `g`, or there is none. -/
def Final (bit : ℕ → Bool) (n req : ℕ) (g : ℕ × ℕ) : Prop :=
  Taken bit n req g ∧ ∀ g', ¬ Next bit n req g g'

variable {bit : ℕ → Bool} {n req c a e i : ℕ} {s : Scan}

@[simp] theorem freeIn_self : freeIn bit a a = 0 := by simp [freeIn]

theorem freeIn_free (ha : a ≤ i) (hb : bit i = true) :
    freeIn bit a (i + 1) = freeIn bit a i + 1 := by
  simp only [freeIn,Nat.Ico_succ_right_eq_insert_Ico ha,Finset.filter_insert,if_pos hb]
  exact Finset.card_insert_of_notMem (by simp)

theorem freeIn_used (hb : bit i = false) : freeIn bit a (i + 1) = freeIn bit a i := by
  rcases Nat.lt_or_ge i a with hlt | hge
  · simp only [freeIn]
    rw [Finset.Ico_eq_empty (by omega),Finset.Ico_eq_empty (by omega)]
  · simp only [freeIn,Nat.Ico_succ_right_eq_insert_Ico hge,Finset.filter_insert]
    rw [if_neg (by simp [hb])]

theorem freeIn_mono (h : e ≤ i) : freeIn bit a e ≤ freeIn bit a i :=
  Finset.card_le_card (Finset.filter_subset_filter _ (Finset.Ico_subset_Ico le_rfl h))

theorem freeIn_le : freeIn bit a e ≤ e - a :=
  (Finset.card_filter_le _ _).trans_eq (Nat.card_Ico a e)

/-- Slots in use in front do not count. -/
theorem freeIn_gap (hca : c ≤ a) (hgap : ∀ i, c ≤ i → i < a → bit i = false) :
    freeIn bit c e = freeIn bit a e := by
  unfold freeIn
  congr 1
  ext i
  simp only [Finset.mem_filter,Finset.mem_Ico]
  constructor
  · rintro ⟨⟨h1,h2⟩,hb⟩
    refine ⟨⟨?_,h2⟩,hb⟩
    by_contra hlt
    rw [hgap i h1 (by omega)] at hb
    cases hb
  · rintro ⟨⟨h1,h2⟩,hb⟩
    exact ⟨⟨hca.trans h1,h2⟩,hb⟩

theorem freeIn_run (hfree : ∀ i, a ≤ i → i < e → bit i = true) : freeIn bit a e = e - a := by
  unfold freeIn
  rw [Finset.filter_true_of_mem fun i hi => ?_,Nat.card_Ico]
  exact hfree i (Finset.mem_Ico.mp hi).1 (Finset.mem_Ico.mp hi).2

/-- There is one first group at most. -/
theorem Group.unique {a' e' : ℕ} (h : Group bit n req c a e) (h' : Group bit n req c a' e') :
    a = a' ∧ e = e' := by
  have hbegin : ∀ {a e a' e'}, Group bit n req c a e → Group bit n req c a' e' → ¬ a < a' := by
    intro a e a' e' h h' hlt
    have hused := h'.gap a h.behind hlt
    rw [h.first] at hused
    cases hused
  have hend : ∀ {e e'}, Group bit n req c a e → Group bit n req c a e' → ¬ e < e' := by
    intro e e' h h' hlt
    have h1 := h'.tight e h.lt hlt (h.right (hlt.trans_le h'.le))
    exact absurd h.full (by omega)
  obtain rfl : a = a' := by
    have h1 := hbegin h h'
    have h2 := hbegin h' h
    omega
  have h1 := hend h h'
  have h2 := hend h' h
  exact ⟨rfl,by omega⟩

theorem next_rightUnique : Relator.RightUnique (Next bit n req) := by
  rintro g ⟨a,e⟩ ⟨a',e'⟩ h h'
  obtain ⟨rfl,rfl⟩ := h.1.unique h'.1
  rfl

/-- The groups in a row have one last group at most. -/
theorem Final.unique {g g' : ℕ × ℕ} (h : Final bit n req g) (h' : Final bit n req g') :
    g = g' := by
  obtain ⟨⟨⟨a,e⟩,hf,hg⟩,hlast⟩ := h
  obtain ⟨⟨⟨a',e'⟩,hf',hg'⟩,hlast'⟩ := h'
  obtain ⟨rfl,rfl⟩ := hf.unique hf'
  rcases ReflTransGen.total_of_right_unique next_rightUnique hg hg' with hgg | hgg
  · rcases hgg.cases_head with heq | ⟨g₁,hnext,-⟩
    · exact heq
    · exact (hlast g₁ hnext).elim
  · rcases hgg.cases_head with heq | ⟨g₁,hnext,-⟩
    · exact heq.symm
    · exact (hlast' g₁ hnext).elim

/-- A group of the row lies in the page, and begins it or follows a slot. -/
theorem Taken.group {g : ℕ × ℕ} (h : Taken bit n req g) : ∃ c, Group bit n req c g.1 g.2 := by
  obtain ⟨f,hf,hg⟩ := h
  rcases hg.cases_tail with rfl | ⟨g₁,-,hnext⟩
  · exact ⟨0,hf⟩
  · exact ⟨g₁.2,hnext.1⟩

/-- A run that is long enough is a group where it begins one. -/
theorem Group.of_run {e' : ℕ} (h : Group bit n req c a e) (hlt : a < e') (hle : e' ≤ n)
    (hfree : ∀ i, a ≤ i → i < e' → bit i = true) (hright : e' < n → bit e' = false)
    (hreq : req ≤ e' - a) : e = e' := by
  have hg : Group bit n req c a e' := by
    refine ⟨h.behind,h.gap,h.first,hlt,hle,hright,?_,fun i h1 h2 hb => ?_⟩
    · rwa [freeIn_run hfree]
    · rw [hfree i h1.le h2] at hb
      cases hb
  exact (h.unique hg).2

/-- What the scan has taken in front of slot `c`: nothing yet, or the group that ends there. -/
inductive Held (bit : ℕ → Bool) (n req c : ℕ) (s : Scan) : Prop
  | none (hc : c = 0) (ho : s.off = -1) (hm : s.minsz = INT32_MAX)
  | some {a : ℕ} (h : Taken bit n req (a,c)) (ho : s.off = a) (hm : s.minsz = freeIn bit a c)

/-- How the scan of a page stands before slot `i`. -/
inductive Scans (bit : ℕ → Bool) (n req i : ℕ) (s : Scan) : Prop
  | idle {c : ℕ} (hf : s.flag = false) (h : Held bit n req c s) (hc : c ≤ i)
      (hgap : ∀ i', c ≤ i' → i' < i → bit i' = false)
      (ht : c = 0 ∧ s.tmpminsz = -1 ∨ s.tmpoff = s.off)
  | open {c a : ℕ} (hf : s.flag = true) (h : Held bit n req c s) (hca : c ≤ a)
      (hgap : ∀ i', c ≤ i' → i' < a → bit i' = false) (hfirst : bit a = true) (hai : a < i)
      (ha : s.tmpoff = a) (ht : s.tmpminsz = freeIn bit a i)
      (htight : ∀ i', a < i' → i' < i → bit i' = false → freeIn bit a i' < req)
  | stuck {c a e : ℕ} (hf : s.flag = true) (h : Held bit n req c s)
      (hg : Group bit n req c a e) (hlt : s.minsz < freeIn bit a e) (ht : s.minsz < s.tmpminsz)

theorem Held.congr {t : Scan} (h : Held bit n req c s) (ho : t.off = s.off)
    (hm : t.minsz = s.minsz) : Held bit n req c t := by
  cases h with
  | none hc h1 h2 => exact .none hc (ho.trans h1) (hm.trans h2)
  | some h h1 h2 => exact .some h (ho.trans h1) (hm.trans h2)

/-- A group that fits is the next of the row. -/
theorem Held.take (h : Held bit n req c s) (hg : Group bit n req c a e)
    (hm : (freeIn bit a e : ℤ) ≤ s.minsz) : Taken bit n req (a,e) := by
  cases h with
  | none hc => subst hc; exact ⟨(a,e),hg,.refl⟩
  | some h ho hm' =>
    obtain ⟨f,hf,hrow⟩ := h
    refine ⟨f,hf,hrow.tail ⟨hg,?_⟩⟩
    dsimp only
    omega

/-- The row ends where every group behind it is larger. -/
theorem Held.final (h : Held bit n req c s) (hn : (n : ℤ) ≤ INT32_MAX)
    (hlast : ∀ a e, Group bit n req c a e → s.minsz < freeIn bit a e) :
    (c = 0 ∧ s.off = -1 ∧ ∀ a e, ¬ Group bit n req c a e) ∨
      ∃ a, Final bit n req (a,c) ∧ s.off = a := by
  cases h with
  | none hc ho hm =>
    refine .inl ⟨hc,ho,fun a e hg => ?_⟩
    have h1 := hlast a e hg
    have h2 := @freeIn_le bit a e
    have h3 := hg.le
    omega
  | @some a h ho hm =>
    refine .inr ⟨a,⟨h,?_⟩,ho⟩
    rintro ⟨a',e'⟩ ⟨hg,hle⟩
    have h1 := hlast a' e' hg
    dsimp only at hle
    omega

theorem Scans.start : Scans bit n req 0 Scan.start :=
  .idle rfl (.none rfl rfl rfl) le_rfl (fun _ _ h => absurd h (Nat.not_lt_zero _))
    (.inl ⟨rfl,rfl⟩)

/-- One slot. -/
theorem slot_scans (hi : i < n) (h : Scans bit n req i s) :
    Scans bit n req (i + 1) (s.slot req 0 i (bit i)) := by
  cases hbit : bit i with
  | true =>
    cases h with
    | idle hf hheld hc hgap ht =>
      rw [Scan.slot,if_pos hf,if_pos rfl]
      refine .open rfl (hheld.congr rfl rfl) hc hgap hbit (Nat.lt_succ_self i) rfl ?_ ?_
      · rw [freeIn_free le_rfl hbit,freeIn_self]
        rfl
      · intro i' h1 h2
        omega
    | «open» hf hheld hca hgap hfirst hai ha ht htight =>
      rw [slot_open_free hf]
      refine .open hf (hheld.congr rfl rfl) hca hgap hfirst (by omega) ha ?_ ?_
      · rw [freeIn_free hai.le hbit]
        push_cast
        exact congrArg (· + 1) ht
      · intro i' h1 h2 hb
        refine htight i' h1 ?_ hb
        rcases Nat.lt_succ_iff_lt_or_eq.mp h2 with hlt | rfl
        · exact hlt
        · rw [hbit] at hb
          cases hb
    | stuck hf hheld hg hlt ht =>
      rw [slot_open_free hf]
      exact .stuck hf (hheld.congr rfl rfl) hg hlt (by dsimp only; omega)
  | false =>
    cases h with
    | idle hf hheld hc hgap ht =>
      rw [slot_idle_used hf]
      refine .idle hf hheld (by omega) (fun i' h1 h2 => ?_) ht
      rcases Nat.lt_succ_iff_lt_or_eq.mp h2 with hlt | rfl
      · exact hgap i' h1 hlt
      · exact hbit
    | @«open» c a hf hheld hca hgap hfirst hai ha ht htight =>
      rw [slot_open_used hf]
      by_cases hfull : req ≤ freeIn bit a i
      · -- the group is complete, and is taken if it is not larger than the one before
        have hg : Group bit n req c a i := ⟨hca,hgap,hfirst,hai,hi.le,fun _ => hbit,hfull,htight⟩
        split
        · rename_i hfit
          have hrow := hheld.take hg (by have := hfit.1; omega)
          refine .idle rfl (.some hrow ha ht) (Nat.le_succ i) (fun i' h1 h2 => ?_) (.inr rfl)
          obtain rfl : i' = i := by omega
          exact hbit
        · rename_i hfit
          have hlt : s.minsz < s.tmpminsz := by
            by_contra hle
            exact hfit ⟨by omega,by omega⟩
          exact .stuck hf hheld hg (by omega) hlt
      · rw [if_neg fun hfit => by have := hfit.2; omega]
        refine .open hf hheld hca hgap hfirst (by omega) ha ?_ fun i' h1 h2 hb => ?_
        · rw [freeIn_used hbit]
          exact ht
        · rcases Nat.lt_succ_iff_lt_or_eq.mp h2 with hlt | rfl
          · exact htight i' h1 hlt hb
          · omega
    | stuck hf hheld hg hlt ht =>
      rw [slot_open_used hf,if_neg fun hfit => by have := hfit.1; omega]
      exact .stuck hf hheld hg hlt ht

theorem slots_scans (hi : i ≤ n) : Scans bit n req i (Scan.start.slots req bit 0 i) := by
  induction i with
  | zero => exact .start
  | succ i ih =>
    rw [Scan.slots_succ]
    exact slot_scans hi (ih (by omega))

/-- A page gives nothing if it has too few free slots, and else the start of the last group that
the scan takes. -/
theorem page_final (hn : (n : ℤ) ≤ INT32_MAX) (hreq : 0 < req) :
    ((Scan.start.page n req bit 0).off = -1 ∧ freeIn bit 0 n < req) ∨
      ∃ a e, Final bit n req (a,e) ∧ (Scan.start.page n req bit 0).off = a := by
  have hs := @slots_scans bit n req n (le_refl n)
  unfold Scan.page
  generalize Scan.start.slots req bit 0 n = s at hs
  dsimp only
  cases hs with
  | @idle c hf hheld hc hgap ht =>
    have hoff : (if s.Fits req then s.take 0 else s).off = s.off := by
      split
      · rename_i hfit
        rcases ht with ⟨-,ht⟩ | ht
        · have := hfit.2
          omega
        · exact ht
      · rfl
    have hno : ∀ a e, ¬ Group bit n req c a e := by
      intro a e hg
      have hused := hgap a hg.behind (hg.lt.trans_le hg.le)
      rw [hg.first] at hused
      cases hused
    rw [hoff]
    rcases hheld.final hn fun a e hg => (hno a e hg).elim with ⟨rfl,ho,-⟩ | ⟨a,hfin,ho⟩
    · refine .inl ⟨ho,?_⟩
      rwa [freeIn_gap hc hgap,freeIn_self]
    · exact .inr ⟨a,c,hfin,ho⟩
  | @«open» c a hf hheld hca hgap hfirst hai ha ht htight =>
    have hg : req ≤ freeIn bit a n → Group bit n req c a n := fun hfull =>
      ⟨hca,hgap,hfirst,hai,le_rfl,fun h => absurd h (lt_irrefl n),hfull,htight⟩
    by_cases hfit : s.Fits req
    · have hg := hg (by have := hfit.2; omega)
      rw [if_pos hfit]
      refine .inr ⟨a,n,⟨hheld.take hg (by have := hfit.1; omega),?_⟩,ha⟩
      rintro ⟨a',e'⟩ ⟨hg',-⟩
      have := hg'.behind
      have := hg'.lt
      have := hg'.le
      dsimp only at *
      omega
    · rw [if_neg hfit]
      have hlast : ∀ a' e', Group bit n req c a' e' → s.minsz < freeIn bit a' e' := by
        intro a' e' hg'
        have hfull : req ≤ freeIn bit a n := by
          calc req ≤ freeIn bit a' e' := hg'.full
            _ = freeIn bit c e' := (freeIn_gap hg'.behind hg'.gap).symm
            _ ≤ freeIn bit c n := freeIn_mono hg'.le
            _ = freeIn bit a n := freeIn_gap hca hgap
        obtain ⟨rfl,rfl⟩ := hg'.unique (hg hfull)
        by_contra hle
        exact hfit ⟨by omega,by omega⟩
      rcases hheld.final hn hlast with ⟨rfl,ho,hno⟩ | ⟨a',hfin,ho⟩
      · refine .inl ⟨ho,?_⟩
        rw [freeIn_gap hca hgap]
        by_contra hle
        exact hno a n (hg (by omega))
      · exact .inr ⟨a',c,hfin,ho⟩
  | @stuck c a e hf hheld hg hlt ht =>
    rw [if_neg fun hfit => by have := hfit.1; omega]
    rcases hheld.final hn fun a' e' hg' => by obtain ⟨rfl,rfl⟩ := hg'.unique hg; exact hlt with
      ⟨-,-,hno⟩ | ⟨a',hfin,ho⟩
    · exact (hno a e hg).elim
    · exact .inr ⟨a',c,hfin,ho⟩

end ResumePointers.Alloc
