import Mathlib.Algebra.Group.Nat.Defs
import Mathlib.Data.Nat.Log
import Mathlib.Logic.Relation
import Mathlib.Order.Nat

/-! The binary search in `dsa/vectors and stack/01-binary.cpp`, on an array in non-increasing order.
Indices are `int`, and their sum may overflow. -/
namespace ResumePointers.Dsa.Vectors

inductive Fault
  | range
  | overflow
  | fuel
deriving DecidableEq

/-- `(first + last) / 2`. -/
def middle (first last : ℕ) : Except Fault ℕ :=
  if first + last < 2 ^ 31 then .ok ((first + last) / 2) else .error .overflow

/-- The loop, from an interval and its middle on; returns whether it leaves through the branch that
has found `e`, and `iteration`. -/
def searchLoop (S : List ℤ) (e : ℤ) : ℕ → ℕ → ℕ → ℕ → ℕ → Except Fault (Bool × ℕ)
  | 0,_,_,_,_ => .error .fuel
  | fuel + 1,first,last,mid,iteration =>
    if first < last then
      match S[mid]? with
      | none => .error .range
      | some x =>
        if x = e then .ok (true,iteration + 1)
        else if x < e then do
          let next ← middle first mid
          searchLoop S e fuel first mid next (iteration + 1)
        else do
          let next ← middle (mid + 1) last
          searchLoop S e fuel (mid + 1) last next (iteration + 1)
    else .ok (false,iteration)

def BinarySearch (S : List ℤ) (n : ℕ) (e : ℤ) : Except Fault (Bool × ℕ) := do
  let mid ← middle 0 n
  searchLoop S e (n + 1) 0 n mid 0

/-- The search ends, without a probe out of range, in the found branch exactly if `e` is there, and
with few probes. -/
def Correct (S : List ℤ) (e : ℤ) : Prop :=
  ∃ found probes, BinarySearch S S.length e = .ok (found,probes) ∧ (found = true ↔ e ∈ S) ∧
    (1 ≤ S.length → probes ≤ Nat.log 2 S.length + 1)

/-- One halving of an interval that is not empty. -/
inductive Halve (S : List ℤ) (e : ℤ) : ℕ × ℕ → ℕ × ℕ → Prop
  | lower {first last : ℕ} {x : ℤ} (hlt : first < last) (hx : S[(first + last) / 2]? = some x)
      (h : x < e) : Halve S e (first,last) (first,(first + last) / 2)
  | upper {first last : ℕ} {x : ℤ} (hlt : first < last) (hx : S[(first + last) / 2]? = some x)
      (h : e < x) : Halve S e (first,last) ((first + last) / 2 + 1,last)

/-- The ends of every interval that the halving comes to have a sum that is an `int`. -/
def Small (S : List ℤ) (e : ℤ) (start : ℕ × ℕ) : Prop :=
  ∀ p, Relation.ReflTransGen (Halve S e) start p → p.1 + p.2 < 2 ^ 31

variable {S : List ℤ} {e x : ℤ} {first last fuel iteration n : ℕ} {r : Bool × ℕ} {p : ℕ × ℕ}

theorem middle_of_small (h : Small S e (first,last)) :
    middle first last = .ok ((first + last) / 2) := if_pos (h _ .refl)

theorem Small.step (h : Small S e (first,last)) (hp : Halve S e (first,last) p) : Small S e p :=
  fun q hq => h q (.head hp hq)

/-- All occurrences of `e` are in the interval. -/
def Within (S : List ℤ) (e : ℤ) (first last : ℕ) : Prop :=
  ∀ i, S[i]? = some e → first ≤ i ∧ i < last

theorem Within.lower (hs : S.Pairwise (· ≥ ·)) (h : Within S e first last) {mid : ℕ}
    (hx : S[mid]? = some x) (hlt : x < e) : Within S e first mid := by
  intro i hi
  refine ⟨(h i hi).1,Nat.lt_of_not_le fun hle => ?_⟩
  obtain ⟨hm,rfl⟩ := List.getElem?_eq_some_iff.mp hx
  obtain ⟨hi',rfl⟩ := List.getElem?_eq_some_iff.mp hi
  rcases Nat.eq_or_lt_of_le hle with rfl | hmi
  · exact lt_irrefl _ hlt
  · exact absurd (List.pairwise_iff_getElem.mp hs mid i hm hi' hmi) (not_le.mpr hlt)

theorem Within.upper (hs : S.Pairwise (· ≥ ·)) (h : Within S e first last) {mid : ℕ}
    (hx : S[mid]? = some x) (hlt : e < x) : Within S e (mid + 1) last := by
  intro i hi
  refine ⟨Nat.lt_of_not_le fun hle => ?_,(h i hi).2⟩
  obtain ⟨hm,rfl⟩ := List.getElem?_eq_some_iff.mp hx
  obtain ⟨hi',rfl⟩ := List.getElem?_eq_some_iff.mp hi
  rcases Nat.eq_or_lt_of_le hle with rfl | him
  · exact lt_irrefl _ hlt
  · exact absurd (List.pairwise_iff_getElem.mp hs i mid hi' hm him) (not_le.mpr hlt)

/-- Without overflow the search finds `e` exactly if it is there. An interval of less than `2 ^ c`
entries takes at most `c` probes. -/
theorem searchLoop_spec (hs : S.Pairwise (· ≥ ·)) (hsmall : Small S e (first,last))
    (hin : Within S e first last) (hle : first ≤ last) (hlast : last ≤ S.length)
    (hfuel : last < fuel + first) :
    ∃ found probes, searchLoop S e fuel first last ((first + last) / 2) iteration =
        .ok (found,iteration + probes) ∧
      (found = true ↔ e ∈ S) ∧ ∀ c, last < 2 ^ c + first → probes ≤ c := by
  induction fuel generalizing first last iteration with
  | zero => omega
  | succ fuel ih =>
    rw [searchLoop]
    by_cases hlt : first < last
    · have hmid : (first + last) / 2 < S.length := by omega
      have hx := List.getElem?_eq_getElem hmid
      generalize S[(first + last) / 2] = x at hx
      have hhalf : ∀ c, last < 2 ^ c + first → ∃ c', c = c' + 1 ∧
          (first + last) / 2 < 2 ^ c' + first ∧ last < 2 ^ c' + ((first + last) / 2 + 1) := by
        intro c hc
        cases c with
        | zero => omega
        | succ c =>
          rw [Nat.pow_succ] at hc
          exact ⟨c,rfl,by omega,by omega⟩
      rw [if_pos hlt,hx]
      dsimp only
      by_cases heq : x = e
      · rw [if_pos heq]
        refine ⟨true,1,rfl,iff_of_true rfl (List.mem_iff_getElem?.mpr ⟨_,heq ▸ hx⟩),fun c hc => ?_⟩
        obtain ⟨c',rfl,-⟩ := hhalf c hc
        exact Nat.le_add_left 1 c'
      · rw [if_neg heq]
        by_cases hless : x < e
        · have hsmall' := hsmall.step (.lower hlt hx hless)
          obtain ⟨found,probes,hrun,hfound,hprobes⟩ := @ih first ((first + last) / 2) (iteration + 1)
            hsmall' (hin.lower hs hx hless) (by omega) (by omega) (by omega)
          refine ⟨found,probes + 1,?_,hfound,fun c hc => ?_⟩
          · rw [if_pos hless,middle_of_small hsmall',Nat.add_comm probes,← Nat.add_assoc]
            exact hrun
          · obtain ⟨c',rfl,hc',-⟩ := hhalf c hc
            exact Nat.succ_le_succ (hprobes c' hc')
        · have hmore : e < x := by omega
          have hsmall' := hsmall.step (.upper hlt hx hmore)
          obtain ⟨found,probes,hrun,hfound,hprobes⟩ := @ih ((first + last) / 2 + 1) last (iteration + 1)
            hsmall' (hin.upper hs hx hmore) (by omega) hlast (by omega)
          refine ⟨found,probes + 1,?_,hfound,fun c hc => ?_⟩
          · rw [if_neg hless,middle_of_small hsmall',Nat.add_comm probes,← Nat.add_assoc]
            exact hrun
          · obtain ⟨c',rfl,-,hc'⟩ := hhalf c hc
            exact Nat.succ_le_succ (hprobes c' hc')
    · rw [if_neg hlt]
      refine ⟨false,0,rfl,iff_of_false Bool.false_ne_true fun hmem => ?_,fun _ _ => Nat.zero_le _⟩
      obtain ⟨i,hi⟩ := List.mem_iff_getElem?.mp hmem
      have := hin i hi
      omega

/-- A search that ends has computed the middle of every interval but the one it started with. -/
theorem small_of_searchLoop {mid : ℕ} (hmid : mid = (first + last) / 2)
    (h : searchLoop S e fuel first last mid iteration = .ok r) (hp : first + last < 2 ^ 31) :
    Small S e (first,last) := by
  induction fuel generalizing first last mid iteration with
  | zero => cases h
  | succ fuel ih =>
    intro q hq
    rcases Relation.ReflTransGen.cases_head hq with rfl | ⟨p,hstep,hrest⟩
    · exact hp
    · rw [searchLoop] at h
      cases hstep with
      | lower hlt hx hless =>
        rw [if_pos hlt,hmid,hx] at h
        dsimp only at h
        rw [if_neg hless.ne,if_pos hless,middle] at h
        split at h
        · next hsum => exact ih rfl h hsum q hrest
        · cases h
      | upper hlt hx hmore =>
        rw [if_pos hlt,hmid,hx] at h
        dsimp only at h
        rw [if_neg hmore.ne',if_neg hmore.le.not_gt,middle] at h
        split at h
        · next hsum => exact ih rfl h hsum q hrest
        · cases h

theorem correct_iff (hs : S.Pairwise (· ≥ ·)) : Correct S e ↔ Small S e (0,S.length) := by
  constructor
  · rintro ⟨found,probes,hrun,-⟩
    rw [BinarySearch,middle] at hrun
    split at hrun
    · next hsum => exact small_of_searchLoop (by rfl) hrun hsum
    · cases hrun
  · intro hsmall
    have hin : Within S e 0 S.length := fun i hi =>
      ⟨Nat.zero_le i,(List.getElem?_eq_some_iff.mp hi).1⟩
    obtain ⟨found,probes,hrun,hfound,hprobes⟩ := @searchLoop_spec S e 0 S.length (S.length + 1) 0 hs
      hsmall hin (Nat.zero_le _) (Nat.le_refl _) (Nat.lt_succ_self _)
    refine ⟨found,probes,?_,hfound,fun _ => hprobes _ (Nat.lt_pow_succ_log_self (by decide) _)⟩
    rw [BinarySearch,middle_of_small hsmall]
    rw [Nat.zero_add probes] at hrun
    exact hrun

theorem small_of_length (h : S.length < 2 ^ 30) : Small S e (0,S.length) := by
  intro p hp
  have hbound : p.1 ≤ p.2 ∧ p.2 ≤ S.length := by
    induction hp with
    | refl => exact ⟨Nat.zero_le _,Nat.le_refl _⟩
    | tail _ hstep ih =>
      cases hstep with
      | lower hlt hx hless =>
        dsimp only at ih ⊢
        omega
      | upper hlt hx hmore =>
        dsimp only at ih ⊢
        omega
  omega

/-- A key that is smaller than all entries is searched for up to the end of the array. -/
theorem halve_to_end (hall : ∀ x ∈ S, e < x) (h : first ≤ S.length) :
    Relation.ReflTransGen (Halve S e) (first,S.length) (S.length,S.length) := by
  induction hm : S.length - first using Nat.strongRecOn generalizing first with
  | ind m ih =>
    rcases Nat.eq_or_lt_of_le h with rfl | hlt
    · exact .refl
    · have hmid : (first + S.length) / 2 < S.length := by omega
      have hx := List.getElem?_eq_getElem hmid
      exact .head (.upper hlt hx (hall _ (List.getElem_mem hmid))) (ih _ (by omega) (by omega) rfl)

theorem not_correct_of_length (hs : S.Pairwise (· ≥ ·)) (hall : ∀ x ∈ S, e < x)
    (h : 2 ^ 30 ≤ S.length) : ¬ Correct S e := by
  rw [correct_iff hs]
  intro hsmall
  have := hsmall _ (halve_to_end hall (Nat.zero_le _))
  dsimp only at this
  omega

theorem not_correct_replicate (h : 2 ^ 30 ≤ n) : ¬ Correct (List.replicate n 1) 0 := by
  refine not_correct_of_length (List.pairwise_replicate.mpr (.inr le_rfl)) (fun x hx => ?_)
    (h.trans_eq List.length_replicate.symm)
  rw [List.eq_of_mem_replicate hx]
  exact Int.zero_lt_one

/-- The search in an array of length `n` in order is right exactly if no interval that the halving
comes to has ends whose sum overflows. This is so for all arrays of this length and all keys exactly
if the length is below `2 ^ 30`. -/
theorem binary_search_iff (n : ℕ) :
    (∀ (S : List ℤ) (e : ℤ), S.length = n → S.Pairwise (· ≥ ·) → (Correct S e ↔ Small S e (0,n))) ∧
    ((∀ (S : List ℤ) (e : ℤ), S.length = n → S.Pairwise (· ≥ ·) → Correct S e) ↔ n < 2 ^ 30) := by
  refine ⟨?_,fun h => ?_,?_⟩
  · rintro S e rfl hs
    exact correct_iff hs
  · refine Nat.lt_of_not_le fun hlong => ?_
    exact not_correct_replicate hlong
      (h _ 0 List.length_replicate (List.pairwise_replicate.mpr (.inr le_rfl)))
  · rintro hn S e rfl hs
    exact (correct_iff hs).mpr (small_of_length hn)

/-- In the longest array of ones the second sum in the search for 0 overflows, and in `2 ^ 30` ones the
last one does. -/
theorem middle_overflows : ¬ Correct (List.replicate (2 ^ 31 - 1) 1) 0 ∧
    ¬ Correct (List.replicate (2 ^ 30) 1) 0 :=
  ⟨not_correct_replicate (by omega),not_correct_replicate (Nat.le_refl _)⟩

example : BinarySearch [5,3,3,1] 4 1 = .ok (true,2) := by decide

end ResumePointers.Dsa.Vectors
