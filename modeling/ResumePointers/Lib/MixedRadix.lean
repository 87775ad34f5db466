import Mathlib.Data.List.Forall2
import Mathlib.Algebra.BigOperators.Group.List.Basic
import Mathlib.Tactic.Ring

/-! Numbers with a base for each digit. -/
namespace ResumePointers

variable {s t c : List ℕ}

/-- The number with digits `s` to the bases `c`, the lowest digit first. -/
def radix : List ℕ → List ℕ → ℕ
  | a::s,b::c => a + b * radix s c
  | _,_ => 0

/-- Every digit is below its base. -/
abbrev Digits (s c : List ℕ) : Prop := List.Forall₂ (· < ·) s c

theorem radix_lt (h : Digits s c) : radix s c < c.prod := by
  induction h with
  | nil => decide
  | @cons a b s c ha _ ih =>
    have hle := Nat.mul_le_mul_left b (Nat.succ_le_of_lt ih)
    rw [Nat.mul_succ] at hle
    rw [radix,List.prod_cons]
    omega

theorem radix_inj (hs : Digits s c) (ht : Digits t c) (heq : radix s c = radix t c) : s = t := by
  induction hs generalizing t with
  | nil => exact (List.forall₂_nil_right_iff.mp ht).symm
  | @cons a b s c ha _ ih =>
    obtain ⟨a',t',ha',ht',rfl⟩ := List.forall₂_cons_right_iff.mp ht
    rw [radix,radix] at heq
    have hhigh : radix s c = radix t' c := by
      have := congrArg (· / b) heq
      simpa [Nat.add_mul_div_left _ _ (Nat.zero_lt_of_lt ha),Nat.div_eq_of_lt,ha,ha'] using this
    rw [hhigh] at heq
    rw [Nat.add_right_cancel heq,ih ht' hhigh]

/-- Horner's rule, the highest digit first. -/
def horner : List ℕ → List ℕ → ℕ → ℕ
  | a::s,b::c,acc => horner s c (acc * b + a)
  | _,_,acc => acc

theorem horner_concat (a b acc : ℕ) (h : s.length = c.length) :
    horner (s ++ [a]) (c ++ [b]) acc = horner s c acc * b + a := by
  induction s generalizing c acc with
  | nil =>
    obtain rfl := List.length_eq_zero_iff.mp h.symm
    rfl
  | cons d s ih =>
    cases c with
    | nil => simp at h
    | cons e c => exact ih _ (Nat.succ.inj h)

theorem horner_reverse (h : s.length = c.length) : horner s.reverse c.reverse 0 = radix s c := by
  induction s generalizing c with
  | nil =>
    obtain rfl := List.length_eq_zero_iff.mp h.symm
    rfl
  | cons a s ih =>
    cases c with
    | nil => simp at h
    | cons b c =>
      have hlen : s.length = c.length := Nat.succ.inj h
      rw [List.reverse_cons,List.reverse_cons,horner_concat a b 0 (by simpa using hlen),ih hlen,
        radix]
      ring

end ResumePointers
