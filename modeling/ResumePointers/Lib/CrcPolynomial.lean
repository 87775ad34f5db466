import ResumePointers.Lib.Crc
import Mathlib

/-! Bit strings as polynomials over the field of two elements: the shift register divides by
the polynomial of its feedback under a leading one. -/
namespace ResumePointers

open Polynomial

/-- The polynomial with the coefficients `a`, the highest first. -/
noncomputable def toPoly : List Bool → (ZMod 2)[X]
  | [] => 0
  | b::a => (if b then X ^ a.length else 0) + toPoly a

/-- The divisor of a register with the feedback `g`. -/
noncomputable def divisorPoly (g : List Bool) : (ZMod 2)[X] := X ^ g.length + toPoly g

variable {g a b r : List Bool}

theorem toPoly_append (a b : List Bool) :
    toPoly (a ++ b) = toPoly a * X ^ b.length + toPoly b := by
  induction a with
  | nil => simp [toPoly]
  | cons x a ih =>
    rw [List.cons_append,toPoly,toPoly,ih,List.length_append,pow_add]
    split_ifs <;> ring

theorem degree_toPoly_lt (a : List Bool) : (toPoly a).degree < a.length := by
  induction a with
  | nil => simp [toPoly]
  | cons b a ih =>
    have hpow : (if b then X ^ a.length else 0 : (ZMod 2)[X]).degree ≤ a.length := by
      split_ifs
      · exact degree_X_pow_le _
      · simp
    have hlt : ((a.length : ℕ) : WithBot ℕ) < (b::a).length := by
      rw [List.length_cons]
      exact_mod_cast Nat.lt_succ_self _
    exact (degree_add_le _ _).trans_lt (max_lt (hpow.trans_lt hlt) (ih.trans hlt))

theorem toPoly_xorBits (h : a.length = b.length) :
    toPoly (xorBits a b) = toPoly a + toPoly b := by
  induction a generalizing b with
  | nil =>
    rw [List.length_eq_zero_iff.mp h.symm]
    simp [xorBits,toPoly]
  | cons x a ih =>
    cases b with
    | nil => cases h
    | cons y b =>
      have hlen : a.length = b.length := Nat.succ.inj h
      have hbit : (if x ^^ y then X ^ b.length else 0 : (ZMod 2)[X]) =
          (if x then X ^ b.length else 0) + if y then X ^ b.length else 0 := by
        cases x <;> cases y <;> simp [CharTwo.add_self_eq_zero]
      rw [xorBits_cons,toPoly,toPoly,toPoly,ih hlen,length_xorBits hlen,hlen,hbit,
        add_add_add_comm]

theorem divisorPoly_monic (g : List Bool) : (divisorPoly g).Monic :=
  monic_X_pow_add (degree_toPoly_lt g)

theorem degree_divisorPoly (g : List Bool) : (divisorPoly g).degree = g.length := by
  rw [divisorPoly,degree_add_eq_left_of_degree_lt,degree_X_pow]
  rw [degree_X_pow]
  exact degree_toPoly_lt g

/-- A shift adds a multiple of the divisor, if anything. -/
theorem dvd_shiftIn (hr : r.length = g.length) (b : Bool) :
    divisorPoly g ∣ toPoly (shiftIn g r b) - toPoly (r ++ [b]) := by
  cases r with
  | nil =>
    obtain rfl := List.length_eq_zero_iff.mp hr.symm
    simp [divisorPoly,toPoly]
  | cons x r =>
    have hlen : g.length = (r ++ [b]).length := by simpa using hr.symm
    rw [shiftIn,List.cons_append,toPoly]
    cases x with
    | false => simp
    | true =>
      rw [if_pos rfl,if_pos rfl,toPoly_xorBits hlen,← hlen,add_sub_add_right_eq_sub,
        CharTwo.sub_eq_add,add_comm,divisorPoly]

theorem dvd_foldl_shiftIn (hr : r.length = g.length) (a : List Bool) :
    divisorPoly g ∣ toPoly (a.foldl (shiftIn g) r) - toPoly (r ++ a) := by
  induction a generalizing r with
  | nil => simp
  | cons b a ih =>
    have hstep : toPoly (shiftIn g r b ++ a) - toPoly (r ++ b::a) =
        (toPoly (shiftIn g r b) - toPoly (r ++ [b])) * X ^ a.length := by
      rw [List.append_cons,toPoly_append,toPoly_append (r ++ [b])]
      ring
    have hdvd := dvd_add (ih (length_shiftIn hr b))
      (hstep ▸ (dvd_shiftIn hr b).mul_right (X ^ a.length))
    rwa [sub_add_sub_cancel] at hdvd

theorem toPoly_zeros (n : ℕ) : toPoly (zeros n) = 0 := by
  induction n with
  | zero => rfl
  | succ n ih =>
    rw [zeros,List.replicate_succ,toPoly,← zeros,ih]
    simp

/-- The register holds the remainder. -/
theorem toPoly_remainder (g a : List Bool) : toPoly (remainder g a) = toPoly a %ₘ divisorPoly g := by
  have hdvd := dvd_foldl_shiftIn (length_zeros g.length) a
  rw [toPoly_append,toPoly_zeros,zero_mul,zero_add] at hdvd
  have hdeg : (toPoly (remainder g a)).degree < (divisorPoly g).degree := by
    rw [degree_divisorPoly,← length_remainder (a := a)]
    exact degree_toPoly_lt _
  rw [← modByMonic_eq_of_dvd_sub (divisorPoly_monic g) hdvd]
  exact ((modByMonic_eq_self_iff (divisorPoly_monic g)).mpr hdeg).symm

end ResumePointers
