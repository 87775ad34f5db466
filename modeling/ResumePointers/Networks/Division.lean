import ResumePointers.Networks.Bits
import ResumePointers.Lib.CrcPolynomial

/-! The division of the labs (`networks_lab2/generator.py`) against the division of
polynomials over the field of two elements. -/
namespace ResumePointers.Networks

open Polynomial

/-- `mod2div` leaves the remainder by the divisor with a leading one, whatever its first character
is; it is linear, and what `encode_data` makes of a message is divided without remainder. -/
theorem mod2div_divides (x : Bool) (g : List Bool) :
    (∀ a : List Bool, g.length < a.length → ∃ r, mod2div a (x::g) = .ok r ∧
      r.length = g.length ∧ toPoly r = toPoly a %ₘ toPoly (true::g)) ∧
    (∀ a b : List Bool, g.length < a.length → a.length = b.length → ∃ r s,
      mod2div a (x::g) = .ok r ∧ mod2div b (x::g) = .ok s ∧
      mod2div (xorBits a b) (x::g) = .ok (xorBits r s)) ∧
    ∀ data : List Bool, data ≠ [] → ∃ r, encode_data data (x::g) = .ok (data ++ r) ∧
      mod2div (data ++ r) (x::g) = .ok (zeros g.length) := by
  refine ⟨fun a ha => ?_,fun a b ha hab => ?_,fun data hdata => ?_⟩
  · refine ⟨remainder g a,mod2div_eq x ha,length_remainder,?_⟩
    rw [toPoly_remainder,toPoly,if_pos rfl]
    rfl
  · have hxor : g.length < (xorBits a b).length := by rwa [length_xorBits hab,← hab]
    refine ⟨remainder g a,remainder g b,mod2div_eq x ha,mod2div_eq x (hab ▸ ha),?_⟩
    rw [mod2div_eq x hxor,remainder_xor hab]
  · have hpos := List.length_pos_iff.mpr hdata
    refine ⟨remainder g (data ++ zeros g.length),encode_data_eq x hdata,?_⟩
    rw [mod2div_eq x (by simp; omega),remainder_check]

end ResumePointers.Networks
