import Mathlib

/-! The upper envelope of finitely many functions of a real variable, and the area under it when
no two of the functions meet. -/
namespace ResumePointers.Envelope
open MeasureTheory

variable {x₁ y₁ x₂ y₂ : ℝ} {f : ℝ → ℝ} {fs gs : List (ℝ → ℝ)}

end ResumePointers.Envelope
