import ResumePointers.Daa.Outline
import ResumePointers.Lib.Envelope

/-! The area that `main` of `DAA/22b0944.cpp` computes, against the area under the pointwise maximum
of the posters. -/
namespace ResumePointers.Daa
open Envelope MeasureTheory

/-- No two posters overlap or touch. -/
def Disjoint (posters : List Poster) : Prop :=
  posters.Pairwise fun p q => p.2.x < q.1.x ∨ q.2.x < p.1.x

variable {posters : List Poster} {outline : List Point}

end ResumePointers.Daa
