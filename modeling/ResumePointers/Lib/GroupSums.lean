import Mathlib

/-! Sums over the groups of a list, where a key says which group an element belongs to. -/
namespace ResumePointers.GroupSums

variable {α κ M : Type*} [DecidableEq κ] [AddCommMonoid M]

/-- The sum over the elements with this key. -/
def groupSum (key : α → κ) (x : α → M) (l : List α) (k : κ) : M :=
  ((l.filter fun a => key a = k).map x).sum

variable {key : α → κ} {x : α → M} {l : List α} {k : κ} {ks : List κ}

end ResumePointers.GroupSums
