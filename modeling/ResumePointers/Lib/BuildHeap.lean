import ResumePointers.Lib.BinaryHeap
import Mathlib.Order.WithBot

/-! Heap order from an index on, and how sinking one entry after another extends it to the whole
array. Entries in front of the index count as larger than all others. -/
namespace ResumePointers

variable {α : Type} {f : ℕ → α} {n s t i j : ℕ}

variable [LinearOrder α]

end ResumePointers
