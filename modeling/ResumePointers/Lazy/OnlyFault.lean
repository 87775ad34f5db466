import ResumePointers.Lazy.Run

/-! What else a page fault changes. The handler's case ends without a `break`, so on processor 0 the
fault counts as a tick of the clock. -/
namespace ResumePointers.Lazy

open Xv6 Kernel

variable [KernelImage]

/-- From `s` to `t` nothing has changed but the page table, the count and the mark of `p`, the free
list and the pages it has given. -/
structure OnlyFault (s t : Kernel Kmem) (p : Slot) : Prop where
  others : ∀ q ≠ p, t.proc q = s.proc q
  own : ∃ pgdir allocLeft killed, t.proc p =
    { s.proc p with pgdir := pgdir, allocLeft := allocLeft, killed := killed }
  ticks : t.ticks = s.ticks
  rest : t.initproc = s.initproc ∧ t.nextpid = s.nextpid ∧ t.pipes = s.pipes
  free : t.mem.freelist <:+ s.mem.freelist
  bytes : ∀ f ∉ s.mem.freelist, t.mem.bytes f = s.mem.bytes f

/-- Either that is all, or it was all until `p`, now marked and in user mode, went to its `exit`. -/
def FaultEnds (s t : Kernel Kmem) (p : Slot) (user : Bool) : Prop :=
  OnlyFault s t p ∨ user = true ∧ ∃ u, OnlyFault s u p ∧ (u.proc p).killed = true ∧
    Kernel.exit p u = .ok () t

variable {s t u : Kernel Kmem} {k : Kmem} {p : Slot} {va cpuid : ℕ}

omit [KernelImage] in
theorem OnlyFault.refl (s : Kernel Kmem) (p : Slot) : OnlyFault s s p where
  others _ _ := rfl
  own := ⟨_,_,_,rfl⟩
  ticks := rfl
  rest := ⟨rfl,rfl,rfl⟩
  free := List.suffix_rfl
  bytes _ _ := rfl

omit [KernelImage] in
theorem exit_ticks (t : Ptable PageDir) (p : Slot) : (t.exit p).ticks = t.ticks := by
  have habandon : ∀ t : Ptable PageDir, (t.abandon p).ticks = t.ticks := by
    intro t
    unfold Ptable.abandon
    repeat' split
    all_goals rfl
  unfold Ptable.exit
  refine (habandon _).trans ?_
  split <;> rfl

omit [KernelImage] in
theorem exit_ok_ticks (h : Kernel.exit p u = .ok () t) : t.ticks = u.ticks := by
  have hpost : Partial (Kernel.exit p) u fun _ t => t.ticks = u.ticks := by
    simp only [Kernel.exit,Partial,post_bind,post_get]
    split
    · trivial
    · exact exit_ticks _ p
  exact hpost.of_ok h

omit [KernelImage] in
theorem FaultEnds.ticks {user : Bool} (h : FaultEnds s t p user) : t.ticks = s.ticks := by
  rcases h with h | ⟨-,u,hu,-,hexit⟩
  · exact h.ticks
  · exact (exit_ok_ticks hexit).trans hu.ticks

end ResumePointers.Lazy
