import ResumePointers.Lazy.Run

/-! How far a process can grow. `allocuvm` refuses what would reach `KERNBASE`, but `sys_mmap`
adds to the size without a look at it. -/
namespace ResumePointers.Lazy

open Xv6 Kernel

/-- The size and the debt of a process are in range. -/
structure InRange (x : Proc PageDir) : Prop where
  size : x.sz ≤ KERNBASE
  low : 0 ≤ x.allocLeft
  high : x.allocLeft < 2^31

/-- What `sys_mmap` and `growproc` leave to their callers: an accepted `mmap` stays below
`KERNBASE` and its count within an `int`, and a process gives back no more than it has. -/
def Modest [KernelImage] (op : Op) (s : Kernel Kmem) : Prop :=
  match op with
  | .mmap p bytes => (s.proc p).state = .RUNNABLE → 0 ≤ bytes.toInt → bytes.toInt % PGSIZE = 0 →
    (s.proc p).sz + bytes.toInt ≤ KERNBASE ∧ (s.proc p).allocLeft + bytes.toInt < 2^31
  | .growproc p n => (s.proc p).state = .RUNNABLE → n.toInt < 0 → -n.toInt ≤ (s.proc p).sz
  | .access p va write cpuid => Tame (.access p va write cpuid) s
  | _ => True

/-- The sums that an operation makes of sizes and counts are those of the integers. -/
def Exact (op : Op) (s : Kernel Kmem) : Prop :=
  match op with
  | .mmap p bytes => (s.proc p).state = .RUNNABLE → 0 ≤ bytes.toInt → bytes.toInt % PGSIZE = 0 →
    (uint ((s.proc p).sz + bytes.toInt) : ℤ) = (s.proc p).sz + bytes.toInt ∧
      int ((s.proc p).allocLeft + bytes.toInt) = (s.proc p).allocLeft + bytes.toInt
  | .growproc p n => (s.proc p).state = .RUNNABLE →
    (uint ((s.proc p).sz + n.toInt) : ℤ) = (s.proc p).sz + n.toInt
  | .access p _ _ _ => (s.proc p).state = .RUNNABLE →
    int ((s.proc p).allocLeft - PGSIZE) = (s.proc p).allocLeft - PGSIZE
  | _ => True

namespace InRange

variable {x y : Proc PageDir}

theorem same (h : InRange x) (hy : Ptable.SameImage x y) : InRange y :=
  ⟨hy.sz ▸ h.size,hy.allocLeft ▸ h.low,hy.allocLeft ▸ h.high⟩

theorem spend (h : InRange x) : 0 ≤ spend x.allocLeft ∧ Lazy.spend x.allocLeft < 2^31 := by
  have h1 := h.low
  have h2 := h.high
  have hp : (PGSIZE : ℤ) = 4096 := rfl
  have hi : int (x.allocLeft - PGSIZE) = x.allocLeft - PGSIZE :=
    int_of_range (by omega) (by omega)
  unfold Lazy.spend
  split <;> omega

end InRange

section
variable [KernelImage] {M : Finset Frame} {s t : Kernel Kmem} {p q : Slot} {d : PageDir}
  {out : List Frame} {k : Kmem}

theorem Faulted.in_range {va : ℕ} {x : Proc PageDir} (hx : Faulted s p d va k x)
    (h : InRange (s.proc p)) : InRange x := by
  cases hx with
  | killed => exact ⟨h.size,h.low,h.high⟩
  | served => exact ⟨h.size,h.spend.1,h.spend.2⟩
  | spent => exact ⟨h.size,h.spend.1,h.spend.2⟩

theorem Became.in_range {op : Op} {r : Option ℤ} {y : Proc PageDir}
    (hb : Became M s k op r q y) (hok : Modest op s)
    (h : ∀ p, (s.proc p).live → InRange (s.proc p)) : InRange y := by
  have hlive : ∀ p, (s.proc p).state = .RUNNABLE → InRange (s.proc p) := fun p hp =>
    h p (Proc.live_of_state hp (by decide) (by decide))
  cases hb with
  | same hl hy _ => exact (h q hl).same hy
  | faulted hp hd hf hx hy => exact (hx.in_range (hlive _ hp)).same hy
  | @mmapped _ bytes hp h0 hm hk =>
    obtain ⟨h1,h2⟩ := hok hp h0 hm
    obtain ⟨h3,h4,h5⟩ := hlive _ hp
    have hK : KERNBASE = 2^31 := rfl
    have hsz := uint_of_range (x := (s.proc q).sz + bytes.toInt) (by omega) (by omega)
    have hleft := int_of_range (x := (s.proc q).allocLeft + bytes.toInt) (by omega) h2
    refine ⟨?_,?_,?_⟩ <;> dsimp only <;> omega
  | grown hp hd hg =>
    obtain ⟨h3,h4,h5⟩ := hlive _ hp
    refine ⟨?_,h4,h5⟩
    cases hg with
    | same => exact h3
    | grown hn hlt hg => exact max_le h3 hlt.le
    | refused => exact h3
    | failed => exact h3
    | shrunk hn hs =>
      dsimp only
      split
      · exact h3
      · exact (min_le_left _ _).trans h3
  | child hp hd hq hc =>
    obtain ⟨h3,h4,h5⟩ := hlive _ hp
    exact ⟨h3,h4,h5⟩
  | executed hp hsz hb =>
    obtain ⟨h3,h4,h5⟩ := hlive _ hp
    exact ⟨hsz,h4,h5⟩

/-- What a run of modest operations keeps. -/
def Bounded (M : Finset Frame) (s : Kernel Kmem) : Prop :=
  Sound M s ∧ ∀ p, (s.proc p).live → InRange (s.proc p)

theorem Bounded.exact {op : Op} (h : Bounded M s) (hok : Modest op s) : Exact op s := by
  have hlive : ∀ p, (s.proc p).state = .RUNNABLE → InRange (s.proc p) := fun p hp =>
    h.2 p (Proc.live_of_state hp (by decide) (by decide))
  have hK : KERNBASE = 2^31 := rfl
  have hP : (PGSIZE : ℤ) = 4096 := rfl
  cases op with
  | access p va write cpuid =>
    intro hp
    obtain ⟨h1,h2,h3⟩ := hlive p hp
    exact int_of_range (by omega) (by omega)
  | mmap p bytes =>
    intro hp h0 hm
    obtain ⟨h1,h2,h3⟩ := hlive p hp
    obtain ⟨h4,h5⟩ := hok hp h0 hm
    exact ⟨uint_of_range (by omega) (by omega),int_of_range (by omega) h5⟩
  | growproc p n =>
    intro hp
    obtain ⟨h1,h2,h3⟩ := hlive p hp
    have hn := n.toInt_lt
    by_cases hneg : n.toInt < 0
    · have := hok hp hneg
      exact uint_of_range (by omega) (by omega)
    · exact uint_of_range (by omega) (by omega)
  | _ => trivial

end

end ResumePointers.Lazy
