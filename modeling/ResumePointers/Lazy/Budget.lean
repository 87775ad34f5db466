import ResumePointers.Lazy.Run

/-! The count of bytes that the kernel owes to a process, against the pages that `sys_mmap` has
promised and no fault has brought yet. -/
namespace ResumePointers.Lazy

open Xv6 Kernel

/-- The pages below `sz` among `m` that `d` does not have. -/
def owing (m : Finset ℕ) (sz : ℕ) (d : PageDir) : Finset ℕ :=
  m.filter fun v => v < pages sz ∧ d.get v = none

theorem mem_owing {m : Finset ℕ} {sz v : ℕ} {d : PageDir} :
    v ∈ owing m sz d ↔ v ∈ m ∧ v < pages sz ∧ d.get v = none := Finset.mem_filter

/-- The books of one process: nothing lies above its size, and its count is what it is owed. -/
structure Budget (x : Proc PageDir) (m : Finset ℕ) (d : PageDir) : Prop where
  size : x.sz ≤ KERNBASE
  below : Below x.sz d
  promised : ∀ v ∈ m, v < pages x.sz
  exact : x.allocLeft = PGSIZE * ((owing m x.sz d).card : ℤ)

theorem pages_add (sz n : ℕ) : pages (sz + n * PGSIZE) = pages sz + n := by
  simp only [pages,PGSIZE]; omega

namespace Budget

variable {x y : Proc PageDir} {m : Finset ℕ} {d d' : PageDir}

theorem same (h : Budget x m d) (hy : Ptable.SameImage x y) : Budget y m d :=
  ⟨hy.sz ▸ h.size,hy.sz ▸ h.below,hy.sz ▸ h.promised,by rw [hy.allocLeft,hy.sz]; exact h.exact⟩

theorem card_le (h : Budget x m d) : (owing m x.sz d).card ≤ USERPAGES := by
  have hsub : owing m x.sz d ⊆ Finset.range USERPAGES := fun v hv =>
    Finset.mem_range.mpr ((mem_owing.mp hv).2.1.trans_le (pages_le h.size))
  simpa using Finset.card_le_card hsub

/-- `sys_mmap` promises `n` more pages. -/
theorem mmap {n : ℕ} (h : Budget x m d) (hsz : x.sz + n * PGSIZE ≤ KERNBASE) :
    Budget { x with allocLeft := x.allocLeft + (n * PGSIZE : ℕ), sz := x.sz + n * PGSIZE }
      (m ∪ Finset.Ico (pages x.sz) (pages (x.sz + n * PGSIZE))) d := by
  have hle := pages_le hsz
  have hpages := pages_add x.sz n
  refine ⟨hsz,fun v hv hge => ?_,fun v hv => ?_,?_⟩
  · dsimp only at hge
    exact h.below v hv (by omega)
  · rcases Finset.mem_union.mp hv with hm | hi
    · have := h.promised v hm
      dsimp only
      omega
    · exact (Finset.mem_Ico.mp hi).2
  · have hset : owing (m ∪ Finset.Ico (pages x.sz) (pages (x.sz + n * PGSIZE)))
        (x.sz + n * PGSIZE) d = owing m x.sz d ∪
          Finset.Ico (pages x.sz) (pages (x.sz + n * PGSIZE)) := by
      ext v
      rw [mem_owing,Finset.mem_union,Finset.mem_union,mem_owing,Finset.mem_Ico]
      constructor
      · rintro ⟨hm | hi,hlt,hn⟩
        · exact .inl ⟨hm,h.promised v hm,hn⟩
        · exact .inr hi
      · rintro (⟨hm,hlt,hn⟩ | ⟨hlo,hhi⟩)
        · exact ⟨.inl hm,by omega,hn⟩
        · exact ⟨.inr ⟨hlo,hhi⟩,hhi,h.below v (by omega) hlo⟩
    have hdisj : Disjoint (owing m x.sz d)
        (Finset.Ico (pages x.sz) (pages (x.sz + n * PGSIZE))) := by
      rw [Finset.disjoint_left]
      intro v hv hi
      have h1 := (mem_owing.mp hv).2.1
      have h2 := (Finset.mem_Ico.mp hi).1
      omega
    have hcard : (owing (m ∪ Finset.Ico (pages x.sz) (pages (x.sz + n * PGSIZE)))
        (x.sz + n * PGSIZE) d).card = (owing m x.sz d).card + n := by
      rw [hset,Finset.card_union_of_disjoint hdisj,Nat.card_Ico]
      omega
    dsimp only
    rw [hcard,h.exact]
    push_cast
    rw [mul_add,mul_comm (n : ℤ)]

/-- A fault brings one of the pages. -/
theorem served {v : ℕ} {pte : Pte} (h : Budget x m d) (hv : v ∈ owing m x.sz d)
    (hg : ∀ w, d'.get w = if w = v then some pte else d.get w) :
    Budget { x with pgdir := some d', allocLeft := spend x.allocLeft } m d' := by
  obtain ⟨hm,hlt,hn⟩ := mem_owing.mp hv
  refine ⟨h.size,fun w hw hge => ?_,h.promised,?_⟩
  · dsimp only at hge
    rw [hg w,if_neg (by omega),h.below w hw hge]
  · have hset : owing m x.sz d' = (owing m x.sz d).erase v := by
      ext w
      rw [Finset.mem_erase,mem_owing,mem_owing,hg w]
      by_cases hw : w = v
      · subst hw; simp
      · simp [hw]
    have hpos := Finset.card_pos.mpr ⟨v,hv⟩
    have hcard := h.card_le
    have hU : USERPAGES = 524288 := rfl
    have hP : (PGSIZE : ℤ) = 4096 := rfl
    have hex := h.exact
    rw [hP] at hex
    dsimp only
    rw [hset,Finset.card_erase_of_mem hv,spend,int_of_range (by omega) (by omega),hP,if_neg (by omega)]
    omega

/-- Entries below the old size decide. -/
theorem congr {sz : ℕ} {k : PageDir} (h : Budget x m d) (hsz : sz ≤ KERNBASE) (hle : pages x.sz ≤ pages sz)
    (hb : Below sz d') (hg : ∀ v < pages x.sz, d'.get v = d.get v) :
    Budget { x with pgdir := some k, sz := sz } m d' := by
  refine ⟨hsz,hb,fun v hv => (h.promised v hv).trans_le hle,?_⟩
  have hset : owing m sz d' = owing m x.sz d := by
    ext v
    rw [mem_owing,mem_owing]
    constructor
    · rintro ⟨hm,-,hn⟩
      have hlt := h.promised v hm
      exact ⟨hm,hlt,hg v hlt ▸ hn⟩
    · rintro ⟨hm,hlt,hn⟩
      exact ⟨hm,hlt.trans_le hle,(hg v hlt).trans hn⟩
  dsimp only
  rw [hset]
  exact h.exact

end Budget

section
variable [KernelImage]

/-- The books of every process, and those of the page allocator. -/
structure Balanced (M : Finset Frame) (s : Traced) : Prop where
  sound : Sound M s.kernel
  budget : ∀ p, (s.kernel.proc p).live → ∀ d, (s.kernel.proc p).pgdir = some d →
    Budget (s.kernel.proc p) (s.mmapped p) d

variable {M : Finset Frame} {s t : Traced} {p q : Slot} {d : PageDir} {out : List Frame}

omit [KernelImage] in
theorem lazyPages_eq (hd : (s.kernel.proc p).pgdir = some d) :
    s.lazyPages p = owing (s.mmapped p) (s.kernel.proc p).sz d := by
  rw [Traced.lazyPages,hd]
  rfl

theorem Balanced.dir (h : Balanced M s) (hp : (s.kernel.proc p).state = .RUNNABLE) :
    ∃ d, (s.kernel.proc p).pgdir = some d ∧ Budget (s.kernel.proc p) (s.mmapped p) d := by
  have hl := Proc.live_of_state hp (by decide) (by decide)
  obtain ⟨X,hw⟩ := h.sound
  obtain ⟨d,hd,-⟩ := (hw.slot p).dir hl
  exact ⟨d,hd,h.budget p hl d hd⟩

/-- A fault that is served kills nobody, and costs its process a page. -/
theorem pgflt_spends {k : Kernel Kmem} {va cpuid : ℕ} (hne : (k.proc p).allocLeft ≠ 0) :
    Partial (pgflt p va cpuid) k fun _ t => (t.proc p).killed = (k.proc p).killed ∧
      (t.proc p).allocLeft = spend (k.proc p).allocLeft := by
  simp only [pgflt,post_bind,post_get,if_pos hne,post_onMem]
  refine Partial.of_forall fun r k₁ => ?_
  split
  · simp only [post_bind,post_onMem,memset,post_modify]
    refine Partial.of_forall fun r k₂ => ?_
    have hsame := fun x => tick_same (k.toPtable.setProc p x) cpuid p
    have hself : ∀ x, (k.toPtable.setProc p x).proc p = x := fun x => Function.update_self _ _ _
    refine ⟨?_,?_⟩
    · exact (hsame _).killed.trans (by rw [hself])
    · exact (hsame _).allocLeft.trans (by rw [hself])
  · trivial

/-- A run of the traced kernel, from a kernel that owes nothing yet. -/
abbrev TracedRun (ok : Op → Traced → Prop) (out : List Frame) : Traced → Prop :=
  Reach Traced.step ok fun s => Booted out s.kernel ∧ s.mmapped = fun _ => ∅

theorem Traced.post_step {op : Op} {Q : Option ℤ → Traced → Prop} {E : Panic → Traced → Prop} :
    Post (Traced.step op) s Q E ↔ Post (Lazy.step op) s.kernel
      (fun r t => Q r ⟨t,owe op r s.kernel t s.mmapped⟩) fun e t => E e ⟨t,s.mmapped⟩ := by
  simp only [Traced.step,post_bind,post_get,post_zoom,post_modify,post_pure]

theorem traced_step_mmap (bytes : Int32) (hp : (s.kernel.proc p).state = .RUNNABLE)
    (h0 : 0 ≤ bytes.toInt) (hm : bytes.toInt % PGSIZE = 0) :
    Traced.step (.mmap p bytes) s = .ok (some (int (s.kernel.proc p).sz))
      ⟨mmapped s.kernel p bytes.toInt,Function.update s.mmapped p (s.mmapped p ∪ Finset.Ico
        (pages (s.kernel.proc p).sz)
        (pages ((mmapped s.kernel p bytes.toInt).proc p).sz))⟩ := by
  have htot : Total (Traced.step (.mmap p bytes)) s fun r t =>
      r = some (int (s.kernel.proc p).sz) ∧ t = ⟨mmapped s.kernel p bytes.toInt,
        owe (.mmap p bytes) r s.kernel (mmapped s.kernel p bytes.toInt) s.mmapped⟩ := by
    refine Traced.post_step.mpr ?_
    rw [Post,Lazy.step_mmap bytes hp h0 hm]
    exact ⟨rfl,rfl⟩
  obtain ⟨_,_,h,rfl,rfl⟩ := htot.exists_ok
  exact h

end

end ResumePointers.Lazy
