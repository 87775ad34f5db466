import ResumePointers.Xv6.Pool

/-! The page allocator of the copy-on-write kernel (`memory-assignment/kalloc.c`): a free
list and a reference count for every physical page. -/
namespace ResumePointers.Cow

open Xv6

/-- `kmem` and `refcount`, and the bytes of physical memory. The link that the source keeps
in the first word of a free page is the list itself here. Each operation holds both locks
throughout, so of the two `use_lock` only the one that turns counting on is kept. `dry` is
ghost state: `kalloc` has returned 0 since `kinit2`, or since somebody began to watch. -/
structure Kmem where
  freelist : List Frame
  count : Frame → ℤ
  use_lock : Bool
  bytes : Frame → Page
  dry : Bool

namespace Kmem

variable [KernelImage]

def kfree (v : Frame) : EStateM Panic Kmem Unit := do
  let s ← get
  if v < KernelImage.endPage ∨ PHYSTOP / PGSIZE ≤ v then throw (.panic "kfree")
  else if s.use_lock then
    if PHYSTOP / PGSIZE ≤ v then throw (.panic "kfree: refcount")
    else do
      let c := s.count v - 1
      set { s with count := Function.update s.count v c }
      if c < 0 then throw (.panic "kfree: refcount < 0")
      else if c ≠ 0 then pure ()
      else modify fun s => { s with
        bytes := Function.update s.bytes v fun _ => 1, freelist := v :: s.freelist }
  else modify fun s => { s with
    bytes := Function.update s.bytes v fun _ => 1, freelist := v :: s.freelist }

def kalloc : EStateM Panic Kmem (Option Frame) := do
  let s ← get
  match s.freelist with
  | [] => do
    set { s with dry := true }
    pure none
  | r::next => do
    set { s with freelist := next }
    if s.use_lock then
      if PHYSTOP / PGSIZE ≤ r then throw (.panic "kalloc: refcount")
      else modify fun s => { s with count := Function.update s.count r 1 }
    pure (some r)

def incrementRefCount (v : Frame) : EStateM Panic Kmem Unit := do
  let s ← get
  if v < KernelImage.endPage ∨ PHYSTOP / PGSIZE ≤ v then throw (.panic "incrementRefCount")
  else if s.use_lock then
    if s.count v = 0 then throw (.panic "incrementRefCount: refcount == 0")
    else set { s with count := Function.update s.count v (s.count v + 1) }

/-- `freerange` over the pages `first, …, last - 1`. -/
def freerange (first last : ℕ) : EStateM Panic Kmem Unit :=
  if first < last then do
    kfree first
    freerange (first + 1) last
  else pure ()
termination_by last - first

/-- `kinit1(end, P2V(4*1024*1024))`. -/
def kinit1 : EStateM Panic Kmem Unit := do
  modify fun s => { s with use_lock := false, count := fun _ => 0 }
  freerange KernelImage.endPage 1024

/-- `kinit2(P2V(4*1024*1024), P2V(PHYSTOP))`. -/
def kinit2 : EStateM Panic Kmem Unit := do
  freerange 1024 (PHYSTOP / PGSIZE)
  modify fun s => { s with use_lock := true, dry := false }

/-- `getNumFreePages`. -/
def getNumFreePages (s : Kmem) : ℕ := s.freelist.length

/-- The pages that leave between `kinit1` and `kinit2`: those of `kpgdir`, and a stack for
every other CPU. -/
def early : ℕ → EStateM Panic Kmem (List Frame)
  | 0 => pure []
  | n+1 => do
    let r ← kalloc
    let rest ← early n
    pure (r.toList ++ rest)

/-- The allocator's part of `main`; it returns what has left before `kinit2`. -/
def main (n : ℕ) : EStateM Panic Kmem (List Frame) := do
  kinit1
  let out ← early n
  kinit2
  pure out

/-- Before `main`: zeroed kernel data, and memory as it happens to be. -/
def bss (ram : Frame → Page) : Kmem := ⟨[],fun _ => 0,false,ram,false⟩

instance : PageAllocator Kmem where
  kalloc := kalloc
  kfree := kfree
  page s f := s.bytes f
  setPage f p s := { s with bytes := Function.update s.bytes f p }
  starved s := s.dry = true

/-- The pool is accounted for, and the counts are the references that are out. -/
structure Counted (M : Finset Frame) (s : Kmem) (R : Multiset Frame) : Prop where
  ledger : Ledger M s.freelist R
  count : ∀ f, s.count f = R.count f
  use_lock : s.use_lock = true
  range : ∀ f ∈ M, KernelImage.endPage ≤ f ∧ f < PHYSTOP / PGSIZE

namespace Counted

variable {M : Finset Frame} {s : Kmem} {R : Multiset Frame} {f : Frame}

theorem ne_zero (h : Counted M s R) (hf : f ∈ R) : f ≠ 0 := by
  have h1 := (h.range f (h.ledger.held_mem f hf)).1
  have h2 : EXTMEM / PGSIZE < KernelImage.data := KernelImage.extmem_lt_data
  have h3 := KernelImage.data_le_end
  have h4 : EXTMEM / PGSIZE = 256 := by decide
  have hpos : (0 : ℕ) < f := by omega
  exact hpos.ne'

theorem kalloc_spec (h : Counted M s R) : Total kalloc s fun r t =>
    Keeps (fun _ => True) s t ∧
    (r = none → starved t ∧ Counted M t R ∧ M.card ≤ R.card) ∧
    ∀ f, r = some f → f ∉ R ∧ Counted M t ({f} + R) := by
  simp only [kalloc,post_bind,post_get]
  have hl := h.ledger
  split
  · rename_i hf
    rw [hf] at hl
    refine ⟨⟨fun _ _ => rfl,fun _ => rfl⟩,fun _ => ⟨rfl,⟨by rw [hf]; exact hl,h.count,h.use_lock,
      h.range⟩,hl.exhausted⟩,fun f hr => by cases hr⟩
  · rename_i r next hf
    rw [hf] at hl
    have hr : r ∉ R := hl.not_held (by simp)
    have hrange := h.range r (hl.free_mem r (by simp))
    simp only [post_bind,post_set,h.use_lock,if_true,if_neg (not_le.mpr hrange.2),post_modify,
      post_pure]
    refine ⟨⟨fun _ _ => rfl,id⟩,by simp,fun f hs => ?_⟩
    obtain rfl := Option.some.inj hs
    refine ⟨hr,?_,fun g => ?_,rfl,h.range⟩
    · rw [Multiset.singleton_add]; exact hl.pop
    · by_cases hg : g = r
      · subst hg
        simp [Multiset.count_eq_zero.mpr hr]
      · simp [hg,h.count g]

theorem kfree_spec (h : Counted M s ({f} + R)) :
    Total (kfree f) s fun _ t => Counted M t R ∧ Keeps (· ∈ R) s t := by
  have hrange := h.range f (h.ledger.held_mem f (by simp))
  have hcount : s.count f - 1 = (R.count f : ℤ) := by
    rw [h.count f,Multiset.count_add,Multiset.count_singleton_self]; omega
  have hc : ∀ g, Function.update s.count f (s.count f - 1) g = (R.count g : ℤ) := fun g => by
    by_cases hg : g = f
    · subst hg; rw [Function.update_self,hcount]
    · rw [Function.update_of_ne hg,h.count g,Multiset.count_add,Multiset.count_singleton,
        if_neg hg,zero_add]
  have hl := h.ledger
  rw [Multiset.singleton_add] at hl
  have hr1 : ¬ (f < KernelImage.endPage ∨ PHYSTOP / PGSIZE ≤ f) :=
    not_or.mpr ⟨not_lt.mpr hrange.1,not_le.mpr hrange.2⟩
  simp only [kfree,post_bind,post_get,if_neg hr1,h.use_lock,if_true,
    if_neg (not_le.mpr hrange.2),post_set]
  rw [if_neg (by omega)]
  by_cases hf : f ∈ R
  · have hpos := Multiset.count_pos.mpr hf
    rw [if_pos (by omega)]
    exact ⟨⟨hl.unshare hf,hc,rfl,h.range⟩,⟨fun _ _ => rfl,id⟩⟩
  · have h0 := Multiset.count_eq_zero.mpr hf
    rw [if_neg (by omega)]
    refine ⟨⟨hl.push hf,hc,rfl,h.range⟩,⟨fun g hg => ?_,id⟩⟩
    have hne : g ≠ f := by rintro rfl; exact hf hg
    exact Function.update_of_ne hne _ _

/-- Whoever refers to a page can have it referred to once more. -/
theorem incrementRefCount_spec (h : Counted M s R) (hf : f ∈ R) :
    Total (incrementRefCount f) s fun _ t =>
      Counted M t ({f} + R) ∧ Keeps (fun _ => True) s t := by
  have hrange := h.range f (h.ledger.held_mem f hf)
  have hpos := Multiset.count_pos.mpr hf
  have hr1 : ¬ (f < KernelImage.endPage ∨ PHYSTOP / PGSIZE ≤ f) :=
    not_or.mpr ⟨not_lt.mpr hrange.1,not_le.mpr hrange.2⟩
  have hne : ¬ s.count f = 0 := by rw [h.count f]; omega
  simp only [incrementRefCount,post_bind,post_get,if_neg hr1,h.use_lock,if_true,if_neg hne,post_set]
  refine ⟨⟨?_,fun g => ?_,rfl,h.range⟩,⟨fun _ _ => rfl,id⟩⟩
  · rw [Multiset.singleton_add]; exact h.ledger.share hf
  · dsimp only
    by_cases hg : g = f
    · subst hg
      rw [Function.update_self,h.count g,Multiset.count_add,Multiset.count_singleton_self]
      omega
    · rw [Function.update_of_ne hg,h.count g,Multiset.count_add,Multiset.count_singleton,
        if_neg hg,zero_add]

end Counted

instance : LawfulPageAllocator Kmem where
  Acc := Counted
  acc_ne_zero := Counted.ne_zero
  kalloc_acc := Counted.kalloc_spec
  kfree_acc := Counted.kfree_spec
  acc_setPage _ _ h := ⟨h.ledger,h.count,h.use_lock,h.range⟩
  page_setPage f g p s := by
    change Function.update s.bytes f p g = _
    rw [Function.update_apply]
    rfl
  starved_setPage _ _ _ := Iff.rfl

omit [KernelImage] in
theorem kalloc_none_iff (s : Kmem) : Partial kalloc s fun r _ => r = none ↔ s.freelist = [] := by
  simp only [kalloc,post_bind,post_get]
  split
  · rename_i h
    exact ⟨fun _ => h,fun _ => rfl⟩
  · rename_i r next h
    have hn : ¬ ((some r : Option Frame) = none ↔ s.freelist = []) → False := by simp [h]
    simp only [post_bind,post_set]
    split
    · split
      · trivial
      · exact not_not.mp hn
    · exact not_not.mp hn

section Boot

variable {s : Kmem} {n : ℕ}

/-- While counting is off, `freerange` only puts pages on the list. -/
theorem freerange_spec {first last : ℕ} (hlo : KernelImage.endPage ≤ first)
    (hhi : last ≤ PHYSTOP / PGSIZE) (hoff : s.use_lock = false) :
    Total (freerange first last) s fun _ t => t.use_lock = false ∧ t.count = s.count ∧
      t.freelist = (List.range' first (last - first)).reverse ++ s.freelist := by
  induction hm : last - first generalizing first s with
  | zero =>
    rw [freerange,if_neg (by omega)]
    exact ⟨hoff,rfl,by simp⟩
  | succ m ih =>
    rw [freerange,if_pos (by omega)]
    have hr : ¬ (first < KernelImage.endPage ∨ PHYSTOP / PGSIZE ≤ first) :=
      not_or.mpr ⟨by omega,not_le.mpr (by omega)⟩
    simp only [post_bind,kfree,post_get,if_neg hr,hoff,Bool.false_eq_true,if_false,post_modify]
    refine (ih (by omega) rfl (by omega)).imp ?_
    rintro - t ⟨h1,h2,h3⟩
    refine ⟨h1,h2,?_⟩
    rw [h3,List.range'_succ]
    simp

omit [KernelImage] in
/-- While counting is off, `kalloc` only takes pages off the list. -/
theorem early_spec (hoff : s.use_lock = false) :
    Total (early n) s fun out t => t.use_lock = false ∧ t.count = s.count ∧
      s.freelist = out ++ t.freelist := by
  induction n generalizing s with
  | zero => exact ⟨hoff,rfl,rfl⟩
  | succ n ih =>
    simp only [early,post_bind,kalloc,post_get]
    split
    · simp only [post_bind,post_set,post_pure]
      refine (ih (s := { s with dry := true }) hoff).imp ?_
      rintro out t ⟨h1,h2,h3⟩
      exact ⟨h1,h2,by simpa using h3⟩
    · rename_i r next hf
      simp only [post_bind,post_set,hoff,Bool.false_eq_true,if_false,post_pure]
      refine (ih rfl).imp ?_
      rintro out t ⟨h1,h2,h3⟩
      refine ⟨h1,h2,?_⟩
      rw [hf]
      simpa using h3

/-- After `kinit2` the whole pool is free, with the count 0 on every page. -/
theorem main_spec (n : ℕ) (ram : Frame → Page) :
    Total (main n) (bss ram) fun out t =>
      Counted (pool out) t 0 ∧ ¬ starved t ∧ 56320 ≤ (pool out).card := by
  have hend := KernelImage.end_le
  have hphys := PHYSTOP_pages
  simp only [main,kinit1,kinit2,post_bind,post_modify,post_pure]
  refine (freerange_spec le_rfl (by omega) rfl).imp ?_
  rintro - s₁ ⟨hoff₁,hc₁,hf₁⟩
  refine (early_spec hoff₁).imp ?_
  rintro out s₂ ⟨hoff₂,hc₂,hf₂⟩
  refine (freerange_spec (by omega) le_rfl hoff₂).imp ?_
  rintro - s₃ ⟨-,hc₃,hf₃⟩
  have hlist : (List.range' KernelImage.endPage (1024 - KernelImage.endPage)).reverse =
      out ++ s₂.freelist := by
    rw [← hf₂,hf₁]; simp [bss]
  obtain ⟨hnd,hpool,hcard⟩ := fullList_pool hlist
  have hfull : s₃.freelist = fullList s₂.freelist := hf₃
  refine ⟨⟨?_,fun f => ?_,rfl,fun f hf => ?_⟩,by simp [starved],hcard⟩
  · rw [← hpool]
    dsimp only
    rw [hfull]
    exact .start hnd
  · dsimp only
    rw [hc₃,hc₂,hc₁]; rfl
  · have h := mem_pool.mp hf
    exact ⟨h.1,h.2.1⟩

end Boot

end Kmem

end ResumePointers.Cow
