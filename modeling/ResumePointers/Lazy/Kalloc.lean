import ResumePointers.Xv6.Pool

/-! The page allocator of the kernel with lazy `mmap`, which is the one that xv6 has
(`labquiz3_code/q3/kalloc.c`): a free list and no counts. -/
namespace ResumePointers.Lazy

open Xv6

/-- `kmem` and the bytes of physical memory. The link that the source keeps in the first word
of a free page is the list itself here. `dry` is ghost state: `kalloc` has returned 0 since
`kinit2`. -/
structure Kmem where
  freelist : List Frame
  bytes : Frame → Page
  dry : Bool

namespace Kmem

variable [KernelImage]

def kfree (v : Frame) : EStateM Panic Kmem Unit := do
  let s ← get
  if v < KernelImage.endPage ∨ PHYSTOP / PGSIZE ≤ v then throw (.panic "kfree")
  else set { s with
    bytes := Function.update s.bytes v fun _ => 1, freelist := v :: s.freelist }

def kalloc : EStateM Panic Kmem (Option Frame) := do
  let s ← get
  match s.freelist with
  | [] => do
    set { s with dry := true }
    pure none
  | r::next => do
    set { s with freelist := next }
    pure (some r)

/-- `freerange` over the pages `first, …, last - 1`. -/
def freerange (first last : ℕ) : EStateM Panic Kmem Unit :=
  if first < last then do
    kfree first
    freerange (first + 1) last
  else pure ()
termination_by last - first

/-- `kinit1(end, P2V(4*1024*1024))`. -/
def kinit1 : EStateM Panic Kmem Unit := freerange KernelImage.endPage 1024

/-- `kinit2(P2V(4*1024*1024), P2V(PHYSTOP))`. -/
def kinit2 : EStateM Panic Kmem Unit := do
  freerange 1024 (PHYSTOP / PGSIZE)
  modify fun s => { s with dry := false }

/-- The pages that leave between `kinit1` and `kinit2`: those of `kpgdir`, and a stack for
every other CPU. -/
def early : ℕ → EStateM Panic Kmem (List Frame)
  | 0 => pure []
  | n+1 => do
    let r ← kalloc
    let rest ← early n
    pure (r.toList ++ rest)

/-- The allocator's part of `main`; it returns what has left before `kinit2`. -/
def main (n : ℕ) : EStateM Panic Kmem (List Frame) := do
  kinit1
  let out ← early n
  kinit2
  pure out

/-- Before `main`: zeroed kernel data, and memory as it happens to be. -/
def bss (ram : Frame → Page) : Kmem := ⟨[],ram,false⟩

instance : PageAllocator Kmem where
  kalloc := kalloc
  kfree := kfree
  page s f := s.bytes f
  setPage f p s := { s with bytes := Function.update s.bytes f p }
  starved s := s.dry = true

/-- The pool is accounted for, and every page that is out has one owner. -/
structure Owned (M : Finset Frame) (s : Kmem) (R : Multiset Frame) : Prop where
  ledger : Ledger M s.freelist R
  sole : R.Nodup
  range : ∀ f ∈ M, KernelImage.endPage ≤ f ∧ f < PHYSTOP / PGSIZE

omit [KernelImage] in
/-- `kalloc` takes the head of the free list. -/
theorem kalloc_head (s : Kmem) : Total kalloc s fun r t =>
    r = s.freelist.head? ∧ t.freelist = s.freelist.tail ∧ t.bytes = s.bytes ∧
      (r.isSome → t.dry = s.dry) := by
  simp only [kalloc,post_bind,post_get]
  split
  · rename_i h
    simp only [post_bind,post_set,post_pure,h,List.head?_nil,List.tail_nil]
    exact ⟨trivial,trivial,trivial,fun hn => by cases hn⟩
  · rename_i r next h
    simp only [post_bind,post_set,post_pure,h,List.head?_cons,List.tail_cons]
    exact ⟨trivial,trivial,trivial,fun _ => trivial⟩

namespace Owned

variable {M : Finset Frame} {s : Kmem} {R : Multiset Frame} {f : Frame}

theorem ne_zero (h : Owned M s R) (hf : f ∈ R) : f ≠ 0 := by
  have h1 := (h.range f (h.ledger.held_mem f hf)).1
  have h2 : EXTMEM / PGSIZE < KernelImage.data := KernelImage.extmem_lt_data
  have h3 := KernelImage.data_le_end
  have h4 : EXTMEM / PGSIZE = 256 := by decide
  have hpos : (0 : ℕ) < f := by omega
  exact hpos.ne'

theorem kalloc_spec (h : Owned M s R) : Total kalloc s fun r t =>
    Keeps (fun _ => True) s t ∧
    (r = none → starved t ∧ Owned M t R ∧ M.card ≤ R.card) ∧
    ∀ f, r = some f → f ∉ R ∧ Owned M t ({f} + R) := by
  simp only [kalloc,post_bind,post_get]
  have hl := h.ledger
  split
  · rename_i hf
    rw [hf] at hl
    exact ⟨⟨fun _ _ => rfl,fun _ => rfl⟩,fun _ => ⟨rfl,⟨by rw [hf]; exact hl,h.sole,h.range⟩,
      hl.exhausted⟩,fun f hr => by cases hr⟩
  · rename_i r next hf
    rw [hf] at hl
    have hr : r ∉ R := hl.not_held (by simp)
    refine ⟨⟨fun _ _ => rfl,id⟩,fun hn => (by cases hn),fun f hs => ?_⟩
    obtain rfl := Option.some.inj hs
    rw [Multiset.singleton_add]
    exact ⟨hr,hl.pop,Multiset.nodup_cons.mpr ⟨hr,h.sole⟩,h.range⟩

theorem kfree_spec (h : Owned M s ({f} + R)) :
    Total (kfree f) s fun _ t => Owned M t R ∧ Keeps (· ∈ R) s t := by
  have hrange := h.range f (h.ledger.held_mem f (by simp))
  have hl := h.ledger
  have hs := h.sole
  rw [Multiset.singleton_add] at hl hs
  have hf : f ∉ R := (Multiset.nodup_cons.mp hs).1
  have hr : ¬ (f < KernelImage.endPage ∨ PHYSTOP / PGSIZE ≤ f) :=
    not_or.mpr ⟨not_lt.mpr hrange.1,not_le.mpr hrange.2⟩
  simp only [kfree,post_bind,post_get,if_neg hr,post_set]
  refine ⟨⟨hl.push hf,(Multiset.nodup_cons.mp hs).2,h.range⟩,⟨fun g hg => ?_,id⟩⟩
  have hne : g ≠ f := by rintro rfl; exact hf hg
  exact Function.update_of_ne hne _ _

end Owned

instance : LawfulPageAllocator Kmem where
  Acc := Owned
  acc_ne_zero := Owned.ne_zero
  kalloc_acc := Owned.kalloc_spec
  kfree_acc := Owned.kfree_spec
  acc_setPage _ _ h := ⟨h.ledger,h.sole,h.range⟩
  page_setPage f g p s := by
    change Function.update s.bytes f p g = _
    rw [Function.update_apply]
    rfl
  starved_setPage _ _ _ := Iff.rfl

/-- Where every page has one owner, it does not matter which of them is called a user's. -/
theorem held_of_owned {M : Finset Frame} {s : Kmem} {U K : Multiset Frame}
    (h : Owned M s (U + K)) : Held M s U K where
  acc := h
  sole f hf := by
    have h1 := Multiset.nodup_iff_count_le_one.mp h.sole f
    have h2 := Multiset.count_pos.mpr (Multiset.mem_add.mpr (.inr hf) : f ∈ U + K)
    omega

section Boot

variable {s : Kmem} {n : ℕ}

theorem freerange_spec {first last : ℕ} (hlo : KernelImage.endPage ≤ first)
    (hhi : last ≤ PHYSTOP / PGSIZE) : Total (freerange first last) s fun _ t =>
      t.freelist = (List.range' first (last - first)).reverse ++ s.freelist := by
  induction hm : last - first generalizing first s with
  | zero =>
    rw [freerange,if_neg (by omega)]
    simp
  | succ m ih =>
    rw [freerange,if_pos (by omega)]
    have hr : ¬ (first < KernelImage.endPage ∨ PHYSTOP / PGSIZE ≤ first) :=
      not_or.mpr ⟨by omega,not_le.mpr (by omega)⟩
    simp only [post_bind,kfree,post_get,if_neg hr,post_set]
    refine (ih (by omega) (by omega)).imp ?_
    rintro - t h
    rw [h,List.range'_succ]
    simp

omit [KernelImage] in
theorem early_spec : Total (early n) s fun out t => s.freelist = out ++ t.freelist := by
  induction n generalizing s with
  | zero => rfl
  | succ n ih =>
    simp only [early,post_bind]
    refine (kalloc_head s).imp ?_
    rintro r s₁ ⟨hr,htail,-⟩
    refine ih.imp ?_
    rintro out t h
    rw [post_pure,hr,List.append_assoc,← h,htail]
    cases s.freelist <;> rfl

/-- After `kinit2` the whole pool is free. -/
theorem main_spec (n : ℕ) (ram : Frame → Page) :
    Total (main n) (bss ram) fun out t =>
      Owned (pool out) t 0 ∧ ¬ starved t ∧ 56320 ≤ (pool out).card ∧
        t.freelist.length = (pool out).card := by
  have hend := KernelImage.end_le
  have hphys := PHYSTOP_pages
  simp only [main,kinit1,kinit2,post_bind,post_modify,post_pure]
  refine (freerange_spec le_rfl (by omega)).imp ?_
  rintro - s₁ hf₁
  refine early_spec.imp ?_
  rintro out s₂ hf₂
  refine (freerange_spec (by omega) le_rfl).imp ?_
  rintro - s₃ hf₃
  have hlist : (List.range' KernelImage.endPage (1024 - KernelImage.endPage)).reverse =
      out ++ s₂.freelist := by
    rw [← hf₂,hf₁]; simp [bss]
  obtain ⟨hnd,hpool,hcard⟩ := fullList_pool hlist
  have hfull : s₃.freelist = fullList s₂.freelist := hf₃
  refine ⟨⟨?_,Multiset.nodup_zero,fun f hf => ?_⟩,by simp [starved],hcard,?_⟩
  · rw [← hpool]
    dsimp only
    rw [hfull]
    exact .start hnd
  · have h := mem_pool.mp hf
    exact ⟨h.1,h.2.1⟩
  · rw [← hpool,List.toFinset_card_of_nodup hnd,hfull]

end Boot

end Kmem

end ResumePointers.Lazy
