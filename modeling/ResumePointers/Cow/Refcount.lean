import ResumePointers.Cow.Run

/-! Reference counts are exact: in every state that a run of the copy-on-write kernel
reaches, `refcount.count` of a page is the number of entries that map it, and one more if
the kernel has it for itself; the rest of the pool is on the free list. -/
namespace ResumePointers.Cow

open Xv6 Kernel

variable [KernelImage] {M : Finset Frame} {s t : Kernel Kmem} {p np : Slot} {out : List Frame}

open Classical in
/-- The counts, the free list and what is referred to fit together. -/
structure Exact (out : List Frame) (s : Kernel Kmem) : Prop where
  count : ∀ f, s.mem.count f = mappings s f + if KernelHolds s f then 1 else 0
  nodup : s.mem.freelist.Nodup
  unmapped : ∀ f ∈ s.mem.freelist, mappings s f = 0 ∧ s.mem.count f = 0
  complete : ∀ f, KernelImage.endPage ≤ f → f < PHYSTOP / PGSIZE → f ∉ out →
    s.mem.count f = 0 → f ∈ s.mem.freelist

theorem Inv.counted (h : Inv M s) : Kmem.Counted M s.mem (s.users + s.kern) := by
  have hacc := h.wf.held.acc
  rwa [add_zero] at hacc

theorem Inv.exact (h : Inv (pool out) s) : Exact out s := by
  have hc := h.counted
  have hcount : ∀ f, s.mem.count f = (s.users.count f : ℤ) + s.kern.count f := fun f => by
    rw [hc.count f,Multiset.count_add]; push_cast; rfl
  refine ⟨fun f => ?_,hc.ledger.nodup,fun f hf => ?_,fun f h1 h2 h3 h0 => ?_⟩
  · rw [hcount f,mappings_eq]
    congr 1
    split
    · rename_i hk
      have hmem := mem_kern.mpr hk
      have h1 := h.wf.held.sole f (by simpa using hmem)
      have hu := Multiset.count_eq_zero.mpr (h.wf.held.sole.not_shared (by simpa using hmem))
      rw [add_zero,Multiset.count_add,hu,zero_add] at h1
      rw [h1]; rfl
    · rename_i hk
      rw [Multiset.count_eq_zero.mpr fun hm => hk (mem_kern.mp hm)]; rfl
  · have hn := hc.ledger.not_held hf
    rw [mappings_eq,hc.count f,Multiset.count_eq_zero.mpr hn]
    exact ⟨Multiset.count_eq_zero.mpr fun hu => hn (Multiset.mem_add.mpr (.inl hu)),rfl⟩
  · have hpool : f ∈ pool out := mem_pool.mpr ⟨h1,h2,h3⟩
    rw [hc.ledger.free_iff f hpool,← Multiset.count_eq_zero]
    have := hc.count f
    omega

/-- What may go on between a `fork` and the `wait` that reaps the child in `np`: the child
deals with its memory, processes exit, and nobody else is reaped. -/
def Op.beside (np : Slot) (op : Op) (s : Kernel Kmem) : Prop :=
  op.own np ∨ (∃ q, op = .exit q) ∨ ∃ q, op = .wait q ∧ s.zombieChild q = none

/-- The books without the process in `np`. -/
structure Books (M : Finset Frame) (np : Slot) (U K : Multiset Frame) (s : Kernel Kmem) :
    Prop where
  inv : Inv M s
  users : s.usersBut np = U
  kern : s.kernBut np = K
  live : (s.proc np).live

namespace Books

variable {U K : Multiset Frame}

/-- Processes that keep their image keep everybody's books. -/
theorem same (h : Books M np U K s) (hinv : Inv M t)
    (ht : ∀ q, Ptable.SameImage (s.proc q) (t.proc q)) (hp : t.pipes = s.pipes) :
    Books M np U K t where
  inv := hinv
  users := by
    rw [← h.users]
    exact Finset.sum_congr rfl fun q _ => Proc.users_congr (ht q).live (ht q).pgdir
  kern := by
    rw [← h.kern,kernBut,kernBut,hp]
    congr 1
    exact Finset.sum_congr rfl fun q _ =>
      Proc.kern_congr (ht q).live (ht q).unused (ht q).pgdir (ht q).kstack
  live := (ht np).live.mpr h.live

theorem step (op : Op) (h : Books M np U K s) (hop : op.beside np s) :
    Partial (Cow.step op) s fun _ t => Books M np U K t := by
  have hlive : ∀ q, (s.proc q).state = .RUNNABLE → (s.proc q).live := fun q hq =>
    Proc.live_of_state hq (by decide) (by decide)
  rcases hop with hown | ⟨q,rfl⟩ | ⟨q,rfl,hz⟩
  · refine (step_stepped op h.inv).mono ?_ fun _ _ _ => trivial
    rintro r t ⟨hinv,-,-,hal⟩
    have ha := hal np hown
    exact ⟨hinv,ha.usersBut.trans h.users,ha.kernBut.trans h.kern,ha.live h.live⟩
  · refine whenRunnable_post (fun _ => h) fun hq => ?_
    rw [post_map]
    refine ((exit_spec h.inv.wf (hlive q hq)).and (exit_kept h.inv (hlive q hq))).mono ?_
      fun _ _ _ => trivial
    rintro - t ⟨⟨-,rfl⟩,hinv,-⟩
    exact h.same hinv (Ptable.exit_same (hlive q hq)) rfl
  · refine whenRunnable_post (fun _ => h) fun hq => ?_
    refine ((wait_spec h.inv.wf (hlive q hq)).and (wait_kept h.inv (hlive q hq))).mono ?_
      fun _ _ _ => trivial
    rintro r t ⟨⟨-,⟨q',hq',-⟩ | ⟨-,-,-,rfl⟩ | ⟨-,-,-,rfl⟩⟩,hinv,-⟩
    · rw [hz] at hq'; cases hq'
    · exact h
    · exact h.same hinv (Ptable.sleep_same (hlive q hq)) rfl

/-- A child that has just been forked is what its kernel has more than before. -/
theorem start (h : Inv M s) (hun : s.unused = some np) :
    Partial (Cow.step (.fork p)) s fun r t =>
      ∀ pid, r = some pid → 0 ≤ pid → Books M np s.users s.kern t := by
  refine whenRunnable_post (fun _ pid hr => by cases hr) fun hp => ?_
  rw [post_map]
  refine (fork_kept h (Proc.live_of_state hp (by decide) (by decide))).mono ?_ fun _ _ _ => trivial
  rintro r t ⟨⟨hinv,-⟩,rfl | ⟨np',hun',hb⟩⟩ pid hr hpid
  · obtain rfl := Option.some.inj hr
    omega
  · obtain rfl : np = np' := Option.some.inj (hun.symm.trans hun')
    exact ⟨hinv,hb.users,hb.kern,Proc.live_of_state hb.state (by decide) (by decide)⟩

/-- Once the process in `np` has been reaped, the others are all there is. -/
theorem finish (h : Books M np U K s) :
    Partial (Cow.step (.wait p)) s fun _ t =>
      (t.proc np).state = .UNUSED → Inv M t ∧ t.users = U ∧ t.kern = K := by
  have hlive := h.live
  refine whenRunnable_post (fun _ hu => (hlive.1 hu).elim) fun hp => ?_
  have hlp := Proc.live_of_state hp (by decide) (by decide)
  refine ((wait_spec h.inv.wf hlp).and (wait_kept h.inv hlp)).mono ?_ fun _ _ _ => trivial
  rintro r t ⟨⟨-,⟨q,-,-,ht,-⟩ | ⟨-,-,-,rfl⟩ | ⟨-,-,-,rfl⟩⟩,hinv,-⟩ hu
  · have hoff : ∀ r ≠ q, t.proc r = s.proc r := fun r hr => by
      rw [ht]; exact Function.update_of_ne hr _ _
    have hpipes : t.pipes = s.pipes := by rw [ht]; rfl
    obtain rfl : np = q := by
      by_contra hne
      rw [hoff np hne] at hu
      exact hlive.1 hu
    refine ⟨hinv,?_,?_⟩
    · rw [users_of_update hoff,Proc.users_of_not_live fun hl => hl.1 hu,zero_add,h.users]
    · rw [kern_of_update hoff hpipes,Proc.kern_of_unused hu,zero_add,h.kern]
  · exact (hlive.1 hu).elim
  · exact (((Ptable.sleep_same hlp np).live.mpr hlive).1 hu).elim

end Books

/-- The free list depends on the books only. -/
theorem free_of_books (h : Inv M s) (h' : Inv M t) (hu : t.users = s.users)
    (hk : t.kern = s.kern) : (∀ f, f ∈ t.mem.freelist ↔ f ∈ s.mem.freelist) ∧
      Kmem.getNumFreePages t.mem = Kmem.getNumFreePages s.mem := by
  have hl := h.counted.ledger
  have hl' := h'.counted.ledger
  have hiff : ∀ f, f ∈ t.mem.freelist ↔ f ∈ s.mem.freelist := fun f => by
    by_cases hf : f ∈ M
    · rw [hl'.free_iff f hf,hl.free_iff f hf,hu,hk]
    · exact iff_of_false (fun hm => hf (hl'.free_mem f hm)) fun hm => hf (hl.free_mem f hm)
  exact ⟨hiff,((List.perm_ext_iff_of_nodup hl'.nodup hl.nodup).mpr hiff).length_eq⟩

end ResumePointers.Cow
