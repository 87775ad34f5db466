import ResumePointers.Cow.Run

/-! The two ways in which a copy-on-write `fork` returns: with a child that shares every page of
its parent, or with a parent that has shared some pages for nothing. -/
namespace ResumePointers.Cow

open Xv6 Kernel

variable [KernelImage] {M : Finset Frame} {s t : Kernel Kmem} {p q np : Slot} {d d' : PageDir}
  {k : Kmem}

/-- A failed `fork` of `p` may have shared the first pages of its page directory `d` and tried
a slot that is unused again. -/
structure Rewound (s t : Kernel Kmem) (p : Slot) (d d' : PageDir) : Prop where
  parent : t.proc p = { s.proc p with pgdir := some d' }
  others : ∀ q ≠ p, t.proc q = s.proc q ∨
    (t.proc q).state = .UNUSED ∧ (s.proc q).state = .UNUSED
  nextpid : t.nextpid = s.nextpid ∨ t.nextpid = s.nextpid + 1
  rest : t.initproc = s.initproc ∧ t.ticks = s.ticks ∧ t.pipes = s.pipes
  bytes : ∀ g ∈ s.users, t.mem.bytes g = s.mem.bytes g
  shared : ∃ n, Shared d d' 0 n
  room : d' = d ∨ s.mem.freelist ≠ []

namespace Rewound

omit [KernelImage] in
theorem state (h : Rewound s t p d d') (q : Slot) : (t.proc q).state = (s.proc q).state := by
  by_cases hq : q = p
  · subst hq; rw [h.parent]
  · rcases h.others q hq with he | ⟨ht,hs⟩
    · rw [he]
    · rw [ht,hs]

omit [KernelImage] in
theorem live (h : Rewound s t p d d') (q : Slot) : (t.proc q).live ↔ (s.proc q).live := by
  rw [Proc.live,h.state q,Proc.live]

omit [KernelImage] in
theorem proc_of_live (h : Rewound s t p d d') (hq : q ≠ p) (hl : (s.proc q).live) :
    t.proc q = s.proc q := by
  rcases h.others q hq with he | ⟨-,hs⟩
  · exact he
  · exact (hl.1 hs).elim

omit [KernelImage] in
theorem users (h : Rewound s t p d d') (hl : (s.proc p).live) (hd : (s.proc p).pgdir = some d) :
    t.users = s.users := by
  obtain ⟨n,hsh⟩ := h.shared
  refine users_congr fun q => ?_
  by_cases hq : q = p
  · subst hq
    have hlt := (h.live q).mpr hl
    rw [Proc.users_of_live hlt (by rw [h.parent]),Proc.users_of_live hl hd,hsh.users]
  · by_cases hlq : (s.proc q).live
    · rw [h.proc_of_live hq hlq]
    · rw [Proc.users_of_not_live hlq,Proc.users_of_not_live fun ht => hlq ((h.live q).mp ht)]

omit [KernelImage] in
theorem kern (h : Rewound s t p d d') (hl : (s.proc p).live) (hd : (s.proc p).pgdir = some d) :
    t.kern = s.kern := by
  obtain ⟨n,hsh⟩ := h.shared
  refine kern_congr (fun q => ?_) h.rest.2.2
  by_cases hq : q = p
  · subst hq
    have hlt := (h.live q).mpr hl
    rw [Proc.kern_of_live hlt (by rw [h.parent]),Proc.kern_of_live hl hd,hsh.kern,h.parent]
  · rcases h.others q hq with he | ⟨ht,hs⟩
    · rw [he]
    · rw [Proc.kern_of_unused ht,Proc.kern_of_unused hs]

end Rewound

/-- A `fork` of `p` has made a process in slot `np`. -/
structure Forked (s t : Kernel Kmem) (p np : Slot) (d d' c : PageDir) : Prop where
  unused : s.unused = some np
  parent : t.proc p = { s.proc p with pgdir := some d' }
  others : ∀ q ≠ p, q ≠ np → t.proc q = s.proc q
  state : (t.proc np).state = .RUNNABLE
  pgdir : (t.proc np).pgdir = some c
  shared : Shared d d' 0 (pages (s.proc p).sz)
  child : ∀ v < USERPAGES, c.get v =
    if v < pages (s.proc p).sz then (d.get v).map share else none

theorem fork_cases (h : Inv M s) (hl : (s.proc p).live) (hd : (s.proc p).pgdir = some d) :
    Post (Kernel.fork copyuvm p) s
      (fun r t => (r = -1 ∧ ∃ d', Rewound s t p d d') ∨
        0 ≤ r ∧ ∃ np d' c, Forked s t p np d d' c)
      fun e _ => e.allocator = false := by
  have hself : s.proc p = { s.proc p with pgdir := some d } := by rw [← hd]
  refine fork_post hl hd (fun _ => .inl ⟨rfl,?_⟩) fun np hun hne => ?_
  · exact ⟨d,hself,fun _ _ => .inl rfl,.inl rfl,⟨rfl,rfl,rfl⟩,fun _ _ => rfl,
      ⟨0,.refl le_rfl⟩,.inl rfl⟩
  have hnp := Ptable.unused_state hun
  refine Total.post (kalloc_freelist h.wf.held) ?_
  rintro r k₁ ⟨⟨hp₁,-,hs⟩,hfree⟩
  refine ⟨fun _ => .inl ⟨rfl,d,?_,fun q _ => ?_,.inr rfl,⟨rfl,rfl,rfl⟩,
    fun g _ => hp₁.page g trivial,⟨0,.refl le_rfl⟩,.inl rfl⟩,fun f hf => ?_⟩
  · exact (Function.update_of_ne hne.symm _ _).trans hself
  · by_cases hq : q = np
    · subst hq
      exact .inr ⟨by simp [allocFailed],hnp⟩
    · exact .inl (Function.update_of_ne hq _ _)
  have hroom : s.mem.freelist ≠ [] := fun hnil => by simp [hfree.mpr hnil] at hf
  obtain ⟨-,-,hK⟩ := hs f hf
  have hkern : s.kern + 0 = s.kernRest 0 p + d.kern := by
    rw [kern_eq s p,Proc.kern_of_live hl hd,kernRest]; abel
  have husers := Inv.users_split hl hd
  refine (copyuvm_spec (U := s.usersBut p) (K := {f} + s.kernRest 0 p) (h.size p hl)
    (hK.congr husers (by rw [hkern,add_assoc]))).imp ?_
  rintro ⟨pg,c⟩ k₂ ⟨hp₂,hbad,hgood⟩
  refine ⟨fun hc => ?_,fun c' hc => .inr ⟨Int.natCast_nonneg _,np,pg,c',hun,?_,?_,?_,?_,?_,?_⟩⟩
  · obtain ⟨-,hh,n,-,hsh⟩ := hbad hc
    refine Total.post (kfree_kern (f := f) (U := s.usersBut p + pg.users)
      (K := s.kernRest 0 p + pg.kern) (hh.congr rfl (by rw [add_assoc]))) ?_
    rintro - k₃ ⟨-,hp₃⟩
    refine .inl ⟨rfl,pg,?_,fun q hq => ?_,.inr rfl,⟨rfl,rfl,rfl⟩,fun g hg => ?_,⟨n,hsh⟩,
      .inr hroom⟩
    · exact (Function.update_of_ne hne.symm _ _).trans (Function.update_self _ _ _)
    · by_cases hqn : q = np
      · subst hqn
        exact .inr ⟨by simp [forkFailed],hnp⟩
      · exact .inl ((Function.update_of_ne hqn _ _).trans (Function.update_of_ne hq _ _))
    · rw [husers] at hg
      have hg' : g ∈ s.usersBut p + pg.users := by rw [hsh.users]; exact hg
      exact (hp₃.page g (Multiset.mem_add.mpr (.inl hg'))).trans
        ((hp₂.page g hg).trans (hp₁.page g trivial))
  · exact (Function.update_of_ne hne.symm _ _).trans (Function.update_self _ _ _)
  · intro q hq hqn
    exact (Function.update_of_ne hqn _ _).trans (Function.update_of_ne hq _ _)
  · simp [forked,child]
  · simp [forked,child]
  · exact (hgood c' hc).1
  · exact (hgood c' hc).2.2.2

end ResumePointers.Cow
