import ResumePointers.Cow.Fork
import ResumePointers.Cow.Refcount
import ResumePointers.Cow.Refinement
import ResumePointers.Cow.Shortage

/-! What a `fork` that returns `-1` leaves behind: the pages that it had come to share stay
read-only in the parent, and nothing else. A later store of the parent to such a page needs a
free page. -/
namespace ResumePointers.Cow

open Xv6 Kernel

variable [KernelImage] {M : Finset Frame} {s t u : Kernel Kmem} {p q np : Slot} {d d' : PageDir}
  {k : Kmem} {out : List Frame}

/-- Everybody reads what he read. -/
theorem Rewound.peek_eq (h : Rewound s t p d d') (hinv : Inv M s) (hinv' : Inv M t)
    (hl : (s.proc p).live) (hd : (s.proc p).pgdir = some d) (q : Slot) (va : ℕ) :
    peek t q va = peek s q va := by
  by_cases hlq : (s.proc q).live
  · have hlt := (h.live q).mpr hlq
    rw [Cow.peek_eq hinv',Cow.peek_eq hinv,Eager.read,Eager.read]
    by_cases hq : q = p
    · subst hq
      obtain ⟨n,hsh⟩ := h.shared
      have hdt : (t.proc q).pgdir = some d' := by rw [h.parent]
      rw [eager_mem hlt hdt,eager_mem hlq hd,Shared.view (s := s) hsh fun g hg => ?_]
      exact h.bytes g (mem_users.mpr ⟨q,by rw [Proc.users_of_live hlq hd]; exact hg⟩)
    · obtain ⟨dq,hdq,-⟩ := (hinv.wf.slot q).dir hlq
      have hdt : (t.proc q).pgdir = some dq := by rw [h.proc_of_live hq hlq,hdq]
      rw [eager_mem hlt hdt,eager_mem hlq hdq,view_congr (fun _ _ => rfl) fun g hg => ?_]
      exact h.bytes g (mem_users.mpr ⟨q,by rw [Proc.users_of_live hlq hdq]; exact hg⟩)
  · rw [peek,peek,if_neg hlq,if_neg fun ht => hlq ((h.live q).mp ht)]

/-- What a `fork` of `p` that fails owes to everybody. -/
structure Undone (s t : Kernel Kmem) (p : Slot) : Prop where
  count : ∀ f, t.mem.count f = s.mem.count f
  free : ∀ f, f ∈ t.mem.freelist ↔ f ∈ s.mem.freelist
  pages : Kmem.getNumFreePages t.mem = Kmem.getNumFreePages s.mem
  state : ∀ q, (t.proc q).state = (s.proc q).state
  others : ∀ q ≠ p, (s.proc q).state ≠ .UNUSED → t.proc q = s.proc q
  parent : ∃ d d', (s.proc p).pgdir = some d ∧ t.proc p = { s.proc p with pgdir := some d' } ∧
    ∀ v, d'.get v = d.get v ∨ d'.get v = (d.get v).map share
  nextpid : t.nextpid = s.nextpid ∨ t.nextpid = s.nextpid + 1
  rest : t.initproc = s.initproc ∧ t.ticks = s.ticks ∧ t.pipes = s.pipes
  contents : ∀ q va, peek t q va = peek s q va

theorem Rewound.undone (h : Rewound s t p d d') (hinv : Inv M s) (hinv' : Inv M t)
    (hl : (s.proc p).live) (hd : (s.proc p).pgdir = some d) : Undone s t p := by
  have hu := h.users hl hd
  have hk := h.kern hl hd
  obtain ⟨hfree,hpages⟩ := free_of_books hinv hinv' hu hk
  refine ⟨fun f => ?_,hfree,hpages,h.state,fun q hq hs => ?_,⟨d,d',hd,h.parent,fun v => ?_⟩,
    h.nextpid,h.rest,h.peek_eq hinv hinv' hl hd⟩
  · rw [hinv'.counted.count f,hinv.counted.count f,hu,hk]
  · rcases h.others q hq with he | ⟨-,hu⟩
    · exact he
    · exact (hs hu).elim
  · obtain ⟨n,hsh⟩ := h.shared
    rw [hsh.get v]
    split
    · exact .inr rfl
    · exact .inl rfl

/-- A store of `p` at `va` succeeds, and changes this byte of this process. -/
def Stores (s : Kernel Kmem) (p : Slot) (va : UInt32) : Prop :=
  ∀ b, ∃ t, step (.store p va b) s = .ok (some 0) t ∧
    ∀ q w, peek t q w = if q = p ∧ w = va.toNat then some b else peek s q w

/-- The entry of `va` has `PTE_W`, or there is a free page. -/
def Ready (s : Kernel Kmem) (p : Slot) (va : UInt32) : Prop :=
  (∃ d, (s.proc p).pgdir = some d ∧ (translate d va.toNat true).isSome) ∨ s.mem.freelist ≠ []

/-- A page that `p` may read takes its stores exactly when it is ready for them. -/
theorem stores_iff {va : UInt32} (h : Inv M s) (hp : (s.proc p).state = .RUNNABLE)
    (hva : (peek s p va.toNat).isSome) : Stores s p va ↔ Ready s p va := by
  have hl := Proc.live_of_state hp (by decide) (by decide)
  obtain ⟨d,hd,-⟩ := (h.wf.slot p).dir hl
  have hread : (translate d va.toNat false).isSome := by simpa [peek,hl,hd] using hva
  have hrun : ∀ b, step (.store p va b) s = store p va.toNat b s := fun b => by
    simp only [step,whenRunnable,bind,EStateM.bind,get_run,hp,if_true]
  constructor
  · intro hs
    obtain ⟨t,ht,-⟩ := hs 0
    rw [hrun] at ht
    simp only [store,bind,EStateM.bind] at ht
    cases htouch : touch p va.toNat true s with
    | error e v => rw [htouch] at ht; cases ht
    | ok r v =>
      rcases ((touch_spec h hl hd).of_ok htouch).2.2.2.2.2 with hw | ⟨-,hfree⟩
      · exact .inl ⟨d,hd,hw⟩
      · exact .inr hfree
  · intro hr b
    have htotal : Total (store p va.toNat b) s fun r t => r = some 0 ∧ Inv M t ∧
        eager t = (eager s).write p va.toNat b := by
      refine (store_spec b h hl hd).mono (fun r t hq => ⟨hq.1,hq.2.1,hq.2.2.2.1⟩) ?_
      rintro e t ⟨-,hnone,hnil⟩
      rcases hr with ⟨d',hd',hw⟩ | hfree
      · obtain rfl : d = d' := Option.some.inj (hd.symm.trans hd')
        rw [hnone] at hw
        cases hw
      · exact hfree (hnil hread).2
    obtain ⟨r,t,ht,rfl,hinv,heq⟩ := htotal.exists_ok
    refine ⟨t,(hrun b).trans ht,fun q w => ?_⟩
    rw [Cow.peek_eq hinv,Cow.peek_eq h,heq]
    exact Eager.read_write b (by rwa [← Cow.peek_eq h]) q w

/-- A process may grow until a `fork` of it fails with its first page shared, and then until
no page is left. -/
theorem exists_stranded : ∃ out s t u d pte, Run out s ∧ Stores s firstSlot 0 ∧
    step (.fork firstSlot) s = .ok (some (-1)) t ∧ Reach step (fun _ _ => True) (· = t) u ∧
    (u.proc firstSlot).state = .RUNNABLE ∧ (u.proc firstSlot).pgdir = some d ∧
    d.get 0 = some pte ∧ pte.u = true ∧ pte.w = false ∧ u.mem.freelist = [] := by
  obtain ⟨out,s₀,hb⟩ := exists_booted
  obtain ⟨d₀,mem,hten₀,hpage,hroom,hslots⟩ := booted_tenant hb
  obtain ⟨s,n,d,hrun,hinv,hten,hlen,hn,hget,hoff⟩ :=
    drain (m := kernelTables.card + 2) (.init hb) (booted_inv hb) hten₀ (by omega)
  have hl := Proc.live_of_state hten.state (by decide) (by decide)
  have hget0 : d.get 0 = some { w := true, u := true, cow := false, frame := mem } := by
    rw [hget 0 (by omega),hpage]
  have hun : ∃ np, s.unused = some np := by
    rw [← Option.isSome_iff_exists,Ptable.unused,List.find?_isSome]
    have hne : (⟨1,by decide⟩ : Slot) ≠ firstSlot := by decide
    refine ⟨⟨1,by decide⟩,List.mem_finRange _,?_⟩
    rw [hoff _ hne,hslots _ hne]
    rfl
  obtain ⟨np,hnp⟩ := hun
  have hsz : 0 < (s.proc firstSlot).sz := by
    rw [hten.sz]
    exact Nat.mul_pos hn (by decide)
  have htotal : Total (step (.fork firstSlot)) s fun r t => r = some (-1) ∧ Inv (pool out) t ∧
      ∃ d', Rewound s t firstSlot d d' ∧
        d'.get 0 = some { w := false, u := true, cow := true, frame := mem } := by
    refine whenRunnable_post (fun hr => (hr hten.state).elim) fun _ => ?_
    rw [post_map]
    refine ((fork_first hinv hl hten.pgdir hsz hget0 hnp hlen.ge (.inl hlen)).and_post
      ((fork_kept hinv hl).and (fork_cases hinv hl hten.pgdir))).imp ?_
    rintro r t ⟨⟨hr,d₁,hd₁,hg₁⟩,⟨hk,-⟩,hre⟩
    obtain rfl := hr.mpr hlen
    obtain ⟨d',hre'⟩ := (hre.resolve_right fun hpos => absurd hpos.1 (by decide)).2
    rw [hre'.parent] at hd₁
    obtain rfl : d' = d₁ := Option.some.inj hd₁
    exact ⟨rfl,hk.1,d',hre',hg₁⟩
  obtain ⟨r,t,hfork,rfl,hinv',d',hre,hget'⟩ := htotal.exists_ok
  have hten' : Tenant t firstSlot n d' := by
    obtain ⟨k,hsh⟩ := hre.shared
    have hpages : t.mem.freelist.length = s.mem.freelist.length :=
      (hre.undone hinv hinv' hl hten.pgdir).pages
    refine ⟨(hre.state _).trans hten.state,by rw [hre.parent],by rw [hre.parent]; exact hten.sz,
      fun v h1 h2 => ?_,by rw [hpages]; exact hten.bound⟩
    rw [hsh.get v,hten.absent v h1 h2]
    split <;> rfl
  have hinit : Reach step (fun _ _ => True) (fun v => v = t) t := .init rfl
  obtain ⟨u,n',d'',hru,-,hten'',hlen'',-,hget'',-⟩ :=
    drain (m := 0) hinit hinv' hten' (Nat.zero_le _)
  have htr : translate d 0 true = some mem :=
    translate_eq_some.mpr ⟨_,hget0,rfl,fun _ => rfl,rfl⟩
  have hpeek : (peek s firstSlot 0).isSome := by
    have hload : translate d 0 false = some mem :=
      translate_eq_some.mpr ⟨_,hget0,rfl,by simp,rfl⟩
    simp [peek,hl,hten.pgdir,hload]
  have hiff : Stores s firstSlot 0 ↔ Ready s firstSlot 0 := stores_iff hinv hten.state hpeek
  exact ⟨out,s,t,u,d'',_,hrun,hiff.mpr (.inl ⟨d,hten.pgdir,htr ▸ rfl⟩),hfork,hru,
    hten''.state,hten''.pgdir,(hget'' 0 (by omega)).trans hget',rfl,rfl,
    List.eq_nil_of_length_eq_zero hlen''⟩

/-- Where a process can store it may read. -/
theorem peek_of_stores {va : UInt32} (h : Inv M s) (hp : (s.proc p).state = .RUNNABLE)
    (hs : Stores s p va) : (peek s p va.toNat).isSome := by
  have hl := Proc.live_of_state hp (by decide) (by decide)
  obtain ⟨d,hd,-⟩ := (h.wf.slot p).dir hl
  obtain ⟨t,ht,-⟩ := hs 0
  simp only [step,whenRunnable,bind,EStateM.bind,get_run,hp,if_true] at ht
  rw [Cow.peek_eq h]
  exact ((store_spec 0 h hl hd).of_ok ht).2.2.2.2.1

/-- In every run, a `fork` that returns `-1` has changed no count, no free page, no other process
and no byte that anybody reads, and the stores that its process could make it can make. Of its
stores after any further steps, those succeed, and change nothing else, for which the page is
still writable or a page is free. -/
theorem failed_fork_undone (h : Run out s) (hfork : step (.fork p) s = .ok (some (-1)) t) :
    Undone s t p ∧
    (∀ va, Stores s p va → Stores t p va) ∧
    ∀ u, Reach step (fun _ _ => True) (· = t) u → (u.proc p).state = .RUNNABLE →
      ∀ va, (peek u p va.toNat).isSome → (Stores u p va ↔ Ready u p va) := by
  have hinv := run_inv h
  have hp : (s.proc p).state = .RUNNABLE := by
    by_contra hn
    simp only [step,whenRunnable,bind,EStateM.bind,get_run,if_neg hn] at hfork
    cases hfork
  have hl := Proc.live_of_state hp (by decide) (by decide)
  obtain ⟨d,hd,-⟩ := (hinv.wf.slot p).dir hl
  have hpost : Post (step (.fork p)) s
      (fun r t => Inv (pool out) t ∧ (r = some (-1) → ∃ d', Rewound s t p d d'))
      fun e _ => e.allocator = false := by
    refine whenRunnable_post (fun hn => (hn hp).elim) fun _ => ?_
    rw [post_map]
    refine ((fork_kept hinv hl).and (fork_cases hinv hl hd)).mono ?_ fun _ _ he => he.1
    rintro r t ⟨⟨hk,-⟩,⟨-,hre⟩ | ⟨hpos,-⟩⟩
    · exact ⟨hk.1,fun _ => hre⟩
    · refine ⟨hk.1,fun hr => ?_⟩
      have := Option.some.inj hr
      omega
  obtain ⟨hinv',hr⟩ := hpost.of_ok hfork
  obtain ⟨d',hre⟩ := hr rfl
  have hund := hre.undone hinv hinv' hl hd
  refine ⟨hund,fun va hs => ?_,fun u hu hpu va hva => ?_⟩
  · have hva := peek_of_stores hinv hp hs
    have hpt : (t.proc p).state = .RUNNABLE := (hre.state p).trans hp
    refine (stores_iff hinv' hpt (by rw [hund.contents]; exact hva)).mpr ?_
    have hfree : s.mem.freelist ≠ [] → t.mem.freelist ≠ [] := fun hs ht => by
      have hlen : t.mem.freelist.length = s.mem.freelist.length := hund.pages
      rw [ht,List.length_nil] at hlen
      exact hs (List.eq_nil_of_length_eq_zero hlen.symm)
    rcases (stores_iff hinv hp hva).mp hs with ⟨d₁,hd₁,hw⟩ | hroom
    · obtain rfl : d = d₁ := Option.some.inj (hd.symm.trans hd₁)
      rcases hre.room with rfl | hroom
      · exact .inl ⟨d',by rw [hre.parent],hw⟩
      · exact .inr (hfree hroom)
    · exact .inr (hfree hroom)
  · have hrun : Run out u := Reach.trans (.step (.fork p) h trivial hfork) hu
    exact stores_iff (run_inv hrun) hpu hva

omit [KernelImage] in
/-- The first process has grown until a `fork` of it fails half-way. -/
theorem failed_fork_undone_first : ∃ (_ : KernelImage) (out : List Frame) (s t : Kernel Kmem),
    Run out s ∧ step (.fork firstSlot) s = .ok (some (-1)) t ∧ Undone s t firstSlot ∧
    Stores t firstSlot 0 := by
  let _ := KernelImage.small
  obtain ⟨out,s,t,-,-,-,hrun,hs,hfork,-⟩ := exists_stranded
  obtain ⟨hund,hstores,-⟩ := failed_fork_undone hrun hfork
  exact ⟨_,out,s,t,hrun,hfork,hund,hstores 0 hs⟩

omit [KernelImage] in
/-- It could store to its first page, and after the failed `fork` and further growth the same
store stops the kernel. -/
theorem failed_fork_strands : ∃ (_ : KernelImage) (out : List Frame) (s t u : Kernel Kmem),
    Run out s ∧ Stores s firstSlot 0 ∧ step (.fork firstSlot) s = .ok (some (-1)) t ∧
    Reach step (fun _ _ => True) (· = t) u ∧ (u.proc firstSlot).state = .RUNNABLE ∧
    (peek u firstSlot 0).isSome ∧
    ∀ b, ∃ v, step (.store firstSlot 0 b) u = .error (.panic "pagefault handler") v := by
  let _ := KernelImage.small
  obtain ⟨out,s,t,u,d,pte,hrun,hs,hfork,hu,hpu,hdu,hget,huser,hw,hfree⟩ := exists_stranded
  have hl := Proc.live_of_state hpu (by decide) (by decide)
  have hload : translate d 0 false = some pte.frame :=
    translate_eq_some.mpr ⟨pte,hget,huser,by simp,rfl⟩
  refine ⟨_,out,s,t,u,hrun,hs,hfork,hu,hpu,?_,fun b => ?_⟩
  · simp [peek,hl,hdu,hload]
  · exact store_panics b hpu hdu hget huser hw hfree

end ResumePointers.Cow
