import ResumePointers.Cow.Access

/-! Runs of the copy-on-write kernel, from the first process on, and the invariant that
every one of them keeps. -/
namespace ResumePointers.Cow

open Xv6 Kernel

/-- The operations by which `p` deals with its own memory. -/
def Op.own (p : Slot) : Op → Prop
  | .load q _ => q = p
  | .store q _ _ => q = p
  | .growproc q _ => q = p
  | .exec q _ _ => q = p
  | _ => False

variable [KernelImage] {M : Finset Frame} {s t : Kernel Kmem} {p : Slot} {out : List Frame}

/-- What every operation owes: `Kept` as far as the abstract machine knows about it, and
that an operation of `p` on its own memory is just that. -/
def Stepped (M : Finset Frame) (s : Kernel Kmem) (op : Op) (r : Option ℤ) (t : Kernel Kmem) :
    Prop :=
  Inv M t ∧ (s.mem.dry = true → t.mem.dry = true) ∧
    (op.family → ¬ t.mem.dry = true → Eager.step op (eager s) = (r,eager t)) ∧
    ∀ p, op.own p → Alone p s t

/-- An operation of a process that cannot run. -/
theorem stepped_idle {op : Op} {a : Option ℤ × Eager} (h : Inv M s)
    (hs : op.family → Eager.step op (eager s) = (eager s).whenRunnable p a)
    (hp : (s.proc p).state ≠ .RUNNABLE) : Stepped M s op none s := by
  refine ⟨h,id,fun hf _ => ?_,fun q _ => .refl q s⟩
  rw [hs hf]
  exact if_neg hp

omit [KernelImage] in
theorem eager_runnable {a : Option ℤ × Eager} (hp : (s.proc p).state = .RUNNABLE) :
    (eager s).whenRunnable p a = a := if_pos hp

theorem step_stepped (op : Op) (h : Inv M s) :
    Post (step op) s (Stepped M s op) fun e _ => e.allocator = false := by
  have hlive : ∀ p, (s.proc p).state = .RUNNABLE → (s.proc p).live := fun p hp =>
    Proc.live_of_state hp (by decide) (by decide)
  cases op with
  | load p va =>
    refine whenRunnable_post (stepped_idle h fun _ => rfl) fun hp => ?_
    refine (load_kept h (hlive p hp)).imp ?_
    rintro r t ⟨⟨hinv,hdry,heq⟩,hal⟩
    refine ⟨hinv,hdry,fun _ hnd => ?_,fun q hq => hq ▸ hal⟩
    rw [← heq hnd]
    exact eager_runnable hp
  | store p va b =>
    refine whenRunnable_post (stepped_idle h fun _ => rfl) fun hp => ?_
    obtain ⟨d,hd,-⟩ := (h.wf.slot p).dir (hlive p hp)
    refine (store_kept b h (hlive p hp) hd).mono ?_ fun _ _ he => he.1
    rintro r t ⟨-,⟨hinv,hdry,heq⟩,hal⟩
    refine ⟨hinv,hdry,fun _ hnd => ?_,fun q hq => hq ▸ hal⟩
    rw [← heq hnd]
    exact eager_runnable hp
  | fork p =>
    refine whenRunnable_post (stepped_idle h fun _ => rfl) fun hp => ?_
    rw [post_map]
    refine (fork_kept h (hlive p hp)).imp ?_
    rintro r t ⟨⟨hinv,hdry,heq⟩,-⟩
    refine ⟨hinv,hdry,fun _ hnd => ?_,fun q hq => hq.elim⟩
    rw [← heq hnd]
    exact eager_runnable hp
  | growproc p n =>
    refine whenRunnable_post (stepped_idle h fun _ => rfl) fun hp => ?_
    rw [post_map]
    refine (growproc_kept h (hlive p hp)).imp ?_
    rintro r t ⟨⟨hinv,hdry,heq⟩,hal⟩
    refine ⟨hinv,hdry,fun _ hnd => ?_,fun q hq => hq ▸ hal⟩
    rw [← heq hnd]
    exact eager_runnable hp
  | exit p =>
    refine whenRunnable_post (stepped_idle h fun _ => rfl) fun hp => ?_
    rw [post_map]
    refine (exit_kept h (hlive p hp)).imp ?_
    rintro - t ⟨hinv,hdry,heq⟩
    refine ⟨hinv,hdry,fun _ hnd => ?_,fun q hq => hq.elim⟩
    rw [← heq hnd]
    exact eager_runnable hp
  | wait p =>
    refine whenRunnable_post (stepped_idle h fun _ => rfl) fun hp => ?_
    refine (wait_kept h (hlive p hp)).post ?_
    rintro r t ⟨hinv,hdry,heq⟩
    refine ⟨hinv,hdry,fun _ hnd => ?_,fun q hq => hq.elim⟩
    rw [← heq hnd]
    exact eager_runnable hp
  | exec p file argv =>
    refine whenRunnable_post (stepped_idle (a := (none,eager s)) h fun hf => hf.elim) fun hp => ?_
    rw [post_map]
    refine (exec_inv h (hlive p hp)).imp ?_
    rintro r t ⟨hinv,hdry,hal⟩
    exact ⟨hinv,hdry,fun hf => hf.elim,fun q hq => hq ▸ hal⟩
  | pipealloc p =>
    refine whenRunnable_post (stepped_idle h fun _ => rfl) fun hp => ?_
    rw [post_map]
    refine (pipealloc_spec h.wf).post ?_
    rintro r t ⟨hwf,hk,pipes,ht,hr⟩
    obtain ⟨hinv,hdry,heq⟩ := pipe_kept h hwf hk.of_all ht (some r)
    refine ⟨hinv,hdry,fun _ hnd => ?_,fun q hq => hq.elim⟩
    rcases hr with ⟨-,hst⟩ | rfl
    · exact (hnd hst).elim
    · rw [← heq hnd]
      exact eager_runnable hp
  | pipeclose p f =>
    refine whenRunnable_post (stepped_idle h fun _ => rfl) fun hp => ?_
    rw [post_map]
    refine (pipeclose_spec f h.wf).post ?_
    rintro - t ⟨hwf,hk,pipes,ht⟩
    obtain ⟨hinv,hdry,heq⟩ := pipe_kept h hwf hk ht (some 0)
    refine ⟨hinv,hdry,fun _ hnd => ?_,fun q hq => hq.elim⟩
    rw [← heq hnd]
    exact eager_runnable hp

section Boot

variable {n : ℕ} {ram : Frame → Page} {k : Kmem} {d : PageDir} {mem f : Frame}

/-- `kinit2` leaves the books of an unused pool. -/
theorem main_held (hm : Kmem.main n (Kmem.bss ram) = .ok out k) :
    Held (pool out) k 0 0 ∧ k.dry = false ∧ 56320 ≤ (pool out).card := by
  obtain ⟨hc,hdry,hcard⟩ := (Kmem.main_spec n ram).of_ok hm
  exact ⟨⟨hc,Sole.zero⟩,Bool.eq_false_iff.mpr hdry,hcard⟩

/-- The state after `userinit`: one process, one page. -/
theorem first_inv (hwf : s.Wf M 0) (h : First s d mem f) : Inv M s := by
  have hlf := firstProc_live f d
  have hat := h.proc_first
  have hoff : ∀ q ≠ firstSlot, s.proc q = Proc.zero := fun q hq => h.proc_off hq
  have hdead : ∀ q ≠ firstSlot, ¬ (s.proc q).live := fun q hq hl => by
    rw [hoff q hq] at hl; exact hl.1 rfl
  have husers : s.users = d.users := by
    rw [users_eq s firstSlot,hat,Proc.users_of_live hlf rfl,usersBut,
      Finset.sum_eq_zero fun q hq => Proc.users_of_not_live (hdead q (Finset.ne_of_mem_erase hq)),
      add_zero]
  have h0 : (0 : ℕ) < USERPAGES := by decide
  have hone : d.users.count mem = 1 := by
    rw [PageDir.users,count_tally,Finset.card_eq_one]
    refine ⟨0,Finset.ext fun v => ?_⟩
    rw [Finset.mem_filter,Finset.mem_range,Finset.mem_singleton]
    constructor
    · rintro ⟨hv,hg⟩
      rw [h.get v hv] at hg
      by_contra hne
      rw [if_neg hne] at hg
      cases hg
    · rintro rfl
      exact ⟨h0,by rw [h.get 0 h0,if_pos rfl]; rfl⟩
  refine ⟨hwf,fun q hl dq hdq => ?_,fun q hl => ?_,fun q => ?_⟩
  · have hq : q = firstSlot := by
      by_contra hne; exact hdead q hne hl
    subst hq
    rw [hat] at hdq
    obtain rfl : d = dq := Option.some.inj hdq
    intro v hv pte hp
    rw [h.get v hv] at hp
    split at hp
    · rw [Option.some.injEq] at hp
      subst hp
      exact .inl ⟨rfl,by rw [husers]; exact hone⟩
    · cases hp
  · have hq : q = firstSlot := by
      by_contra hne; exact hdead q hne hl
    subst hq
    rw [hat]
    exact (by decide : PGSIZE ≤ KERNBASE)
  · by_cases hq : q = firstSlot
    · subst hq; rw [hat]; rfl
    · rw [hoff q hq]; rfl

theorem booted_first (h : Booted out s) :
    s.Wf (pool out) 0 ∧ ∃ d mem f, First s d mem f := by
  obtain ⟨n,ram,k,initcode,hm,hu⟩ := h
  obtain ⟨hh,-,hcard⟩ := main_held hm
  exact (userinit_spec (room_of_card hcard) hh).of_ok hu

theorem booted_inv (h : Booted out s) : Inv (pool out) s := by
  obtain ⟨hwf,d,mem,f,hf⟩ := booted_first h
  exact first_inv hwf hf

/-- The kernel does come up. -/
theorem exists_booted : ∃ out, ∃ s : Kernel Kmem, Booted out s := by
  obtain ⟨out,k,hm,-⟩ := (Kmem.main_spec 0 fun _ _ => 0).exists_ok
  obtain ⟨hh,-,hcard⟩ := main_held hm
  have htotal : Total (userinit []) (start k) fun _ t =>
      Wf (pool out) 0 t ∧ ∃ d mem f, First t d mem f :=
    (userinit_spec (room_of_card hcard) hh).mono (fun _ _ hq => hq) fun _ _ he => by
      have := he.2
      simp [PGSIZE] at this
  obtain ⟨r,s,hs,-⟩ := htotal.exists_ok
  exact ⟨out,s,0,_,k,[],hm,hs⟩

end Boot

/-- The runs: whatever the processes do, in whatever order. -/
abbrev Run (out : List Frame) : Kernel Kmem → Prop :=
  Reach step (fun _ _ => True) (Booted out)

theorem run_inv (h : Run out s) : Inv (pool out) s :=
  h.invariant (fun _ hb => booted_inv hb) fun op _ hi _ =>
    (step_stepped op hi).mono (fun _ _ hs => hs.1) fun _ _ _ => trivial

end ResumePointers.Cow
