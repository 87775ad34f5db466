import ResumePointers.Lazy.Steps

/-! Runs of the kernel with lazy `mmap`, from the first process on. -/
namespace ResumePointers.Lazy

open Xv6 Kernel

variable [KernelImage] {M : Finset Frame} {s t : Kernel Kmem} {p : Slot} {d : PageDir}
  {out : List Frame}

theorem step_stepped (op : Op) (h : Sound M s) (hok : Tame op s) :
    Post (step op) s (Stepped M s op) fun e _ => e.allocator = false := by
  have hlive : ∀ p, (s.proc p).state = .RUNNABLE → (s.proc p).live := fun p hp =>
    Proc.live_of_state hp (by decide) (by decide)
  have hidle : Stepped M s op none s := stepped_same h (fun q => .refl _) nofun
  cases op with
  | access p va write cpuid =>
    refine whenRunnable_post (fun _ => hidle) fun hp => ?_
    rw [post_map]
    exact access_stepped h hp hok
  | mmap p bytes =>
    refine whenRunnable_post (fun _ => hidle) fun hp => ?_
    rw [post_map]
    exact (mmap_stepped h hp).post fun _ _ hs => hs
  | growproc p n =>
    refine whenRunnable_post (fun _ => hidle) fun hp => ?_
    rw [post_map]
    exact growproc_stepped h hp hok
  | fork p =>
    refine whenRunnable_post (fun _ => hidle) fun hp => ?_
    rw [post_map]
    exact fork_stepped h hp
  | exit p =>
    refine whenRunnable_post (fun _ => hidle) fun hp => ?_
    rw [post_map]
    exact exit_stepped h (hlive p hp)
  | wait p =>
    refine whenRunnable_post (fun _ => hidle) fun hp => ?_
    exact (wait_stepped h (hlive p hp)).post fun _ _ hs => hs
  | exec p file argv =>
    refine whenRunnable_post (fun _ => hidle) fun hp => ?_
    rw [post_map]
    exact exec_stepped h hp

/-- Where the books are in order, an entry for a user page is the only one to its frame. -/
theorem Sound.sole (h : Sound M s) (f : Frame) : mappings s f ≤ 1 ∧
    (0 < mappings s f → f ∈ M ∧ f ∉ s.mem.freelist ∧ ¬ KernelHolds s f) := by
  obtain ⟨X,hw⟩ := h
  have hown : Kmem.Owned M s.mem (s.users + (s.kern + X)) := hw.held.acc
  rw [mappings_eq]
  refine ⟨?_,fun hpos => ?_⟩
  · have h1 := Multiset.nodup_iff_count_le_one.mp hown.sole f
    rw [Multiset.count_add] at h1
    omega
  · have hu : f ∈ s.users := Multiset.count_pos.mp hpos
    have hR : f ∈ s.users + (s.kern + X) := Multiset.mem_add.mpr (.inl hu)
    refine ⟨hown.ledger.held_mem f hR,hown.ledger.not_free hR,fun hk => ?_⟩
    have hkern : f ∈ s.kern + X := Multiset.mem_add.mpr (.inl (mem_kern.mpr hk))
    exact hw.held.sole.not_shared hkern hu

/-- Every page of the pool is free or has its owner. -/
theorem free_card {k : Kmem} {R : Multiset Frame} (h : Kmem.Owned M k R) :
    k.freelist.length + R.card = M.card := by
  have hnd : ((k.freelist : Multiset Frame) + R).Nodup :=
    Multiset.nodup_add.mpr ⟨h.ledger.nodup,h.sole,
      Multiset.disjoint_left.mpr fun hf => h.ledger.not_held hf⟩
  have heq : (k.freelist : Multiset Frame) + R = M.val := by
    refine (Multiset.Nodup.ext hnd M.nodup).mpr fun f => ?_
    rw [Multiset.mem_add,Multiset.mem_coe,Finset.mem_val]
    constructor
    · rintro (hf | hf)
      · exact h.ledger.free_mem f hf
      · exact h.ledger.held_mem f hf
    · intro hf
      by_cases hr : f ∈ R
      · exact .inr hr
      · exact .inl ((h.ledger.free_iff f hf).mpr hr)
  rw [Finset.card_def,← heq,Multiset.card_add,Multiset.coe_card]

section Boot

variable {n : ℕ} {ram : Frame → Page} {k : Kmem}

/-- `kinit2` leaves the books of an unused pool. -/
theorem main_held (hm : Kmem.main n (Kmem.bss ram) = .ok out k) :
    Held (pool out) k 0 0 ∧ k.dry = false ∧ 56320 ≤ (pool out).card := by
  obtain ⟨ho,hdry,hcard,-⟩ := (Kmem.main_spec n ram).of_ok hm
  exact ⟨⟨ho,Sole.zero⟩,Bool.eq_false_iff.mpr hdry,hcard⟩

theorem booted_first (h : Booted out s) :
    s.Wf (pool out) 0 ∧ (∃ d mem f, First s d mem f) ∧ 56320 ≤ (pool out).card := by
  obtain ⟨n,ram,k,initcode,hm,hu⟩ := h
  obtain ⟨hh,-,hcard⟩ := main_held hm
  obtain ⟨hwf,hf⟩ := (userinit_spec (room_of_card hcard) hh).of_ok hu
  exact ⟨hwf,hf,hcard⟩

theorem booted_sound (h : Booted out s) : Sound (pool out) s := ⟨0,(booted_first h).1⟩

theorem booted_room (h : Booted out s) : 50000 ≤ s.mem.freelist.length := by
  obtain ⟨hw,⟨d,mem,f,hf⟩,hcard⟩ := booted_first h
  have hown : Kmem.Owned (pool out) s.mem (s.users + (s.kern + 0)) := hw.held.acc
  have hfree := free_card hown
  have hk := hf.kern_card
  have hn : NPDENTRIES = 1024 := rfl
  rw [hf.users,add_zero,Multiset.card_add,Multiset.card_singleton] at hfree
  omega

/-- The kernel does come up. -/
theorem exists_booted : ∃ out, ∃ s : Kernel Kmem, Booted out s := by
  obtain ⟨out,k,hm,-⟩ := (Kmem.main_spec 0 fun _ _ => 0).exists_ok
  obtain ⟨hh,-,hcard⟩ := main_held hm
  have htotal : Total (userinit []) (start k) fun _ t =>
      Wf (pool out) 0 t ∧ ∃ d mem f, First t d mem f :=
    (userinit_spec (room_of_card hcard) hh).mono (fun _ _ hq => hq) fun _ _ he => by
      have := he.2
      simp [PGSIZE] at this
  obtain ⟨r,s,hs,-⟩ := htotal.exists_ok
  exact ⟨out,s,0,_,k,[],hm,hs⟩

end Boot

/-- The runs whose operations meet `ok`. -/
abbrev Run (ok : Op → Kernel Kmem → Prop) (out : List Frame) : Kernel Kmem → Prop :=
  Reach step ok (Booted out)

end ResumePointers.Lazy
