import ResumePointers.Lazy.Budget

/-! What the page fault handler owes to a fault, and when it pays. It asks one count for the
whole process where it should ask for the page, and it leaves its `case` without a `break`. -/
namespace ResumePointers.Lazy

open Xv6 Kernel

section
variable [KernelImage]

/-- The page of `va` was promised by `sys_mmap`, has not come yet, and there is a free page. -/
def Due (s : Traced) (p : Slot) (va : ℕ) : Prop :=
  va < KERNBASE ∧ pageOf va ∈ s.lazyPages p ∧ s.kernel.mem.freelist ≠ []

/-- Between `s` and `t`, process `p` got a zeroed page of its own at `va`, and that is all that
became of its memory and of the others. -/
structure Brought (s t : Kernel Kmem) (p : Slot) (va : ℕ) (d d' : PageDir) (mem : Frame) :
    Prop where
  dir : (t.proc p).pgdir = some d'
  get : ∀ w, d'.get w = if w = pageOf va then
    some { w := true, u := true, cow := false, frame := mem } else d.get w
  zero : t.mem.bytes mem = zeroPage
  sole : mappings t mem = 1
  keeps : Keeps (· ∈ s.users) s.mem t.mem
  size : (t.proc p).sz = (s.proc p).sz
  killed : (t.proc p).killed = (s.proc p).killed
  others : ∀ q ≠ p, Ptable.SameImage (s.proc q) (t.proc q)

/-- The handler brings the page that is due, and marks the process killed, and no more than
that, where none is. -/
def Handled (s : Traced) (p : Slot) (va cpuid : ℕ) : Prop :=
  (Due s p va → Total (pgflt p va cpuid) s.kernel fun _ t =>
    ∃ d d' mem, (s.kernel.proc p).pgdir = some d ∧ Brought s.kernel t p va d d' mem) ∧
  (¬ Due s p va → Total (pgflt p va cpuid) s.kernel fun _ t =>
    t = s.kernel.setProc p { s.kernel.proc p with killed := true })

/-- The count agrees with what is due, there are the pages that the page takes, `mappages` stops
behind it, and a process is not killed on processor 0. -/
def Serves (s : Traced) (p : Slot) (va cpuid : ℕ) : Prop :=
  (Due s p va → (s.kernel.proc p).allocLeft ≠ 0 ∧ ∀ d, (s.kernel.proc p).pgdir = some d →
    need d (pageOf va) ≤ s.kernel.mem.freelist.length ∧
      (va % PGSIZE = 0 ∨ d.get (pageOf va + 1) = none ∧
        s.kernel.mem.freelist.length < needBoth d (pageOf va))) ∧
  (¬ Due s p va → (s.kernel.proc p).allocLeft = 0 ∧ cpuid ≠ 0)

variable {M : Finset Frame} {s : Traced} {t u : Kernel Kmem} {p q : Slot} {d d' : PageDir}
  {va cpuid : ℕ} {mem : Frame} {out : List Frame} {k k₂ : Kmem} {U K : Multiset Frame}

omit [KernelImage] in
theorem need_le_needBoth (d : PageDir) (v : ℕ) : need d v ≤ needBoth d v := Nat.le_add_right _ _

/-- `mappages` that comes to a page that is there does not return. -/
theorem remap_spec (hf : Fetched M k k₂ U K d mem) (hva : va < KERNBASE) (hal : va % PGSIZE ≠ 0)
    (hnext : (d.get (pageOf va + 1)).isSome)
    (hneed : need d (pageOf va) ≤ k.freelist.length) :
    Post (mappages d va PGSIZE mem ⟨true,true,false⟩) k₂ (fun _ _ => False) fun e _ =>
      e = .panic "remap" := by
  have hv := pageOf_lt_USERPAGES hva
  have hu := USERPAGES_lt
  rw [mappages_unaligned _ hal hva]
  refine (map_page hf hv).mono ?_ fun _ _ he => he.1
  rintro ⟨d₁,ok⟩ k₃ ⟨-,hm,hok,-,ht₁⟩
  dsimp only at hm hok ht₁
  obtain rfl : ok = true := hok.mpr hneed
  rw [if_pos rfl]
  obtain ⟨-,-,hg,-⟩ | ⟨hlt,-,-⟩ := hm
  · have hsome : (d₁.get (pageOf va + 1)).isSome := by rwa [hg,if_neg (by omega)]
    exact mappages_taken ⟨true,true,false⟩ (by omega) hsome
  · omega

/-- A fault that `mappages` answers with more or less than its page is not what was due. -/
theorem pgflt_not_brought (h : Sound M t) (hl : (t.proc p).live) (hd : (t.proc p).pgdir = some d)
    (hne : (t.proc p).allocLeft ≠ 0) (hva : va < KERNBASE) (hnone : d.get (pageOf va) = none)
    (hal : va % PGSIZE ≠ 0) (hneed : need d (pageOf va) ≤ t.mem.freelist.length)
    (hor : (d.get (pageOf va + 1)).isSome ∨ needBoth d (pageOf va) ≤ t.mem.freelist.length) :
    Partial (pgflt p va cpuid) t fun _ u => ¬ ∃ d' mem, Brought t u p va d d' mem := by
  obtain ⟨X,hw⟩ := h
  simp only [pgflt,post_bind,post_get,if_pos hne,post_onMem]
  refine Total.post (fetch_spec (hw.split hl hd)) ?_
  rintro r k₁ ⟨-,hfetch⟩
  cases r with
  | none => trivial
  | some mem =>
    simp only [hd,post_bind,post_onMem]
    refine Total.post (hfetch mem rfl) ?_
    intro _ k₂ hf
    simp only [post_modify]
    by_cases hnext : (d.get (pageOf va + 1)).isSome
    · exact (remap_spec hf hva hal hnext hneed).mono (fun _ _ hq => hq.elim)
        fun _ _ _ => trivial
    · have hnone' : d.get (pageOf va + 1) = none := Option.not_isSome_iff_eq_none.mp hnext
      refine Total.post (spill_spec hf hva ⟨hal,hnone,hnone',hor.resolve_left hnext⟩) ?_
      rintro ⟨d₁,ok⟩ k₃ hg ⟨d',mem',hb⟩
      have hdir : some d₁ = some d' := by
        rw [← hb.dir]
        refine ((tick_same _ cpuid p).pgdir.trans ?_).symm
        rw [setProc_proc,Function.update_self]
      obtain rfl := Option.some.inj hdir
      have h1 := hb.get (pageOf va + 1)
      rw [if_neg (by omega),hnone'] at h1
      rw [h1] at hg
      cases hg

theorem Faulted.brought {x : Proc PageDir} (hl : (t.proc p).live) (hu : Sound M u)
    (hx : Faulted t p d va u.mem x)
    (he : u = faulted t p x u.mem cpuid) (hne : (t.proc p).allocLeft ≠ 0) (hva : va < KERNBASE)
    (hneed : need d (pageOf va) ≤ t.mem.freelist.length) :
    ∃ d' mem, Brought t u p va d d' mem := by
  have hself : Ptable.SameImage x (u.proc p) := he ▸ faulted_self t p x u.mem cpuid
  have hoff : ∀ q ≠ p, Ptable.SameImage (t.proc q) (u.proc q) := fun q hq =>
    he ▸ faulted_off t x u.mem cpuid hq
  cases hx with
  | killed h0 => exact (hne h0).elim
  | spent _ hshort => omega
  | @served d' mem _ _ hnone hget hzero hkeep =>
    have hdir : (u.proc p).pgdir = some d' := hself.pgdir
    have hmem : mem ∈ u.users := by
      refine mem_users.mpr ⟨p,?_⟩
      rw [Proc.users_of_live (hself.live.mpr hl) hdir,PageDir.users,mem_tally]
      exact ⟨pageOf va,pageOf_lt_USERPAGES hva,by rw [hget,if_pos rfl]; rfl⟩
    have hone : mappings u mem = 1 := by
      have h1 := (hu.sole mem).1
      have h2 := Multiset.count_pos.mpr hmem
      rw [← mappings_eq] at h2
      omega
    exact ⟨d',mem,hdir,hget,hzero,hone,hkeep,hself.sz,hself.killed,hoff⟩

/-- Without a count, or without the pages, the page directory stays as it is. -/
theorem Faulted.unserved {x : Proc PageDir} (hd : (t.proc p).pgdir = some d)
    (hx : Faulted t p d va u.mem x) (he : u = faulted t p x u.mem cpuid)
    (hno : (t.proc p).allocLeft = 0 ∨ t.mem.freelist.length < need d (pageOf va)) :
    (u.proc p).pgdir = some d := by
  have hself : Ptable.SameImage x (u.proc p) := he ▸ faulted_self t p x u.mem cpuid
  rw [hself.pgdir]
  cases hx with
  | killed => exact hd
  | served hne hneed => exact (hno.elim hne fun hlt => absurd hneed (by omega)).elim
  | spent => rfl

/-- The ticks tell a process killed on processor 0 from one that is only marked. -/
theorem pgflt_kills (h0 : (t.proc p).allocLeft = 0) :
    Total (pgflt p va cpuid) t fun _ u =>
      u = t.setProc p { t.proc p with killed := true } ↔ cpuid ≠ 0 := by
  simp only [pgflt,post_bind,post_get,if_neg (not_not.mpr h0),post_set,post_modify]
  unfold tick
  split
  · rename_i hc
    refine iff_of_false (fun he => ?_) (not_not.mpr hc)
    have ht : uint ((t.ticks : ℤ) + 1) = t.ticks := congrArg (fun u : Kernel Kmem => u.ticks) he
    unfold uint at ht
    omega
  · rename_i hc
    exact iff_of_true rfl hc

omit [KernelImage] in
theorem spend_ne (a : ℤ) : spend a ≠ a ∨ a = 0 := by
  unfold spend int
  have hP : (PGSIZE : ℤ) = 4096 := rfl
  rw [hP]
  split <;> omega

/-- The runs in which every earlier fault that was served lay below `KERNBASE`, found a free page
and did not spill over, and every process shrank from below `KERNBASE`. -/
def Kept (op : Op) (s : Traced) : Prop := Tame op s.kernel

theorem traced_sound (h : TracedRun Kept out s) : Sound (pool out) s.kernel :=
  h.invariant (I := fun u => Sound (pool out) u.kernel) (fun _ hb => booted_sound hb.1)
    fun op _ hi ho => Traced.post_step.mpr
      ((step_stepped op hi ho).mono (fun _ _ hs => hs.1) fun _ _ _ => trivial)

/-- In every such run, whatever the address, the handler does what it owes exactly if the count
agrees with what is due, the pages are there, `mappages` stops behind the page that is due, and
a process is not killed on processor 0. -/
theorem fault_handled_iff (h : TracedRun Kept out s) (hp : (s.kernel.proc p).state = .RUNNABLE)
    (va : UInt32) (cpuid : ℕ) : Handled s p va.toNat cpuid ↔ Serves s p va.toNat cpuid := by
  have hs := traced_sound h
  have hl := Proc.live_of_state hp (by decide) (by decide)
  obtain ⟨X,hw⟩ := hs
  obtain ⟨d,hd,-⟩ := (hw.slot p).dir hl
  refine and_congr ⟨fun hm hdue => ?_,fun hc hdue => ?_⟩ ⟨fun hm hnot => ?_,fun hc hnot => ?_⟩
  · obtain ⟨hva,hlazy,hfree⟩ := hdue
    rw [lazyPages_eq hd] at hlazy
    have hnone := (mem_owing.mp hlazy).2.2
    obtain ⟨_,u,hu,d₀,d',mem,hd₀,hb⟩ := (hm ⟨hva,by rwa [lazyPages_eq hd],hfree⟩).exists_ok
    obtain rfl := Option.some.inj (hd.symm.trans hd₀)
    have hpage : d'.get (pageOf va.toNat) ≠ d.get (pageOf va.toNat) := by
      rw [hb.get,if_pos rfl,hnone]
      simp
    have hserved : ∀ x, Faulted s.kernel p d va.toNat u.mem x →
        u = faulted s.kernel p x u.mem cpuid → (s.kernel.proc p).allocLeft ≠ 0 ∧
          need d (pageOf va.toNat) ≤ s.kernel.mem.freelist.length := fun x hx he => by
      by_contra hno
      rw [not_and_or,not_not,not_le] at hno
      have hdir := hx.unserved hd he hno
      rw [hb.dir] at hdir
      exact hpage (by rw [Option.some.inj hdir])
    have hne : (s.kernel.proc p).allocLeft ≠ 0 := fun h0 => by
      obtain ⟨-,x,hx,he⟩ := (pgflt_spec ⟨X,hw⟩ hl hd
        fun hne => (hne h0).elim).of_ok hu
      exact (hserved x hx he).1 h0
    have hneed : need d (pageOf va.toNat) ≤ s.kernel.mem.freelist.length := by
      by_contra hlt
      have hsp : ¬ Spills s.kernel.mem d va.toNat := fun hsp => by
        have h1 := need_le_needBoth d (pageOf va.toNat)
        have h2 := hsp.2.2.2
        omega
      obtain ⟨-,x,hx,he⟩ :=
        (pgflt_spec ⟨X,hw⟩ hl hd fun _ => ⟨hva,hfree,hsp⟩).of_ok hu
      exact hlt (hserved x hx he).2
    refine ⟨hne,fun d₁ hd₁ => ?_⟩
    obtain rfl := Option.some.inj (hd.symm.trans hd₁)
    refine ⟨hneed,?_⟩
    by_contra hcon
    rw [not_or,not_and_or] at hcon
    obtain ⟨hal,hor⟩ := hcon
    refine (pgflt_not_brought ⟨X,hw⟩ hl hd hne hva hnone hal hneed ?_).of_ok hu
      ⟨d',mem,hb⟩
    rcases hor with hsome | hroom
    · exact .inl (Option.isSome_iff_ne_none.mpr hsome)
    · exact .inr (not_lt.mp hroom)
  · obtain ⟨hne,hroom⟩ := hc hdue
    obtain ⟨hneed,hstop⟩ := hroom d hd
    obtain ⟨hva,hlazy,hfree⟩ := hdue
    rw [lazyPages_eq hd] at hlazy
    have hnone := (mem_owing.mp hlazy).2.2
    have hsp : ¬ Spills s.kernel.mem d va.toNat := fun hsp => by
      rcases hstop with hal | ⟨-,hlt⟩
      · exact hsp.1 hal
      · exact absurd hsp.2.2.2 (by omega)
    refine (pgflt_spec ⟨X,hw⟩ hl hd fun _ => ⟨hva,hfree,hsp⟩).mono ?_ ?_
    · rintro - u ⟨hu,x,hx,he⟩
      obtain ⟨d',mem,hb⟩ := hx.brought hl hu he hne hva hneed
      exact ⟨d,d',mem,hd,hb⟩
    · rintro e - ⟨-,-,hsome | ⟨hal,hsome⟩⟩
      · rw [hnone] at hsome; cases hsome
      · rcases hstop with h1 | ⟨h1,-⟩
        · exact hal h1
        · rw [h1] at hsome; cases hsome
  · obtain ⟨_,u,hu,he⟩ := (hm hnot).exists_ok
    have h0 : (s.kernel.proc p).allocLeft = 0 := by
      by_contra hne
      have hspends := ((pgflt_spends hne).of_ok hu).2
      rw [he,setProc_proc,Function.update_self] at hspends
      exact (spend_ne _).elim (fun h1 => h1 hspends.symm) hne
    exact ⟨h0,((pgflt_kills h0).of_ok hu).mp he⟩
  · obtain ⟨h0,hcpu⟩ := hc hnot
    exact (pgflt_kills h0).imp fun _ _ hiff => hiff.mpr hcpu

omit [KernelImage] in
theorem not_due_kernel (s : Traced) (p : Slot) : ¬ Due s p KERNBASE :=
  fun h => absurd h.1 (lt_irrefl _)

/-- A served fault at the kernel's first page stops the kernel. -/
theorem pgflt_kernel_panics (h : Sound M t) (hl : (t.proc p).live)
    (hne : (t.proc p).allocLeft ≠ 0) (hfree : t.mem.freelist ≠ []) (cpuid : ℕ) :
    Post (pgflt p KERNBASE cpuid) t (fun _ _ => False) fun e _ => e = .panic "remap" := by
  obtain ⟨X,hw⟩ := h
  obtain ⟨d,hd,hk⟩ := (hw.slot p).dir hl
  simp only [pgflt,post_bind,post_get,if_pos hne,post_onMem]
  refine Total.post (fetch_spec (hw.split hl hd)) ?_
  rintro r k₁ ⟨hr,hfetch⟩
  cases r with
  | none => exact (hfree (hr.mp rfl)).elim
  | some mem =>
    simp only [hd,post_bind,post_onMem]
    refine Total.post (hfetch mem rfl) ?_
    intro _ k₂ hf
    simp only [post_modify]
    have hsome : (d.get USERPAGES).isSome := by
      rw [hk USERPAGES le_rfl]
      exact kmapPte_USERPAGES
    rw [show KERNBASE = USERPAGES * PGSIZE from rfl]
    exact (mappages_taken ⟨true,true,false⟩ USERPAGES_lt hsome).mono (fun _ _ h => h.elim)
      fun _ _ he => he

end

/-- A process that has asked for nothing reads the kernel's memory on processor 1. -/
theorem fault_handled_iff_booted : ∃ (_ : KernelImage) (out : List Frame) (s : Traced),
    TracedRun Kept out s ∧ Handled s firstSlot (0x80000000 : UInt32).toNat 1 := by
  let _ := KernelImage.small
  obtain ⟨out,s,hb⟩ := exists_booted
  obtain ⟨-,⟨d,mem,f,hf⟩,-⟩ := booted_first hb
  have hp : (s.proc firstSlot).state = .RUNNABLE := by rw [hf.proc_first]; rfl
  have hrun : TracedRun Kept out ⟨s,fun _ => ∅⟩ := .init ⟨hb,rfl⟩
  refine ⟨_,out,_,hrun,(fault_handled_iff hrun hp 0x80000000 1).mpr ⟨fun hdue => ?_,fun _ => ?_⟩⟩
  · exact (not_due_kernel _ _ hdue).elim
  · exact ⟨by rw [hf.proc_first]; rfl,by decide⟩

/-- After `mmap` of one page, the same read stops the kernel. -/
theorem fault_remap_panics : ∃ (_ : KernelImage) (out : List Frame) (s : Kernel Kmem) (t : Traced)
    (u : Kernel Kmem) (r : Option ℤ), Booted out s ∧
    Traced.step (.mmap firstSlot 0x1000) ⟨s,fun _ => ∅⟩ = .ok r t ∧
    step (.access firstSlot 0x80000000 false 1) t.kernel = .error (.panic "remap") u ∧
    ¬ Handled t firstSlot (0x80000000 : UInt32).toNat 1 := by
  let _ := KernelImage.small
  obtain ⟨out,s,hb⟩ := exists_booted
  obtain ⟨hw,⟨d,mem,f,hf⟩,-⟩ := booted_first hb
  have hp : (s.proc firstSlot).state = .RUNNABLE := by rw [hf.proc_first]; rfl
  have hl := Proc.live_of_state hp (by decide) (by decide)
  have hd : (s.proc firstSlot).pgdir = some d := by rw [hf.proc_first]; rfl
  have hstep := traced_step_mmap (s := ⟨s,fun _ => ∅⟩) 0x1000 hp (by decide) (by decide)
  have hwt : Sound (pool out) (mmapped s firstSlot (0x1000 : Int32).toInt) :=
    ⟨0,Wf.counted hw hl _ _⟩
  have hpt := mmapped_proc s firstSlot (0x1000 : Int32).toInt
  have hfree : (mmapped s firstSlot (0x1000 : Int32).toInt).mem.freelist ≠ [] := fun hnil => by
    have h := booted_room hb
    rw [show s.mem.freelist = [] from hnil] at h
    simp at h
  dsimp only at hstep
  generalize mmapped s firstSlot (0x1000 : Int32).toInt = t at hstep hwt hpt hfree
  have hpr : (t.proc firstSlot).state = .RUNNABLE := by rw [hpt]; exact hp
  have hne : (t.proc firstSlot).allocLeft ≠ 0 := by
    rw [hpt,hf.proc_first]
    exact (by decide : int (0 + (0x1000 : Int32).toInt) ≠ 0)
  have hpanic := pgflt_kernel_panics hwt (Proc.live_of_state hpr (by decide) (by decide)) hne hfree 1
  have hdt : (t.proc firstSlot).pgdir = some d := by rw [hpt]; exact hd
  have hfault : Faults t firstSlot 0x80000000 false := by
    obtain ⟨X,hX⟩ := hwt
    obtain ⟨d',hd',hk⟩ := (hX.slot firstSlot).dir (Proc.live_of_state hpr (by decide) (by decide))
    rw [Faults,hd',Option.bind_some,Option.eq_none_iff_forall_ne_some]
    intro g hg
    obtain ⟨pte,hpte,hu,-⟩ := translate_eq_some.mp hg
    rw [hk _ (by decide)] at hpte
    rw [kmapPte_not_user hpte] at hu
    cases hu
  have hacc : Post (step (.access firstSlot 0x80000000 false 1)) t (fun _ _ => False)
      fun e _ => e = .panic "remap" :=
    access_post hpr hfault (hpanic.mono (fun _ _ hq => hq.elim) fun _ _ he => he)
  cases hrun : step (.access firstSlot 0x80000000 false 1) t with
  | ok r u => exact (hacc.of_ok hrun).elim
  | error e u =>
    obtain rfl := hacc.of_error hrun
    refine ⟨_,out,s,_,u,_,hb,hstep,hrun,fun hh => ?_⟩
    obtain ⟨_,_,hok,-⟩ := (hh.2 (not_due_kernel _ _)).exists_ok
    exact (hpanic.of_ok hok).elim

end ResumePointers.Lazy
