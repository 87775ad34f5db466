import ResumePointers.Cow.Run

/-! Which user accesses the copy-on-write kernel comes through. The fault handler knows one
answer to an access that it cannot grant, and that is `panic`. -/
namespace ResumePointers.Cow

open Xv6 Kernel

variable [KernelImage] {M : Finset Frame} {s t : Kernel Kmem} {p : Slot} {d : PageDir}
  {out : List Frame}

/-- The kernel comes through an access of `p` at `va`: it succeeds or `p` has been marked
killed, and the other processes and their memory are unchanged. -/
def Survives (s : Kernel Kmem) (p : Slot) (va : ℕ) (write : Bool) : Prop :=
  ∃ r t, touch p va write s = .ok r t ∧ (r.isSome ∨ (t.proc p).killed = true) ∧
    ∀ q ≠ p, (t.proc q).killed = (s.proc q).killed ∧ (eager t).mem q = (eager s).mem q

/-- The accesses that need no page, and those that need one and find one. -/
def Granted (s : Kernel Kmem) (d : PageDir) (va : ℕ) (write : Bool) : Prop :=
  (translate d va write).isSome ∨ (translate d va false).isSome ∧ s.mem.freelist ≠ []

theorem granted_of_survives {va : ℕ} {write : Bool} (h : Inv M s) (hl : (s.proc p).live)
    (hd : (s.proc p).pgdir = some d) (hs : Survives s p va write) : Granted s d va write := by
  obtain ⟨r,t,ht,-⟩ := hs
  exact ((touch_spec h hl hd).of_ok ht).2.2.2.2.2

theorem survives_of_granted {va : ℕ} {write : Bool} (h : Inv M s) (hl : (s.proc p).live)
    (hd : (s.proc p).pgdir = some d) (hg : Granted s d va write) : Survives s p va write := by
  have htotal : Total (touch p va write) s fun r t =>
      r.isSome ∧ eager t = eager s ∧ Alone p s t := by
    refine (touch_spec h hl hd).mono ?_ ?_
    · rintro r t ⟨-,-,heq,hal,⟨d',f,-,rfl,-⟩,-⟩
      exact ⟨rfl,heq,hal⟩
    · rintro e t ⟨-,hnone,hnil⟩
      rcases hg with hw | ⟨hr,hfree⟩
      · rw [hnone] at hw; cases hw
      · exact hfree (hnil hr).2
  obtain ⟨r,t,ht,hr,heq,hal⟩ := htotal.exists_ok
  exact ⟨r,t,ht,.inl hr,fun q hq => ⟨by rw [hal.proc q hq],by rw [heq]⟩⟩

/-- In every state of a run and for every access of a process that can run: the kernel comes
through it exactly when the page table grants it, or grants reading and there is a free page to
make a private copy in. -/
theorem survives_iff (va : UInt32) (write : Bool) (h : Run out s)
    (hp : (s.proc p).state = .RUNNABLE) (hd : (s.proc p).pgdir = some d) :
    Survives s p va.toNat write ↔ Granted s d va.toNat write := by
  have hinv := run_inv h
  have hl := Proc.live_of_state hp (by decide) (by decide)
  exact ⟨granted_of_survives hinv hl hd,survives_of_granted hinv hl hd⟩

omit [KernelImage] in
/-- The first process may store to its page, and must not look behind it. -/
theorem survives_iff_first : ∃ (_ : KernelImage) (out : List Frame) (s : Kernel Kmem),
    Booted out s ∧ Survives s firstSlot 0 true ∧ ¬ Survives s firstSlot 4096 false := by
  let _ := KernelImage.small
  obtain ⟨out,s,hb⟩ := exists_booted
  obtain ⟨-,d,mem,f,hf⟩ := booted_first hb
  have hp : (s.proc firstSlot).state = .RUNNABLE := by rw [hf.proc_first]; rfl
  have hd : (s.proc firstSlot).pgdir = some d := by rw [hf.proc_first]; rfl
  refine ⟨_,out,s,hb,?_,?_⟩
  · refine (survives_iff 0 true (.init hb) hp hd).mpr (.inl ?_)
    have htr : translate d 0 true = some mem :=
      translate_eq_some.mpr ⟨_,hf.get 0 (by decide),rfl,fun _ => rfl,rfl⟩
    exact htr ▸ rfl
  · intro hs
    have hg : Granted s d 4096 false := (survives_iff 4096 false (.init hb) hp hd).mp hs
    have hnone : translate d 4096 false = none := by
      rw [Option.eq_none_iff_forall_ne_some]
      intro g hg
      obtain ⟨pte,hget,-⟩ := translate_eq_some.mp hg
      have h1 : d.get 1 = none := hf.get 1 (by decide)
      have h2 : d.get 1 = some pte := hget
      rw [h1] at h2
      cases h2
    simp [Granted,hnone] at hg

/-- A process that reads the kernel's memory takes the kernel down with it. -/
theorem load_kernel_panics (h : Inv M s) (hp : (s.proc p).state = .RUNNABLE)
    (hd : (s.proc p).pgdir = some d) :
    ∃ t, step (.load p 0x80000000) s = .error (.panic "pagefault handler") t := by
  obtain ⟨d₀,hd₀,hk⟩ := (h.wf.slot p).dir (Proc.live_of_state hp (by decide) (by decide))
  obtain rfl : d₀ = d := by rw [hd] at hd₀; exact (Option.some.inj hd₀).symm
  obtain ⟨pte,hpte⟩ := Option.isSome_iff_exists.mp kmapPte_USERPAGES
  have hget : d₀.get USERPAGES = some pte := (hk USERPAGES le_rfl).trans hpte
  have hu := kmapPte_not_user hpte
  have hw : walkpgdir d₀ 0x80000000 = some (some pte) :=
    walkpgdir_eq_some.mpr ⟨hasTable_of_get hget,hget⟩
  have htr : translate d₀ 0x80000000 false = none := by
    rw [Xv6.translate,hw]
    simp [hu]
  have hfault : handle_pgflt_helper d₀ 0x80000000 =
      (throw (.panic "pagefault handler") : EStateM Panic Kmem PageDir) := by
    rw [handle_pgflt_helper,hw]
    simp [hu]
  refine ⟨s,?_⟩
  have hva : (0x80000000 : UInt32).toNat = 0x80000000 := rfl
  simp only [step,whenRunnable,load,touch,trap,onMem,zoom,bind,EStateM.bind,get_run,hp,if_true,hva,
    hd,Option.bind_some,htr,hfault]
  rfl

omit [KernelImage] in
/-- What `sbrktest` expects to cost a child its life stops the kernel. -/
theorem kernel_read_panics : ∃ (_ : KernelImage) (out : List Frame) (s : Kernel Kmem),
    Booted out s ∧ (s.proc firstSlot).state = .RUNNABLE ∧
    ¬ Survives s firstSlot 0x80000000 false ∧
    ∃ t, step (.load firstSlot 0x80000000) s = .error (.panic "pagefault handler") t := by
  let _ := KernelImage.small
  obtain ⟨out,s,hb⟩ := exists_booted
  obtain ⟨-,d,mem,f,hf⟩ := booted_first hb
  have hinv := booted_inv hb
  have hp : (s.proc firstSlot).state = .RUNNABLE := by rw [hf.proc_first]; rfl
  have hd : (s.proc firstSlot).pgdir = some d := by rw [hf.proc_first]; rfl
  have hl := Proc.live_of_state hp (by decide) (by decide)
  refine ⟨_,out,s,hb,hp,fun hs => ?_,load_kernel_panics hinv hp hd⟩
  obtain ⟨t,ht⟩ := load_kernel_panics hinv hp hd
  obtain ⟨r,u,hu,-⟩ := hs
  have hva : (0x80000000 : UInt32).toNat = 0x80000000 := rfl
  simp only [step,whenRunnable,load,bind,EStateM.bind,get_run,hp,
    if_true,hva,hu] at ht
  cases ht

end ResumePointers.Cow
