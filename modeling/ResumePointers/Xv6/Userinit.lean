import ResumePointers.Xv6.Operations

/-! The first process. `userinit` finds an empty process table and a pool that is large
enough, so it does not fail for want of pages. -/
namespace ResumePointers.Xv6

variable {κ : Type} [PageAllocator κ] [LawfulPageAllocator κ]
variable {M : Finset Frame} {k : κ} {U K : Multiset Frame} {d : PageDir}

theorem room_of_card {n : ℕ} (h : 56320 ≤ n) : NPDENTRIES + 3 < n := by
  have : NPDENTRIES = 1024 := rfl
  omega

/-- With room for two more pages, `inituvm` maps page 0. -/
theorem inituvm_spec {init : List UInt8} (hroom : (U + d.users + (K + d.kern)).card + 1 < M.card)
    (h0 : d.get 0 = none) (h : Held M k (U + d.users) (K + d.kern)) :
    Post (inituvm d init) k
      (fun d' k' => Held M k' (U + d'.users) (K + d'.kern) ∧
        ∃ mem, ∀ v, d'.get v = if v = 0 then
          some { w := true, u := true, cow := false, frame := mem } else d.get v)
      fun e _ => e = .panic "inituvm: more than a page" ∧ PGSIZE ≤ init.length := by
  unfold inituvm
  split
  · rename_i hlen
    exact ⟨rfl,hlen⟩
  · simp only [post_bind]
    refine Total.post (kalloc_held h) ?_
    rintro r k₁ ⟨-,hn,hs⟩
    cases r with
    | none =>
      have := (hn rfl).2.2
      omega
    | some mem =>
      obtain ⟨-,hU,-⟩ := hs mem rfl
      simp only [post_bind,memset,post_modify]
      have hmap := mappages_user (v := 0) (f := mem) ⟨true,true,false⟩
        (hU.setPage mem fun _ => 0) (by decide)
      rw [Nat.zero_mul] at hmap
      refine hmap.mono ?_ ?_
      · rintro ⟨d₁,ok⟩ k₂ ⟨-,hok,hbad⟩
        cases ok with
        | true =>
          obtain ⟨hh,-,hg⟩ := hok rfl
          exact ⟨hh.setPage mem _,mem,hg⟩
        | false =>
          have hc := (hbad rfl).2.2.2.2
          rw [add_assoc,Multiset.card_add,Multiset.card_singleton] at hc
          omega
      · rintro e - ⟨-,hsome⟩
        simp [h0] at hsome

namespace Kernel

/-- Before `userinit`: an empty process table, and the page allocator as `kinit2` leaves it. -/
def start (k : κ) : Kernel κ := { toPtable := Ptable.zero, mem := k, pipes := [] }

/-- The slot of the first process. -/
def firstSlot : Slot := ⟨0,by decide⟩

omit [PageAllocator κ] [LawfulPageAllocator κ] in
theorem start_unused (k : κ) : (start k).unused = some firstSlot := by
  change (Ptable.zero : Ptable PageDir).unused = _
  decide

omit [PageAllocator κ] [LawfulPageAllocator κ] in
theorem start_users (k : κ) : (start k).users = 0 :=
  Finset.sum_eq_zero fun _ _ => Proc.users_of_not_live fun hl => hl.1 rfl

omit [PageAllocator κ] [LawfulPageAllocator κ] in
theorem start_kern (k : κ) : (start k).kern = 0 := by
  rw [kern,Finset.sum_eq_zero fun _ _ => Proc.kern_of_unused rfl]
  rfl

variable [KernelImage]

theorem start_wf (h : Held M k 0 0) : Wf M 0 (start k) :=
  ⟨h.congr (start_users k).symm (by rw [start_kern,add_zero]),fun _ => .unused rfl⟩

/-- The first process, with stack `f` and page directory `d`. -/
def firstProc (f : Frame) (d : PageDir) : Proc PageDir :=
  { (Proc.zero : Proc PageDir) with
    pid := 1, kstack := some f, pgdir := some d, sz := PGSIZE, state := .RUNNABLE }

omit [PageAllocator κ] [LawfulPageAllocator κ] [KernelImage] in
theorem firstProc_live (f : Frame) (d : PageDir) : (firstProc f d).live :=
  Proc.live_of_state (c := .RUNNABLE) rfl (by decide) (by decide)

/-- Nothing but the first process, and nothing but page 0, in frame `mem`, in its memory. -/
structure First (s : Kernel κ) (d : PageDir) (mem f : Frame) : Prop where
  eq : s = { (start s.mem).setProc firstSlot (firstProc f d) with
    nextpid := 2, initproc := some firstSlot }
  get : ∀ v < USERPAGES, d.get v = if v = 0 then
    some { w := true, u := true, cow := false, frame := mem } else none

namespace First

variable {s : Kernel κ} {mem f : Frame}

omit [PageAllocator κ] [LawfulPageAllocator κ] [KernelImage] in
theorem proc_first (h : First s d mem f) : s.proc firstSlot = firstProc f d := by
  rw [h.eq]; exact Function.update_self firstSlot (firstProc f d) (start s.mem).proc

omit [PageAllocator κ] [LawfulPageAllocator κ] [KernelImage] in
theorem proc_off (h : First s d mem f) {q : Slot} (hq : q ≠ firstSlot) :
    s.proc q = Proc.zero := by
  rw [h.eq]; exact Function.update_of_ne hq (firstProc f d) (start s.mem).proc

omit [PageAllocator κ] [LawfulPageAllocator κ] [KernelImage] in
theorem users_dir (h : First s d mem f) : s.users = d.users := by
  rw [users_eq s firstSlot,h.proc_first,Proc.users_of_live (firstProc_live f d) rfl,usersBut,
    Finset.sum_eq_zero fun q hq => ?_,add_zero]
  rw [h.proc_off (Finset.ne_of_mem_erase hq)]
  exact Proc.users_of_not_live fun hl => hl.1 rfl

omit [PageAllocator κ] [LawfulPageAllocator κ] [KernelImage] in
theorem users (h : First s d mem f) : s.users = {mem} := by
  have hc := tally_change (f := fun _ => none) (g := fun v => (d.get v).map Pte.frame)
    (i := 0) (by decide : 0 < USERPAGES) fun v hv hne => by rw [h.get v hv,if_neg hne]; rfl
  rw [tally_eq_zero.mpr fun _ _ => rfl,h.get 0 (by decide),if_pos rfl] at hc
  rw [h.users_dir,PageDir.users]
  simpa using hc

omit [PageAllocator κ] [LawfulPageAllocator κ] [KernelImage] in
theorem kern_card (h : First s d mem f) : s.kern.card ≤ NPDENTRIES + 2 := by
  have hpipes : s.pipes = [] := by rw [h.eq]; rfl
  have hoff : s.kernBut firstSlot = 0 := by
    rw [kernBut,hpipes,Finset.sum_eq_zero fun q hq => ?_]
    · rfl
    · rw [h.proc_off (Finset.ne_of_mem_erase hq)]
      exact Proc.kern_of_unused rfl
  have hd := kern_card_le d
  rw [kern_eq s firstSlot,hoff,h.proc_first,Proc.kern_of_live (firstProc_live f d) rfl,add_zero,
    Multiset.card_add,show (firstProc f d).kstack = some f from rfl,optional_some,
    Multiset.card_singleton]
  omega

end First

theorem userinit_spec {initcode : List UInt8} (hM : NPDENTRIES + 3 < M.card)
    (h : Held M k 0 0) :
    Post (userinit initcode) (start k)
      (fun _ t => Wf M 0 t ∧ ∃ d mem f, First t d mem f)
      fun e _ => e = .panic "inituvm: more than a page" ∧ PGSIZE ≤ initcode.length := by
  have hnext : (start k).nextpid = 1 := rfl
  have hzero : ∀ q, (start k).proc q = Proc.zero := fun q => rfl
  simp only [userinit,post_bind,post_modify]
  refine allocproc_post
    (E := fun e => e = .panic "inituvm: more than a page" ∧ PGSIZE ≤ initcode.length)
    (fun hn => by rw [start_unused] at hn; cases hn) fun np hnp => ?_
  obtain rfl : firstSlot = np := by rw [start_unused] at hnp; exact Option.some.inj hnp
  refine Total.post (kalloc_held h) ?_
  rintro r k₁ ⟨-,hn,hs⟩
  refine ⟨fun hr => ?_,fun f hf => ?_⟩
  · have := (hn hr).2.2
    simp only [add_zero,Multiset.card_zero] at this
    omega
  · obtain ⟨-,-,hK⟩ := hs f hf
    simp only [post_bind,post_onMem]
    refine Total.post (setupkvm_spec hK) ?_
    rintro r k₂ ⟨-,hn₂,hs₂⟩
    cases r with
    | none =>
      have := (hn₂ rfl).2.2
      simp only [add_zero,zero_add,Multiset.card_singleton] at this
      omega
    | some d =>
      obtain ⟨hh,hlow,hk⟩ := hs₂ d rfl
      have hu : d.users = 0 := users_eq_zero.mpr hlow
      have hcard := kern_card_le d
      simp only [post_bind,post_onMem,post_modify]
      refine (inituvm_spec (U := 0) (K := {f} + 0) ?_
        (hlow 0 (by decide)) (hh.congr (by rw [hu,add_zero]) rfl)).imp ?_
      · simp only [hu,add_zero,zero_add,Multiset.card_add,Multiset.card_singleton]
        omega
      · rintro d' k₃ ⟨hh₃,mem,hg⟩
        have hk' : KernelHalf d' := hk.congr fun v hv => by
          have hpos : 0 < USERPAGES := by decide
          rw [hg v,if_neg (by omega)]
        have hwf : Wf M 0 { (start k).setProc firstSlot (firstProc f d') with
            nextpid := 2, mem := k₃ } := by
          refine Wf.spawn (start_wf h).slot rfl (firstProc_live f d') rfl hk'
            rfl ?_
          rw [start_users,start_kern]
          exact hh₃.congr (by abel) (by abel)
        have hfin : ∀ t : Kernel κ,
            t.proc = Function.update (start k).proc firstSlot (firstProc f d') →
            t.initproc = some firstSlot → t.nextpid = 2 → t.ticks = 0 → t.mem = k₃ →
            t.pipes = [] → Wf M 0 t ∧ ∃ d mem f, First t d mem f := by
          intro t h1 h2 h3 h4 h5 h6
          refine ⟨hwf.same (fun q => by rw [h1]; exact .refl _) h6 h5,d',mem,f,?_,fun v hv => ?_⟩
          · ext1 <;> simp only [h1,h2,h3,h4,h5,h6] <;> rfl
          · rw [hg v,hlow v hv]
        apply hfin
        · funext q
          by_cases hq : q = firstSlot
          · subst hq; simp [embryo,setProc,Ptable.setProc,hzero,hnext,firstProc,Proc.zero]
          · simp [embryo,setProc,Ptable.setProc,hq]
        all_goals rfl

end Kernel

end ResumePointers.Xv6
