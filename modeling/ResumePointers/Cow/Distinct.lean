import ResumePointers.Cow.Fork

/-! No process of the copy-on-write kernel maps a frame twice: sharing is between processes. -/
namespace ResumePointers.Cow

open Xv6 Kernel

/-- The user pages of `d` are in frames of their own. -/
def Distinct (d : PageDir) : Prop :=
  ∀ v < USERPAGES, ∀ w < USERPAGES, ∀ pte pte', d.get v = some pte → d.get w = some pte' →
    pte'.frame = pte.frame → v = w

variable {M : Finset Frame} {s t : Kernel Kmem} {p q : Slot} {d d' : PageDir} {U : Multiset Frame}
  {k k' : Kmem}

/-- A page that can share its frame with another one of `d'` was in `d` already. -/
theorem Distinct.of_old (h : Distinct d)
    (hold : ∀ v < USERPAGES, ∀ pte, d'.get v = some pte →
      (U + d'.users).count pte.frame = 1 ∨ ∃ pte', d.get v = some pte' ∧ pte'.frame = pte.frame) :
    Distinct d' := by
  intro v hv w hw pte pte' hp hp' hf
  by_contra hne
  have htwo := two_le_count_users hv hw hne hp hp' hf
  have hone : (U + d'.users).count pte.frame ≠ 1 := by
    rw [Multiset.count_add]; omega
  rcases hold v hv pte hp with hc | ⟨x,hx,hxf⟩
  · exact hone hc
  · rcases hold w hw pte' hp' with hc | ⟨y,hy,hyf⟩
    · exact hone (hf ▸ hc)
    · exact hne (h v hv w hw x y hx hy (by rw [hyf,hf,hxf]))

theorem Distinct.shared {lo hi : ℕ} (h : Distinct d) (hs : Shared d d' lo hi) : Distinct d' := by
  refine h.of_old (U := 0) fun v hv pte hp => .inr ?_
  rw [hs.get v] at hp
  split at hp
  · obtain ⟨x,hx,rfl⟩ := Option.map_eq_some_iff.mp hp
    exact ⟨x,hx,rfl⟩
  · exact ⟨pte,hp,rfl⟩

/-- The child of a `fork` has the frames of its parent. -/
theorem Distinct.child {c : PageDir} {n : ℕ} (h : Distinct d)
    (hc : ∀ v < USERPAGES, c.get v = if v < n then (d.get v).map share else none) :
    Distinct c := by
  refine h.of_old (U := 0) fun v hv pte hp => .inr ?_
  rw [hc v hv] at hp
  split at hp
  · obtain ⟨x,hx,rfl⟩ := Option.map_eq_some_iff.mp hp
    exact ⟨x,hx,rfl⟩
  · cases hp

def AllDistinct (s : Kernel Kmem) : Prop :=
  ∀ q, (s.proc q).live → ∀ d, (s.proc q).pgdir = some d → Distinct d

namespace AllDistinct

/-- The page directory of `p` has changed, and some other processes may be new. -/
theorem update (h : AllDistinct s)
    (hq : ∀ q ≠ p, (t.proc q).live → t.proc q = s.proc q ∨
      ∀ d, (t.proc q).pgdir = some d → Distinct d)
    (hd : ∀ d, (t.proc p).live → (t.proc p).pgdir = some d → Distinct d) : AllDistinct t := by
  intro q hl d hdq
  by_cases hqp : q = p
  · subst hqp; exact hd d hl hdq
  · rcases hq q hqp hl with he | hnew
    · rw [he] at hl hdq
      exact h q hl d hdq
    · exact hnew d hdq

theorem resized {sz : ℕ} (h : AllDistinct s) (hd : Distinct d) :
    AllDistinct (s.resized p d sz k) := by
  refine h.update (p := p) (fun q hq _ => .inl (resized_off hq)) fun d' _ hd' => ?_
  rw [resized_proc] at hd'
  obtain rfl : d = d' := Option.some.inj hd'
  exact hd

theorem same (h : AllDistinct s) (ht : ∀ q, Ptable.SameImage (s.proc q) (t.proc q)) :
    AllDistinct t := by
  intro q hl d hd
  exact h q ((ht q).live.mp hl) d ((ht q).pgdir ▸ hd)

end AllDistinct

variable [KernelImage]

theorem Distinct.grew {lo hi : ℕ} (h : Distinct d) (hg : Grew U k k' d d' lo hi) :
    Distinct d' := by
  refine h.of_old (U := U) fun v hv pte hp => ?_
  by_cases hin : lo ≤ v ∧ v < hi
  · obtain ⟨f,hf,hc,-⟩ := hg.fresh v hin.1 hin.2
    rw [hp,Option.some.injEq] at hf
    subst hf
    exact .inl hc
  · rw [hg.outside v (by omega)] at hp
    exact .inr ⟨pte,hp,rfl⟩

theorem Distinct.shrank {lo hi : ℕ} (h : Distinct d) (hs : Shrank U k k' d d' lo hi) :
    Distinct d' := by
  refine h.of_old (U := 0) fun v hv pte hp => .inr ⟨pte,?_,rfl⟩
  rw [hs.get v] at hp
  split at hp
  · cases hp
  · exact hp

theorem touch_distinct {va : ℕ} {write : Bool} (h : Inv M s) (hx : AllDistinct s)
    (hl : (s.proc p).live) : Partial (touch p va write) s fun _ t => AllDistinct t := by
  obtain ⟨d,hd,-⟩ := (h.wf.slot p).dir hl
  simp only [touch,post_bind,post_get,hd,Option.bind_some]
  split
  · exact hx
  · simp only [post_bind,post_get,post_pure]
    refine (trap_spec h hl hd).mono ?_ fun _ _ _ => trivial
    rintro - t ⟨-,-,d',pte,mem,hsp⟩
    rw [hsp.eq]
    refine hx.resized ((hx p hl d hd).of_old (U := s.usersBut p) fun v hv pte' hp => ?_)
    rw [hsp.get v] at hp
    split at hp
    · obtain rfl := Option.some.inj hp
      refine .inl ?_
      have hnot : ∀ g ∈ s.usersBut p + d.users, g ≠ mem := fun g hg he => hsp.fresh (he ▸ hg)
      have hne : pte.frame ≠ mem := hnot _ (by simp [frame_mem_users hsp.page hsp.old])
      have hcount := congrArg (Multiset.count mem) hsp.users
      have h0 := Multiset.count_eq_zero.mpr hsp.fresh
      rw [Multiset.count_add] at h0 ⊢
      rw [Multiset.count_add,Multiset.count_add,Multiset.count_singleton_self,
        Multiset.count_singleton,if_neg (Ne.symm hne)] at hcount
      dsimp only
      omega
    · exact .inr ⟨pte',hp,rfl⟩

theorem fork_distinct (h : Inv M s) (hx : AllDistinct s) (hl : (s.proc p).live) :
    Partial (Kernel.fork copyuvm p) s fun _ t => AllDistinct t := by
  obtain ⟨d,hd,-⟩ := (h.wf.slot p).dir hl
  have hself := hx p hl d hd
  refine (fork_cases h hl hd).mono ?_ fun _ _ _ => trivial
  rintro r t (⟨-,d',hre⟩ | ⟨-,np,d',c,hf⟩)
  · obtain ⟨n,hsh⟩ := hre.shared
    refine hx.update (p := p) (fun q hq hlq => ?_) fun d₁ _ hd₁ => ?_
    · exact .inl (hre.proc_of_live hq ((hre.live q).mp hlq))
    · rw [hre.parent] at hd₁
      obtain rfl := Option.some.inj hd₁
      exact hself.shared hsh
  · refine hx.update (p := p) (fun q hq _ => ?_) fun d₁ _ hd₁ => ?_
    · by_cases hqn : q = np
      · subst hqn
        refine .inr fun d₁ hd₁ => ?_
        rw [hf.pgdir] at hd₁
        obtain rfl := Option.some.inj hd₁
        exact hself.child hf.child
      · exact .inl (hf.others q hq hqn)
    · rw [hf.parent] at hd₁
      obtain rfl := Option.some.inj hd₁
      exact hself.shared hf.shared

theorem step_distinct (op : Op) (h : Inv M s) (hx : AllDistinct s) :
    Partial (step op) s fun _ t => AllDistinct t := by
  have hlive : ∀ p, (s.proc p).state = .RUNNABLE → (s.proc p).live := fun p hp =>
    Proc.live_of_state hp (by decide) (by decide)
  cases op with
  | load p va =>
    refine whenRunnable_post (fun _ => hx) fun hp => ?_
    simp only [load,post_bind,post_get,post_pure]
    exact touch_distinct h hx (hlive p hp)
  | store p va b =>
    refine whenRunnable_post (fun _ => hx) fun hp => ?_
    simp only [store,post_bind]
    refine (touch_distinct h hx (hlive p hp)).imp fun r t ht => ?_
    cases r with
    | none => exact ht
    | some f => exact ht
  | fork p =>
    refine whenRunnable_post (fun _ => hx) fun hp => ?_
    rw [post_map]
    exact fork_distinct h hx (hlive p hp)
  | growproc p n =>
    refine whenRunnable_post (fun _ => hx) fun hp => ?_
    obtain ⟨d,hd,-⟩ := (h.wf.slot p).dir (hlive p hp)
    rw [post_map]
    refine (growproc_spec h.wf (hlive p hp) hd fun _ => h.size p (hlive p hp)).mono ?_
      fun _ _ _ => trivial
    rintro r t ⟨-,d',sz',ht,hg⟩
    rw [ht]
    have hself := hx p (hlive p hp) d hd
    cases hg with
    | same _ _ hdd => exact hx.resized (hdd ▸ hself)
    | grown _ _ hgrew => exact hx.resized (hself.grew hgrew)
    | refused _ _ _ hdd => exact hx.resized (hdd ▸ hself)
    | failed _ _ _ hs => exact hx.resized (hself.shrank hs)
    | shrunk _ hs => exact hx.resized (hself.shrank hs)
  | exit p =>
    refine whenRunnable_post (fun _ => hx) fun hp => ?_
    rw [post_map]
    refine (exit_spec h.wf (hlive p hp)).mono ?_ fun _ _ _ => trivial
    rintro - t ⟨-,rfl⟩
    exact hx.same (Ptable.exit_same (hlive p hp))
  | wait p =>
    refine whenRunnable_post (fun _ => hx) fun hp => ?_
    refine (wait_spec h.wf (hlive p hp)).post ?_
    rintro r t ⟨-,⟨q,-,-,ht,-⟩ | ⟨-,-,-,rfl⟩ | ⟨-,-,-,rfl⟩⟩
    · rw [ht]
      refine hx.update (p := q) (fun q' hq _ => .inl (Function.update_of_ne hq _ _)) fun d hl _ => ?_
      simp [Kernel.reaped,Proc.live] at hl
    · exact hx
    · exact hx.same (Ptable.sleep_same (hlive p hp))
  | exec p file argv =>
    refine whenRunnable_post (fun _ => hx) fun hp => ?_
    rw [post_map]
    refine (exec_spec h.wf (hlive p hp)).mono ?_ fun _ _ _ => trivial
    rintro r t ⟨-,-,⟨-,ht⟩ | ⟨-,d',sz,ht,hown,-⟩⟩
    · rw [ht]; exact hx
    · rw [ht]
      obtain ⟨d,hd,-⟩ := (h.wf.slot p).dir (hlive p hp)
      refine hx.resized ((hx p (hlive p hp) d hd).of_old (U := s.usersBut p) fun v hv pte hp => ?_)
      exact .inl (hown v hv pte hp).2.2
  | pipealloc p =>
    refine whenRunnable_post (fun _ => hx) fun hp => ?_
    rw [post_map]
    refine (pipealloc_spec h.wf).post ?_
    rintro r t ⟨-,-,pipes,ht,-⟩
    rw [ht]; exact hx
  | pipeclose p f =>
    refine whenRunnable_post (fun _ => hx) fun hp => ?_
    rw [post_map]
    refine (pipeclose_spec f h.wf).post ?_
    rintro - t ⟨-,-,pipes,ht⟩
    rw [ht]; exact hx

theorem booted_distinct {out : List Frame} (hb : Booted out s) : AllDistinct s := by
  obtain ⟨-,d,mem,f,hf⟩ := booted_first hb
  intro q hl dq hdq
  have hq : q = firstSlot := by
    by_contra hne
    rw [hf.proc_off hne] at hl
    exact hl.1 rfl
  subst hq
  rw [hf.proc_first] at hdq
  obtain rfl : d = dq := Option.some.inj hdq
  have hzero : ∀ v < USERPAGES, ∀ pte, d.get v = some pte → v = 0 := fun v hv pte hp => by
    by_contra hne
    rw [hf.get v hv,if_neg hne] at hp
    cases hp
  intro v hv w hw pte pte' hp hp' _
  rw [hzero v hv pte hp,hzero w hw pte' hp']

theorem run_distinct {out : List Frame} (h : Run out s) : AllDistinct s := by
  have hboth : Inv (pool out) s ∧ AllDistinct s :=
    h.invariant (I := fun s => Inv (pool out) s ∧ AllDistinct s)
      (fun _ hb => ⟨booted_inv hb,booted_distinct hb⟩) fun op u hu _ =>
      ((step_stepped op hu.1).and (step_distinct op hu.1 hu.2)).mono
        (fun _ _ hs => ⟨hs.1.1,hs.2⟩) fun _ _ _ => trivial
  exact hboth.2

end ResumePointers.Cow
