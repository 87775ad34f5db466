import ResumePointers.Xv6.ProcSpec

/-! What the operations that all kernels share do to a well-formed kernel state. Each
keeps the books, and says which state it leaves. -/
namespace ResumePointers.Xv6

theorem KernelHalf.congr [KernelImage] {d d' : PageDir} (h : KernelHalf d)
    (hg : ∀ v, USERPAGES ≤ v → d'.get v = d.get v) : KernelHalf d' :=
  fun v hv => by rw [hg v hv,h v hv]

variable {κ : Type} [PageAllocator κ]

/-- How `growproc(n)` of a process of size `sz` takes the page directory from `d` to `d'`;
the indices are its return value and the size it leaves. -/
inductive Grown (U : Multiset Frame) (k k' : κ) (d d' : PageDir) (sz : ℕ) (n : ℤ) :
    ℤ → ℕ → Prop
  | same (hn : n = 0) (hk : k' = k) (hd : d' = d) : Grown U k k' d d' sz n 0 sz
  | grown (hn : 0 < n) (hlt : uint (sz + n) < KERNBASE)
      (hg : Grew U k k' d d' (pages sz) (pages (uint (sz + n)))) :
      Grown U k k' d d' sz n (if max sz (uint (sz + n)) = 0 then -1 else 0)
        (max sz (uint (sz + n)))
  | refused (hn : 0 < n) (hge : KERNBASE ≤ uint (sz + n)) (hk : k' = k) (hd : d' = d) :
      Grown U k k' d d' sz n (-1) sz
  | failed (hn : 0 < n) (hlt : uint (sz + n) < KERNBASE) (hst : starved k')
      (hs : Shrank U k k' d d' (pages sz) (pages (uint (sz + n)))) :
      Grown U k k' d d' sz n (-1) sz
  | shrunk (hn : n < 0)
      (hs : Shrank U k k' d d' (pages (uint (sz + n))) (pages sz)) :
      Grown U k k' d d' sz n (if min sz (uint (sz + n)) = 0 then -1 else 0)
        (if min sz (uint (sz + n)) = 0 then sz else min sz (uint (sz + n)))

variable [LawfulPageAllocator κ] [KernelImage]

namespace Kernel

variable {M : Finset Frame} {X X' : Multiset Frame} {s t : Kernel κ} {p q np : Slot}
  {d d' : PageDir} {k : κ}

theorem Wf.resized {sz : ℕ} (h : Wf M X s) (hl : (s.proc p).live) (hk : KernelHalf d)
    (hh : Held M k (s.usersBut p + d.users) (s.kernRest X' p + d.kern)) :
    Wf M X' (s.resized p d sz k) :=
  .update h.slot hl rfl hk rfl hl hh

omit [PageAllocator κ] [LawfulPageAllocator κ] [KernelImage] in
theorem resized_self (hd : (s.proc p).pgdir = some d) :
    s.resized p d (s.proc p).sz s.mem = s := by
  have hx : { s.proc p with pgdir := some d, sz := (s.proc p).sz } = s.proc p := by
    rw [← hd]
  ext1 <;> simp [Kernel.resized,hx]

omit [PageAllocator κ] [LawfulPageAllocator κ] [KernelImage] in
theorem resized_off {sz : ℕ} (hq : q ≠ p) : (s.resized p d sz k).proc q = s.proc q :=
  Function.update_of_ne hq _ _

omit [PageAllocator κ] [LawfulPageAllocator κ] [KernelImage] in
@[simp] theorem resized_proc {sz : ℕ} :
    (s.resized p d sz k).proc p = { s.proc p with pgdir := some d, sz := sz } :=
  Function.update_self _ _ _

omit [PageAllocator κ] [LawfulPageAllocator κ] [KernelImage] in
theorem resized_alone (s : Kernel κ) (p : Slot) (d : PageDir) (sz : ℕ) (k : κ) :
    Alone p s (s.resized p d sz k) :=
  ⟨fun _ hq => resized_off hq,rfl,by rw [resized_proc]⟩

omit [PageAllocator κ] [LawfulPageAllocator κ] [KernelImage] in
theorem resized_users {sz : ℕ} (hl : (s.proc p).live) :
    (s.resized p d sz k).users = s.usersBut p + d.users := by
  rw [users_of_update (s := s) (p := p) fun q hq => resized_off hq,resized_proc,
    Proc.users_of_live (x := { s.proc p with pgdir := some d, sz := sz }) hl rfl,add_comm]

omit [PageAllocator κ] [LawfulPageAllocator κ] [KernelImage] in
theorem resized_kern {sz : ℕ} (hl : (s.proc p).live) :
    (s.resized p d sz k).kern + X = s.kernRest X p + d.kern := by
  rw [kern_of_update (s := s) (p := p) (fun q hq => resized_off hq) rfl,resized_proc,
    Proc.kern_of_live (x := { s.proc p with pgdir := some d, sz := sz }) hl rfl,kernRest]
  abel

theorem growproc_spec {n : ℤ} (h : Wf M X s) (hl : (s.proc p).live)
    (hd : (s.proc p).pgdir = some d) (hsz : n < 0 → (s.proc p).sz ≤ KERNBASE) :
    Post (growproc p n) s
      (fun r t => Wf M X t ∧ ∃ d' sz', t = s.resized p d' sz' t.mem ∧
        Grown (s.usersBut p) s.mem t.mem d d' (s.proc p).sz n r sz')
      fun e _ => e.allocator = false := by
  obtain ⟨d₀,hd₀,hk⟩ := (h.slot p).dir hl
  obtain rfl : d₀ = d := by rw [hd] at hd₀; exact (Option.some.inj hd₀).symm
  have hsame := resized_self hd
  have hh := h.split hl hd
  refine growproc_post hd ?_ ?_ ?_
  · intro hn
    exact ⟨h,d₀,_,hsame.symm,.same hn rfl rfl⟩
  · intro hn
    refine (allocuvm_spec _ _ hh).mono ?_ ?_
    · rintro ⟨d',sz'⟩ k' ⟨hh',⟨hlt,hr,hg⟩ | ⟨hge,hr,rfl⟩ | ⟨hlt,hr,hst,hs⟩⟩
      · have hk' : KernelHalf d' := hk.congr fun v hv =>
          hg.outside v (.inr ((pages_le hlt.le).trans hv))
        dsimp only at hr ⊢
        refine ⟨h.resized hl hk' hh',d',_,rfl,?_⟩
        have hite : (if sz' = 0 then (s.proc p).sz else sz') = sz' := by
          split
          · omega
          · rfl
        rw [hite,hr]
        exact .grown hn hlt hg
      · cases hr
        simp only [if_true]
        exact ⟨hsame.symm ▸ h,d₀,_,rfl,.refused hn hge rfl rfl⟩
      · have hk' : KernelHalf d' := hk.congr fun v hv => by
          have := pages_le hlt.le
          rw [hs.get v,if_neg (by omega)]
        dsimp only at hr
        simp only [hr,if_true]
        exact ⟨h.resized hl hk' hh',d',_,rfl,.failed hn hlt hst hs⟩
    · rintro e - ⟨rfl,-⟩
      decide
  · intro hn
    refine Total.post (deallocuvm_spec _ (hsz hn) hh) ?_
    rintro ⟨d',sz'⟩ k' ⟨hh',hs,hr⟩
    have hk' : KernelHalf d' := hk.congr fun v hv => by
      have := pages_le (hsz hn)
      rw [hs.get v,if_neg (by omega)]
    have hmin : sz' = min (s.proc p).sz (uint ((s.proc p).sz + n)) := by
      dsimp only at hr
      rw [hr]
      split <;> omega
    refine ⟨h.resized hl hk' hh',d',_,rfl,?_⟩
    dsimp only
    rw [hmin]
    exact .shrunk hn hs

theorem reaped_wf (h : Wf M X s) (hl : (s.proc q).live) :
    Total (do
      kfreePtr (s.proc q).kstack
      freevm (s.proc q).pgdir) s.mem fun _ k =>
        Keeps (· ∈ s.usersBut q) s.mem k ∧ Wf M X (s.reaped q k) := by
  obtain ⟨d,hd,-⟩ := (h.slot q).dir hl
  obtain ⟨f,hf⟩ := (h.slot q).kstack hl
  have hh := h.split hl hd
  rw [hd,hf]
  simp only [post_bind,kfreePtr]
  refine Total.post (kfree_kern (f := f) (U := s.usersBut q + d.users)
    (K := s.kernBut q + X + d.kern) (hh.congr rfl ?_)) ?_
  · rw [kernRest,hf,optional_some]; abel
  rintro - k₁ ⟨hh₁,hp₁⟩
  refine (freevm_spec hh₁).imp ?_
  rintro - k₂ ⟨hh₂,hp₂⟩
  exact ⟨(hp₁.mono fun g hg => by simp [hg]).trans hp₂,.reap h.slot rfl hh₂⟩

/-- `wait` reaps a zombie child, or has nothing to wait for, or goes to sleep. -/
theorem wait_spec (h : Wf M X s) (hl : (s.proc p).live) :
    Total (wait p) s fun r t => Wf M X t ∧
      ((∃ q, s.zombieChild p = some q ∧ r = some ((s.proc q).pid : ℤ) ∧
        t = s.reaped q t.mem ∧ Keeps (· ∈ s.usersBut q) s.mem t.mem) ∨
       (s.zombieChild p = none ∧ (¬ s.havekids p ∨ (s.proc p).killed) ∧ r = some (-1) ∧ t = s) ∨
       (s.zombieChild p = none ∧ ¬ (¬ s.havekids p ∨ (s.proc p).killed) ∧ r = none ∧
        t = { s with toPtable := s.toPtable.sleep p })) := by
  refine wait_post (E := fun _ => False) ?_ ?_ ?_
  · intro q hq
    have hlq := Proc.live_of_state (Ptable.zombieChild_spec hq).2 (by decide) (by decide)
    have hr := reaped_wf h hlq
    simp only [post_bind] at hr
    refine hr.imp fun _ k hr' => hr'.imp ?_
    rintro - k' ⟨hp,hwf⟩
    exact ⟨hwf,.inl ⟨q,hq,rfl,rfl,hp⟩⟩
  · intro hz hc
    exact ⟨h,.inr (.inl ⟨hz,hc,rfl,rfl⟩)⟩
  · intro hz hc
    exact ⟨h.same (Ptable.sleep_same hl) rfl rfl,.inr (.inr ⟨hz,hc,rfl,rfl⟩)⟩

theorem exit_spec (h : Wf M X s) (hl : (s.proc p).live) :
    Post (exit p) s
      (fun _ t => Wf M X t ∧ t = { s with toPtable := s.toPtable.exit p })
      fun e _ => e = .panic "init exiting" ∧ s.initproc = some p := by
  simp only [exit,post_bind,post_get]
  split
  · rename_i hi
    exact ⟨rfl,hi⟩
  · exact ⟨h.same (Ptable.exit_same hl) rfl rfl,rfl⟩

/-- `exec` replaces the image of `p` by one with pages of its own, or leaves it. -/
theorem exec_spec {file : Option (List UInt8)} {argv : List (List UInt8)} (h : Wf M X s)
    (hl : (s.proc p).live) :
    Post (exec p file argv) s
      (fun r t => Wf M X t ∧ (starved s.mem → starved t.mem) ∧
        (r = -1 ∧ t = { s with mem := t.mem } ∨
         r = 0 ∧ ∃ d sz, t = s.resized p d sz t.mem ∧ OwnPages (s.usersBut p) d ∧ sz ≤ KERNBASE ∧
           Below sz d))
      fun e _ => e.allocator = false := by
  unfold exec
  split
  · exact ⟨h,id,.inl ⟨rfl,rfl⟩⟩
  · rename_i file
    simp only [post_bind,post_onMem]
    refine (execImage_spec h.held).imp ?_
    rintro r k₁ ⟨hp,hn,hs⟩
    cases r with
    | none =>
      exact ⟨⟨hn rfl,h.slot⟩,hp.starved,.inl ⟨rfl,rfl⟩⟩
    | some r =>
      obtain ⟨d',sz⟩ := r
      obtain ⟨hb,hsz⟩ := hs d' sz rfl
      obtain ⟨d,hd,-⟩ := (h.slot p).dir hl
      have hu : s.users = s.usersBut p + d.users := by
        rw [users_eq s p,Proc.users_of_live hl hd,add_comm]
      have hkern : s.kern + X = s.kernRest X p + d.kern := by
        rw [kern_eq s p,Proc.kern_of_live hl hd,kernRest]; abel
      simp only [post_bind,post_get,post_set,post_onMem,setProc_mem,post_pure,hd]
      -- the old image is freed after the new one has been installed
      refine Total.post (freevm_spec (d := d) (U := s.usersBut p + d'.users)
        (K := s.kernRest X p + d'.kern) (hb.held.congr ?_ ?_)) ?_
      · rw [hu]; abel
      · rw [hkern]; abel
      · rintro - k₂ ⟨hh₂,hp₂⟩
        refine ⟨h.resized hl hb.kernelHalf hh₂,fun hst => hp₂.starved (hp.starved hst),
          .inr ⟨trivial,d',sz,rfl,fun v hv pte hpte => ?_,hsz,hb.below⟩⟩
        obtain ⟨hw,hcow,hc⟩ := hb.own v hv pte hpte
        have hpos := Multiset.count_pos.mpr (frame_mem_users hv hpte)
        refine ⟨hw,hcow,?_⟩
        rw [hu,Multiset.count_add,Multiset.count_add] at hc
        rw [Multiset.count_add]
        omega

theorem pipealloc_spec (h : Wf M X s) :
    Total pipealloc s fun r t => Wf M X t ∧ Keeps (fun _ => True) s.mem t.mem ∧
      ∃ pipes, t = { s with mem := t.mem, pipes := pipes } ∧
        (r = -1 ∧ starved t.mem ∨ r = 0) := by
  simp only [pipealloc,post_bind,post_onMem]
  refine (kalloc_held h.held).imp ?_
  rintro r k ⟨hp,hn,hs⟩
  cases r with
  | none =>
    obtain ⟨hst,hh,-⟩ := hn rfl
    exact ⟨⟨hh,h.slot⟩,hp,s.pipes,rfl,.inl ⟨rfl,hst⟩⟩
  | some f =>
    obtain ⟨-,-,hK⟩ := hs f rfl
    refine ⟨⟨hK.congr rfl ?_,h.slot⟩,hp,f :: s.pipes,rfl,.inr rfl⟩
    dsimp only [kern]
    rw [← Multiset.cons_coe,← Multiset.singleton_add]
    abel

theorem pipeclose_spec (f : Frame) (h : Wf M X s) :
    Total (pipeclose f) s fun _ t => Wf M X t ∧ Keeps (· ∈ s.users) s.mem t.mem ∧
      ∃ pipes, t = { s with mem := t.mem, pipes := pipes } := by
  simp only [pipeclose,post_bind,post_get]
  split
  · rename_i hf
    have hpipes : (s.pipes : Multiset Frame) = {f} + (s.pipes.erase f : List Frame) := by
      rw [Multiset.singleton_add,← Multiset.coe_erase,Multiset.cons_erase]
      exact hf
    simp only [post_bind,post_onMem,post_modify]
    refine (kfree_kern (f := f) (K := ∑ p, (s.proc p).kern + (s.pipes.erase f : List Frame) + X)
      (h.held.congr rfl ?_)).imp ?_
    · rw [kern,hpipes]; abel
    · rintro - k ⟨hh,hp⟩
      exact ⟨⟨hh,h.slot⟩,hp.mono fun g hg => by simp [hg],_,rfl⟩
  · exact ⟨h,.refl _ _,s.pipes,rfl⟩

end Kernel

end ResumePointers.Xv6
