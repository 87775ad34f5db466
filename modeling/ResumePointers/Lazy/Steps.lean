import ResumePointers.Lazy.Fault

/-! What each operation of the kernel with lazy `mmap` makes of a kernel whose books are in
order: who is alive afterwards, and what has become of its memory. -/
namespace ResumePointers.Lazy

open Xv6 Kernel

theorem int_of_range {x : ℤ} (h : -2^31 ≤ x) (h' : x < 2^31) : int x = x := by
  unfold int; omega

theorem uint_of_range {x : ℤ} (h : 0 ≤ x) (h' : x < 2^32) : (uint x : ℤ) = x := by
  unfold uint; omega

variable [KernelImage]

/-- The books are in order, up to pages that the kernel has lost track of. -/
def Sound (M : Finset Frame) (s : Kernel Kmem) : Prop := ∃ X, s.Wf M X

variable {M : Finset Frame} {s t : Kernel Kmem} {p q : Slot} {d : PageDir} {va cpuid : ℕ}

omit [KernelImage] in
theorem tick_same (t : Ptable PageDir) (cpuid : ℕ) (q : Slot) :
    Ptable.SameImage (t.proc q) ((tick t cpuid).proc q) := by
  unfold tick
  split
  · exact Ptable.wakeup1_same { t with ticks := uint (t.ticks + 1) } _ q
  · exact .refl _

theorem Sound.same (h : Sound M s) (hq : ∀ q, Ptable.SameImage (s.proc q) (t.proc q))
    (hp : t.pipes = s.pipes) (hm : t.mem = s.mem) : Sound M t :=
  h.imp fun _ hw => hw.same hq hp hm

/-- What the page fault handler makes of process `p`, and leaves of the memory. -/
inductive Faulted (s : Kernel Kmem) (p : Slot) (d : PageDir) (va : ℕ) (k : Kmem) :
    Proc PageDir → Prop
  | killed (h0 : (s.proc p).allocLeft = 0) (hk : k = s.mem) :
      Faulted s p d va k { s.proc p with killed := true }
  | served {d' : PageDir} {mem : Frame} (hne : (s.proc p).allocLeft ≠ 0)
      (hneed : need d (pageOf va) ≤ s.mem.freelist.length) (hnone : d.get (pageOf va) = none)
      (hget : ∀ w, d'.get w = if w = pageOf va then
        some { w := true, u := true, cow := false, frame := mem } else d.get w)
      (hzero : k.bytes mem = zeroPage) (hkeep : Keeps (· ∈ s.users) s.mem k) :
      Faulted s p d va k { s.proc p with
        pgdir := some d', allocLeft := spend (s.proc p).allocLeft }
  | spent (hne : (s.proc p).allocLeft ≠ 0)
      (hshort : s.mem.freelist.length < need d (pageOf va)) :
      Faulted s p d va k { s.proc p with
        pgdir := some d, allocLeft := spend (s.proc p).allocLeft }

/-- The kernel with `x` in slot `p` and memory `k`, behind the timer's tick. -/
def faulted (s : Kernel Kmem) (p : Slot) (x : Proc PageDir) (k : Kmem) (cpuid : ℕ) :
    Kernel Kmem :=
  { s with toPtable := tick (s.toPtable.setProc p x) cpuid, mem := k }

/-- A page that belongs to nobody any more is among those that are lost. -/
theorem lose {mem : Frame} {k : Kmem} {U K X : Multiset Frame}
    (h : Held M k ({mem} + U) (K + X)) : Held M k U (K + ({mem} + X)) :=
  Kmem.held_of_owned (by
    have ha : Kmem.Owned M k ({mem} + U + (K + X)) := h.acc
    rwa [show U + (K + ({mem} + X)) = {mem} + U + (K + X) by abel])

omit [KernelImage] in
theorem faulted_self (s : Kernel Kmem) (p : Slot) (x : Proc PageDir) (k : Kmem) (cpuid : ℕ) :
    Ptable.SameImage x ((faulted s p x k cpuid).proc p) := by
  have h := tick_same (s.toPtable.setProc p x) cpuid p
  rwa [show (s.toPtable.setProc p x).proc p = x from Function.update_self _ _ _] at h

omit [KernelImage] in
theorem faulted_off (s : Kernel Kmem) (x : Proc PageDir) (k : Kmem) (cpuid : ℕ) (hq : q ≠ p) :
    Ptable.SameImage (s.proc q) ((faulted s p x k cpuid).proc q) := by
  have h := tick_same (s.toPtable.setProc p x) cpuid q
  rwa [show (s.toPtable.setProc p x).proc q = s.proc q from Function.update_of_ne hq _ _] at h

theorem Faulted.live {k : Kmem} {x : Proc PageDir} (h : Faulted s p d va k x)
    (hl : (s.proc p).live) : x.live := by
  cases h <;> exact hl

theorem faulted_sound {X : Multiset Frame} {x : Proc PageDir} {k : Kmem}
    (hw : Wf M X { s.setProc p x with mem := k }) : Sound M (faulted s p x k cpuid) :=
  ⟨X,hw.same (fun q => tick_same _ cpuid q) rfl rfl⟩

theorem pgflt_spec (h : Sound M s) (hl : (s.proc p).live) (hd : (s.proc p).pgdir = some d)
    (hok : (s.proc p).allocLeft ≠ 0 →
      va < KERNBASE ∧ s.mem.freelist ≠ [] ∧ ¬ Spills s.mem d va) :
    Post (pgflt p va cpuid) s
      (fun _ t => Sound M t ∧ ∃ x, Faulted s p d va t.mem x ∧ t = faulted s p x t.mem cpuid)
      fun e _ => e = .panic "remap" ∧ (s.proc p).allocLeft ≠ 0 ∧
        ((d.get (pageOf va)).isSome ∨ va % PGSIZE ≠ 0 ∧ (d.get (pageOf va + 1)).isSome) := by
  obtain ⟨X,hw⟩ := h
  obtain ⟨d₀,hd₀,hk⟩ := (hw.slot p).dir hl
  obtain rfl : d = d₀ := by rw [hd] at hd₀; exact Option.some.inj hd₀
  simp only [pgflt,post_bind,post_get]
  split
  · rename_i hne
    obtain ⟨hva,hfull,hsp⟩ := hok hne
    simp only [post_bind,post_onMem]
    refine Total.post (fetch_spec (hw.split hl hd)) ?_
    rintro r k₁ ⟨hr,hfetch⟩
    cases r with
    | none => exact (hfull (hr.mp rfl)).elim
    | some mem =>
      simp only [hd,post_bind,post_onMem]
      refine Total.post (hfetch mem rfl) ?_
      intro _ k₂ hf
      simp only [post_modify]
      refine (map_spec hf hva hsp).mono ?_ ?_
      · rintro ⟨d',ok⟩ k₃ ⟨hkeep,hm⟩
        dsimp only at hm ⊢
        obtain ⟨hneed,hnone,hg,hh⟩ | ⟨hshort,rfl,hh⟩ := hm
        · have hk' : KernelHalf d' := hk.congr fun v hv => by
            have hlt := pageOf_lt_USERPAGES hva
            rw [hg v,if_neg (by omega)]
          refine ⟨faulted_sound (Wf.update hw.slot hl rfl hk' rfl hl hh),_,
            .served hne hneed hnone hg ?_ ?_,rfl⟩
          · have hpage := hkeep.page mem trivial
            exact Eq.trans hpage hf.zero
          · refine (hf.keeps.mono fun g hgm => ?_).trans hkeep.of_all
            rintro rfl
            rw [users_eq s p,Proc.users_of_live hl hd,add_comm] at hgm
            exact hf.fresh hgm
        · have hrest : s.kernRest ({mem} + X) p + d'.kern =
              s.kernRest 0 p + d'.kern + ({mem} + X) := by
            simp only [kernRest]; abel
          have hlost := lose (X := X) (K := s.kernRest 0 p + d'.kern)
            (hh.congr rfl (by simp only [kernRest]; abel))
          exact ⟨faulted_sound (Wf.update hw.slot hl rfl hk rfl hl (hlost.congr rfl hrest.symm)),_,
            .spent hne hshort,rfl⟩
      · rintro e k₃ ⟨he,hs⟩
        exact ⟨he,hne,hs⟩
  · rename_i h0
    simp only [post_bind,post_set,post_modify]
    have hw' := Wf.update (x := { s.proc p with killed := true }) hw.slot hl hd hk rfl hl
      (hw.split hl hd)
    exact ⟨faulted_sound hw',_,.killed (not_not.mp h0) rfl,rfl⟩

/-- The operation does not take one of the branches that leave a page with two owners: a fault
that is served lies below `KERNBASE`, finds a free page and does not spill over, and a process
that shrinks lies below `KERNBASE`. -/
def Tame (op : Op) (s : Kernel Kmem) : Prop :=
  match op with
  | .access p va write _ => (s.proc p).state = .RUNNABLE → Faults s p va.toNat write →
    (s.proc p).allocLeft ≠ 0 → va.toNat < KERNBASE ∧ s.mem.freelist ≠ [] ∧
      ∀ d, (s.proc p).pgdir = some d → ¬ Spills s.mem d va.toNat
  | .growproc p n => (s.proc p).state = .RUNNABLE → n.toInt < 0 → (s.proc p).sz ≤ KERNBASE
  | _ => True

/-- How `op`, started in `s`, comes to leave process `y` in slot `q`, the memory being `k` then
and the answer `r`. -/
inductive Became (M : Finset Frame) (s : Kernel Kmem) (k : Kmem) :
    Op → Option ℤ → Slot → Proc PageDir → Prop
  | same {op : Op} {r : Option ℤ} {q : Slot} {y : Proc PageDir} (hl : (s.proc q).live)
      (hy : Ptable.SameImage (s.proc q) y)
      (hr : ∀ file argv, op = .exec q file argv → r ≠ some 0) : Became M s k op r q y
  | faulted {p : Slot} {va : UInt32} {write : Bool} {cpuid : ℕ} {r : Option ℤ} {d : PageDir}
      {x y : Proc PageDir} (hp : (s.proc p).state = .RUNNABLE) (hd : (s.proc p).pgdir = some d)
      (hf : Faults s p va.toNat write) (hx : Faulted s p d va.toNat k x)
      (hy : Ptable.SameImage x y) : Became M s k (.access p va write cpuid) r p y
  | mmapped {p : Slot} {bytes : Int32} (hp : (s.proc p).state = .RUNNABLE) (h0 : 0 ≤ bytes.toInt)
      (hm : bytes.toInt % PGSIZE = 0) (hk : k = s.mem) :
      Became M s k (.mmap p bytes) (some (int (s.proc p).sz)) p { s.proc p with
        allocLeft := int ((s.proc p).allocLeft + bytes.toInt)
        sz := uint ((s.proc p).sz + bytes.toInt) }
  | grown {p : Slot} {n : Int32} {d d' : PageDir} {r : ℤ} {sz : ℕ} (hp : (s.proc p).state = .RUNNABLE)
      (hd : (s.proc p).pgdir = some d)
      (hg : Grown (s.usersBut p) s.mem k d d' (s.proc p).sz n.toInt r sz) :
      Became M s k (.growproc p n) (some r) p { s.proc p with pgdir := some d', sz := sz }
  | child {p q : Slot} {d c : PageDir} {f : Frame} {U K : Multiset Frame} {k₁ : Kmem}
      (hp : (s.proc p).state = .RUNNABLE) (hd : (s.proc p).pgdir = some d) (hq : s.unused = some q)
      (hc : Cloned M U K d k₁ k (s.proc p).sz c) :
      Became M s k (.fork p) (some s.nextpid) q (s.child p q f c)
  | executed {p : Slot} {file : Option (List UInt8)} {argv : List (List UInt8)} {d : PageDir}
      {sz : ℕ} (hp : (s.proc p).state = .RUNNABLE) (hsz : sz ≤ KERNBASE) (hb : Below sz d) :
      Became M s k (.exec p file argv) (some 0) p { s.proc p with pgdir := some d, sz := sz }

/-- What every operation owes. -/
def Stepped (M : Finset Frame) (s : Kernel Kmem) (op : Op) (r : Option ℤ) (t : Kernel Kmem) :
    Prop :=
  Sound M t ∧ ∀ q, (t.proc q).live → Became M s t.mem op r q (t.proc q)

theorem stepped_same {op : Op} {r : Option ℤ} (h : Sound M t)
    (hq : ∀ q, Ptable.SameImage (s.proc q) (t.proc q))
    (hr : ∀ q file argv, op = .exec q file argv → r ≠ some 0) : Stepped M s op r t :=
  ⟨h,fun q hl => .same ((hq q).live.mp hl) (hq q) (hr q)⟩

/-- Where `p` deals with its own memory, the others stay as they are. -/
theorem stepped_alone {op : Op} {r : Option ℤ} (h : Sound M t) (ha : Alone p s t)
    (ho : ∀ q file argv, op = .exec q file argv → q = p)
    (hp : (t.proc p).live → Became M s t.mem op r p (t.proc p)) : Stepped M s op r t := by
  refine ⟨h,fun q hl => ?_⟩
  by_cases hq : q = p
  · subst hq; exact hp hl
  · have he := ha.proc q hq
    exact .same (he ▸ hl) (he ▸ .refl _) fun file argv hop => (hq (ho q file argv hop)).elim

/-- The rule of a fault that leaves its process alive. -/
theorem access_post {va : UInt32} {write : Bool} {Q : Option ℤ → Kernel Kmem → Prop}
    {E : Panic → Kernel Kmem → Prop} (hp : (s.proc p).state = .RUNNABLE)
    (hf : Faults s p va.toNat write)
    (h : Post (pgflt p va.toNat cpuid) s (fun _ t => (t.proc p).killed = false ∧ Q none t) E) :
    Post (step (.access p va write cpuid)) s Q E := by
  refine whenRunnable_post (fun hn => (hn hp).elim) fun _ => ?_
  simp only [post_map,access,post_bind,post_get,if_pos hf,trap]
  refine h.imp ?_
  rintro - t ⟨hk,hq⟩
  simp only [hk,Bool.false_eq_true,if_false]
  exact hq

theorem access_stepped {va : UInt32} {write : Bool} (h : Sound M s)
    (hp : (s.proc p).state = .RUNNABLE) (hok : Tame (.access p va write cpuid) s) :
    Post (access p va.toNat write cpuid) s
      (fun _ t => Stepped M s (.access p va write cpuid) none t)
      fun e _ => e.allocator = false := by
  have hl := Proc.live_of_state hp (by decide) (by decide)
  obtain ⟨X,hw⟩ := h
  obtain ⟨d,hd,hk⟩ := (hw.slot p).dir hl
  simp only [access,post_bind,post_get]
  split
  · rename_i hf
    simp only [trap,post_bind]
    refine (pgflt_spec ⟨X,hw⟩ hl hd fun hne => ?_).mono ?_ ?_
    · obtain ⟨h1,h2,h3⟩ := hok hp hf hne
      exact ⟨h1,h2,h3 d hd⟩
    · rintro - t ⟨hs,x,hx,ht⟩
      have hself : Ptable.SameImage x (t.proc p) := ht ▸ faulted_self s p x t.mem cpuid
      have hoff : ∀ q ≠ p, Ptable.SameImage (s.proc q) (t.proc q) := fun q hq =>
        ht ▸ faulted_off s x t.mem cpuid hq
      have hfin : ∀ u : Kernel Kmem, Sound M u → u.mem = t.mem →
          (∀ q, Ptable.SameImage (t.proc q) (u.proc q)) →
          Stepped M s (.access p va write cpuid) none u := by
        intro u hu hm hq
        refine ⟨hu,fun q hlq => ?_⟩
        by_cases hqp : q = p
        · subst hqp
          exact .faulted hp hd hf (hm ▸ hx) (hself.trans (hq q))
        · have hy := (hoff q hqp).trans (hq q)
          exact .same (hy.live.mp hlq) hy (by simp)
      simp only [post_get]
      split
      · obtain ⟨Y,hy⟩ := hs
        have hlt : (t.proc p).live := hself.live.mpr (hx.live hl)
        refine (exit_spec hy hlt).mono ?_ ?_
        · rintro - u ⟨hu,rfl⟩
          exact hfin _ ⟨Y,hu⟩ rfl (Ptable.exit_same hlt)
        · rintro e - ⟨rfl,-⟩
          decide
      · exact hfin t hs rfl fun q => .refl _
    · rintro e - ⟨rfl,-⟩
      decide
  · exact stepped_same ⟨X,hw⟩ (fun q => .refl _) (by simp)

/-- `sys_mmap` counts, and that is all. -/
theorem Wf.counted {X : Multiset Frame} (h : Wf M X s) (hl : (s.proc p).live) (a : ℤ) (sz : ℕ) :
    Wf M X (s.setProc p { s.proc p with allocLeft := a, sz := sz }) := by
  obtain ⟨d,hd,hk⟩ := (h.slot p).dir hl
  exact Wf.update (x := { s.proc p with allocLeft := a, sz := sz }) h.slot hl hd hk rfl hl
    (h.split hl hd)

/-- The kernel after a call of `sys_mmap` that is accepted. -/
def mmapped (s : Kernel Kmem) (p : Slot) (bytes : ℤ) : Kernel Kmem :=
  s.setProc p { s.proc p with
    allocLeft := int ((s.proc p).allocLeft + bytes), sz := uint ((s.proc p).sz + bytes) }

omit [KernelImage] in
@[simp] theorem mmapped_proc (s : Kernel Kmem) (p : Slot) (bytes : ℤ) :
    (mmapped s p bytes).proc p = { s.proc p with
      allocLeft := int ((s.proc p).allocLeft + bytes), sz := uint ((s.proc p).sz + bytes) } :=
  Function.update_self _ _ _

omit [KernelImage] in
theorem mmapped_off (bytes : ℤ) (hq : q ≠ p) : (mmapped s p bytes).proc q = s.proc q :=
  Function.update_of_ne hq _ _

theorem step_mmap (bytes : Int32) (hp : (s.proc p).state = .RUNNABLE) (h0 : 0 ≤ bytes.toInt)
    (hm : bytes.toInt % PGSIZE = 0) :
    step (.mmap p bytes) s = .ok (some (int (s.proc p).sz)) (mmapped s p bytes.toInt) := by
  have hc : ¬ (bytes.toInt < 0 ∨ bytes.toInt % PGSIZE ≠ 0) := by omega
  have htotal : Total (step (.mmap p bytes)) s fun r t =>
      r = some (int (s.proc p).sz) ∧ t = mmapped s p bytes.toInt := by
    refine whenRunnable_post (fun hn => (hn hp).elim) fun _ => ?_
    simp only [post_map,sys_mmap,post_bind,post_get,if_neg hc,post_set,post_pure]
    exact ⟨trivial,rfl⟩
  obtain ⟨r,t,h,rfl,rfl⟩ := htotal.exists_ok
  exact h

theorem mmap_stepped {bytes : Int32} (h : Sound M s) (hp : (s.proc p).state = .RUNNABLE) :
    Total (sys_mmap p bytes.toInt) s fun r t => Stepped M s (.mmap p bytes) (some r) t := by
  have hl := Proc.live_of_state hp (by decide) (by decide)
  obtain ⟨X,hw⟩ := h
  simp only [sys_mmap,post_bind,post_get]
  split
  · exact stepped_same ⟨X,hw⟩ (fun q => .refl _) (by simp)
  · rename_i hc
    simp only [post_bind,post_set,post_pure]
    refine stepped_alone ⟨X,Wf.counted hw hl _ _⟩
      ⟨fun q hq => Function.update_of_ne hq _ _,rfl,?_⟩ (by simp) fun _ => ?_
    · rw [setProc_proc,Function.update_self]
    · rw [setProc_proc,Function.update_self]
      exact .mmapped hp (by omega) (by omega) rfl

theorem growproc_stepped {n : Int32} (h : Sound M s) (hp : (s.proc p).state = .RUNNABLE)
    (hok : Tame (.growproc p n) s) :
    Post (growproc p n.toInt) s (fun r t => Stepped M s (.growproc p n) (some r) t)
      fun e _ => e.allocator = false := by
  have hl := Proc.live_of_state hp (by decide) (by decide)
  obtain ⟨X,hw⟩ := h
  obtain ⟨d,hd,-⟩ := (hw.slot p).dir hl
  refine (growproc_spec hw hl hd (hok hp)).imp ?_
  rintro r t ⟨hwt,d',sz',ht,hg⟩
  have ha : Alone p s t := ht ▸ resized_alone s p d' sz' t.mem
  refine stepped_alone ⟨X,hwt⟩ ha (by simp) fun _ => ?_
  have hproc : t.proc p = { s.proc p with pgdir := some d', sz := sz' } := by
    rw [ht]; exact resized_proc
  rw [hproc]
  exact .grown hp hd hg

omit [KernelImage] in
theorem setPgdir_self (hd : (s.proc p).pgdir = some d) :
    s.setProc p { s.proc p with pgdir := some d } = s := by
  rw [← hd]
  exact Kernel.ext (Function.update_eq_self p s.proc) rfl rfl rfl rfl rfl

/-- A slot stays free through a `fork` that fails. -/
theorem unused_stepped {X : Multiset Frame} {x : Proc PageDir} {n : ℕ} {k : Kmem} {r : Option ℤ}
    (h : Wf M X s) (hq : (s.proc q).state = .UNUSED) (hx : x.state = .UNUSED)
    (hh : Held M k s.users (s.kern + X)) :
    Stepped M s (.fork p) r { s.setProc q x with nextpid := n, mem := k } := by
  refine ⟨⟨X,Wf.unused h.slot hq hx hh⟩,fun q' hl => ?_⟩
  dsimp only [setProc_proc] at hl ⊢
  by_cases hne : q' = q
  · subst hne
    rw [Function.update_self] at hl
    exact (hl.1 hx).elim
  · rw [Function.update_of_ne hne] at hl ⊢
    exact .same hl (.refl _) (by simp)

theorem fork_stepped (h : Sound M s) (hp : (s.proc p).state = .RUNNABLE) :
    Post (fork copyuvm p) s (fun r t => Stepped M s (.fork p) (some r) t)
      fun e _ => e.allocator = false := by
  have hl := Proc.live_of_state hp (by decide) (by decide)
  obtain ⟨X,hw⟩ := h
  obtain ⟨d,hd,hk⟩ := (hw.slot p).dir hl
  refine fork_post (E := fun e => e.allocator = false) hl hd
    (fun _ => stepped_same ⟨X,hw⟩ (fun q => .refl _) (by simp)) fun np hun hne => ?_
  have hnp := Ptable.unused_state hun
  refine Total.post (kalloc_held hw.held) ?_
  rintro r k₁ ⟨-,hn,hs⟩
  refine ⟨fun hr => ?_,fun f hf => ?_⟩
  · obtain ⟨-,hh,-⟩ := hn hr
    exact unused_stepped hw hnp rfl hh
  obtain ⟨-,-,hK⟩ := hs f hf
  have husers : s.users = s.usersBut p + d.users := by
    rw [users_eq s p,Proc.users_of_live hl hd,add_comm]
  have hkern : s.kern + X = s.kernRest X p + d.kern := by
    rw [kern_eq s p,Proc.kern_of_live hl hd,kernRest]; abel
  refine (copyuvm_spec (U := s.usersBut p) (K := {f} + s.kernRest X p) hk
    (hK.congr husers (by rw [hkern,add_assoc]))).mono ?_ fun _ _ he => he.1
  rintro ⟨pg,c⟩ k₂ ⟨hpg,hbad,hgood⟩
  dsimp only at hpg hbad hgood ⊢
  subst hpg
  refine ⟨fun hc => ?_,fun c' hc => ?_⟩
  · obtain ⟨-,-,hh,-⟩ := hbad hc
    refine Total.post (kfree_kern (f := f) (U := s.usersBut p + pg.users)
      (K := s.kernRest X p + pg.kern) (hh.congr rfl (by rw [add_assoc]))) ?_
    rintro - k₃ ⟨hh₃,-⟩
    unfold forkFailed
    rw [setPgdir_self hd]
    exact unused_stepped hw hnp rfl (hh₃.congr husers.symm hkern.symm)
  · have hcl := hgood c' hc
    unfold forked
    rw [setPgdir_self hd]
    have hwf := Wf.spawn (n := s.nextpid + 1) (x := s.child p np f c') hw.slot hnp
      (Proc.live_of_state (c := .RUNNABLE) rfl (by decide) (by decide)) rfl hcl.kernelHalf rfl
      (hcl.held.congr (by rw [husers]; abel) (by rw [hkern]; abel))
    refine ⟨⟨X,hwf⟩,fun q hlq => ?_⟩
    dsimp only [setProc_proc] at hlq ⊢
    by_cases hq : q = np
    · subst hq
      rw [Function.update_self]
      exact .child hp hd hun hcl
    · rw [Function.update_of_ne hq] at hlq ⊢
      exact .same hlq (.refl _) (by simp)

theorem exit_stepped (h : Sound M s) (hl : (s.proc p).live) :
    Post (exit p) s (fun _ t => Stepped M s (.exit p) none t) fun e _ => e.allocator = false := by
  obtain ⟨X,hw⟩ := h
  refine (exit_spec hw hl).mono ?_ ?_
  · rintro - t ⟨hwt,rfl⟩
    exact stepped_same ⟨X,hwt⟩ (Ptable.exit_same hl) (by simp)
  · rintro e - ⟨rfl,-⟩
    decide

theorem wait_stepped (h : Sound M s) (hl : (s.proc p).live) :
    Total (wait p) s fun r t => Stepped M s (.wait p) r t := by
  obtain ⟨X,hw⟩ := h
  refine (wait_spec hw hl).imp ?_
  rintro r t ⟨hwt,⟨q,hq,rfl,ht,-⟩ | ⟨-,-,rfl,rfl⟩ | ⟨-,-,rfl,rfl⟩⟩
  · refine ⟨⟨X,hwt⟩,fun q' hlq => ?_⟩
    by_cases hne : q' = q
    · subst hne
      rw [ht,reaped] at hlq
      simp only [setProc_proc,Function.update_self] at hlq
      exact (hlq.1 rfl).elim
    · have hoff : t.proc q' = s.proc q' := by
        rw [ht]; exact Function.update_of_ne hne _ _
      exact .same (hoff ▸ hlq) (hoff ▸ .refl _) (by simp)
  · exact stepped_same ⟨X,hwt⟩ (fun q => .refl _) (by simp)
  · exact stepped_same ⟨X,hwt⟩ (Ptable.sleep_same hl) (by simp)

theorem exec_stepped {file : Option (List UInt8)} {argv : List (List UInt8)} (h : Sound M s)
    (hp : (s.proc p).state = .RUNNABLE) :
    Post (exec p file argv) s (fun r t => Stepped M s (.exec p file argv) (some r) t)
      fun e _ => e.allocator = false := by
  have hl := Proc.live_of_state hp (by decide) (by decide)
  obtain ⟨X,hw⟩ := h
  refine (exec_spec hw hl).imp ?_
  rintro r t ⟨hwt,-,⟨rfl,ht⟩ | ⟨rfl,d',sz,ht,-,hsz,hb⟩⟩
  · refine stepped_same ⟨X,hwt⟩ (fun q => by rw [ht]; exact .refl _) fun _ _ _ _ => ?_
    decide
  · have ha : Alone p s t := ht ▸ resized_alone s p d' sz t.mem
    refine stepped_alone ⟨X,hwt⟩ ha (fun q file argv hop => ?_) fun _ => ?_
    · cases hop; rfl
    have hproc : t.proc p = { s.proc p with pgdir := some d', sz := sz } := by
      rw [ht]; exact resized_proc
    rw [hproc]
    exact .executed hp hsz hb

end ResumePointers.Lazy
