import ResumePointers.Xv6.Account

/-! The kernel's books over a whole process table: every operation of `proc.c` keeps
them, whatever page allocator and whatever `copyuvm` it runs with. -/
namespace ResumePointers.Xv6

variable {κ : Type} [PageAllocator κ] [LawfulPageAllocator κ]

/-- A slot at rest: a process in it has a page directory and a kernel stack. -/
structure Proc.Ok [KernelImage] (x : Proc PageDir) : Prop where
  dir : x.live → ∃ d, x.pgdir = some d ∧ KernelHalf d
  kstack : x.live → ∃ f, x.kstack = some f
  settled : x.state ≠ .EMBRYO

omit [PageAllocator κ] [LawfulPageAllocator κ] in
theorem Proc.Ok.unused [KernelImage] {x : Proc PageDir} (h : x.state = .UNUSED) : x.Ok :=
  ⟨fun hl => (hl.1 h).elim,fun hl => (hl.1 h).elim,by simp [h]⟩

namespace Kernel

omit [PageAllocator κ] [LawfulPageAllocator κ] in
@[simp] theorem post_onMem {α : Type} (m : EStateM Panic κ α) (s : Kernel κ)
    (Q : α → Kernel κ → Prop) (E : Panic → Kernel κ → Prop) :
    Post (onMem m) s Q E ↔
      Post m s.mem (fun a k => Q a { s with mem := k }) fun e k => E e { s with mem := k } :=
  post_zoom _ _ _ _ _ _

/-- The books of a kernel at rest: user entries and kernel objects account for every page that
is not free, up to the pages `X` that the kernel has lost track of. -/
structure Wf [KernelImage] (M : Finset Frame) (X : Multiset Frame) (s : Kernel κ) : Prop where
  held : Held M s.mem s.users (s.kern + X)
  slot : ∀ p, (s.proc p).Ok

/-- What the kernel holds apart from the page directory of `p`. -/
def kernRest (s : Kernel κ) (X : Multiset Frame) (p : Slot) : Multiset Frame :=
  s.kernBut p + optional (s.proc p).kstack + X

variable {M : Finset Frame} {X X' : Multiset Frame} {s t : Kernel κ} {p q np : Slot}
  {d d' : PageDir} {k : κ}

/-- The books, opened at the page directory of `p`. -/
theorem held_split (h : Held M s.mem s.users (s.kern + X)) (hl : (s.proc p).live)
    (hd : (s.proc p).pgdir = some d) :
    Held M s.mem (s.usersBut p + d.users) (s.kernRest X p + d.kern) := by
  rw [users_eq s p,kern_eq s p,Proc.users_of_live hl hd,Proc.kern_of_live hl hd] at h
  exact h.congr (add_comm _ _) (by rw [kernRest]; abel)

/-- The books, closed again after a change of the page directory of `p`. -/
theorem held_join (hq : ∀ q ≠ p, t.proc q = s.proc q) (hp : t.pipes = s.pipes)
    (hl : (t.proc p).live) (hd : (t.proc p).pgdir = some d)
    (hk : (t.proc p).kstack = (s.proc p).kstack)
    (h : Held M k (s.usersBut p + d.users) (s.kernRest X p + d.kern)) :
    Held M k t.users (t.kern + X) := by
  rw [users_of_update hq,kern_of_update hq hp,Proc.users_of_live hl hd,Proc.kern_of_live hl hd,hk]
  exact h.congr (add_comm _ _) (by rw [kernRest]; abel)

variable [KernelImage]

theorem Wf.split (h : Wf M X s) (hl : (s.proc p).live) (hd : (s.proc p).pgdir = some d) :
    Held M s.mem (s.usersBut p + d.users) (s.kernRest X p + d.kern) :=
  held_split h.held hl hd

/-- A live process gets another page directory and size. -/
theorem Wf.update {x : Proc PageDir} (h : ∀ q, (s.proc q).Ok) (hl : x.live) (hd : x.pgdir = some d)
    (hk : KernelHalf d) (hstack : x.kstack = (s.proc p).kstack) (hsl : (s.proc p).live)
    (hh : Held M k (s.usersBut p + d.users) (s.kernRest X' p + d.kern)) :
    Wf M X' { s.setProc p x with mem := k } where
  held := held_join (s := s) (p := p) (fun q hq => Function.update_of_ne hq _ _) rfl
    (by simpa using hl) (by simpa using hd) (by simpa using hstack) hh
  slot := (Function.forall_update_iff s.proc fun _ y => y.Ok).mpr
    ⟨⟨fun _ => ⟨d,hd,hk⟩,fun _ => hstack ▸ (h p).kstack hsl,hl.2⟩,fun q _ => h q⟩

/-- A slot that holds no process before and after contributes nothing. -/
theorem Wf.unused {x : Proc PageDir} {n : ℕ} (h : ∀ q, (s.proc q).Ok)
    (hs : (s.proc p).state = .UNUSED) (hx : x.state = .UNUSED)
    (hh : Held M k s.users (s.kern + X)) :
    Wf M X { s.setProc p x with nextpid := n, mem := k } where
  held := by
    have hoff : ∀ q, (Function.update s.proc p x q).users = (s.proc q).users ∧
        (Function.update s.proc p x q).kern = (s.proc q).kern := fun q => by
      by_cases hq : q = p
      · subst hq
        rw [Function.update_self,Proc.users_of_not_live fun hl => hl.1 hx,
          Proc.users_of_not_live fun hl => hl.1 hs,Proc.kern_of_unused hx,Proc.kern_of_unused hs]
        exact ⟨rfl,rfl⟩
      · rw [Function.update_of_ne hq]
        exact ⟨rfl,rfl⟩
    refine hh.congr (users_congr fun q => (hoff q).1).symm ?_
    rw [← kern_congr (s := s) (t := { s.setProc p x with nextpid := n, mem := k })
      (fun q => (hoff q).2) rfl]
  slot := (Function.forall_update_iff s.proc fun _ y => y.Ok).mpr
    ⟨.unused hx,fun q _ => h q⟩

/-- An unused slot receives a process with pages of its own. -/
theorem Wf.spawn {x : Proc PageDir} {f : Frame} {n : ℕ} (h : ∀ q, (s.proc q).Ok)
    (hs : (s.proc p).state = .UNUSED) (hl : x.live) (hd : x.pgdir = some d) (hk : KernelHalf d)
    (hf : x.kstack = some f)
    (hh : Held M k (d.users + s.users) ({f} + d.kern + (s.kern + X))) :
    Wf M X { s.setProc p x with nextpid := n, mem := k } where
  held := by
    have hoff : ∀ q ≠ p, ({ s.setProc p x with nextpid := n, mem := k } : Kernel κ).proc q =
        s.proc q := fun q hq => Function.update_of_ne hq _ _
    have hu := s.users_eq p
    have hkern := s.kern_eq p
    rw [Proc.users_of_not_live fun hl => hl.1 hs,zero_add] at hu
    rw [Proc.kern_of_unused hs,zero_add] at hkern
    refine hh.congr ?_ ?_
    · rw [users_of_update hoff,hu]
      simp only [setProc_proc,Function.update_self]
      rw [Proc.users_of_live hl hd]
    · rw [kern_of_update hoff rfl,hkern]
      simp only [setProc_proc,Function.update_self]
      rw [Proc.kern_of_live hl hd,hf,optional_some]
      abel
  slot := (Function.forall_update_iff s.proc fun _ y => y.Ok).mpr
    ⟨⟨fun _ => ⟨d,hd,hk⟩,fun _ => ⟨f,hf⟩,hl.2⟩,fun q _ => h q⟩

/-- A process leaves its slot, and its pages with it. -/
theorem Wf.reap {x : Proc PageDir} (h : ∀ q, (s.proc q).Ok) (hx : x.state = .UNUSED)
    (hh : Held M k (s.usersBut p) (s.kernBut p + X)) : Wf M X { s.setProc p x with mem := k } where
  held := by
    have hoff : ∀ q ≠ p, ({ s.setProc p x with mem := k } : Kernel κ).proc q = s.proc q :=
      fun q hq => Function.update_of_ne hq _ _
    refine hh.congr ?_ ?_
    · rw [users_of_update hoff]
      simp only [setProc_proc,Function.update_self]
      rw [Proc.users_of_not_live fun hl => hl.1 hx,zero_add]
    · rw [kern_of_update hoff rfl]
      simp only [setProc_proc,Function.update_self]
      rw [Proc.kern_of_unused hx,zero_add]
  slot := (Function.forall_update_iff s.proc fun _ y => y.Ok).mpr
    ⟨.unused hx,fun q _ => h q⟩

/-- Processes that keep their image keep the books. -/
theorem Wf.same (h : Wf M X s) (hq : ∀ q, Ptable.SameImage (s.proc q) (t.proc q))
    (hp : t.pipes = s.pipes) (hm : t.mem = s.mem) : Wf M X t where
  held := by
    rw [hm]
    refine h.held.congr (users_congr fun q => ?_).symm ?_
    · exact Proc.users_congr (hq q).live (hq q).pgdir
    · rw [kern_congr (fun q => Proc.kern_congr (hq q).live (hq q).unused (hq q).pgdir
        (hq q).kstack) hp]
  slot q :=
    ⟨fun hl => (hq q).pgdir ▸ (h.slot q).dir ((hq q).live.mp hl),
     fun hl => (hq q).kstack ▸ (h.slot q).kstack ((hq q).live.mp hl),
     fun he => (h.slot q).settled ((hq q).embryo.mp he)⟩

/-- After an `allocproc` that found slot `np` but no page. -/
def allocFailed (s : Kernel κ) (np : Slot) (k : κ) : Kernel κ :=
  { s.setProc np { s.proc np with
      state := .UNUSED, pid := s.nextpid, allocLeft := 0, kstack := none } with
    nextpid := s.nextpid + 1, mem := k }

/-- After an `allocproc` that found slot `np` and the page `f`. -/
def embryo (s : Kernel κ) (np : Slot) (f : Frame) (k : κ) : Kernel κ :=
  { s.setProc np { s.proc np with
      state := .EMBRYO, pid := s.nextpid, allocLeft := 0, kstack := some f } with
    nextpid := s.nextpid + 1, mem := k }

/-- After a `fork` whose `copyuvm` left the parent with `pgdir` and gave nothing. -/
def forkFailed (s : Kernel κ) (p np : Slot) (pgdir : PageDir) (k : κ) : Kernel κ :=
  { (s.setProc p { s.proc p with pgdir := some pgdir }).setProc np { s.proc np with
      state := .UNUSED, pid := s.nextpid, allocLeft := 0, kstack := none, pgdir := none } with
    nextpid := s.nextpid + 1, mem := k }

/-- The child that `fork` makes in slot `np`. -/
def child (s : Kernel κ) (p np : Slot) (f : Frame) (d : PageDir) : Proc PageDir :=
  { s.proc np with
    state := .RUNNABLE, pid := s.nextpid, allocLeft := (s.proc p).allocLeft
    kstack := some f, pgdir := some d, sz := (s.proc p).sz, parent := some p }

/-- After a `fork` whose `copyuvm` left the parent with `pgdir` and gave `d`. -/
def forked (s : Kernel κ) (p np : Slot) (f : Frame) (pgdir d : PageDir) (k : κ) : Kernel κ :=
  { (s.setProc p { s.proc p with pgdir := some pgdir }).setProc np (s.child p np f d) with
    nextpid := s.nextpid + 1, mem := k }

/-- Process `p` with the page directory and the size that `growproc` or `exec` gives it. -/
def resized (s : Kernel κ) (p : Slot) (d : PageDir) (sz : ℕ) (k : κ) : Kernel κ :=
  { s.setProc p { s.proc p with pgdir := some d, sz := sz } with mem := k }

/-- After a `wait` that found the zombie in slot `q`. -/
def reaped (s : Kernel κ) (q : Slot) (k : κ) : Kernel κ :=
  { s.setProc q { s.proc q with
      kstack := none, pid := 0, parent := none, killed := false, state := .UNUSED } with mem := k }

section Rules

omit [LawfulPageAllocator κ] [KernelImage]

variable {E : Panic → Prop} {F : Panic → κ → Prop}

theorem allocproc_rule {Q : Option Slot → Kernel κ → Prop} (hfull : s.unused = none → Q none s)
    (hnew : ∀ np, s.unused = some np → Post kalloc s.mem
      (fun r k => (r = none → Q none (s.allocFailed np k)) ∧
        ∀ f, r = some f → Q (some np) (s.embryo np f k)) F) :
    Post allocproc s Q fun e t => F e t.mem := by
  simp only [allocproc,post_bind,post_get]
  split
  · rename_i h
    exact hfull h
  · rename_i np h
    simp only [post_bind,post_set,post_onMem,setProc_mem]
    refine (hnew np h).imp ?_
    rintro r k ⟨hnone,hsome⟩
    cases r with
    | none =>
      simp only [post_bind,post_modify,post_pure,setProc_proc,Function.update_self]
      convert hnone rfl using 1
      ext1 <;> simp [allocFailed,setProc,Ptable.setProc]
    | some f =>
      simp only [post_bind,post_modify,post_pure,setProc_proc,Function.update_self]
      convert hsome f rfl using 1
      ext1 <;> simp [embryo,setProc,Ptable.setProc]

theorem allocproc_post {Q : Option Slot → Kernel κ → Prop} (hfull : s.unused = none → Q none s)
    (hnew : ∀ np, s.unused = some np → Post kalloc s.mem
      (fun r k => (r = none → Q none (s.allocFailed np k)) ∧
        ∀ f, r = some f → Q (some np) (s.embryo np f k)) fun e _ => E e) :
    Post allocproc s Q fun e _ => E e :=
  allocproc_rule (F := fun e _ => E e) hfull hnew

/-- The rule of `fork`: it is `kalloc` for the stack, then `copyuvm`, and `kfree` of the stack
where that fails. -/
theorem fork_rule {copyuvm : PageDir → ℕ → EStateM Panic κ (PageDir × Option PageDir)}
    {Q : ℤ → Kernel κ → Prop} (hl : (s.proc p).live) (hd : (s.proc p).pgdir = some d)
    (hfull : s.unused = none → Q (-1) s)
    (hnew : ∀ np, s.unused = some np → np ≠ p → Post kalloc s.mem
      (fun r k => (r = none → Q (-1) (s.allocFailed np k)) ∧
        ∀ f, r = some f → Post (copyuvm d (s.proc p).sz) k
          (fun c k' => (c.2 = none → Post (kfree f) k'
              (fun _ k'' => Q (-1) (s.forkFailed p np c.1 k'')) F) ∧
            ∀ d', c.2 = some d' → Q s.nextpid (s.forked p np f c.1 d' k')) F) F) :
    Post (fork copyuvm p) s Q fun e t => F e t.mem := by
  simp only [fork,post_bind]
  refine allocproc_rule (fun h => hfull h) fun np h => ?_
  have hne : np ≠ p := fun he => hl.1 (he ▸ Ptable.unused_state h)
  refine (hnew np h hne).imp ?_
  rintro r k ⟨hnone,hsome⟩
  refine ⟨hnone,fun f hf => ?_⟩
  have hp : (s.embryo np f k).proc p = s.proc p := Function.update_of_ne hne.symm _ _
  simp only [post_bind,post_get,hp,hd,post_onMem]
  refine (hsome f hf).imp ?_
  rintro ⟨pgdir,c⟩ k' ⟨hbad,hgood⟩
  simp only [post_modify]
  cases c with
  | none =>
    have hnp : (s.embryo np f k).proc np = { s.proc np with
        state := .EMBRYO, pid := s.nextpid, allocLeft := 0, kstack := some f } :=
      Function.update_self _ _ _
    simp only [post_bind,post_onMem,hnp,kfreePtr]
    refine (hbad rfl).imp ?_
    rintro - k'' hQ
    simp only [post_modify,post_pure]
    convert hQ using 1
    ext1
    · funext q
      by_cases hq : q = np
      · subst hq; simp [forkFailed,setProc,Ptable.setProc,hne,embryo]
      · by_cases hqp : q = p
        · subst hqp; simp [forkFailed,setProc,Ptable.setProc,hq,embryo]
        · simp [forkFailed,setProc,Ptable.setProc,hq,hqp,embryo]
    all_goals rfl
  | some d' =>
    have hnp : (s.embryo np f k).proc np = { s.proc np with
        state := .EMBRYO, pid := s.nextpid, allocLeft := 0, kstack := some f } :=
      Function.update_self _ _ _
    simp only [post_modify,post_bind,post_pure,hnp]
    convert hgood d' rfl using 1
    ext1
    · funext q
      by_cases hq : q = np
      · subst hq; simp [forked,child,setProc,Ptable.setProc,hne,hne.symm,embryo]
      · by_cases hqp : q = p
        · subst hqp; simp [forked,setProc,Ptable.setProc,hq,embryo]
        · simp [forked,setProc,Ptable.setProc,hq,hqp,embryo]
    all_goals rfl

theorem fork_post {copyuvm : PageDir → ℕ → EStateM Panic κ (PageDir × Option PageDir)}
    {Q : ℤ → Kernel κ → Prop} (hl : (s.proc p).live) (hd : (s.proc p).pgdir = some d)
    (hfull : s.unused = none → Q (-1) s)
    (hnew : ∀ np, s.unused = some np → np ≠ p → Post kalloc s.mem
      (fun r k => (r = none → Q (-1) (s.allocFailed np k)) ∧
        ∀ f, r = some f → Post (copyuvm d (s.proc p).sz) k
          (fun c k' => (c.2 = none → Post (kfree f) k'
              (fun _ k'' => Q (-1) (s.forkFailed p np c.1 k'')) fun e _ => E e) ∧
            ∀ d', c.2 = some d' → Q s.nextpid (s.forked p np f c.1 d' k'))
          fun e _ => E e) fun e _ => E e) :
    Post (fork copyuvm p) s Q fun e _ => E e :=
  fork_rule (F := fun e _ => E e) hl hd hfull hnew

theorem growproc_post {Q : ℤ → Kernel κ → Prop} {n : ℤ} (hd : (s.proc p).pgdir = some d)
    (hsame : n = 0 → Q 0 s)
    (hgrow : 0 < n → Post (allocuvm d (s.proc p).sz (uint ((s.proc p).sz + n))) s.mem
      (fun r k => Q (if r.2 = 0 then -1 else 0)
        (s.resized p r.1 (if r.2 = 0 then (s.proc p).sz else r.2) k)) fun e _ => E e)
    (hshrink : n < 0 → Post (deallocuvm d (s.proc p).sz (uint ((s.proc p).sz + n))) s.mem
      (fun r k => Q (if r.2 = 0 then -1 else 0)
        (s.resized p r.1 (if r.2 = 0 then (s.proc p).sz else r.2) k)) fun e _ => E e) :
    Post (growproc p n) s Q fun e _ => E e := by
  have hset : ∀ (r : PageDir × ℕ) (k : κ), Q (if r.2 = 0 then -1 else 0)
      (s.resized p r.1 (if r.2 = 0 then (s.proc p).sz else r.2) k) →
      Post (if r.2 = 0 then pure (-1) else do
          modify fun s : Kernel κ => s.setProc p { s.proc p with sz := r.2 }
          pure 0)
        ({ s.setProc p { s.proc p with pgdir := some r.1 } with mem := k } : Kernel κ) Q
        fun e _ => E e := by
    intro r k hQ
    split
    · rename_i hr
      rw [if_pos hr,if_pos hr] at hQ
      exact hQ
    · rename_i hr
      simp only [post_bind,post_modify,post_pure]
      convert hQ using 1
      · rw [if_neg hr]
      · ext1 <;> simp [resized,setProc,Ptable.setProc,hr]
  simp only [growproc,post_bind,post_get,hd]
  split
  · rename_i hn
    exact hsame hn
  · split
    · rename_i hpos
      simp only [post_bind,post_onMem,post_modify]
      exact (hgrow hpos).imp fun r k hQ => hset r k hQ
    · rename_i hn hpos
      simp only [post_bind,post_onMem,post_modify]
      exact (hshrink (by omega)).imp fun r k hQ => hset r k hQ

omit [PageAllocator κ] in
theorem whenRunnable_post {m : EStateM Panic (Kernel κ) (Option ℤ)}
    {Q : Option ℤ → Kernel κ → Prop} {E : Panic → Kernel κ → Prop}
    (hidle : (s.proc p).state ≠ .RUNNABLE → Q none s)
    (hrun : (s.proc p).state = .RUNNABLE → Post m s Q E) : Post (whenRunnable p m) s Q E := by
  simp only [whenRunnable,post_bind,post_get]
  split
  · rename_i h
    exact hrun h
  · rename_i h
    exact hidle h

/-- The rule of `wait`: `kfree` of the stack and `freevm` for a zombie child. -/
theorem wait_post {Q : Option ℤ → Kernel κ → Prop}
    (hreap : ∀ q, s.zombieChild p = some q → Post (kfreePtr (s.proc q).kstack) s.mem
      (fun _ k => Post (freevm (s.proc q).pgdir) k
        (fun _ k' => Q (some (s.proc q).pid) (s.reaped q k')) fun e _ => E e) fun e _ => E e)
    (hnone : s.zombieChild p = none → ¬ s.havekids p ∨ (s.proc p).killed → Q (some (-1)) s)
    (hsleep : s.zombieChild p = none → ¬ (¬ s.havekids p ∨ (s.proc p).killed) →
      Q none { s with toPtable := s.toPtable.sleep p }) :
    Post (wait p) s Q fun e _ => E e := by
  simp only [wait,post_bind,post_get]
  split
  · rename_i q hq
    simp only [post_bind,post_onMem,post_modify,post_pure]
    exact hreap q hq
  · rename_i hz
    split
    · rename_i hc
      exact hnone hz hc
    · rename_i hc
      exact hsleep hz hc

end Rules

end Kernel

end ResumePointers.Xv6
