import ResumePointers.Lazy.Run

/-! `fork` of a process with pages that are not there yet. `copyuvm` asks `walkpgdir` for the
entry of every page below the size, and follows the pointer it gets. -/
namespace ResumePointers.Lazy

open Xv6 Kernel

section
variable [KernelImage]

/-- The child in slot `np` of `t` is what `fork` of process `p` with page directory `d` should
give: a page of its own for every page that the parent has, none where it has none, and
everybody else as in `s`. -/
structure Duplicated (s t : Kernel Kmem) (p np : Slot) (d c : PageDir) : Prop where
  state : (t.proc np).state = .RUNNABLE
  size : (t.proc np).sz = (s.proc p).sz
  dir : (t.proc np).pgdir = some c
  present : ∀ v < pages (s.proc p).sz, ∀ pte, d.get v = some pte →
    ∃ f, c.get v = some { pte with frame := f } ∧ t.mem.bytes f = s.mem.bytes pte.frame ∧
      mappings t f = 1 ∧ ¬ KernelHolds t f
  absent : ∀ v < pages (s.proc p).sz, d.get v = none → c.get v = none
  others : ∀ q ≠ np, t.proc q = s.proc q
  bytes : ∀ f, 0 < mappings s f → t.mem.bytes f = s.mem.bytes f
  tables : t.kern.Nodup

/-- `fork` of `p` returns the pid of a proper child. -/
def Forks (s : Kernel Kmem) (p np : Slot) (d : PageDir) : Prop :=
  Total (step (.fork p)) s fun r t =>
    r = some ((t.proc np).pid : ℤ) ∧ ∃ c, Duplicated s t p np d c

/-- `kalloc` does not fail while `p` forks. -/
def Fed (s : Kernel Kmem) (p : Slot) : Prop :=
  Post (step (.fork p)) s (fun _ t => t.mem.dry = false) fun _ t => t.mem.dry = false

variable {M : Finset Frame} {s t : Kernel Kmem} {p np : Slot} {d : PageDir} {out : List Frame}

theorem Duplicated.of_cloned {c : PageDir} {f : Frame} {U K : Multiset Frame} {k₁ k : Kmem}
    (hs : Sound M t)
    (hU : ∀ f, 0 < mappings s f → f ∈ U + d.users) (hk : Keeps (fun _ => True) s.mem k₁)
    (hc : Cloned M U K d k₁ k (s.proc p).sz c)
    (ht : t = { s.setProc np (s.child p np f c) with nextpid := s.nextpid + 1, mem := k }) :
    Duplicated s t p np d c := by
  have hnp : t.proc np = s.child p np f c := by rw [ht]; exact Function.update_self _ _ _
  have hoff : ∀ q ≠ np, t.proc q = s.proc q := fun q hq => by
    rw [ht]; exact Function.update_of_ne hq _ _
  have hmem : t.mem = k := by rw [ht]
  have hlive : (t.proc np).live := by
    rw [hnp]; exact Proc.live_of_state (c := .RUNNABLE) rfl (by decide) (by decide)
  have hdir : (t.proc np).pgdir = some c := by rw [hnp]; rfl
  refine ⟨by rw [hnp]; rfl,by rw [hnp]; rfl,hdir,fun v hv pte hpte => ?_,hc.absent,hoff,
    fun g hg => ?_,?_⟩
  · obtain ⟨g,hg,hb⟩ := hc.present v hv pte hpte
    have hv' : v < USERPAGES := hv.trans_le (pages_le hc.size)
    have hmap : 0 < mappings t g := by
      rw [mappings_eq]
      exact Multiset.count_pos.mpr (mem_users.mpr ⟨np,by
        rw [Proc.users_of_live hlive hdir]
        exact frame_mem_users (p := { pte with frame := g }) hv' hg⟩)
    obtain ⟨h1,h2⟩ := hs.sole g
    have hpage := hk.page pte.frame trivial
    exact ⟨g,hg,by rw [hmem,hb]; exact hpage,by omega,(h2 hmap).2.2⟩
  · have h1 := hc.keeps.page g (hU g hg)
    have h2 := hk.page g trivial
    rw [hmem]
    exact Eq.trans h1 h2
  · obtain ⟨X,hw⟩ := hs
    have hown : Kmem.Owned M t.mem (t.users + (t.kern + X)) := hw.held.acc
    exact (Multiset.nodup_add.mp (Multiset.nodup_add.mp hown.sole).2.1).1

/-- Every page below the size lies below `KERNBASE` and has a page table. -/
def Tabled (d : PageDir) (sz : ℕ) : Prop := sz ≤ KERNBASE ∧ ∀ v < pages sz, d.hasTable v

/-- How `fork` ends: it gives the child and the parent had all its page tables, or it stops where
one was missing, or `kalloc` has failed. -/
theorem fork_outcome (h : Sound M s) (hl : (s.proc p).live) (hd : (s.proc p).pgdir = some d)
    (hun : s.unused = some np) :
    Post (fork copyuvm p) s
      (fun r t => t.mem.dry = true ∨
        (Tabled d (s.proc p).sz ∧ r = (t.proc np).pid ∧ ∃ c, Duplicated s t p np d c))
      fun _ t => t.mem.dry = true ∨ ¬ Tabled d (s.proc p).sz := by
  obtain ⟨X,hw⟩ := h
  obtain ⟨d₀,hd₀,hk⟩ := (hw.slot p).dir hl
  obtain rfl : d = d₀ := by rw [hd] at hd₀; exact Option.some.inj hd₀
  refine fork_rule (F := fun _ k => k.dry = true ∨ ¬ Tabled d (s.proc p).sz) hl hd
    (fun hfull => by rw [hun] at hfull; cases hfull) fun np' hun' hne => ?_
  obtain rfl : np = np' := Option.some.inj (hun.symm.trans hun')
  have hnp := Ptable.unused_state hun
  refine Total.post (kalloc_held hw.held) ?_
  rintro r k₁ ⟨hp₁,hn,hs⟩
  refine ⟨fun hr => .inl (hn hr).1,fun f hf => ?_⟩
  obtain ⟨-,-,hK⟩ := hs f hf
  have husers : s.users = s.usersBut p + d.users := by
    rw [users_eq s p,Proc.users_of_live hl hd,add_comm]
  have hkern : s.kern + X = s.kernRest X p + d.kern := by
    rw [kern_eq s p,Proc.kern_of_live hl hd,kernRest]; abel
  refine (copyuvm_spec (U := s.usersBut p) (K := {f} + s.kernRest X p) hk
    (hK.congr husers (by rw [hkern,add_assoc]))).mono ?_ ?_
  · rintro ⟨pg,c⟩ k₂ ⟨hpg,hbad,hgood⟩
    dsimp only at hpg hbad hgood ⊢
    subst hpg
    refine ⟨fun hc => ?_,fun c' hc => ?_⟩
    · obtain ⟨-,hst,hh,-⟩ := hbad hc
      refine Total.post (kfree_kern (f := f) (U := s.usersBut p + pg.users)
        (K := s.kernRest X p + pg.kern) (hh.congr rfl (by rw [add_assoc]))) ?_
      rintro - k₃ ⟨-,hp₃⟩
      exact .inl (hp₃.starved hst)
    · have hcl := hgood c' hc
      have hwf := Wf.spawn (n := s.nextpid + 1) (x := s.child p np f c') hw.slot hnp
        (Proc.live_of_state (c := .RUNNABLE) rfl (by decide) (by decide)) rfl hcl.kernelHalf rfl
        (hcl.held.congr (by rw [husers]; abel) (by rw [hkern]; abel))
      have hfork : s.forked p np f pg c' k₂ =
          { s.setProc np (s.child p np f c') with nextpid := s.nextpid + 1, mem := k₂ } := by
        unfold forked
        rw [setPgdir_self hd]
      have hpid : ((s.forked p np f pg c' k₂).proc np).pid = s.nextpid := by
        rw [hfork,setProc_proc]
        rw [Function.update_self]
        rfl
      refine .inr ⟨⟨hcl.size,hcl.tables⟩,by rw [hpid],c',?_⟩
      refine .of_cloned (hfork ▸ ⟨X,hwf⟩) (fun g hg => ?_) hp₁ hcl hfork
      rw [mappings_eq] at hg
      rw [← husers]
      exact Multiset.count_pos.mp hg
  · rintro e k₂ ⟨-,-,hs⟩
    by_cases ht : Tabled d (s.proc p).sz
    · exact .inl ((hs ht.1).2 ht.2)
    · exact .inr ht

/-- Where `kalloc` does not fail, `fork` gives the child it should exactly if the parent's size
is at most `KERNBASE` and a page table exists for every page below it. The flag that records
failures of `kalloc` is down before the call. -/
theorem forks_iff_tabled (h : Sound M s) (hp : (s.proc p).state = .RUNNABLE)
    (hd : (s.proc p).pgdir = some d) (hun : s.unused = some np) (hfed : Fed s p) :
    Forks s p np d ↔ Tabled d (s.proc p).sz := by
  have hl := Proc.live_of_state hp (by decide) (by decide)
  have hout : Post (step (.fork p)) s
      (fun r t => t.mem.dry = true ∨ (Tabled d (s.proc p).sz ∧
        r = some ((t.proc np).pid : ℤ) ∧ ∃ c, Duplicated s t p np d c))
      fun e t => t.mem.dry = true ∨ ¬ Tabled d (s.proc p).sz := by
    refine whenRunnable_post (fun hi => (hi hp).elim) fun _ => ?_
    rw [post_map]
    refine (fork_outcome h hl hd hun).imp ?_
    rintro r t (hdry | ⟨ht,hr,hc⟩)
    · exact .inl hdry
    · exact .inr ⟨ht,by rw [hr],hc⟩
  have hboth := hout.and hfed
  constructor
  · intro hf
    obtain ⟨r,t,hok,-⟩ := hf.exists_ok
    obtain ⟨hq,hdry⟩ := hboth.of_ok hok
    exact (hq.resolve_left (by rw [hdry]; decide)).1
  · intro ht
    refine hboth.mono ?_ ?_
    · rintro r t ⟨hq,hdry⟩
      exact (hq.resolve_left (by rw [hdry]; decide)).2
    · rintro e t ⟨hq,hdry⟩
      exact hq.resolve_left (by rw [hdry]; decide) ht

/-- With enough free pages `kalloc` does not fail, whether `fork` goes through or stops at a
null pointer. -/
theorem fork_fed {X : Multiset Frame} (hw : Wf M X s) (hp : (s.proc p).state = .RUNNABLE)
    (hd : (s.proc p).pgdir = some d) (hsz : (s.proc p).sz ≤ KERNBASE) (hdry : s.mem.dry = false)
    (hroom : s.users.card + (s.kern + X).card + d.users.card + NPDENTRIES + 3 < M.card) :
    Post (step (.fork p)) s (fun _ t => t.mem.dry = false)
      fun e t => e = .nullDeref ∧ t.mem.dry = false := by
  have hl := Proc.live_of_state hp (by decide) (by decide)
  obtain ⟨d₀,hd₀,hk⟩ := (hw.slot p).dir hl
  obtain rfl : d = d₀ := by rw [hd] at hd₀; exact Option.some.inj hd₀
  have husers : s.users = s.usersBut p + d.users := by
    rw [users_eq s p,Proc.users_of_live hl hd,add_comm]
  have hkern : s.kern + X = s.kernRest X p + d.kern := by
    rw [kern_eq s p,Proc.kern_of_live hl hd,kernRest]; abel
  have hshort : ∀ f, ¬ Short M (s.usersBut p) ({f} + s.kernRest X p) d := fun f hs => by
    rw [husers,hkern] at hroom
    simp only [Short,Multiset.card_add,Multiset.card_singleton] at hs hroom
    omega
  refine whenRunnable_post (fun _ => hdry) fun _ => ?_
  rw [post_map]
  refine fork_rule (Q := fun _ t => t.mem.dry = false)
    (F := fun e k => e = .nullDeref ∧ k.dry = false) hl hd (fun _ => hdry) fun np _ _ => ?_
  refine Total.post (Total.and_post (kalloc_held hw.held) (Kmem.kalloc_head s.mem)) ?_
  rintro r k₁ ⟨⟨-,hn,hs⟩,-,-,-,hdry₁⟩
  refine ⟨fun hr => ?_,fun f hf => ?_⟩
  · have hc := (hn hr).2.2
    rw [Multiset.card_add] at hc
    omega
  obtain ⟨-,-,hK⟩ := hs f hf
  replace hdry₁ : k₁.dry = false := (hdry₁ (by rw [hf]; rfl)).trans hdry
  refine (copyuvm_spec (U := s.usersBut p) (K := {f} + s.kernRest X p) hk
    (hK.congr husers (by rw [hkern,add_assoc]))).mono ?_ ?_
  · rintro ⟨pg,c⟩ k₂ ⟨hpg,hbad,hgood⟩
    exact ⟨fun hc => (hshort f (hbad hc).2.2.2).elim,fun c' hc => (hgood c' hc).dry.trans hdry₁⟩
  · rintro e k₂ ⟨-,hst,hs⟩
    refine ⟨(hs hsz).1,Bool.eq_false_iff.mpr fun hd₂ => ?_⟩
    rcases hst hd₂ with h | h
    · rw [hdry₁] at h; cases h
    · exact hshort f h

section Boot

variable {k : Kmem} {U K : Multiset Frame} {n : ℕ} {ram : Frame → Page}

/-- `inituvm` finds its two pages, and makes the first page table. -/
theorem inituvm_first {init : List UInt8}
    (hroom : (U + d.users + (K + d.kern)).card + 1 < M.card)
    (h : Held M k (U + d.users) (K + d.kern)) (ht : ∀ w < USERPAGES, ¬ d.hasTable w) :
    Partial (inituvm d init) k fun d' k' => k'.dry = k.dry ∧
      ∀ w < USERPAGES, d'.hasTable w → w < NPTENTRIES := by
  unfold inituvm
  split
  · trivial
  · simp only [post_bind]
    refine Total.post (Total.and_post (kalloc_held h) (Kmem.kalloc_head k)) ?_
    rintro r k₁ ⟨⟨-,hn,hs⟩,-,-,-,hdry₁⟩
    cases r with
    | none =>
      have := (hn rfl).2.2
      omega
    | some mem =>
      obtain ⟨-,hU,-⟩ := hs mem rfl
      simp only [post_bind,memset,post_modify]
      have hmap := mappages_user (v := 0) (f := mem) ⟨true,true,false⟩
        (hU.setPage mem fun _ => 0) (by decide)
      have htab := mappages_page (k := PageAllocator.setPage mem (fun _ => 0) k₁) (d := d) (v := 0)
        (f := mem) ⟨true,true,false⟩ (by decide)
      rw [Nat.zero_mul] at hmap htab
      refine ((hmap.and htab).and (mappagesLoop_dry ⟨true,true,false⟩ _ _ _)).mono ?_
        fun _ _ _ => trivial
      rintro ⟨d₁,ok⟩ k₂ ⟨⟨⟨-,-,hbad⟩,-,-,hyes⟩,hdry₂⟩
      cases ok with
      | true =>
        refine ⟨(hdry₂ rfl).trans (hdry₁ rfl),fun w hw hw' => ?_⟩
        have hor := ((hyes rfl).2.2 w).mp hw'
        have hdiv := hor.resolve_left (ht w hw)
        simp only [NPTENTRIES] at hdiv ⊢
        omega
      | false =>
        have hc := (hbad rfl).2.2.2.2
        rw [add_assoc,Multiset.card_add,Multiset.card_singleton] at hc
        omega

theorem userinit_first {initcode : List UInt8} (hM : NPDENTRIES + 3 < M.card)
    (h : Held M k 0 0) : Partial (userinit initcode) (start k) fun _ t => t.mem.dry = k.dry ∧
      ∀ d, (t.proc firstSlot).pgdir = some d → ∀ w < USERPAGES, d.hasTable w → w < NPTENTRIES := by
  simp only [userinit,post_bind,post_modify]
  refine allocproc_post (E := fun _ => True)
    (fun hn => by rw [start_unused] at hn; cases hn) fun np hnp => ?_
  obtain rfl : firstSlot = np := by rw [start_unused] at hnp; exact Option.some.inj hnp
  refine Total.post (Total.and_post (kalloc_held h) (Kmem.kalloc_head k)) ?_
  rintro r k₁ ⟨⟨-,hn,hs⟩,-,-,-,hdry₁⟩
  refine ⟨fun hr => ?_,fun f hf => ?_⟩
  · have := (hn hr).2.2
    simp only [add_zero,Multiset.card_zero] at this
    omega
  · obtain ⟨-,-,hK⟩ := hs f hf
    replace hdry₁ : k₁.dry = k.dry := hdry₁ (by rw [hf]; rfl)
    simp only [post_bind,post_onMem]
    refine Total.post (Total.and_post (setupkvm_spec hK)
      ((setupkvm_dry k₁).and (setupkvm_tables k₁))) ?_
    rintro r k₂ ⟨⟨-,hn₂,hs₂⟩,hdry₂,htab⟩
    cases r with
    | none =>
      have := (hn₂ rfl).2.2
      simp only [add_zero,zero_add,Multiset.card_singleton] at this
      omega
    | some d =>
      obtain ⟨hh,hlow,-⟩ := hs₂ d rfl
      have hu : d.users = 0 := users_eq_zero.mpr hlow
      have hcard := kern_card_le d
      simp only [post_bind,post_onMem,post_modify]
      refine (inituvm_first (U := 0) (K := {f} + 0) ?_ (hh.congr (by rw [hu,add_zero]) rfl)
        (htab d rfl)).imp ?_
      · simp only [hu,add_zero,zero_add,Multiset.card_add,Multiset.card_singleton]
        omega
      · rintro d' k₃ ⟨hdry₃,ht₃⟩
        refine ⟨hdry₃.trans ((hdry₂ rfl).trans hdry₁),fun d'' hd'' => ?_⟩
        simp only [setProc_proc,Function.update_self,Option.some.injEq] at hd''
        subst hd''
        exact ht₃

omit [KernelImage] in
/-- `sys_mmap` takes no page and gives none. -/
theorem mmapped_account (s : Kernel Kmem) (p : Slot) (bytes : ℤ) :
    (mmapped s p bytes).users = s.users ∧ (mmapped s p bytes).kern = s.kern := by
  have hproc : ∀ q, (((mmapped s p bytes).proc q).live ↔ (s.proc q).live) ∧
      ((mmapped s p bytes).proc q).pgdir = (s.proc q).pgdir ∧
      ((mmapped s p bytes).proc q).kstack = (s.proc q).kstack ∧
      ((mmapped s p bytes).proc q).state = (s.proc q).state := fun q => by
    by_cases hq : q = p
    · subst hq
      rw [mmapped_proc]
      exact ⟨Iff.rfl,rfl,rfl,rfl⟩
    · rw [mmapped_off bytes hq]
      exact ⟨Iff.rfl,rfl,rfl,rfl⟩
  refine ⟨users_congr fun q => ?_,kern_congr (fun q => ?_) rfl⟩
  · exact Proc.users_congr (hproc q).1 (hproc q).2.1
  · exact Proc.kern_congr (hproc q).1 (by rw [(hproc q).2.2.2]) (hproc q).2.1 (hproc q).2.2.1

theorem booted_ghost (h : Booted out s) : s.mem.dry = false ∧
    ∀ d, (s.proc firstSlot).pgdir = some d → ∀ w < USERPAGES, d.hasTable w → w < NPTENTRIES := by
  obtain ⟨n,ram,k,initcode,hm,hu⟩ := h
  obtain ⟨hh,hdry,hcard⟩ := main_held hm
  obtain ⟨h1,h2⟩ := (userinit_first (room_of_card hcard) hh).of_ok hu
  exact ⟨h1.trans hdry,h2⟩

omit [KernelImage] in
theorem exists_unused {q : Slot} (h : (s.proc q).state = .UNUSED) :
    ∃ np, s.unused = some np :=
  Option.isSome_iff_exists.mp (List.find?_isSome.mpr
    ⟨q,List.mem_finRange _,by simpa using h⟩)

omit [KernelImage] in
theorem second_unused {mem f : Frame} (h : First s d mem f) :
    (s.proc ⟨1,by decide⟩).state = .UNUSED := by
  rw [h.proc_off (by decide)]; rfl

theorem first_room {mem f : Frame} (h : First s d mem f) (hcard : 56320 ≤ (pool out).card) :
    s.users.card + (s.kern + 0).card + d.users.card + NPDENTRIES + 3 < (pool out).card := by
  have hk := h.kern_card
  have hn : NPDENTRIES = 1024 := rfl
  rw [← h.users_dir,h.users,add_zero,Multiset.card_singleton]
  omega

end Boot

end

/-- The first process forks before it has called `mmap`. -/
theorem forks_iff_tabled_first : ∃ (_ : KernelImage) (out : List Frame) (s : Kernel Kmem)
    (np : Slot) (d : PageDir), Booted out s ∧ Forks s firstSlot np d := by
  let _ := KernelImage.small
  obtain ⟨out,s,hb⟩ := exists_booted
  obtain ⟨hw,⟨d,mem,f,hf⟩,hcard⟩ := booted_first hb
  obtain ⟨np,hun⟩ := exists_unused (second_unused hf)
  have hp : (s.proc firstSlot).state = .RUNNABLE := by rw [hf.proc_first]; rfl
  have hd : (s.proc firstSlot).pgdir = some d := by rw [hf.proc_first]; rfl
  have hsz : (s.proc firstSlot).sz = PGSIZE := by rw [hf.proc_first]; rfl
  have hle : (s.proc firstSlot).sz ≤ KERNBASE := by rw [hsz]; decide
  have hfed : Fed s firstSlot := (fork_fed hw hp hd hle (booted_ghost hb).1
    (first_room hf hcard)).mono (fun _ _ hq => hq) fun _ _ he => he.2
  refine ⟨_,out,s,np,d,hb,(forks_iff_tabled ⟨0,hw⟩ hp hd hun hfed).mpr ⟨hle,fun v hv => ?_⟩⟩
  rw [hsz,show pages PGSIZE = 1 from rfl] at hv
  obtain rfl : v = 0 := by omega
  exact hasTable_of_get (hf.get 0 (by decide))

/-- After `mmap` of 4 MB the first process takes the kernel down with its next `fork`. -/
theorem fork_null_table : ∃ (_ : KernelImage) (out : List Frame) (s t u : Kernel Kmem)
    (r : Option ℤ) (np : Slot) (d : PageDir), Booted out s ∧
    step (.mmap firstSlot 0x400000) s = .ok r t ∧ (t.proc firstSlot).pgdir = some d ∧
    t.unused = some np ∧ Fed t firstSlot ∧ step (.fork firstSlot) t = .error .nullDeref u ∧
    ¬ Forks t firstSlot np d := by
  let _ := KernelImage.small
  obtain ⟨out,s,hb⟩ := exists_booted
  obtain ⟨hw,⟨d,mem,f,hf⟩,hcard⟩ := booted_first hb
  obtain ⟨hdry,htab⟩ := booted_ghost hb
  have hat := hf.proc_first
  have hd : (s.proc firstSlot).pgdir = some d := by rw [hat]; rfl
  have hp : (s.proc firstSlot).state = .RUNNABLE := by rw [hat]; rfl
  have hl := Proc.live_of_state hp (by decide) (by decide)
  have hwt := Wf.counted hw hl (int ((s.proc firstSlot).allocLeft + (0x400000 : Int32).toInt))
    (uint ((s.proc firstSlot).sz + (0x400000 : Int32).toInt))
  have hsum : uint (((firstProc f d).sz : ℤ) + (0x400000 : Int32).toInt) = 0x401000 := by
    rw [show (firstProc f d).sz = 4096 from rfl]
    unfold uint; decide
  have hstep := step_mmap 0x400000 hp (by decide) (by decide)
  have hpt := mmapped_proc s firstSlot (0x400000 : Int32).toInt
  rw [hat,hsum] at hpt
  have hwt' : Wf (pool out) 0 (mmapped s firstSlot (0x400000 : Int32).toInt) := hwt
  obtain ⟨husers,hkern⟩ := mmapped_account s firstSlot (0x400000 : Int32).toInt
  have hmem : (mmapped s firstSlot (0x400000 : Int32).toInt).mem = s.mem := rfl
  have hone : ((mmapped s firstSlot (0x400000 : Int32).toInt).proc ⟨1,by decide⟩).state =
      .UNUSED := by
    rw [mmapped_off _ (by decide)]
    exact second_unused hf
  generalize mmapped s firstSlot (0x400000 : Int32).toInt = t
    at hpt hstep hwt' husers hkern hmem hone
  have hpr : (t.proc firstSlot).state = .RUNNABLE := by rw [hpt]; rfl
  have hdt : (t.proc firstSlot).pgdir = some d := by rw [hpt]; rfl
  have hsz : (t.proc firstSlot).sz = 0x401000 := by rw [hpt]
  obtain ⟨np,hun⟩ := exists_unused hone
  have hnot : ¬ Tabled d (t.proc firstSlot).sz := fun ht => by
    rw [hsz] at ht
    have h1 := ht.2 1024 (by decide)
    have h2 := htab d hd 1024 (by decide) h1
    exact (by decide : ¬ 1024 < NPTENTRIES) h2
  have hroom := first_room hf hcard
  rw [← husers,← hkern] at hroom
  have hend := fork_fed hwt' hpr hdt (by rw [hsz]; decide) (by rw [hmem,hdry]) hroom
  have hout : Post (step (.fork firstSlot)) t (fun _ t' => t'.mem.dry = true) fun _ _ => True := by
    refine whenRunnable_post (fun hi => (hi hpr).elim) fun _ => ?_
    rw [post_map]
    refine (fork_outcome ⟨0,hwt'⟩ (Proc.live_of_state hpr (by decide) (by decide)) hdt hun).mono
      ?_ fun _ _ _ => trivial
    rintro r u (hdry' | ⟨htab',-⟩)
    · exact hdry'
    · exact (hnot htab').elim
  cases hfork : step (.fork firstSlot) t with
  | ok r u =>
    have h1 := hend.of_ok hfork
    have h2 := hout.of_ok hfork
    rw [h1] at h2
    cases h2
  | error e u =>
    obtain ⟨rfl,hu⟩ := hend.of_error hfork
    refine ⟨_,out,s,t,u,_,np,d,hb,hstep,hdt,hun,?_,hfork,fun hf => ?_⟩
    · exact hend.mono (fun _ _ hq => hq) fun _ _ he => he.2
    · obtain ⟨r',t',hok,-⟩ := hf.exists_ok
      rw [hfork] at hok
      cases hok

end ResumePointers.Lazy
