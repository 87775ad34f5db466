import ResumePointers.Cow.Refcount
import ResumePointers.Xv6.Demand

/-! Running out of pages: a process that grows can leave as many free pages as it likes, and a
`fork` that finds just enough of them for a kernel half has shared a page before it fails. -/
namespace ResumePointers.Cow

open Xv6 Kernel

variable [KernelImage] {M : Finset Frame} {s t : Kernel Kmem} {p np : Slot} {d pgdir : PageDir}
  {k : Kmem} {U K : Multiset Frame} {n m : ℕ} {out : List Frame}

instance : FreeListAllocator Kmem where
  freelist := Kmem.freelist
  kalloc_head k := by
    change Post Kmem.kalloc k _ _
    simp only [Kmem.kalloc,post_bind,post_get]
    split
    · rename_i hf
      simp only [post_bind,post_set,post_pure,hf,List.head?_nil,List.tail_nil]
      exact ⟨trivial,trivial⟩
    · rename_i r next hf
      simp only [post_bind,post_set,hf,List.head?_cons,List.tail_cons]
      split
      · split
        · trivial
        · exact ⟨rfl,rfl⟩
      · exact ⟨rfl,rfl⟩

theorem kalloc_length (h : Held M k U K) (hlen : k.freelist.length = n + 1) :
    Total Xv6.kalloc k fun r k' => k'.freelist.length = n ∧
      ∃ f, r = some f ∧ Held M k' ({f} + U) K ∧ Held M k' U ({f} + K) := by
  refine ((kalloc_held h).and_post (kalloc_head k)).imp ?_
  rintro r k' ⟨⟨-,-,hs⟩,hr,htail⟩
  have htail' : k'.freelist = k.freelist.tail := htail
  cases hf : k.freelist with
  | nil => rw [hf] at hlen; cases hlen
  | cons f next =>
    have hr' : r = some f := by rw [hr]; exact congrArg List.head? hf
    rw [hf,List.length_cons] at hlen
    rw [hf,List.tail_cons] at htail'
    rw [htail']
    exact ⟨by omega,f,hr',(hs f hr').2⟩

omit [KernelImage] in
/-- `mappages` of one page. -/
theorem mappages_paid {κ : Type} [PageAllocator κ] [FreeListAllocator κ] {k : κ} {v : ℕ}
    {f : Frame} (perm : Perm) (hv : v < 2^20) :
    Partial (mappages d (v * PGSIZE) PGSIZE f perm) k fun r k' => Paid k k' d r.1 ∧
      (r.2 = true → r.1.tableSet = insert (v / NPTENTRIES) d.tableSet) ∧
      (r.2 = false → freelist k' = []) := by
  rw [mappages,mappagesCount_page hv,PGROUNDDOWN_mul]
  have h := mappagesLoop_paid (d := d) (k := k) perm (n := 1) (v := v) f (by omega)
  refine Post.imp h ?_
  rintro r k' ⟨hp,-,hok,hbad⟩
  refine ⟨hp,fun hr => ?_,fun hr => (hbad hr).1⟩
  rw [hok hr,tablesOf_succ,Finset.union_insert]
  exact congrArg (insert _) (Finset.union_empty _)

theorem incrementRefCount_freelist (f : Frame) (k : Kmem) :
    Partial (Kmem.incrementRefCount f) k fun _ k' => k'.freelist = k.freelist := by
  simp only [Kmem.incrementRefCount,post_bind,post_get]
  split
  · trivial
  · split
    · split
      · trivial
      · rfl
    · rfl

/-- With pages for the kernel half, `copyuvm` shares page 0, and the next page decides whether
there is one for its page table. -/
theorem copyuvm_first {sz : ℕ} {pte : Pte} (h : Held M k (U + pgdir.users) (K + pgdir.kern))
    (hsz : 0 < sz) (hget : pgdir.get 0 = some pte)
    (hlen : kernelTables.card + 1 ≤ k.freelist.length)
    (hone : k.freelist.length = kernelTables.card + 1 ∨ sz ≤ PGSIZE) :
    Total (copyuvm pgdir sz) k fun r _ => r.1.get 0 = some (share pte) ∧
      (r.2 = none ↔ k.freelist.length = kernelTables.card + 1) := by
  have h0 : (0 : ℕ) < USERPAGES := by decide
  simp only [copyuvm,post_bind]
  refine ((setupkvm_spec h).and_post (setupkvm_paid k)).imp ?_
  rintro r k₁ ⟨⟨-,-,hs⟩,hnone,hsome⟩
  cases r with
  | none =>
    have hle : k.freelist.length ≤ kernelTables.card := hnone rfl
    omega
  | some d =>
    obtain ⟨hh,hlow,-⟩ := hs d rfl
    obtain ⟨htab,hpaid⟩ := hsome d rfl
    have hpay : k₁.freelist.length + kernelTables.card + 1 = k.freelist.length := hpaid
    have hw : walkpgdir pgdir 0 = some (some pte) :=
      walkpgdir_eq_some.mpr ⟨hasTable_of_get hget,hget⟩
    have hsh := setPte_shared hget
    have hpage := hsh.get 0
    rw [if_pos (by omega),hget] at hpage
    rw [Nat.zero_mul] at hsh hpage
    have hdu : d.users = 0 := users_eq_zero.mpr hlow
    dsimp only
    rw [copyuvmLoop,if_pos hsz,hw]
    simp only [post_bind]
    refine Total.post ((incrementRefCount_user (f := pte.frame) hh
      (by simp [frame_mem_users h0 hget])).and_post (incrementRefCount_freelist _ k₁)) ?_
    rintro - k₂ ⟨⟨hh₂,-⟩,hfree₂⟩
    have hmap := ((mappages_user (v := 0) (d := d) (f := pte.frame)
      (U := U + (pgdir.setPte 0 (some (share pte))).users)
      (K := K + (pgdir.setPte 0 (some (share pte))).kern) (share pte).toPerm
      (hh₂.congr (by rw [hsh.users,hdu]; abel) (by rw [hsh.kern])) h0).and
      (mappages_paid (v := 0) (f := pte.frame) (share pte).toPerm (by decide)))
    rw [Nat.zero_mul] at hmap
    refine hmap.mono ?_ ?_
    · rintro ⟨d₁,ok⟩ k₃ ⟨⟨-,-,hbad⟩,hp,htrue,hnil⟩
      have hpay₃ : k₃.freelist.length + d₁.tableSet.card =
          k₁.freelist.length + d.tableSet.card := hfree₂ ▸ hp
      cases ok with
      | true =>
        -- a page table more than the kernel half has been paid for
        have hset : d₁.tableSet = insert (0 / NPTENTRIES) d.tableSet := htrue rfl
        have hnot : 0 / NPTENTRIES ∉ d.tableSet := fun hm => by
          rw [htab] at hm
          have hle := mem_tablesOfMaps_le kmap_kernel hm
          simp [USERPAGES,KERNBASE,PGSIZE,NPTENTRIES] at hle
        rw [hset,Finset.card_insert_of_notMem hnot] at hpay₃
        simp only [if_true,Nat.zero_add]
        rw [copyuvmLoop,if_neg (by omega)]
        exact ⟨hpage,iff_of_false (by simp) (by omega)⟩
      | false =>
        obtain ⟨-,hh₃,hd₁,-⟩ := hbad rfl
        have hnil₃ : k₃.freelist = [] := hnil rfl
        dsimp only at hd₁
        rw [hd₁,hnil₃,List.length_nil] at hpay₃
        simp only [Bool.false_eq_true,if_false,post_bind,post_pure]
        refine Total.post (kfree_user hh₃) ?_
        rintro - k₄ ⟨hh₄,-⟩
        refine Total.post (freevm_spec hh₄) ?_
        rintro - k₅ -
        exact ⟨hpage,iff_of_true trivial (by omega)⟩
    · rintro e - ⟨⟨-,hsome⟩,-⟩
      rw [hlow 0 h0] at hsome
      cases hsome

/-- `fork` with pages for a stack and a kernel half. -/
theorem fork_first {pte : Pte} (h : Inv M s) (hl : (s.proc p).live)
    (hd : (s.proc p).pgdir = some d) (hsz : 0 < (s.proc p).sz) (hget : d.get 0 = some pte)
    (hun : s.unused = some np) (hlen : kernelTables.card + 2 ≤ s.mem.freelist.length)
    (hone : s.mem.freelist.length = kernelTables.card + 2 ∨ (s.proc p).sz ≤ PGSIZE) :
    Total (Kernel.fork copyuvm p) s fun r t =>
      (r = -1 ↔ s.mem.freelist.length = kernelTables.card + 2) ∧
      ∃ d', (t.proc p).pgdir = some d' ∧ d'.get 0 = some (share pte) := by
  refine fork_post (E := fun _ => False) hl hd (fun hfull => ?_) fun np' hun' hne => ?_
  · rw [hun] at hfull; cases hfull
  have hl₁ : s.mem.freelist.length = s.mem.freelist.length - 1 + 1 := by omega
  refine (kalloc_length h.wf.held hl₁).imp ?_
  rintro r k₁ ⟨hlen₁,f,rfl,-,hK⟩
  refine ⟨fun hr => (by cases hr),fun f' hf => ?_⟩
  obtain rfl := Option.some.inj hf
  have hkern : s.kern + 0 = s.kernRest 0 p + d.kern := by
    rw [kern_eq s p,Proc.kern_of_live hl hd,kernRest]; abel
  have hh : Held M k₁ (s.usersBut p + d.users) ({f} + s.kernRest 0 p + d.kern) :=
    hK.congr (Inv.users_split hl hd) (by rw [hkern,add_assoc])
  refine ((copyuvm_first hh hsz hget (by omega) (by omega)).and_post
    (copyuvm_spec (h.size p hl) hh)).imp ?_
  rintro ⟨pg,c⟩ k₂ ⟨⟨hpg,hnone⟩,-,hbad,-⟩
  refine ⟨fun hc => ?_,fun c' hc => ⟨iff_of_false ?_ fun hl => ?_,pg,?_,hpg⟩⟩
  · obtain ⟨-,hh₂,-⟩ := hbad hc
    have hlen₂ := hnone.mp hc
    refine (kfree_kern (f := f) (U := s.usersBut p + pg.users)
      (K := s.kernRest 0 p + pg.kern) (hh₂.congr rfl (by rw [add_assoc]))).imp ?_
    rintro - k₃ -
    exact ⟨iff_of_true rfl (by omega),pg,by simp [forkFailed,hne.symm],hpg⟩
  · have : (0 : ℤ) ≤ s.nextpid := Int.natCast_nonneg _
    omega
  · have hc' : c = none := hnone.mpr (by omega)
    rw [hc'] at hc
    cases hc
  · simp [forked,hne.symm]

/-- One page more for a process takes the page and at most one page table. -/
theorem allocuvm_page (h : Held M k (U + d.users) (K + d.kern)) (hn : n + 1 < USERPAGES)
    (hget : d.get n = none) (hlen : 2 ≤ k.freelist.length) :
    Total (allocuvm d (n * PGSIZE) ((n + 1) * PGSIZE)) k fun r k' => r.2 = (n + 1) * PGSIZE ∧
      (∀ v ≠ n, r.1.get v = d.get v) ∧
      k'.freelist.length < k.freelist.length ∧ k.freelist.length ≤ k'.freelist.length + 2 := by
  have hhi : ¬ KERNBASE ≤ (n + 1) * PGSIZE := by
    simp only [USERPAGES,KERNBASE,PGSIZE] at hn ⊢; omega
  have hup : PGROUNDUP (n * PGSIZE) = n * PGSIZE := by
    rw [PGROUNDUP_eq]
    congr 1
    simp only [pages,PGSIZE]; omega
  rw [allocuvm,if_neg hhi,if_neg (by simp only [PGSIZE]; omega),hup,allocuvmLoop,
    if_pos (by simp only [PGSIZE]; omega)]
  simp only [post_bind]
  have hl : k.freelist.length = k.freelist.length - 1 + 1 := by omega
  refine (kalloc_length h hl).imp ?_
  rintro r k₁ ⟨hlen₁,f,rfl,hU,-⟩
  simp only [post_bind,memset,post_modify]
  have hn20 : n < 2^20 := by have := USERPAGES_lt; omega
  refine ((mappages_user (f := f) ⟨true,true,false⟩ (hU.setPage f fun _ => 0) (by omega)).and
    (mappages_paid (v := n) (f := f) ⟨true,true,false⟩ hn20)).mono ?_ ?_
  · rintro ⟨d₁,ok⟩ k₂ ⟨⟨-,hok,hbad⟩,hp,htrue,hnil⟩
    have hpay : k₂.freelist.length + d₁.tableSet.card =
        k₁.freelist.length + d.tableSet.card := hp
    cases ok with
    | true =>
      obtain ⟨-,-,hg⟩ := hok rfl
      have hset : d₁.tableSet = insert (n / NPTENTRIES) d.tableSet := htrue rfl
      have h1 := Finset.card_le_card (Finset.subset_insert (n / NPTENTRIES) d.tableSet)
      have h2 := Finset.card_insert_le (n / NPTENTRIES) d.tableSet
      rw [hset] at hpay
      simp only [if_true,page_step]
      rw [allocuvmLoop,if_neg (lt_irrefl _)]
      refine ⟨rfl,fun v hv => ?_,by omega,by omega⟩
      dsimp only at hg ⊢
      rw [hg v,if_neg hv]
    | false =>
      -- the page table that is missing could have been paid for
      have hnil' : k₂.freelist = [] := hnil rfl
      obtain rfl : d₁ = d := (hbad rfl).2.2.1
      rw [hnil',List.length_nil] at hpay
      omega
  · rintro e - ⟨⟨-,hsome⟩,-⟩
    rw [hget] at hsome
    cases hsome

/-- `p` has `n` pages, and room for more of them than there are. -/
structure Tenant (s : Kernel Kmem) (p : Slot) (n : ℕ) (d : PageDir) : Prop where
  state : (s.proc p).state = .RUNNABLE
  pgdir : (s.proc p).pgdir = some d
  sz : (s.proc p).sz = n * PGSIZE
  absent : ∀ v, n ≤ v → v < USERPAGES → d.get v = none
  bound : n + s.mem.freelist.length ≤ 57345

/-- The first process has page 0, and there is room for a `fork` of it. -/
theorem booted_tenant (hb : Booted out s) : ∃ d mem, Tenant s firstSlot 1 d ∧
    d.get 0 = some { w := true, u := true, cow := false, frame := mem } ∧
    kernelTables.card + 3 ≤ s.mem.freelist.length ∧
    ∀ q ≠ firstSlot, (s.proc q).state = .UNUSED := by
  obtain ⟨-,d,mem,f,hf⟩ := booted_first hb
  have hproc := hf.proc_first
  have hled := (booted_inv hb).counted.ledger
  have hlo : 56320 ≤ (pool out).card := by
    obtain ⟨n,ram,k,initcode,hmain,-⟩ := hb
    exact (main_held hmain).2.2
  have hhi : s.mem.freelist.length ≤ 57344 := by
    refine hled.length_le.trans ((Finset.card_filter_le _ _).trans ?_)
    rw [Finset.card_range,PHYSTOP_pages]
  have hten : Tenant s firstSlot 1 d := by
    refine ⟨by rw [hproc]; rfl,by rw [hproc]; rfl,by rw [hproc]; rfl,fun v h1 h2 => ?_,by omega⟩
    rw [hf.get v h2,if_neg (by omega)]
  refine ⟨d,mem,hten,by rw [hf.get 0 (by decide),if_pos rfl],?_,fun q hq => ?_⟩
  · have h1 := hled.card_le
    have h2 := hf.kern_card
    have h3 : kernelTables.card ≤ NPDENTRIES := tablesOfMaps_card_le kmap_kernel
    have h4 : NPDENTRIES = 1024 := rfl
    rw [Multiset.card_add,hf.users,Multiset.card_singleton] at h1
    omega
  · rw [hf.proc_off hq]; rfl

/-- `sbrk(4096)` with two pages left. -/
theorem growproc_page (h : Inv M s) (ht : Tenant s p n d) (hlen : 2 ≤ s.mem.freelist.length) :
    Total (step (.growproc p 4096)) s fun _ t => Inv M t ∧ (∀ q ≠ p, t.proc q = s.proc q) ∧
      t.mem.freelist.length < s.mem.freelist.length ∧
      s.mem.freelist.length ≤ t.mem.freelist.length + 2 ∧
      ∃ d', Tenant t p (n + 1) d' ∧ ∀ v < n, d'.get v = d.get v := by
  have hl := Proc.live_of_state ht.state (by decide) (by decide)
  have hn : n + 1 < USERPAGES := by
    have h1 := ht.bound
    have h2 : USERPAGES = 524288 := by decide
    omega
  have hnew : uint ((s.proc p).sz + (4096 : Int32).toInt) = (n + 1) * PGSIZE := by
    have h4 : (4096 : Int32).toInt = (PGSIZE : ℕ) := by decide
    rw [ht.sz,h4,← Nat.cast_add,page_step]
    refine uint_of_lt ?_
    simp only [USERPAGES,KERNBASE,PGSIZE] at hn ⊢
    omega
  have hpos : ((n + 1) * PGSIZE = 0) = False := by simp [PGSIZE]
  have hgrow : Total (growproc p (4096 : Int32).toInt) s fun _ t =>
      t.mem.freelist.length < s.mem.freelist.length ∧
      s.mem.freelist.length ≤ t.mem.freelist.length + 2 ∧
      ∃ d', t = s.resized p d' ((n + 1) * PGSIZE) t.mem ∧ ∀ v ≠ n, d'.get v = d.get v := by
    refine growproc_post (E := fun _ => False) ht.pgdir (fun h0 => ?_) (fun _ => ?_) fun hneg => ?_
    · exact absurd h0 (by decide)
    · rw [hnew,ht.sz]
      refine (allocuvm_page (h.wf.split hl ht.pgdir) hn
        (ht.absent n le_rfl (by omega)) hlen).imp ?_
      rintro ⟨d',sz'⟩ k' ⟨hsz,hget,hlt,hle⟩
      dsimp only at hsz hget
      simp only [hsz,hpos,if_false]
      exact ⟨hlt,hle,d',rfl,hget⟩
    · exact absurd hneg (by decide)
  refine whenRunnable_post (fun hr => (hr ht.state).elim) fun _ => ?_
  rw [post_map]
  refine (hgrow.and_post (growproc_kept h hl)).imp ?_
  rintro r t ⟨⟨hlt,hle,d',ht',hget⟩,⟨hinv,-⟩,hal⟩
  have hproc : t.proc p = { s.proc p with pgdir := some d', sz := (n + 1) * PGSIZE } := by
    rw [ht',resized_proc]
  have hb := ht.bound
  refine ⟨hinv,hal.proc,hlt,hle,d',⟨hal.state.trans ht.state,by rw [hproc],by rw [hproc],
    fun v h1 h2 => ?_,by omega⟩,fun v hv => hget v (by omega)⟩
  rw [hget v (by omega)]
  exact ht.absent v (by omega) h2

/-- A pipe takes one page. -/
theorem pipealloc_page (h : Inv M s) (ht : Tenant s p n d)
    (hlen : s.mem.freelist.length = m + 1) :
    Total (step (.pipealloc p)) s fun _ t => Inv M t ∧ t.proc = s.proc ∧
      t.mem.freelist.length = m := by
  refine whenRunnable_post (fun hr => (hr ht.state).elim) fun _ => ?_
  have hpipe : Total (pipealloc : EStateM Panic (Kernel Kmem) ℤ) s fun _ t =>
      t.mem.freelist.length = m := by
    simp only [pipealloc,post_bind,post_onMem]
    refine (kalloc_length h.wf.held hlen).imp ?_
    rintro r k ⟨hk,f,rfl,-⟩
    exact hk
  rw [post_map]
  refine (hpipe.and_post (pipealloc_spec h.wf)).imp ?_
  rintro r t ⟨hm,hwf,hk,pipes,ht',-⟩
  refine ⟨(pipe_kept h hwf hk.of_all ht' (some r)).1,?_,hm⟩
  rw [ht']

/-- By growing, and with a pipe at the end, a process takes the free pages down to any number. -/
theorem drain {init : Kernel Kmem → Prop} (hr : Reach step (fun _ _ => True) init s) (h : Inv M s)
    (ht : Tenant s p n d) (hm : m ≤ s.mem.freelist.length) :
    ∃ t n' d', Reach step (fun _ _ => True) init t ∧ Inv M t ∧ Tenant t p n' d' ∧
      t.mem.freelist.length = m ∧ n ≤ n' ∧ (∀ v < n, d'.get v = d.get v) ∧
      ∀ q ≠ p, t.proc q = s.proc q := by
  induction hlen : s.mem.freelist.length using Nat.strong_induction_on generalizing s n d with
  | h l ih =>
    rcases Nat.lt_or_ge (m + 1) l with hlt | hge
    · obtain ⟨r,s₁,hs,hinv,hoff,h1,h2,d₁,ht₁,hget₁⟩ :=
        (growproc_page h ht (by omega)).exists_ok
      obtain ⟨t,n',d',hrt,hi,htt,hmt,hn,hget,hofft⟩ :=
        ih s₁.mem.freelist.length (by omega) (.step _ hr trivial hs) hinv ht₁ (by omega) rfl
      exact ⟨t,n',d',hrt,hi,htt,hmt,by omega,
        fun v hv => (hget v (by omega)).trans (hget₁ v hv),
        fun q hq => (hofft q hq).trans (hoff q hq)⟩
    · rcases Nat.lt_or_ge m l with hlt | hle
      · obtain ⟨r,t,hs,hinv,hproc,hmt⟩ :=
          (pipealloc_page (m := m) h ht (by omega)).exists_ok
        have hb := ht.bound
        refine ⟨t,n,d,.step _ hr trivial hs,hinv,⟨?_,?_,?_,ht.absent,by omega⟩,hmt,le_rfl,
          fun _ _ => rfl,fun q _ => congrFun hproc q⟩
        · rw [hproc]; exact ht.state
        · rw [hproc]; exact ht.pgdir
        · rw [hproc]; exact ht.sz
      · exact ⟨s,n,d,hr,h,ht,by omega,le_rfl,fun _ _ => rfl,fun _ _ => rfl⟩

/-- A store to a shared page, with no page for the copy. -/
theorem store_panics {va : UInt32} {pte : Pte} (b : UInt8) (hp : (s.proc p).state = .RUNNABLE)
    (hd : (s.proc p).pgdir = some d) (hget : d.get (pageOf va.toNat) = some pte)
    (hu : pte.u = true) (hw : pte.w = false) (hfree : s.mem.freelist = []) :
    ∃ t, step (.store p va b) s = .error (.panic "pagefault handler") t := by
  have hwalk : walkpgdir d va.toNat = some (some pte) :=
    walkpgdir_eq_some.mpr ⟨hasTable_of_get hget,hget⟩
  have htr : translate d va.toNat true = none := by
    rw [Xv6.translate,hwalk]
    simp [hw]
  have hdry : Kmem.kalloc s.mem = .ok none { s.mem with dry := true } := by
    simp only [Kmem.kalloc,bind,EStateM.bind,get_run,hfree]
    rfl
  have hfault : ∃ k, handle_pgflt_helper d va.toNat s.mem =
      .error (.panic "pagefault handler") k := by
    rw [handle_pgflt_helper,hwalk]
    dsimp only
    rw [if_neg (by simp [hu])]
    split
    · exact ⟨s.mem,rfl⟩
    · refine ⟨{ s.mem with dry := true },?_⟩
      simp only [bind,EStateM.bind]
      rw [show Xv6.kalloc s.mem = _ from hdry]
      rfl
  obtain ⟨k,hk⟩ := hfault
  refine ⟨{ s with mem := k },?_⟩
  simp only [step,whenRunnable,store,touch,trap,onMem,zoom,bind,EStateM.bind,get_run,hp,if_true,
    hd,Option.bind_some,htr,hk]

end ResumePointers.Cow
