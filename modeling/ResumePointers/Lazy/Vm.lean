import ResumePointers.Xv6.Operations
import ResumePointers.Lazy.Kalloc

/-! Virtual memory of the kernel with lazy `mmap` (`os/vm.c`): a `copyuvm` that meets pages
which are not there yet. -/
namespace ResumePointers.Lazy

open Xv6

section Code
variable [KernelImage]

/-- The loop of `copyuvm` from address `i` on: the parent's page directory as it is then, and
the child's, `none` standing for `bad`. Where a page table is missing the source clears bits
through the null pointer that `walkpgdir` returned. An `i` that wraps around would have met
the kernel's own entries before. -/
def copyuvmLoop (sz : ℕ) (pgdir d : PageDir) (i : ℕ) :
    EStateM Panic Kmem (PageDir × Option PageDir) :=
  if i < sz then
    match walkpgdir pgdir i with
    | none => throw .nullDeref
    | some none => do
      let pgdir := pgdir.setPte i none
      let r ← walkpgdirAlloc d i
      match r with
      | none => throw .nullDeref
      | some d => copyuvmLoop sz pgdir (d.setPte i none) (i + PGSIZE)
    | some (some pte) => do
      let r ← Xv6.kalloc
      match r with
      | none => do
        freevm (some d)
        pure (pgdir,none)
      | some mem => do
        memmovePage mem pte.frame
        let (d,ok) ← mappages d i PGSIZE mem pte.toPerm
        if ok then copyuvmLoop sz pgdir d (i + PGSIZE)
        else do
          Xv6.kfree mem
          freevm (some d)
          pure (pgdir,none)
  else pure (pgdir,some d)
termination_by sz - i
decreasing_by all_goals simp only [PGSIZE]; omega

def copyuvm (pgdir : PageDir) (sz : ℕ) : EStateM Panic Kmem (PageDir × Option PageDir) := do
  let r ← setupkvm
  match r with
  | none => pure (pgdir,none)
  | some d => copyuvmLoop sz pgdir d 0

end Code

variable [KernelImage] {M : Finset Frame} {k : Kmem} {U K : Multiset Frame} {d pgdir : PageDir}

/-- `walkpgdir` takes a page from the free list exactly when it makes a page table. -/
theorem walkpgdirAlloc_freelist (d : PageDir) (va : ℕ) (k : Kmem) :
    Total (walkpgdirAlloc d va) k fun r k' =>
      k'.freelist = (if d.hasTable (pageOf va) then k.freelist else k.freelist.tail) ∧
      (r = none ↔ ¬ d.hasTable (pageOf va) ∧ k.freelist = []) ∧ (r.isSome → k'.dry = k.dry) ∧
      ∀ d', r = some d' → (∀ w, d'.get w = d.get w) ∧
        ∀ w, d'.hasTable w ↔ d.hasTable w ∨ w / NPTENTRIES = pageOf va / NPTENTRIES := by
  unfold walkpgdirAlloc
  cases ht : d.pde (PDX va) with
  | some t =>
    have hh : d.hasTable (pageOf va) := by rw [PageDir.hasTable,← PDX_eq,ht]; rfl
    simp only [post_pure]
    rw [if_pos hh]
    refine ⟨rfl,by simp [hh],fun _ => trivial,fun d' hd => ?_⟩
    obtain rfl := Option.some.inj hd
    refine ⟨fun w => rfl,fun w => ⟨Or.inl,?_⟩⟩
    rintro (hw | hw)
    · exact hw
    · rw [PageDir.hasTable,hw]; exact hh
  | none =>
    have hh : ¬ d.hasTable (pageOf va) := by rw [PageDir.hasTable,← PDX_eq,ht]; simp
    simp only [post_bind]
    refine (Kmem.kalloc_head k).imp ?_
    rintro r k' ⟨hr,htail,-,hdry⟩
    rw [if_neg hh]
    cases hf : k.freelist with
    | nil =>
      rw [hf,List.head?_nil] at hr
      subst hr
      exact ⟨by rw [htail,hf],by simp [hh],fun hs => (by cases hs),fun d' hd => by cases hd⟩
    | cons f next =>
      rw [hf,List.head?_cons] at hr
      subst hr
      refine ⟨by rw [htail,hf],by simp,fun _ => hdry rfl,fun d' hd => ?_⟩
      obtain rfl := Option.some.inj hd
      refine ⟨fun w => ?_,fun w => ?_⟩
      · by_cases hw : w / NPTENTRIES = PDX va <;> simp [PageDir.get,hw,ht]
      · rw [← PDX_eq]
        by_cases hw : w / NPTENTRIES = PDX va <;> simp [PageDir.hasTable,hw]

/-- One page more, as far as entries and the free list are concerned. -/
theorem mappages_page {v : ℕ} {f : Frame} (perm : Perm) (hv : v < 2^20) :
    Post (mappages d (v * PGSIZE) PGSIZE f perm) k
      (fun r k' => k'.freelist = (if d.hasTable v then k.freelist else k.freelist.tail) ∧
        (r.2 = false ↔ ¬ d.hasTable v ∧ k.freelist = []) ∧
        (r.2 = true → d.get v = none ∧
          (∀ w, r.1.get w = if w = v then some { perm with frame := f } else d.get w) ∧
          ∀ w, r.1.hasTable w ↔ d.hasTable w ∨ w / NPTENTRIES = v / NPTENTRIES))
      fun e _ => e = .panic "remap" ∧ (d.get v).isSome := by
  rw [mappages,mappagesCount_page hv,PGROUNDDOWN_mul]
  simp only [mappagesLoop,post_bind]
  refine Total.post (walkpgdirAlloc_freelist d (v * PGSIZE) k) ?_
  rintro r k₁ ⟨hfree,hnone,-,hsome⟩
  rw [pageOf_mul] at hfree hnone hsome
  cases r with
  | none => exact ⟨hfree,by simpa using hnone,fun hf => by cases hf⟩
  | some d₁ =>
    obtain ⟨hg,ht⟩ := hsome d₁ rfl
    have ht₁ : d₁.hasTable (pageOf (v * PGSIZE)) := by rw [pageOf_mul,ht]; exact Or.inr rfl
    simp only [pageOf_mul]
    split
    · rename_i hs
      exact ⟨rfl,hg v ▸ hs⟩
    · rename_i hs
      have hn : d.get v = none := by rw [← hg v]; simpa using hs
      refine ⟨hfree,by simpa using hnone,fun _ => ⟨hn,fun w => ?_,fun w => ?_⟩⟩
      · rw [setPte_get ht₁,pageOf_mul,hg w]
      · rw [setPte_hasTable,ht w]

/-- `mappages` does not return where a page is mapped already. -/
theorem mappages_taken {v : ℕ} {f : Frame} (perm : Perm) (hv : v < 2^20) (h : (d.get v).isSome) :
    Post (mappages d (v * PGSIZE) PGSIZE f perm) k (fun _ _ => False) fun e _ =>
      e = .panic "remap" := by
  refine (mappages_page perm hv).mono ?_ fun _ _ he => he.1
  rintro ⟨d₁,ok⟩ k₁ ⟨-,hno,hyes⟩
  cases ok with
  | true =>
    rw [(hyes rfl).1] at h
    cases h
  | false =>
    obtain ⟨pte,hpte⟩ := Option.isSome_iff_exists.mp h
    exact (hno.mp rfl).1 (hasTable_of_get hpte)

/-- `mappages` gives up where `kalloc` fails, and only there. -/
theorem mappagesLoop_dry (perm : Perm) (n : ℕ) (a : ℕ) (pa : Frame) :
    Post (mappagesLoop perm n d a pa) k (fun r k' => r.2 = true → k'.dry = k.dry)
      fun _ k' => k'.dry = k.dry := by
  induction n generalizing a pa d k with
  | zero => exact fun _ => rfl
  | succ n ih =>
    simp only [mappagesLoop,post_bind]
    refine Total.post (walkpgdirAlloc_freelist d a k) ?_
    rintro r k₁ ⟨-,-,hdry,-⟩
    cases r with
    | none => exact fun hr => by cases hr
    | some d₁ =>
      dsimp only
      split
      · exact hdry rfl
      · refine (ih _ _).mono ?_ ?_
        · intro r k' hr hok
          rw [hr hok,hdry rfl]
        · intro e k' he
          rw [he,hdry rfl]

theorem setupkvmLoop_dry (ks : List Kmap) :
    Partial (setupkvmLoop d ks) k fun r k' => r.2 = true → k'.dry = k.dry := by
  induction ks generalizing d k with
  | nil => exact fun _ => rfl
  | cons a ks ih =>
    simp only [setupkvmLoop,post_bind]
    refine (mappagesLoop_dry a.perm _ _ _).mono ?_ fun _ _ _ => trivial
    rintro ⟨d₁,ok⟩ k₁ hk
    cases ok with
    | false => exact fun hr => by cases hr
    | true =>
      refine ih.imp ?_
      intro r k' hr hok
      rw [hr hok,hk rfl]

theorem setupkvm_dry (k : Kmem) :
    Partial setupkvm k fun r k' => r.isSome → k'.dry = k.dry := by
  simp only [setupkvm,post_bind]
  refine Total.post (Kmem.kalloc_head k) ?_
  rintro r k₁ ⟨-,-,-,hdry⟩
  cases r with
  | none => exact fun hr => by cases hr
  | some f =>
    have hphys : ¬ DEVSPACE < KERNBASE + PHYSTOP := by decide
    simp only [if_neg hphys,post_bind]
    refine (setupkvmLoop_dry kmap).imp ?_
    rintro ⟨d₁,ok⟩ k₂ hk
    cases ok with
    | false =>
      simp only [Bool.false_eq_true,if_false,post_bind,post_pure]
      exact Partial.of_forall fun _ _ hr => by cases hr
    | true =>
      intro _
      rw [hk rfl,hdry rfl]

/-- The kernel half has page tables of its own. -/
theorem mappagesLoop_tables (perm : Perm) {n v : ℕ} (pa : Frame) (hlo : USERPAGES ≤ v)
    (hhi : v + n ≤ 2^20) : Partial (mappagesLoop perm n d (v * PGSIZE) pa) k fun r _ =>
      ∀ w < USERPAGES, r.1.hasTable w → d.hasTable w := by
  induction n generalizing v pa d k with
  | zero => exact fun _ _ h => h
  | succ n ih =>
    simp only [mappagesLoop,post_bind]
    refine Total.post (walkpgdirAlloc_freelist d (v * PGSIZE) k) ?_
    rintro r k₁ ⟨-,-,-,hsome⟩
    cases r with
    | none => exact fun _ _ h => h
    | some d₁ =>
      obtain ⟨-,ht⟩ := hsome d₁ rfl
      have hkeep : ∀ w < USERPAGES, d₁.hasTable w → d.hasTable w := fun w hw h => by
        rw [ht w,pageOf_mul] at h
        refine h.resolve_right fun he => ?_
        simp only [NPTENTRIES,USERPAGES,KERNBASE,PGSIZE] at he hw hlo
        omega
      dsimp only
      split
      · trivial
      · cases n with
        | zero => exact fun w hw h => hkeep w hw ((setPte_hasTable _ _ _ _).mp h)
        | succ n =>
          rw [uint_page_step (by simp only [PGSIZE]; omega)]
          refine (ih (v := v + 1) _ (by omega) (by omega)).imp ?_
          intro r k' hr w hw h
          exact hkeep w hw ((setPte_hasTable _ _ _ _).mp (hr w hw h))

theorem setupkvmLoop_tables {ks : List Kmap} (hk : ∀ k ∈ ks, k.Kernel) :
    Partial (setupkvmLoop d ks) k fun r _ => ∀ w < USERPAGES, r.1.hasTable w → d.hasTable w := by
  induction ks generalizing d k with
  | nil => exact fun _ _ h => h
  | cons a ks ih =>
    have ha := hk a (by simp)
    simp only [setupkvmLoop,post_bind]
    have hloop := mappagesLoop_tables (d := d) (k := k) a.perm (n := a.count) (v := a.first)
      (a.physStart / PGSIZE) ha.low ha.high
    rw [← ha.aligned] at hloop
    have hdown : PGROUNDDOWN a.virt = a.virt := by rw [ha.aligned,PGROUNDDOWN_mul]
    change Post (mappagesLoop a.perm a.count d (PGROUNDDOWN a.virt) (a.physStart / PGSIZE)) _ _ _
    rw [hdown]
    refine hloop.imp ?_
    rintro ⟨d₁,ok⟩ k₁ h₁
    cases ok with
    | false => exact h₁
    | true =>
      refine (ih fun b hb => hk b (by simp [hb])).imp ?_
      intro r k' hr w hw h
      exact h₁ w hw (hr w hw h)

theorem setupkvm_tables (k : Kmem) : Partial setupkvm k fun r _ =>
    ∀ d, r = some d → ∀ w < USERPAGES, ¬ d.hasTable w := by
  simp only [setupkvm,post_bind]
  refine Total.post (Kmem.kalloc_head k) ?_
  rintro r k₁ -
  cases r with
  | none => exact fun d hd => by cases hd
  | some f =>
    have hphys : ¬ DEVSPACE < KERNBASE + PHYSTOP := by decide
    simp only [if_neg hphys,post_bind]
    refine (setupkvmLoop_tables kmap_kernel).imp ?_
    rintro ⟨d₁,ok⟩ k₂ h₂
    cases ok with
    | false =>
      simp only [Bool.false_eq_true,if_false,post_bind,post_pure]
      exact Partial.of_forall fun _ _ d hd => by cases hd
    | true =>
      rintro d hd w hw ht
      obtain rfl := Option.some.inj hd
      have hempty := h₂ w hw ht
      simp [PageDir.hasTable] at hempty

/-- `c` has a copy of each of the pages `lo, …, hi - 1` that `pgdir` has, and elsewhere the
entries of `d`. -/
structure Copied (k k' : Kmem) (pgdir d c : PageDir) (lo hi : ℕ) : Prop where
  absent : ∀ v, lo ≤ v → v < hi → pgdir.get v = none → c.get v = none
  present : ∀ v, lo ≤ v → v < hi → ∀ pte, pgdir.get v = some pte →
    ∃ f, c.get v = some { pte with frame := f } ∧ k'.bytes f = k.bytes pte.frame
  outside : ∀ v, v < lo ∨ hi ≤ v → c.get v = d.get v

/-- The pool is too small for a second copy of `pgdir` with its page tables. -/
def Short (M : Finset Frame) (U K : Multiset Frame) (pgdir : PageDir) : Prop :=
  M.card ≤ (U + pgdir.users).card + (K + pgdir.kern).card + (pgdir.users.card + NPDENTRIES + 2)

omit [KernelImage] in
/-- What is out while `d` is being made of `pgdir` leaves room, unless the pool is too small. -/
theorem short_of_card {n : ℕ} (hsub : ∀ w < USERPAGES, (d.get w).isSome → (pgdir.get w).isSome)
    (hn : n ≤ 1) (hc : M.card ≤ (U + pgdir.users + d.users + (K + pgdir.kern + d.kern)).card + n) :
    Short M U K pgdir := by
  have h1 := users_card_le hsub
  have h2 := kern_card_le d
  simp only [Short,Multiset.card_add] at hc ⊢
  omega

omit [KernelImage] in
theorem le_of_pages {sz : ℕ} (h : pages sz ≤ USERPAGES) : sz ≤ KERNBASE := by
  simp only [pages,PGSIZE,USERPAGES,KERNBASE] at h ⊢
  omega

/-- A finished child: the directory `c` that was `d` before the pages from `v` on. -/
structure Child (M : Finset Frame) (U K : Multiset Frame) (pgdir d : PageDir) (k k' : Kmem)
    (sz v : ℕ) (c : PageDir) : Prop where
  size : sz ≤ KERNBASE
  tables : ∀ w, v ≤ w → w < pages sz → pgdir.hasTable w
  held : Held M k' (U + pgdir.users + c.users) (K + pgdir.kern + c.kern)
  kernelHalf : KernelHalf c
  keeps : Keeps (· ∈ U + pgdir.users + d.users) k k'
  dry : k'.dry = k.dry
  copied : Copied k k' pgdir d c v (pages sz)

/-- `bad` gives every page of the child back. -/
theorem bad_spec {k₁ : Kmem} (hk : Keeps (· ∈ U + pgdir.users + d.users) k k₁) (hst : starved k₁)
    (hshort : Short M U K pgdir)
    (h : Held M k₁ (U + pgdir.users + d.users) (K + pgdir.kern + d.kern)) :
    Total (freevm (some d)) k₁ fun _ k' => Keeps (· ∈ U + pgdir.users) k k' ∧ starved k' ∧
      Held M k' (U + pgdir.users) (K + pgdir.kern) ∧ Short M U K pgdir := by
  refine (freevm_spec h).imp ?_
  rintro - k' ⟨hh,hp⟩
  exact ⟨(hk.mono fun g hg => by simp [Multiset.mem_add.mp hg]).trans hp,hp.starved hst,hh,hshort⟩

namespace Child

variable {k₁ k' : Kmem} {d₁ c : PageDir} {sz v : ℕ}

/-- A page that the parent does not have. -/
theorem absent (hw : pgdir.hasTable v) (hget : pgdir.get v = none) (hfree : d.get v = none)
    (hg : ∀ w, d₁.get w = d.get w) (hp : Keeps (fun _ => True) k k₁) (hdry : k₁.dry = k.dry)
    (h : Child M U K pgdir d₁ k₁ k' sz (v + 1) c) : Child M U K pgdir d k k' sz v c where
  size := h.size
  tables w h1 h2 := by
    by_cases hwv : w = v
    · subst hwv; exact hw
    · exact h.tables w (by omega) h2
  held := h.held
  kernelHalf := h.kernelHalf
  keeps := by
    have hus : d₁.users = d.users := users_congr fun w _ => hg w
    rw [← hus]
    exact hp.of_all.trans h.keeps
  dry := h.dry.trans hdry
  copied := by
    refine ⟨fun w h1 h2 hn => ?_,fun w h1 h2 pte hpte => ?_,fun w ho => ?_⟩
    · by_cases hwv : w = v
      · subst hwv
        rw [h.copied.outside w (by omega),hg w,hfree]
      · exact h.copied.absent w (by omega) h2 hn
    · have hwv : w ≠ v := by
        rintro rfl
        rw [hget] at hpte; cases hpte
      obtain ⟨f,hf,hb⟩ := h.copied.present w (by omega) h2 pte hpte
      have hpage := hp.page pte.frame trivial
      exact ⟨f,hf,hb.trans hpage⟩
    · rw [h.copied.outside w (by omega),hg w]

/-- A page that the parent has, copied to frame `mem`. -/
theorem present {pte : Pte} {mem : Frame} (hvp : v < pages sz) (hget : pgdir.get v = some pte)
    (hfree : d.get v = none) (hmem : mem ∉ U + pgdir.users + d.users)
    (hg : ∀ w, d₁.get w = if w = v then some { pte with frame := mem } else d.get w)
    (hp : Keeps (· ≠ mem) k k₁) (hb : k₁.bytes mem = k.bytes pte.frame) (hdry : k₁.dry = k.dry)
    (h : Child M U K pgdir d₁ k₁ k' sz (v + 1) c) : Child M U K pgdir d k k' sz v c := by
  have hle := pages_le h.size
  have hsub : ∀ g, g ∈ U + pgdir.users + d.users → g ∈ U + pgdir.users + d₁.users ∧ g ≠ mem := by
    intro g hgm
    refine ⟨?_,fun he => hmem (he ▸ hgm)⟩
    rcases Multiset.mem_add.mp hgm with hl | hr
    · exact Multiset.mem_add.mpr (.inl hl)
    · refine Multiset.mem_add.mpr (.inr (mem_users_of_get hr fun w q hq => ?_))
      rw [hg w,if_neg]
      · exact hq
      · rintro rfl; rw [hfree] at hq; cases hq
  have hold : ∀ w < USERPAGES, ∀ q, pgdir.get w = some q → k₁.bytes q.frame = k.bytes q.frame := by
    intro w hw q hq
    exact hp.page _ (hsub _ (by simp [frame_mem_users hw hq])).2
  have hnew : mem ∈ d₁.users :=
    frame_mem_users (v := v) (p := { pte with frame := mem }) (by omega) (by rw [hg v,if_pos rfl])
  refine ⟨h.size,fun w h1 h2 => ?_,h.held,h.kernelHalf,
    (hp.mono fun g hgm => (hsub g hgm).2).trans (h.keeps.mono fun g hgm => (hsub g hgm).1),
    h.dry.trans hdry,?_⟩
  · by_cases hwv : w = v
    · subst hwv; exact hasTable_of_get hget
    · exact h.tables w (by omega) h2
  · refine ⟨fun w h1 h2 hn => ?_,fun w h1 h2 q hq => ?_,fun w ho => ?_⟩
    · have hwv : w ≠ v := by
        rintro rfl
        rw [hget] at hn; cases hn
      exact h.copied.absent w (by omega) h2 hn
    · by_cases hwv : w = v
      · subst hwv
        rw [hget,Option.some.injEq] at hq
        subst hq
        refine ⟨mem,by rw [h.copied.outside w (by omega),hg w,if_pos rfl],?_⟩
        have hpage := h.keeps.page mem (by simp [hnew])
        exact Eq.trans hpage hb
      · obtain ⟨f,hf,hb'⟩ := h.copied.present w (by omega) h2 q hq
        exact ⟨f,hf,hb'.trans (hold w (by omega) q hq)⟩
    · rw [h.copied.outside w (by omega),hg w,if_neg (by omega)]

end Child

/-- The loop of `copyuvm` in front of page `v`. -/
structure Copying (M : Finset Frame) (U K : Multiset Frame) (pgdir d : PageDir) (k : Kmem) (v : ℕ) :
    Prop where
  le : v ≤ USERPAGES
  kernelHalf : KernelHalf d
  free : ∀ w, v ≤ w → w < USERPAGES → d.get w = none
  sub : ∀ w < USERPAGES, (d.get w).isSome → (pgdir.get w).isSome
  held : Held M k (U + pgdir.users + d.users) (K + pgdir.kern + d.kern)

/-- What the loop returns from page `v` on. -/
structure Returned (M : Finset Frame) (U K : Multiset Frame) (pgdir d : PageDir) (k : Kmem) (sz v : ℕ)
    (r : PageDir × Option PageDir) (k' : Kmem) : Prop where
  parent : r.1 = pgdir
  bad : r.2 = none → Keeps (· ∈ U + pgdir.users) k k' ∧ starved k' ∧
    Held M k' (U + pgdir.users) (K + pgdir.kern) ∧ Short M U K pgdir
  child : ∀ c, r.2 = some c → Child M U K pgdir d k k' sz v c

/-- Where the loop stops: below `KERNBASE` only at a page table that is missing. -/
structure Stopped (M : Finset Frame) (U K : Multiset Frame) (pgdir : PageDir) (k : Kmem) (sz v : ℕ)
    (e : Panic) (k' : Kmem) : Prop where
  kind : e.allocator = false
  dry : k'.dry = true → k.dry = true ∨ Short M U K pgdir
  null : sz ≤ KERNBASE → e = .nullDeref ∧
    ((∀ w, v ≤ w → w < pages sz → pgdir.hasTable w) → k'.dry = true)

section Loop

variable {k₁ k' : Kmem} {d₁ : PageDir} {sz v : ℕ} {pte : Pte} {mem : Frame} {e : Panic}
  {r : PageDir × Option PageDir}

theorem Returned.failed (hbad : Keeps (· ∈ U + pgdir.users) k k' ∧ starved k' ∧
    Held M k' (U + pgdir.users) (K + pgdir.kern) ∧ Short M U K pgdir) :
    Returned M U K pgdir d k sz v (pgdir,none) k' :=
  ⟨rfl,fun _ => hbad,fun c hc => by cases hc⟩

omit [KernelImage] in
theorem Stopped.earlier (hdry : k₁.dry = k.dry) (h : Stopped M U K pgdir k₁ sz (v + 1) e k') :
    Stopped M U K pgdir k sz v e k' where
  kind := h.kind
  dry hd := hdry ▸ h.dry hd
  null hsz := ⟨(h.null hsz).1,fun ht => (h.null hsz).2 fun w hw hwp => ht w (by omega) hwp⟩

theorem Copying.absent (h : Copying M U K pgdir d k v) (hvlt : v < USERPAGES)
    (hg : ∀ w, d₁.get w = d.get w)
    (hh : Held M k₁ (U + pgdir.users + d.users) (K + pgdir.kern + d₁.kern)) :
    Copying M U K pgdir d₁ k₁ (v + 1) where
  le := hvlt
  kernelHalf := h.kernelHalf.congr fun w _ => hg w
  free w hw hwu := by
    rw [hg w]
    exact h.free w (by omega) hwu
  sub w hwu hs := h.sub w hwu (hg w ▸ hs)
  held := hh.congr (by rw [users_congr fun w _ => hg w]) rfl

theorem Returned.absent (hw : pgdir.hasTable v) (hget : pgdir.get v = none) (hfree : d.get v = none)
    (hg : ∀ w, d₁.get w = d.get w) (hp : Keeps (fun _ => True) k k₁) (hdry : k₁.dry = k.dry)
    (h : Returned M U K pgdir d₁ k₁ sz (v + 1) r k') : Returned M U K pgdir d k sz v r k' where
  parent := h.parent
  bad hb := ⟨hp.of_all.trans (h.bad hb).1,(h.bad hb).2⟩
  child c hc := (h.child c hc).absent hw hget hfree hg hp hdry

theorem Copying.present (h : Copying M U K pgdir d k v) (hvlt : v < USERPAGES)
    (hget : pgdir.get v = some pte)
    (hg : ∀ w, d₁.get w = if w = v then some { pte with frame := mem } else d.get w)
    (hh : Held M k₁ (U + pgdir.users + d₁.users) (K + pgdir.kern + d₁.kern)) :
    Copying M U K pgdir d₁ k₁ (v + 1) where
  le := hvlt
  kernelHalf := h.kernelHalf.congr fun w hw => by rw [hg w,if_neg (by omega)]
  free w hw hwu := by
    rw [hg w,if_neg (by omega)]
    exact h.free w (by omega) hwu
  sub w hwu hs := by
    rw [hg w] at hs
    by_cases hwv : w = v
    · rw [hwv,hget]
      rfl
    · rw [if_neg hwv] at hs
      exact h.sub w hwu hs
  held := hh

theorem Returned.present (hvp : v < pages sz) (hget : pgdir.get v = some pte)
    (hfree : d.get v = none) (hmem : mem ∉ U + pgdir.users + d.users)
    (hg : ∀ w, d₁.get w = if w = v then some { pte with frame := mem } else d.get w)
    (hp : Keeps (· ≠ mem) k k₁) (hb : k₁.bytes mem = k.bytes pte.frame) (hdry : k₁.dry = k.dry)
    (h : Returned M U K pgdir d₁ k₁ sz (v + 1) r k') : Returned M U K pgdir d k sz v r k' where
  parent := h.parent
  bad hb' := by
    have hkeep := hp.mono fun g (hgm : g ∈ U + pgdir.users) he => hmem (by rw [← he]; simp [hgm])
    exact ⟨hkeep.trans (h.bad hb').1,(h.bad hb').2⟩
  child c hc := (h.child c hc).present hvp hget hfree hmem hg hp hb hdry

/-- A page that the parent does not have: the child gets the page table. -/
theorem copyuvmLoop_absent (h : Copying M U K pgdir d k v) (hk : KernelHalf pgdir)
    (hvp : v < pages sz) (hw : walkpgdir pgdir (v * PGSIZE) = some none)
    (hrest : ∀ d₁ k₁, Copying M U K pgdir d₁ k₁ (v + 1) →
      Post (copyuvmLoop sz pgdir d₁ ((v + 1) * PGSIZE)) k₁ (Returned M U K pgdir d₁ k₁ sz (v + 1))
        (Stopped M U K pgdir k₁ sz (v + 1))) :
    Post (copyuvmLoop sz pgdir d (v * PGSIZE)) k (Returned M U K pgdir d k sz v)
      (Stopped M U K pgdir k sz v) := by
  have hlt : v * PGSIZE < sz := by rw [mul_PGSIZE_lt]; omega
  have hle := h.le
  have hu20 := USERPAGES_lt
  rw [copyuvmLoop,if_pos hlt,hw]
  rw [walkpgdir_eq_some,pageOf_mul] at hw
  have hvlt : v < USERPAGES := by
    by_contra hge
    have hsome := kmapPte_USERPAGES
    have hveq : v = USERPAGES := by omega
    rw [← hk USERPAGES le_rfl,← hveq,hw.2] at hsome
    cases hsome
  have hnone := h.free v le_rfl hvlt
  have hself : pgdir.setPte (v * PGSIZE) none = pgdir :=
    setPte_none_of_get (by rw [pageOf_mul]; exact hw.2)
  simp only [hself,post_bind]
  refine Total.post (Total.and_post (walkpgdirAlloc_spec (v * PGSIZE) h.held
    (by rw [pageOf_mul]; omega)) (walkpgdirAlloc_freelist d (v * PGSIZE) k)) ?_
  rintro r k₁ ⟨⟨hp₁,hfail,hsome⟩,-,-,hdry₁,-⟩
  cases r with
  | none =>
    obtain ⟨hst,-,hc,-⟩ := hfail rfl
    exact ⟨rfl,fun _ => .inr (short_of_card h.sub (Nat.zero_le 1) (by simpa using hc)),
      fun _ => ⟨rfl,fun _ => hst⟩⟩
  | some d₁ =>
    replace hdry₁ : k₁.dry = k.dry := hdry₁ rfl
    obtain ⟨hh₁,hg₁,-⟩ := hsome d₁ rfl
    have hself₁ : d₁.setPte (v * PGSIZE) none = d₁ :=
      setPte_none_of_get (by rw [pageOf_mul,hg₁ v]; exact hnone)
    simp only [hself₁,page_step]
    refine (hrest d₁ k₁ (h.absent hvlt hg₁ hh₁)).mono ?_ ?_
    · intro r k' hr
      exact hr.absent hw.1 hw.2 hnone hg₁ hp₁ hdry₁
    · intro e k' he
      exact he.earlier hdry₁

/-- A page that the parent has: the child gets a copy in a page of its own. -/
theorem copyuvmLoop_present (h : Copying M U K pgdir d k v) (hvp : v < pages sz)
    (hw : walkpgdir pgdir (v * PGSIZE) = some (some pte))
    (hrest : ∀ d₁ k₁, Copying M U K pgdir d₁ k₁ (v + 1) →
      Post (copyuvmLoop sz pgdir d₁ ((v + 1) * PGSIZE)) k₁ (Returned M U K pgdir d₁ k₁ sz (v + 1))
        (Stopped M U K pgdir k₁ sz (v + 1))) :
    Post (copyuvmLoop sz pgdir d (v * PGSIZE)) k (Returned M U K pgdir d k sz v)
      (Stopped M U K pgdir k sz v) := by
  have hlt : v * PGSIZE < sz := by rw [mul_PGSIZE_lt]; omega
  have hle := h.le
  have hu20 := USERPAGES_lt
  rw [copyuvmLoop,if_pos hlt,hw]
  rw [walkpgdir_eq_some,pageOf_mul] at hw
  simp only [post_bind]
  refine Total.post (Total.and_post (kalloc_held h.held) (Kmem.kalloc_head k)) ?_
  rintro r k₁ ⟨⟨hp₁,hfail,hsome⟩,-,-,-,hdry₁⟩
  cases r with
  | none =>
    obtain ⟨hst,hh₁,hc⟩ := hfail rfl
    simp only [post_bind,post_pure]
    refine (bad_spec hp₁.of_all hst (short_of_card h.sub (Nat.zero_le 1) hc) hh₁).post ?_
    intro _ k' hbad
    exact .failed hbad
  | some mem =>
    replace hdry₁ : k₁.dry = k.dry := hdry₁ rfl
    obtain ⟨hfresh,hU,-⟩ := hsome mem rfl
    have hmem : mem ∉ U + pgdir.users + d.users := fun hm =>
      hfresh (Multiset.mem_add.mpr (.inl hm))
    simp only [post_bind,memmovePage,post_modify]
    have hk₂ := Held.keeps_setPage mem (page k₁ pte.frame) k₁
    have hh₂ := hU.setPage mem (page k₁ pte.frame)
    have hdry₂ : (PageAllocator.setPage mem (page k₁ pte.frame) k₁).dry = k.dry := hdry₁
    generalize hk₂' : PageAllocator.setPage mem (page k₁ pte.frame) k₁ = k₂ at hk₂ hh₂ hdry₂
    have hb₂ : k₂.bytes mem = k.bytes pte.frame := by
      have hset := page_setPage mem mem (page k₁ pte.frame) k₁
      rw [hk₂',if_pos rfl] at hset
      have hpage := hp₁.page pte.frame trivial
      exact Eq.trans hset hpage
    have hp₂ : Keeps (· ≠ mem) k k₂ := hp₁.of_all.trans hk₂
    by_cases hvlt : v < USERPAGES
    · have hnone := h.free v le_rfl hvlt
      refine ((mappages_user pte.toPerm hh₂ hvlt).and (mappagesLoop_dry pte.toPerm _ _ _)).mono ?_ ?_
      · rintro ⟨d₁,ok⟩ k₃ ⟨⟨hp₃,hok,hbad⟩,hdry₃⟩
        dsimp only at hok hbad hdry₃
        cases ok with
        | true =>
          obtain ⟨hh₃,-,hg⟩ := hok rfl
          have hp := hp₂.trans (hp₃.of_all (S := (· ≠ mem)))
          have hb : k₃.bytes mem = k.bytes pte.frame := by
            have hpage := hp₃.page mem trivial
            exact Eq.trans hpage hb₂
          have hdry : k₃.dry = k.dry := (hdry₃ rfl).trans hdry₂
          simp only [if_true,page_step]
          refine (hrest d₁ k₃ (h.present hvlt hw.2 hg hh₃)).mono ?_ ?_
          · intro r k' hr
            exact hr.present hvp hw.2 hnone hmem hg hp hb hdry
          · intro e k' he
            exact he.earlier hdry
        | false =>
          obtain ⟨hst,hh₃,hd,-,hc⟩ := hbad rfl
          subst hd
          simp only [Bool.false_eq_true,if_false,post_bind,post_pure]
          have hshort : Short M U K pgdir := short_of_card h.sub le_rfl (by
            simp only [Multiset.card_add,Multiset.card_singleton] at hc ⊢
            omega)
          refine Total.post (kfree_user hh₃) ?_
          rintro - k₄ ⟨hh₄,hp₄⟩
          have hkeep : Keeps (· ∈ U + pgdir.users + d₁.users) k k₄ :=
            ((hp₂.mono fun g hgm he => hmem (he ▸ hgm)).trans hp₃.of_all).trans
              (hp₄.mono fun g hgm => Multiset.mem_add.mpr (.inl hgm))
          refine (bad_spec hkeep (hp₄.starved hst) hshort hh₄).post ?_
          intro _ k' hbad'
          exact .failed hbad'
      · rintro e - ⟨⟨rfl,hs⟩,-⟩
        rw [hnone] at hs
        cases hs
    · -- the kernel's own entry: "remap"
      have hveq : v = USERPAGES := by omega
      have hsome : (d.get v).isSome := by
        rw [hveq,h.kernelHalf USERPAGES le_rfl]; exact kmapPte_USERPAGES
      refine ((mappages_taken pte.toPerm (by omega) hsome).and
        (mappagesLoop_dry pte.toPerm _ _ _)).mono (fun _ _ hr => hr.1.elim) ?_
      · rintro e k' ⟨rfl,hdry₃⟩
        refine ⟨by decide,fun hd => .inl (by rw [← hdry₂,← hdry₃,hd]),fun h1 => ?_⟩
        have := pages_le h1
        omega

end Loop

/-- The loop of `copyuvm` leaves the parent alone. It finishes only below `KERNBASE` and with
a page table for every page; otherwise it stops, or pages run out. -/
theorem copyuvmLoop_spec {sz v : ℕ} (hv : v ≤ pages sz) (hk : KernelHalf pgdir)
    (h : Copying M U K pgdir d k v) :
    Post (copyuvmLoop sz pgdir d (v * PGSIZE)) k (Returned M U K pgdir d k sz v)
      (Stopped M U K pgdir k sz v) := by
  induction hn : pages sz - v generalizing v d k with
  | zero =>
    have hlt : ¬ v * PGSIZE < sz := by rw [mul_PGSIZE_lt]; omega
    have hle := h.le
    rw [copyuvmLoop,if_neg hlt]
    refine ⟨rfl,fun hs => (by cases hs),fun c hc => ?_⟩
    obtain rfl := Option.some.inj hc
    exact ⟨le_of_pages (by omega),fun w _ _ => by omega,h.held,h.kernelHalf,.refl _ _,rfl,
      fun w _ _ => by omega,fun w _ _ => by omega,fun _ _ => rfl⟩
  | succ n ih =>
    have hvp : v < pages sz := by omega
    have hrest := fun d₁ k₁ (h₁ : Copying M U K pgdir d₁ k₁ (v + 1)) =>
      ih (v := v + 1) (by omega) h₁ (by omega)
    cases hw : walkpgdir pgdir (v * PGSIZE) with
    | none =>
      -- no page table: the null pointer is followed
      have hlt : v * PGSIZE < sz := by rw [mul_PGSIZE_lt]; omega
      rw [copyuvmLoop,if_pos hlt,hw]
      rw [walkpgdir_eq_none,pageOf_mul] at hw
      exact ⟨rfl,.inl,fun _ => ⟨rfl,fun ht => (hw (ht v le_rfl hvp)).elim⟩⟩
    | some entry =>
      cases entry with
      | none => exact copyuvmLoop_absent h hk hvp hw hrest
      | some pte => exact copyuvmLoop_present h hvp hw hrest

/-- What `copyuvm` gives: a page of its own for every page the parent has below `sz`, with the
same flags and bytes, and no entry where the parent has none. -/
structure Cloned (M : Finset Frame) (U K : Multiset Frame) (pgdir : PageDir) (k k' : Kmem)
    (sz : ℕ) (c : PageDir) : Prop where
  size : sz ≤ KERNBASE
  tables : ∀ v < pages sz, pgdir.hasTable v
  held : Held M k' (U + pgdir.users + c.users) (K + pgdir.kern + c.kern)
  kernelHalf : KernelHalf c
  keeps : Keeps (· ∈ U + pgdir.users) k k'
  dry : k'.dry = k.dry
  absent : ∀ v < pages sz, pgdir.get v = none → c.get v = none
  present : ∀ v < pages sz, ∀ pte, pgdir.get v = some pte →
    ∃ f, c.get v = some { pte with frame := f } ∧ k'.bytes f = k.bytes pte.frame
  below : Below sz c

theorem copyuvm_spec {sz : ℕ} (hk : KernelHalf pgdir)
    (h : Held M k (U + pgdir.users) (K + pgdir.kern)) :
    Post (copyuvm pgdir sz) k
      (fun r k' => r.1 = pgdir ∧
        (r.2 = none → Keeps (· ∈ U + pgdir.users) k k' ∧ starved k' ∧
          Held M k' (U + pgdir.users) (K + pgdir.kern) ∧ Short M U K pgdir) ∧
        ∀ c, r.2 = some c → Cloned M U K pgdir k k' sz c)
      fun e k' => e.allocator = false ∧ (k'.dry = true → k.dry = true ∨ Short M U K pgdir) ∧
        (sz ≤ KERNBASE → e = .nullDeref ∧ ((∀ v < pages sz, pgdir.hasTable v) → k'.dry = true)) := by
  simp only [copyuvm,post_bind]
  refine Total.post (Total.and_post (setupkvm_spec h) (setupkvm_dry k)) ?_
  rintro r k₁ ⟨⟨hp₁,hn,hs⟩,hdry₁⟩
  cases r with
  | none =>
    obtain ⟨hst,hh,hc⟩ := hn rfl
    refine ⟨rfl,fun _ => ⟨hp₁,hst,hh,?_⟩,fun c hc => by cases hc⟩
    simp only [Short,Multiset.card_add] at hc ⊢
    omega
  | some d =>
    replace hdry₁ : k₁.dry = k.dry := hdry₁ rfl
    obtain ⟨hh,hlow,hkd⟩ := hs d rfl
    have hu : d.users = 0 := users_eq_zero.mpr hlow
    have hh' : Held M k₁ (U + pgdir.users + d.users) (K + pgdir.kern + d.kern) :=
      hh.congr (by rw [hu,add_zero]) rfl
    have hsub : ∀ w < USERPAGES, (d.get w).isSome → (pgdir.get w).isSome := by
      intro w hw hs
      rw [hlow w hw] at hs
      cases hs
    have hstart : Copying M U K pgdir d k₁ 0 :=
      ⟨Nat.zero_le _,hkd,fun w _ hw => hlow w hw,hsub,hh'⟩
    have hloop := copyuvmLoop_spec (Nat.zero_le (pages sz)) hk hstart
    rw [Nat.zero_mul] at hloop
    refine hloop.mono ?_ ?_
    · rintro r k' ⟨hr,hbad,hgood⟩
      refine ⟨hr,fun hb => ?_,fun c hc => ?_⟩
      · obtain ⟨hp₂,hrest⟩ := hbad hb
        exact ⟨hp₁.trans hp₂,hrest⟩
      · have hchild := hgood c hc
        have hle := pages_le hchild.size
        refine ⟨hchild.size,fun v hv => hchild.tables v (Nat.zero_le _) hv,hchild.held,
          hchild.kernelHalf,hp₁.trans (hchild.keeps.mono fun g hg => ?_),hchild.dry.trans hdry₁,
          fun v hv => hchild.copied.absent v (Nat.zero_le _) hv,fun v hv pte hpte => ?_,
          fun v hv hge => ?_⟩
        · exact Multiset.mem_add.mpr (.inl hg)
        · obtain ⟨f,hf,hb⟩ := hchild.copied.present v (Nat.zero_le _) hv pte hpte
          have hpage := hp₁.page pte.frame (Multiset.mem_add.mpr (.inr
            (frame_mem_users (by omega) hpte)))
          exact ⟨f,hf,hb.trans hpage⟩
        · rw [hchild.copied.outside v (.inr hge),hlow v hv]
    · rintro e k' ⟨he,hst,hs⟩
      exact ⟨he,fun hd => hdry₁ ▸ hst hd,fun h1 => ⟨(hs h1).1,fun h2 =>
        (hs h1).2 fun w _ hw => h2 w hw⟩⟩

end ResumePointers.Lazy
