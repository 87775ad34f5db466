import ResumePointers.Xv6.Exec

/-! What `exec` does to the pages of the others: nothing. The image it builds has a
frame of its own for each of its pages. -/
namespace ResumePointers.Xv6

/-- The messages of the page allocator's own panics. -/
def Panic.allocator : Panic → Bool
  | .panic msg => msg ∈ ["kfree","kfree: refcount","kfree: refcount < 0","kalloc: refcount",
      "incrementRefCount","incrementRefCount: refcount == 0"]
  | .nullDeref => false

/-- Every user page of `d` is writable, not copy-on-write, and nobody else's. -/
def OwnPages (U : Multiset Frame) (d : PageDir) : Prop :=
  ∀ v < USERPAGES, ∀ p, d.get v = some p →
    p.w = true ∧ p.cow = false ∧ (U + d.users).count p.frame = 1

theorem users_of_frames {d d' : PageDir}
    (h : ∀ v < USERPAGES, (d'.get v).map Pte.frame = (d.get v).map Pte.frame) :
    d'.users = d.users :=
  tally_congr h

theorem OwnPages.not_mem {U : Multiset Frame} {d : PageDir} {v : ℕ} {p : Pte}
    (h : OwnPages U d) (hv : v < USERPAGES) (hp : d.get v = some p) : p.frame ∉ U := by
  intro hU
  have h1 := (h v hv p hp).2.2
  have h2 := Multiset.count_pos.mpr hU
  have h3 := Multiset.count_pos.mpr (frame_mem_users hv hp)
  rw [Multiset.count_add] at h1
  omega

variable {κ : Type} [PageAllocator κ] [LawfulPageAllocator κ]
variable {M : Finset Frame} {k : κ} {U K : Multiset Frame} {d : PageDir}

omit [LawfulPageAllocator κ] in
theorem OwnPages.grew {k' : κ} {d' : PageDir} {lo hi : ℕ} (h : OwnPages U d)
    (hg : Grew U k k' d d' lo hi) : OwnPages U d' := by
  intro v hv p hp
  by_cases hin : lo ≤ v ∧ v < hi
  · obtain ⟨f,hf,hc,-⟩ := hg.fresh v hin.1 hin.2
    rw [hp,Option.some.injEq] at hf
    subst hf
    exact ⟨rfl,rfl,hc⟩
  · rw [hg.outside v (by omega)] at hp
    obtain ⟨hw,hcow,hc⟩ := h v hv p hp
    refine ⟨hw,hcow,?_⟩
    rw [hg.count p.frame (by simp [frame_mem_users hv hp]),hc]

theorem memmoveInto_spec {f : Frame} (off : ℕ) (bytes : List UInt8) (hf : f ∉ U)
    {R S : Multiset Frame} (h : Held M k R S) :
    Total (memmoveInto f off bytes) k fun _ k' => Held M k' R S ∧ Keeps (· ∈ U) k k' :=
  ⟨h.setPage f _,(Held.keeps_setPage f _ k).mono fun _ hg hgf => hf (hgf ▸ hg)⟩

omit [PageAllocator κ] [LawfulPageAllocator κ] in
/-- `clearpteu` changes one flag of one page. -/
theorem clearpteu_spec {uva : ℕ} (hown : OwnPages U d) :
    Post (clearpteu d uva) k (fun d' k' => k' = k ∧ d'.users = d.users ∧ d'.kern = d.kern ∧
        OwnPages U d' ∧ (∀ v, v ≠ pageOf uva → d'.get v = d.get v) ∧
        ∀ v, d.get v = none → d'.get v = none)
      fun e _ => e.allocator = false := by
  unfold clearpteu
  split
  · exact (by decide : (Panic.panic "clearpteu").allocator = false)
  · rename_i pte hw
    obtain ⟨ht,hget⟩ := walkpgdir_eq_some.mp hw
    have hset := setPte_get ht (pte.map fun p => { p with u := false })
    have hu : (d.setPte uva (pte.map fun p => { p with u := false })).users = d.users := by
      apply users_of_frames
      intro v _
      rw [hset v]
      split
      · rename_i hv; rw [hv,hget]; cases pte <;> rfl
      · rfl
    refine ⟨rfl,hu,setPte_kern _ _ _,fun v hv p hp => ?_,fun v hv => by rw [hset v,if_neg hv],
      fun v hv => ?_⟩
    · rw [hu]
      rw [hset v] at hp
      split at hp
      · rename_i hvu
        cases pte with
        | none => cases hp
        | some q =>
          rw [Option.map_some,Option.some.injEq] at hp
          subst hp
          exact hown v hv q (by rw [hvu,hget])
      · exact hown v hv p hp
    · rw [hset v]
      split
      · rename_i hvu
        rw [hvu,hget] at hv
        rw [hv]; rfl
      · exact hv

theorem loaduvmLoop_spec {addr sz i : ℕ} {file : List UInt8} {offset : ℕ}
    (hsz : addr + sz ≤ KERNBASE) (hown : OwnPages U d)
    (h : Held M k (U + d.users) (K + d.kern)) :
    Post (loaduvmLoop d addr file offset sz i) k
      (fun _ k' => Held M k' (U + d.users) (K + d.kern) ∧ Keeps (· ∈ U) k k')
      fun e _ => e.allocator = false := by
  induction hn : sz - i using Nat.strong_induction_on generalizing i k with
  | h n ih =>
    rw [loaduvmLoop]
    split
    · rename_i hlt
      split
      · exact (by decide : (Panic.panic "loaduvm: address should exist").allocator = false)
      · rename_i pte hw
        obtain ⟨-,hget⟩ := walkpgdir_eq_some.mp hw
        have hv : pageOf (addr + i) < USERPAGES := by
          rw [pageOf_lt]; exact lt_of_lt_of_le (by omega) hsz
        -- an absent entry sends the bytes to physical page 0, which is not in use either
        have hnot : (pte.map Pte.frame).getD 0 ∉ U := by
          cases pte with
          | none =>
            intro (h0 : 0 ∈ U)
            exact h.ne_zero (by simp [h0]) rfl
          | some p => exact hown.not_mem hv hget
        dsimp only
        generalize (if sz - i < PGSIZE then sz - i else PGSIZE) = len
        cases readi file (uint (offset + i)) len with
        | none => exact ⟨h,.refl _ _⟩
        | some bytes =>
          simp only [post_bind]
          refine Total.post (memmoveInto_spec 0 bytes hnot h) ?_
          rintro - k₁ ⟨hh,hp⟩
          split
          · exact ⟨hh,hp⟩
          · have hpos : 0 < PGSIZE := by decide
            refine (ih _ (by omega) hh rfl).imp ?_
            rintro - k' ⟨hh',hp'⟩
            exact ⟨hh',hp.trans hp'⟩
    · exact ⟨h,.refl _ _⟩

/-- `loaduvm` writes to pages of `d` only. -/
theorem loaduvm_spec {addr sz offset : ℕ} {file : List UInt8} (hsz : addr + sz ≤ KERNBASE)
    (hown : OwnPages U d) (h : Held M k (U + d.users) (K + d.kern)) :
    Post (loaduvm d addr file offset sz) k
      (fun _ k' => Held M k' (U + d.users) (K + d.kern) ∧ Keeps (· ∈ U) k k')
      fun e _ => e.allocator = false := by
  unfold loaduvm
  split
  · exact (by decide :
      (Panic.panic "loaduvm: addr must be page aligned").allocator = false)
  · exact loaduvmLoop_spec hsz hown h

section Kernel
variable [KernelImage]

omit [PageAllocator κ] [LawfulPageAllocator κ] in
/-- `uva2ka` finds only user pages: those of the kernel half lack `PTE_U`. -/
theorem uva2ka_spec {uva : ℕ} (hk : KernelHalf d) :
    Post (uva2ka d uva) k
      (fun r k' => k' = k ∧ ∀ f, r = some f →
        ∃ v < USERPAGES, ∃ p, d.get v = some p ∧ p.frame = f)
      fun e _ => e.allocator = false := by
  unfold uva2ka
  split
  · rfl
  · exact ⟨rfl,fun f hf => by cases hf⟩
  · rename_i pte hw
    obtain ⟨-,hget⟩ := walkpgdir_eq_some.mp hw
    refine ⟨rfl,fun f hf => ?_⟩
    split at hf
    · rename_i hu
      rw [Option.some.injEq] at hf
      by_cases hv : pageOf uva < USERPAGES
      · exact ⟨_,hv,pte,hget,hf⟩
      · have hnu := kmapPte_not_user ((hk _ (by omega)).symm.trans hget)
        rw [hu] at hnu
        cases hnu
    · cases hf

/-- `copyout` writes to user pages of `d` only. -/
theorem copyout_spec {va : ℕ} {p : List UInt8} (hk : KernelHalf d) (hown : OwnPages U d)
    (h : Held M k (U + d.users) (K + d.kern)) :
    Post (copyout d va p) k
      (fun _ k' => Held M k' (U + d.users) (K + d.kern) ∧ Keeps (· ∈ U) k k')
      fun e _ => e.allocator = false := by
  induction hn : p.length using Nat.strong_induction_on generalizing va p k with
  | h n ih =>
    rw [copyout]
    split
    · exact ⟨h,.refl _ _⟩
    · rename_i hne
      simp only [post_bind]
      refine (uva2ka_spec hk).imp ?_
      rintro r k₁ ⟨rfl,hr⟩
      split
      · exact ⟨h,.refl _ _⟩
      · rename_i f
        obtain ⟨v,hv,q,hq,rfl⟩ := hr f rfl
        simp only [post_bind]
        refine Total.post (memmoveInto_spec (va % PGSIZE) _ (hown.not_mem hv hq) h) ?_
        rintro - k₂ ⟨hh,hp⟩
        have hpos := List.length_pos_of_ne_nil hne
        have hm : va % PGSIZE < PGSIZE := Nat.mod_lt _ (by decide)
        refine (ih _ (by rw [List.length_drop]; omega) hh rfl).imp ?_
        rintro - k' ⟨hh',hp'⟩
        exact ⟨hh',hp.trans hp'⟩

/-- No user page of `d` lies at or above `sz`. -/
def Below (sz : ℕ) (d : PageDir) : Prop := ∀ v < USERPAGES, pages sz ≤ v → d.get v = none

omit [LawfulPageAllocator κ] [KernelImage] in
theorem Below.grew {k' : κ} {d' : PageDir} {sz oldsz newsz : ℕ} (h : Below sz d)
    (hle : pages sz ≤ pages oldsz) (hg : Grew U k k' d d' (pages oldsz) (pages newsz)) :
    Below (max oldsz newsz) d' := by
  intro v hv hge
  have h1 := pages_mono (le_max_left oldsz newsz)
  have h2 := pages_mono (le_max_right oldsz newsz)
  rw [hg.outside v (by omega)]
  exact h v hv (by omega)

/-- An image under construction: its pages are its own and lie below its size, and its kernel
half is in place. -/
structure Building (M : Finset Frame) (k : κ) (U K : Multiset Frame) (d : PageDir) (sz : ℕ) :
    Prop where
  held : Held M k (U + d.users) (K + d.kern)
  own : OwnPages U d
  below : Below sz d
  kernelHalf : KernelHalf d

theorem allocuvm_building {sz oldsz : ℕ} (newsz : ℕ) (hle : pages sz ≤ pages oldsz)
    (h : Building M k U K d sz) :
    Post (allocuvm d oldsz newsz) k
      (fun r k' => Keeps (· ∈ U) k k' ∧ Held M k' (U + r.1.users) (K + r.1.kern) ∧
        (r.2 ≠ 0 → Building M k' U K r.1 (max oldsz newsz) ∧ newsz < KERNBASE ∧
          r.2 = max oldsz newsz))
      fun e _ => e.allocator = false := by
  refine (allocuvm_spec oldsz newsz h.held).mono ?_ ?_
  · rintro r k' ⟨hh,⟨hlt,hr,hg⟩ | ⟨-,rfl,rfl⟩ | ⟨-,hr,-,hs⟩⟩
    · refine ⟨hg.keeps.mono fun g hm => by simp [hm],hh,fun _ =>
        ⟨⟨hh,h.own.grew hg,h.below.grew hle hg,fun v hv => ?_⟩,hlt,hr⟩⟩
      have := pages_le hlt.le
      rw [hg.outside v (by omega),h.kernelHalf v hv]
    · exact ⟨.refl _ _,hh,fun hne => (hne rfl).elim⟩
    · exact ⟨hs.keeps.mono fun g hg => by simp [hg],hh,fun hne => (hne hr).elim⟩
  · rintro e - ⟨rfl,-⟩
    decide

omit [PageAllocator κ] [LawfulPageAllocator κ] [KernelImage] in
theorem Proghdr.memsz_lt {b : Option (List UInt8)} {ph : Proghdr}
    (h : b.map Proghdr.ofBytes = some ph) : ph.memsz < 2^32 := by
  obtain ⟨bytes,-,rfl⟩ := Option.map_eq_some_iff.mp h
  exact le_lt bytes 20 4

theorem execLoad_spec {file : List UInt8} {n off : ℕ} (sz : ℕ) (hsz : sz ≤ KERNBASE)
    (h : Building M k U K d sz) :
    Post (execLoad file n off d sz) k
      (fun r k' => Keeps (· ∈ U) k k' ∧ Held M k' (U + r.1.users) (K + r.1.kern) ∧
        ∀ sz', r.2 = some sz' → Building M k' U K r.1 sz' ∧ sz' ≤ KERNBASE)
      fun e _ => e.allocator = false := by
  induction n generalizing off d sz k with
  | zero => exact ⟨.refl _ _,h.held,fun sz' hs => (by cases hs; exact ⟨h,hsz⟩)⟩
  | succ n ih =>
    rw [execLoad]
    split
    · exact ⟨.refl _ _,h.held,fun _ hs => by cases hs⟩
    · rename_i ph hread
      have hmem := Proghdr.memsz_lt hread
      dsimp only
      split
      · exact ih sz hsz h
      · split
        · exact ⟨.refl _ _,h.held,fun _ hs => by cases hs⟩
        · rename_i hph
          simp only [post_bind]
          refine (allocuvm_building _ le_rfl h).imp ?_
          rintro ⟨d₁,sz₁⟩ k₁ ⟨hp₁,hh₁,hb⟩
          dsimp only at hb hh₁ ⊢
          split
          · exact ⟨hp₁,hh₁,fun _ hs => by cases hs⟩
          · rename_i hz
            obtain ⟨hb₁,hlt,rfl⟩ := hb (by tauto)
            have hfit : ph.vaddr + ph.filesz ≤ KERNBASE := by
              have hwrap := hph
              simp only [uint,KERNBASE] at hlt hwrap ⊢
              omega
            simp only [post_bind]
            refine (loaduvm_spec hfit hb₁.own hb₁.held).imp ?_
            rintro ok k₂ ⟨hh₂,hp₂⟩
            cases ok with
            | false => exact ⟨hp₁.trans hp₂,hh₂,fun _ hs => by cases hs⟩
            | true =>
              refine (ih _ (max_le hsz hlt.le) ⟨hh₂,hb₁.own,hb₁.below,hb₁.kernelHalf⟩).imp ?_
              rintro r k' ⟨hp₃,hr⟩
              exact ⟨(hp₁.trans hp₂).trans hp₃,hr⟩

theorem execArgs_spec {argc sp sz : ℕ} {argv : List (List UInt8)}
    (h : Building M k U K d sz) :
    Post (execArgs d argc sp argv) k
      (fun _ k' => Keeps (· ∈ U) k k' ∧ Building M k' U K d sz)
      fun e _ => e.allocator = false := by
  induction argv generalizing argc sp k with
  | nil => exact ⟨.refl _ _,h⟩
  | cons arg argv ih =>
    rw [execArgs]
    split
    · exact ⟨.refl _ _,h⟩
    · simp only [post_bind]
      refine (copyout_spec h.kernelHalf h.own h.held).imp ?_
      rintro ok k₁ ⟨hh,hp⟩
      have hb : Building M k₁ U K d sz := ⟨hh,h.own,h.below,h.kernelHalf⟩
      split
      · simp only [post_bind,post_pure]
        refine (ih hb).imp ?_
        rintro - k' ⟨hp',hb'⟩
        exact ⟨hp.trans hp',hb'⟩
      · exact ⟨hp,hb⟩

theorem execStack_spec {sz : ℕ} {argv : List (List UInt8)} (hsz : sz ≤ KERNBASE)
    (h : Building M k U K d sz) :
    Post (execStack d sz argv) k
      (fun r k' => Keeps (· ∈ U) k k' ∧ Held M k' (U + r.1.users) (K + r.1.kern) ∧
        ∀ sz', r.2 = some sz' → Building M k' U K r.1 sz' ∧ sz' ≤ KERNBASE)
      fun e _ => e.allocator = false := by
  have hup : PGROUNDUP sz ≤ KERNBASE := by
    simp only [PGROUNDUP,PGSIZE,KERNBASE] at hsz ⊢; omega
  have hpages : pages sz ≤ pages (PGROUNDUP sz) := by
    rw [PGROUNDUP_eq]
    simp only [pages,PGSIZE]
    omega
  simp only [execStack,post_bind]
  refine (allocuvm_building (uint (PGROUNDUP sz + 2 * PGSIZE)) hpages h).imp ?_
  rintro ⟨d₁,sz₁⟩ k₁ ⟨hp₁,hh₁,hb⟩
  dsimp only at hb hh₁ ⊢
  split
  · exact ⟨hp₁,hh₁,fun _ hs => by cases hs⟩
  · rename_i hz
    obtain ⟨hb₁,hlt,hsz₁⟩ := hb hz
    have hle : sz₁ ≤ KERNBASE := by omega
    have hguard : pageOf (uint ((sz₁ : ℤ) - 2 * PGSIZE)) < USERPAGES := by
      rw [pageOf_lt]
      simp only [uint,PGSIZE,USERPAGES,KERNBASE] at hlt hsz₁ hle hup ⊢
      omega
    simp only [post_bind]
    refine (clearpteu_spec hb₁.own).imp ?_
    rintro d₂ k₂ ⟨rfl,hu,hkern,hown,hget,hnone⟩
    rw [← hsz₁] at hb₁
    have hb₂ : Building M k₂ U K d₂ sz₁ := ⟨by rw [hu,hkern]; exact hb₁.held,hown,
      fun v hv hge => hnone v (hb₁.below v hv hge),fun v hv => by
      rw [hget v (by omega),hb₁.kernelHalf v hv]⟩
    refine (execArgs_spec hb₂).imp ?_
    rintro r k₃ ⟨hp₃,hb₃⟩
    cases r with
    | none => exact ⟨hp₁.trans hp₃,hb₃.held,fun _ hs => by cases hs⟩
    | some q =>
      obtain ⟨sp,args⟩ := q
      simp only [post_bind,post_pure]
      refine (copyout_spec hb₃.kernelHalf hb₃.own hb₃.held).imp ?_
      rintro ok k' ⟨hh',hp'⟩
      refine ⟨(hp₁.trans hp₃).trans hp',hh',fun sz' hs => ?_⟩
      split at hs
      · rw [Option.some.injEq] at hs
        subst hs
        exact ⟨⟨hh',hb₃.own,hb₃.below,hb₃.kernelHalf⟩,hle⟩
      · cases hs

theorem execBuild_spec {file : List UInt8} {elf : Elfhdr} {argv : List (List UInt8)}
    (h : Building M k U K d 0) :
    Post (execBuild file elf argv d) k
      (fun r k' => Keeps (· ∈ U) k k' ∧ Held M k' (U + r.1.users) (K + r.1.kern) ∧
        ∀ sz, r.2 = some sz → Building M k' U K r.1 sz ∧ sz ≤ KERNBASE)
      fun e _ => e.allocator = false := by
  simp only [execBuild,post_bind]
  refine (execLoad_spec 0 (Nat.zero_le KERNBASE) h).imp ?_
  rintro ⟨d₁,sz₁⟩ k₁ ⟨hp₁,hh₁,hb₁⟩
  cases sz₁ with
  | none => exact ⟨hp₁,hh₁,fun _ hs => by cases hs⟩
  | some sz₁ =>
    have hb := hb₁ sz₁ rfl
    refine (execStack_spec hb.2 hb.1).imp ?_
    rintro r k' ⟨hp',hr⟩
    exact ⟨hp₁.trans hp',hr⟩

/-- `exec` builds an image with pages of its own, or gives everything back. -/
theorem execImage_spec {file : List UInt8} {argv : List (List UInt8)} (h : Held M k U K) :
    Post (execImage file argv) k
      (fun r k' => Keeps (· ∈ U) k k' ∧ (r = none → Held M k' U K) ∧
        ∀ d sz, r = some (d,sz) → Building M k' U K d sz ∧ sz ≤ KERNBASE)
      fun e _ => e.allocator = false := by
  unfold execImage
  split
  · exact ⟨.refl _ _,fun _ => h,fun _ _ hs => by cases hs⟩
  · rename_i elf _
    split
    · exact ⟨.refl _ _,fun _ => h,fun _ _ hs => by cases hs⟩
    · simp only [post_bind]
      refine Total.post (setupkvm_spec h) ?_
      rintro r k₁ ⟨hp₁,hn,hs⟩
      cases r with
      | none => exact ⟨hp₁,fun _ => (hn rfl).2.1,fun _ _ hs => by cases hs⟩
      | some d =>
        obtain ⟨hh,hlow,hk⟩ := hs d rfl
        have hb : Building M k₁ U K d 0 := by
          refine ⟨hh.congr ?_ rfl,fun v hv p hp => ?_,fun v hv _ => hlow v hv,hk⟩
          · rw [users_eq_zero.mpr hlow,add_zero]
          · rw [hlow v hv] at hp; cases hp
        simp only [post_bind]
        refine (execBuild_spec hb).imp ?_
        rintro ⟨d₂,sz₂⟩ k₂ ⟨hp₂,hh₂,hb₂⟩
        cases sz₂ with
        | none =>
          simp only [post_bind,post_pure]
          refine Total.post (freevm_spec hh₂) ?_
          rintro - k₃ ⟨hh₃,hp₃⟩
          exact ⟨(hp₁.trans hp₂).trans hp₃,fun _ => hh₃,fun _ _ hs => by cases hs⟩
        | some sz₂ =>
          dsimp only [post_pure]
          refine ⟨hp₁.trans hp₂,by simp,fun d sz hs => ?_⟩
          rw [Option.some.injEq,Prod.mk.injEq] at hs
          obtain ⟨rfl,rfl⟩ := hs
          exact hb₂ sz₂ rfl

end Kernel

end ResumePointers.Xv6
