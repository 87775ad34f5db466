import ResumePointers.Xv6.Operations
import ResumePointers.Cow.Kalloc

/-! Copy-on-write memory (`memory-assignment/vm.c`): a `copyuvm` that shares every page,
and the fault handler that splits a shared page. -/
namespace ResumePointers.Cow

open Xv6

/-- What `copyuvm` makes of an entry: `*pte &= ~PTE_W; *pte |= PTE_COW_W`. -/
def share (pte : Pte) : Pte := { pte with w := false, cow := true }

section Code
variable [KernelImage]

/-- The loop of `copyuvm` from address `i` on. It returns the parent's page directory as it
is then, and the child's, `none` standing for `bad`. -/
def copyuvmLoop (sz : ℕ) (pgdir d : PageDir) (i : ℕ) :
    EStateM Panic Kmem (PageDir × Option PageDir) :=
  if i < sz then
    match walkpgdir pgdir i with
    | none => throw (.panic "copyuvm: pte should exist")
    | some none => throw (.panic "copyuvm: page not present")
    | some (some pte) => do
      let pgdir := pgdir.setPte i (some (share pte))
      Kmem.incrementRefCount pte.frame
      let (d,ok) ← mappages d i PGSIZE pte.frame (share pte).toPerm
      if ok then copyuvmLoop sz pgdir d (i + PGSIZE)
      else do
        Xv6.kfree pte.frame
        freevm (some d)
        pure (pgdir,none)
  else pure (pgdir,some d)
termination_by sz - i
decreasing_by simp only [PGSIZE]; omega

def copyuvm (pgdir : PageDir) (sz : ℕ) : EStateM Panic Kmem (PageDir × Option PageDir) := do
  let r ← setupkvm
  match r with
  | none => pure (pgdir,none)
  | some d => copyuvmLoop sz pgdir d 0

/-- `handle_pgflt_helper`; an absent entry has no `PTE_U` either. -/
def handle_pgflt_helper (pgdir : PageDir) (addr : ℕ) : EStateM Panic Kmem PageDir :=
  match walkpgdir pgdir addr with
  | none => throw (.panic "pagefault handler : pte unmapped")
  | some none => throw (.panic "pagefault handler")
  | some (some pte) =>
    if pte.u = false then throw (.panic "pagefault handler")
    else if pte.w = false ∧ pte.cow = false then throw (.panic "pagefault handler")
    else do
      let r ← Xv6.kalloc
      match r with
      | none => throw (.panic "pagefault handler")
      | some mem => do
        memmovePage mem pte.frame
        Xv6.kfree pte.frame
        pure (pgdir.setPte addr (some { w := true, u := pte.u, cow := false, frame := mem }))

end Code

@[simp] theorem share_frame (pte : Pte) : (share pte).frame = pte.frame := rfl
@[simp] theorem share_u (pte : Pte) : (share pte).u = pte.u := rfl

variable {d pgdir : PageDir}

/-- The entries `lo, …, hi - 1` of `d` have become shared ones. -/
structure Shared (d d' : PageDir) (lo hi : ℕ) : Prop where
  get : ∀ v, d'.get v = if lo ≤ v ∧ v < hi then (d.get v).map share else d.get v
  users : d'.users = d.users
  kern : d'.kern = d.kern

theorem Shared.refl {lo hi : ℕ} (h : hi ≤ lo) : Shared d d lo hi :=
  ⟨fun v => by rw [if_neg (by omega)],rfl,rfl⟩

/-- What one turn of the loop does to the parent. -/
theorem setPte_shared {v : ℕ} {pte : Pte} (h : d.get v = some pte) :
    Shared d (d.setPte (v * PGSIZE) (some (share pte))) v (v + 1) := by
  have ht : d.hasTable (pageOf (v * PGSIZE)) := by
    rw [pageOf_mul]; exact hasTable_of_get h
  have hget : ∀ w, (d.setPte (v * PGSIZE) (some (share pte))).get w =
      if v ≤ w ∧ w < v + 1 then (d.get w).map share else d.get w := fun w => by
    rw [setPte_get ht,pageOf_mul]
    by_cases hw : w = v
    · subst hw; rw [if_pos rfl,if_pos (by omega),h]; rfl
    · rw [if_neg hw,if_neg (by omega)]
  refine ⟨hget,users_of_frames fun w _ => ?_,setPte_kern _ _ _⟩
  rw [hget w]
  split
  · cases d.get w <;> rfl
  · rfl

theorem Shared.trans {d₁ d₂ : PageDir} {lo hi : ℕ} (h : Shared d d₁ lo (lo + 1))
    (h' : Shared d₁ d₂ (lo + 1) hi) (hlo : lo < hi) : Shared d d₂ lo hi where
  get v := by
    rw [h'.get v,h.get v]
    split <;> split <;> split <;> first | rfl | omega
  users := h'.users.trans h.users
  kern := h'.kern.trans h.kern

variable [KernelImage] {M : Finset Frame} {k : Kmem} {U K : Multiset Frame}

/-- Whoever holds a user reference can pass one on. -/
theorem incrementRefCount_user {f : Frame} (h : Held M k U K) (hf : f ∈ U) :
    Total (Kmem.incrementRefCount f) k fun _ k' =>
      Held M k' ({f} + U) K ∧ Keeps (fun _ => True) k k' := by
  have hacc : Kmem.Counted M k (U + K) := h.acc
  refine (hacc.incrementRefCount_spec (Multiset.mem_add.mpr (.inl hf))).imp ?_
  rintro - k' ⟨ha,hp⟩
  refine ⟨⟨?_,?_⟩,hp⟩
  · rw [add_assoc]; exact ha
  · rw [Multiset.singleton_add]
    exact h.sole.add_shared fun hk => h.sole.not_shared hk hf

/-- `kalloc_held`, where it matters when `kalloc` fails. -/
theorem kalloc_freelist (h : Held M k U K) :
    Total Xv6.kalloc k fun r k' => (Keeps (fun _ => True) k k' ∧
      (r = none → starved k' ∧ Held M k' U K ∧ M.card ≤ (U + K).card) ∧
      ∀ f, r = some f → f ∉ U + K ∧ Held M k' ({f} + U) K ∧ Held M k' U ({f} + K)) ∧
      (r = none ↔ k.freelist = []) :=
  ((kalloc_held h).and (Kmem.kalloc_none_iff k)).mono (fun _ _ hq => hq) fun _ _ he => he.1

/-- The loop of `copyuvm`: page after page the child comes to share what the parent has, until
all are shared or a page table is missing. -/
theorem copyuvmLoop_spec {sz v : ℕ} (hsz : sz ≤ KERNBASE) (hv : v ≤ pages sz)
    (h : Held M k (U + pgdir.users + d.users) (K + pgdir.kern + d.kern)) :
    Post (copyuvmLoop sz pgdir d (v * PGSIZE)) k
      (fun r k' => Keeps (· ∈ U + pgdir.users) k k' ∧
        (r.2 = none → starved k' ∧ Held M k' (U + r.1.users) (K + r.1.kern) ∧
          ∃ n ≤ pages sz, Shared pgdir r.1 v n) ∧
        ∀ c, r.2 = some c → Shared pgdir r.1 v (pages sz) ∧
          Held M k' (U + r.1.users + c.users) (K + r.1.kern + c.kern) ∧
          ∀ w, c.get w = if v ≤ w ∧ w < pages sz then (pgdir.get w).map share else d.get w)
      fun e _ => e.allocator = false := by
  induction hn : pages sz - v generalizing v pgdir d k with
  | zero =>
    have hlt : ¬ v * PGSIZE < sz := by rw [mul_PGSIZE_lt]; omega
    rw [copyuvmLoop,if_neg hlt]
    refine ⟨.refl _ _,fun hs => (by cases hs),fun c hc => ?_⟩
    obtain rfl := Option.some.inj hc
    exact ⟨.refl (by omega),h,fun w => by rw [if_neg (by omega)]⟩
  | succ n ih =>
    have hlt : v * PGSIZE < sz := by rw [mul_PGSIZE_lt]; omega
    have hvu : v < USERPAGES := by have := pages_le hsz; omega
    rw [copyuvmLoop,if_pos hlt]
    split
    · exact (by decide : (Panic.panic "copyuvm: pte should exist").allocator = false)
    · exact (by decide : (Panic.panic "copyuvm: page not present").allocator = false)
    · rename_i pte hw
      rw [walkpgdir_eq_some,pageOf_mul] at hw
      have hsh := setPte_shared hw.2
      simp only [post_bind]
      refine Total.post (incrementRefCount_user (f := pte.frame) h ?_) ?_
      · simp [frame_mem_users hvu hw.2]
      rintro - k₁ ⟨hh₁,hp₁⟩
      refine (mappages_user (U := U + (pgdir.setPte (v * PGSIZE) (some (share pte))).users)
        (K := K + (pgdir.setPte (v * PGSIZE) (some (share pte))).kern) (share pte).toPerm
        (hh₁.congr (by rw [hsh.users]) (by rw [hsh.kern])) hvu).mono ?_ ?_
      · rintro ⟨d₁,ok⟩ k₂ ⟨hp₂,hok,hbad⟩
        dsimp only at hok hbad
        cases ok with
        | true =>
          obtain ⟨hh₂,hnone,hget⟩ := hok rfl
          simp only [if_true,page_step]
          refine (ih (v := v + 1) (by omega) hh₂ (by omega)).imp ?_
          rintro ⟨pg,c⟩ k' ⟨hp₃,hnone',hsome⟩
          refine ⟨?_,fun hr => ?_,fun c' hr => ?_⟩
          · rw [hsh.users] at hp₃
            exact (hp₁.of_all.trans hp₂.of_all).trans hp₃
          · obtain ⟨hst,hh',n',hn',hsh'⟩ := hnone' hr
            refine ⟨hst,hh',?_⟩
            by_cases hlo : v < n'
            · exact ⟨n',hn',hsh.trans hsh' hlo⟩
            · -- nothing after `v` has been shared
              refine ⟨v + 1,by omega,fun w => ?_,hsh'.users.trans hsh.users,
                hsh'.kern.trans hsh.kern⟩
              rw [hsh'.get w,if_neg (by omega),hsh.get w]
          · obtain ⟨hsh',hh',hc⟩ := hsome c' hr
            refine ⟨hsh.trans hsh' (by omega),hh',fun w => ?_⟩
            rw [hc w,hget w,hsh.get w]
            by_cases hwv : w = v
            · subst hwv
              rw [if_neg (by omega),if_pos rfl,if_pos (by omega),hw.2]
              rfl
            · rw [if_neg (show ¬ (v ≤ w ∧ w < v + 1) by omega),if_neg hwv]
              split <;> split <;> first | rfl | omega
        | false =>
          obtain ⟨hst,hh₂,hd,-⟩ := hbad rfl
          subst hd
          simp only [Bool.false_eq_true,if_false,post_bind,post_pure]
          refine Total.post (kfree_user hh₂) ?_
          rintro - k₃ ⟨hh₃,hp₃⟩
          refine Total.post (freevm_spec hh₃) ?_
          rintro - k₄ ⟨hh₄,hp₄⟩
          rw [hsh.users] at hp₃ hp₄
          refine ⟨(hp₁.of_all.trans hp₂.of_all).trans ((hp₃.mono fun g hg => ?_).trans hp₄),
            fun _ => ⟨hp₄.starved (hp₃.starved hst),hh₄,v + 1,by omega,hsh⟩,
            fun c hc => by cases hc⟩
          exact Multiset.mem_add.mpr (.inl (Multiset.mem_add.mpr (.inl hg)))
      · rintro e - ⟨rfl,-⟩
        decide

/-- `copyuvm`: the child shares the parent's pages below `sz`, copy-on-write on both sides. -/
theorem copyuvm_spec {sz : ℕ} (hsz : sz ≤ KERNBASE)
    (h : Held M k (U + pgdir.users) (K + pgdir.kern)) :
    Post (copyuvm pgdir sz) k
      (fun r k' => Keeps (· ∈ U + pgdir.users) k k' ∧
        (r.2 = none → starved k' ∧ Held M k' (U + r.1.users) (K + r.1.kern) ∧
          ∃ n ≤ pages sz, Shared pgdir r.1 0 n) ∧
        ∀ c, r.2 = some c → Shared pgdir r.1 0 (pages sz) ∧
          Held M k' (U + r.1.users + c.users) (K + r.1.kern + c.kern) ∧ KernelHalf c ∧
          ∀ v < USERPAGES, c.get v = if v < pages sz then (pgdir.get v).map share else none)
      fun e _ => e.allocator = false := by
  simp only [copyuvm,post_bind]
  refine Total.post (setupkvm_spec h) ?_
  rintro r k₁ ⟨hp₁,hn,hs⟩
  cases r with
  | none =>
    obtain ⟨hst,hh,-⟩ := hn rfl
    exact ⟨hp₁,fun _ => ⟨hst,hh,0,Nat.zero_le _,.refl le_rfl⟩,fun c hc => by cases hc⟩
  | some d =>
    obtain ⟨hh,hlow,hk⟩ := hs d rfl
    have hu : d.users = 0 := users_eq_zero.mpr hlow
    have hh' : Held M k₁ (U + pgdir.users + d.users) (K + pgdir.kern + d.kern) :=
      hh.congr (by rw [hu,add_zero]) rfl
    have hloop := copyuvmLoop_spec (v := 0) hsz (Nat.zero_le _) hh'
    rw [Nat.zero_mul] at hloop
    refine hloop.imp ?_
    rintro ⟨pg,c⟩ k' ⟨hp₂,hnone,hsome⟩
    refine ⟨hp₁.trans hp₂,hnone,fun c' hc => ?_⟩
    obtain ⟨hsh,hh',hc'⟩ := hsome c' hc
    refine ⟨hsh,hh',hk.congr fun v hv => ?_,fun v hv => ?_⟩
    · have := pages_le hsz
      rw [hc' v,if_neg (by omega)]
    · rw [hc' v,hlow v hv]
      simp

/-- The handler gives the page that `addr` lies in a frame of its own with the bytes of the old
one; it panics for want of a page. -/
theorem handle_pgflt_helper_spec {addr : ℕ} {pte : Pte} (hva : pageOf addr < USERPAGES)
    (hget : d.get (pageOf addr) = some pte) (hu : pte.u = true)
    (hcow : pte.w = true ∨ pte.cow = true)
    (h : Held M k (U + d.users) (K + d.kern)) :
    Post (handle_pgflt_helper d addr) k
      (fun d' k' => Held M k' (U + d'.users) (K + d'.kern) ∧
        ∃ mem, mem ∉ U + d.users ∧
          (∀ v, d'.get v = if v = pageOf addr then
            some { w := true, u := true, cow := false, frame := mem } else d.get v) ∧
          d'.users + {pte.frame} = d.users + {mem} ∧ d'.kern = d.kern ∧
          page k' mem = page k pte.frame ∧ Keeps (fun g => g ∈ U + d'.users ∧ g ≠ mem) k k' ∧
          k.freelist ≠ [])
      fun e k' => e.allocator = false ∧ starved k' ∧ k.freelist = [] := by
  have ht := hasTable_of_get hget
  unfold handle_pgflt_helper
  rw [walkpgdir_eq_some.mpr ⟨ht,hget⟩]
  have hboth : ¬ (pte.w = false ∧ pte.cow = false) := by
    rcases hcow with hc | hc <;> simp [hc]
  simp only [hu,Bool.true_eq_false,if_false,if_neg hboth,post_bind]
  refine Total.post (kalloc_freelist h) ?_
  rintro r k₁ ⟨⟨hp₁,hn,hs⟩,hfree⟩
  cases r with
  | none => exact ⟨by decide,(hn rfl).1,hfree.mp rfl⟩
  | some mem =>
    obtain ⟨hfresh,hU,-⟩ := hs mem rfl
    have hmem : mem ∉ U + d.users := fun hm => hfresh (Multiset.mem_add.mpr (.inl hm))
    have hset := setPte_get ht (some { w := true, u := true, cow := false, frame := mem })
    have hus := setPte_users ht hva (some { w := true, u := true, cow := false, frame := mem })
    simp only [hget,Option.map_some,optional_some] at hus
    simp only [post_bind,memmovePage,post_modify,post_pure]
    have hk₂ := Held.keeps_setPage mem (page k₁ pte.frame) k₁
    have hold : pte.frame ≠ mem := by
      rintro rfl; exact hmem (by simp [frame_mem_users hva hget])
    refine Total.post (kfree_user (f := pte.frame) (K := K + d.kern)
      (U := U + (d.setPte addr (some { w := true, u := true, cow := false, frame := mem })).users)
      ((hU.setPage mem (page k₁ pte.frame)).congr ?_ rfl)) ?_
    · calc {mem} + (U + d.users) = U + (d.users + {mem}) := by abel
        _ = U + ((d.setPte addr _).users + {pte.frame}) := by rw [hus]
        _ = _ := by abel
    rintro - k₃ ⟨hh₃,hp₃⟩
    have hm₃ : mem ∈ U + (d.setPte addr
        (some { w := true, u := true, cow := false, frame := mem })).users :=
      Multiset.mem_add.mpr (.inr (mem_users.mpr ⟨_,hva,_,by rw [hset,if_pos rfl],rfl⟩))
    refine ⟨hh₃.congr rfl (by rw [setPte_kern]),mem,hmem,hset,hus,setPte_kern _ _ _,?_,?_,
      fun hnil => by simpa using hfree.mpr hnil⟩
    · rw [hp₃.page mem (Multiset.mem_add.mpr (.inl hm₃)),page_setPage,if_pos rfl,
        hp₁.page _ trivial]
    · refine (hp₁.of_all.trans (hk₂.mono fun g hg => hg.2)).trans (hp₃.mono fun g hg => ?_)
      exact Multiset.mem_add.mpr (.inl hg.1)

end ResumePointers.Cow
