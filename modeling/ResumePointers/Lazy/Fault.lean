import ResumePointers.Lazy.Kernel

/-! What the page fault handler does to a page directory. It hands the raw address to
`mappages`, which rounds down both ends of `[va, va + PGSIZE)`: for an address that is not
page-aligned it goes on to the next page, with the next frame. -/
namespace ResumePointers.Lazy

open Xv6

variable [KernelImage] {M : Finset Frame} {k k₂ : Kmem} {U K : Multiset Frame} {d : PageDir}
  {va : ℕ} {mem : Frame}

/-- The free pages that page `v` takes: one, and one for a missing page table. -/
def need (d : PageDir) (v : ℕ) : ℕ := if d.hasTable v then 1 else 2

/-- The free pages that page `v` and the next one take, the frame of the next one apart. -/
def needBoth (d : PageDir) (v : ℕ) : ℕ :=
  need d v + if d.hasTable (v + 1) ∨ (v + 1) / NPTENTRIES = v / NPTENTRIES then 0 else 1

/-- A fault at `va` maps the next page too, to a frame that nobody has asked for. -/
def Spills (k : Kmem) (d : PageDir) (va : ℕ) : Prop :=
  va % PGSIZE ≠ 0 ∧ d.get (pageOf va) = none ∧ d.get (pageOf va + 1) = none ∧
    needBoth d (pageOf va) ≤ k.freelist.length

omit [KernelImage] in
theorem pageOf_lt_USERPAGES (h : va < KERNBASE) : pageOf va < USERPAGES :=
  Nat.div_lt_of_lt_mul (by simpa [USERPAGES,PGSIZE,KERNBASE] using h)

omit [KernelImage] in
theorem aligned_eq (h : va % PGSIZE = 0) : va = pageOf va * PGSIZE :=
  (Nat.div_mul_cancel (Nat.dvd_of_mod_eq_zero h)).symm

omit [KernelImage] in
theorem mappagesCount_unaligned (h : va % PGSIZE ≠ 0) (hva : va < KERNBASE) :
    mappagesCount va PGSIZE = 2 := by
  have h1 : uint (va + PGSIZE - 1) = va + PGSIZE - 1 := by
    simp only [uint,PGSIZE,KERNBASE] at hva ⊢; omega
  rw [mappagesCount,h1]
  simp only [uint,PGROUNDDOWN,PGSIZE,KERNBASE] at h hva ⊢
  omega

/-- An unaligned request for one page is two requests. -/
theorem mappages_unaligned (perm : Perm) {Q : PageDir × Bool → Kmem → Prop}
    {E : Panic → Kmem → Prop} (h : va % PGSIZE ≠ 0) (hva : va < KERNBASE) :
    Post (mappages d va PGSIZE mem perm) k Q E ↔
      Post (mappages d (pageOf va * PGSIZE) PGSIZE mem perm) k (fun r k' =>
        if r.2 = true then
          Post (mappages r.1 ((pageOf va + 1) * PGSIZE) PGSIZE (mem + 1) perm) k' Q E
        else Q r k') E := by
  have hv := pageOf_lt_USERPAGES hva
  have hu := USERPAGES_lt
  have hdown : PGROUNDDOWN va = pageOf va * PGSIZE := rfl
  have hnext : uint ((pageOf va * PGSIZE : ℕ) + (PGSIZE : ℕ)) = (pageOf va + 1) * PGSIZE := by
    simp only [uint,PGSIZE] at hv ⊢; omega
  rw [mappages,mappages,mappagesCount_unaligned h hva,mappagesCount_page (by omega),hdown,
    PGROUNDDOWN_mul]
  simp only [mappages,mappagesCount_page (show pageOf va + 1 < 2^20 by omega),PGROUNDDOWN_mul,
    mappagesLoop,post_bind]
  refine iff_of_eq (congrArg (Post _ k · E) ?_)
  funext r k'
  cases r with
  | none => rfl
  | some d₁ =>
    dsimp only
    split
    · rfl
    · simp only [hnext,post_bind]
      rfl

/-- The handler has fetched the page `mem` and cleared it. -/
structure Fetched (M : Finset Frame) (k k₂ : Kmem) (U K : Multiset Frame) (d : PageDir)
    (mem : Frame) : Prop where
  list : k.freelist = mem :: k₂.freelist
  held : Held M k₂ ({mem} + (U + d.users)) (K + d.kern)
  fresh : mem ∉ U + d.users
  zero : k₂.bytes mem = zeroPage
  keeps : Keeps (· ≠ mem) k k₂

theorem fetch_spec (h : Held M k (U + d.users) (K + d.kern)) :
    Total Xv6.kalloc k fun r k₁ => (r = none ↔ k.freelist = []) ∧
      ∀ mem, r = some mem → Total (memset mem 0) k₁ fun _ k₂ => Fetched M k k₂ U K d mem := by
  refine ((kalloc_held h).and (Kmem.kalloc_head k)).mono ?_ fun _ _ he => he.1
  rintro r k₁ ⟨⟨hp,-,hs⟩,hr,htail,-⟩
  refine ⟨by rw [hr,List.head?_eq_none_iff],fun mem hmem => ?_⟩
  obtain ⟨hf,hU,-⟩ := hs mem hmem
  have hlist : k.freelist = mem :: k₁.freelist := by
    rw [htail]
    cases hk : k.freelist with
    | nil => rw [hr,hk] at hmem; cases hmem
    | cons f next =>
      rw [hr,hk] at hmem
      cases hmem
      rfl
  refine ⟨hlist,hU.setPage mem _,fun hm => hf (Multiset.mem_add.mpr (.inl hm)),?_,
    hp.of_all.trans (Held.keeps_setPage mem _ k₁)⟩
  exact Function.update_self _ _ _

/-- What `mappages` leaves of a fault that does not spill over: the page is mapped, or no page
was left for its page table. -/
def Mapped (M : Finset Frame) (k k' : Kmem) (U K : Multiset Frame) (d d' : PageDir) (v : ℕ)
    (mem : Frame) : Prop :=
  (need d v ≤ k.freelist.length ∧ d.get v = none ∧
    (∀ w, d'.get w = if w = v then
      some { w := true, u := true, cow := false, frame := mem } else d.get w) ∧
    Held M k' (U + d'.users) (K + d'.kern)) ∨
  (k.freelist.length < need d v ∧ d' = d ∧ Held M k' ({mem} + (U + d.users)) (K + d.kern))

/-- The page that `va` lies in. -/
theorem map_page (hf : Fetched M k k₂ U K d mem) {v : ℕ} (hv : v < USERPAGES) :
    Post (mappages d (v * PGSIZE) PGSIZE mem ⟨true,true,false⟩) k₂
      (fun r k' => Keeps (fun _ => True) k₂ k' ∧ Mapped M k k' U K d r.1 v mem ∧
        (r.2 = true ↔ need d v ≤ k.freelist.length) ∧
        k'.freelist = (if d.hasTable v then k₂.freelist else k₂.freelist.tail) ∧
        (r.2 = true → ∀ w, r.1.hasTable w ↔ d.hasTable w ∨ w / NPTENTRIES = v / NPTENTRIES))
      fun e _ => e = .panic "remap" ∧ (d.get v).isSome := by
  have hu := USERPAGES_lt
  have hlen : k.freelist.length = k₂.freelist.length + 1 := by rw [hf.list]; rfl
  refine ((mappages_user ⟨true,true,false⟩ hf.held hv).and
    (mappages_page ⟨true,true,false⟩ (by omega))).mono ?_ fun _ _ he => he.1
  rintro ⟨d',ok⟩ k' ⟨⟨hp,hok,hbad⟩,hfree,hno,hyes⟩
  dsimp only at hok hbad hno hyes
  cases ok with
  | true =>
    obtain ⟨hh,hn,hg⟩ := hok rfl
    have hneed : need d v ≤ k.freelist.length := by
      unfold need
      split
      · omega
      · rename_i ht
        have hne : k₂.freelist ≠ [] := fun hnil => by simpa using hno.mpr ⟨ht,hnil⟩
        have := List.length_pos_of_ne_nil hne
        omega
    exact ⟨hp,.inl ⟨hneed,hn,hg,hh⟩,iff_of_true rfl hneed,hfree,fun _ => (hyes rfl).2.2⟩
  | false =>
    obtain ⟨-,hh,hd,ht,-⟩ := hbad rfl
    have hnil := (hno.mp rfl).2
    have hneed : k.freelist.length < need d v := by
      rw [need,if_neg ht,hlen,hnil]
      exact Nat.lt_succ_self 1
    subst hd
    exact ⟨hp,.inr ⟨hneed,rfl,hh⟩,iff_of_false (by simp) (by omega),hfree,fun h => by cases h⟩

/-- Where no page is left for its page table, `mappages` leaves everything as it is. -/
theorem mappages_refused {R : Multiset Frame} {v : ℕ} (perm : Perm) (hv : v < 2^20)
    (h : Held M k R (K + d.kern)) :
    Partial (mappages d (v * PGSIZE) PGSIZE mem perm) k fun r k' => Keeps (fun _ => True) k k' ∧
      (r.2 = false → r.1 = d ∧ Held M k' R (K + d.kern)) := by
  rw [mappages,mappagesCount_page hv,PGROUNDDOWN_mul]
  simp only [mappagesLoop,post_bind]
  refine (walkpgdirAlloc_spec (v * PGSIZE) h (by rwa [pageOf_mul])).post ?_
  rintro r k₁ ⟨hp,hn,-⟩
  cases r with
  | none => exact ⟨hp,fun _ => ⟨rfl,(hn rfl).2.1⟩⟩
  | some d₁ =>
    dsimp only
    split
    · trivial
    · exact ⟨hp,fun hf => by cases hf⟩

/-- A fault that does not spill over maps the page of `va` and no other. -/
theorem map_spec (hf : Fetched M k k₂ U K d mem) (hva : va < KERNBASE)
    (hspill : ¬ Spills k d va) :
    Post (mappages d va PGSIZE mem ⟨true,true,false⟩) k₂
      (fun r k' => Keeps (fun _ => True) k₂ k' ∧ Mapped M k k' U K d r.1 (pageOf va) mem)
      fun e _ => e = .panic "remap" ∧
        ((d.get (pageOf va)).isSome ∨ va % PGSIZE ≠ 0 ∧ (d.get (pageOf va + 1)).isSome) := by
  have hv := pageOf_lt_USERPAGES hva
  have hu := USERPAGES_lt
  by_cases hal : va % PGSIZE = 0
  · rw [aligned_eq hal,pageOf_mul]
    exact (map_page hf hv).mono (fun _ _ hq => ⟨hq.1,hq.2.1⟩) fun _ _ he => ⟨he.1,.inl he.2⟩
  · rw [mappages_unaligned _ hal hva]
    refine (map_page hf hv).mono ?_ fun _ _ he => ⟨he.1,.inl he.2⟩
    rintro ⟨d₁,ok⟩ k₃ ⟨hp₃,hm,hneed,hfree,ht₁⟩
    dsimp only at hm hneed hfree ht₁
    cases ok with
    | false => exact ⟨hp₃,hm⟩
    | true =>
      -- the page is mapped; the next one finds a mapping, or no page for its table
      rw [if_pos rfl]
      have hget : ∀ w, w ≠ pageOf va → d₁.get w = d.get w := by
        rcases hm with ⟨-,-,hg,-⟩ | ⟨-,hd,-⟩
        · intro w hw; rw [hg w,if_neg hw]
        · intro w _; rw [hd]
      have hnext := hget (pageOf va + 1) (by omega)
      have hroom := hneed.mp rfl
      obtain ⟨-,hnone,hg,hh⟩ | ⟨hlt,-,-⟩ := hm
      · refine ((mappages_page ⟨true,true,false⟩ (by omega)).and
          (mappages_refused ⟨true,true,false⟩ (by omega) hh)).mono ?_ ?_
        · rintro ⟨d₂,ok₂⟩ k₄ ⟨⟨-,hno,hyes⟩,hp₄,hkept⟩
          dsimp only at hno hyes hkept ⊢
          cases ok₂ with
          | false =>
            obtain ⟨rfl,hh₄⟩ := hkept rfl
            exact ⟨hp₃.trans hp₄,.inl ⟨hroom,hnone,hg,hh₄⟩⟩
          | true =>
            refine (hspill ⟨hal,hnone,hnext ▸ (hyes rfl).1,?_⟩).elim
            have hlen : k.freelist.length = k₂.freelist.length + 1 := by rw [hf.list]; rfl
            have ht := ht₁ rfl (pageOf va + 1)
            unfold needBoth
            split
            · exact hroom
            · rename_i hn
              have hne : k₃.freelist ≠ [] := fun hnil => by
                simpa using hno.mpr ⟨fun h => hn (ht.mp h),hnil⟩
              have hpos := List.length_pos_of_ne_nil hne
              rw [hfree] at hpos
              unfold need
              split
              · rename_i htab
                rw [if_pos htab] at hpos
                omega
              · rename_i htab
                rw [if_neg htab,List.length_tail] at hpos
                omega
        · rintro e - ⟨⟨rfl,hs⟩,-⟩
          exact ⟨rfl,.inr ⟨hal,hnext ▸ hs⟩⟩
      · omega

/-- A fault that spills over takes the frame behind `mem` for the next page. -/
theorem spill_spec (hf : Fetched M k k₂ U K d mem) (hva : va < KERNBASE) (hspill : Spills k d va) :
    Post (mappages d va PGSIZE mem ⟨true,true,false⟩) k₂
      (fun r _ => r.1.get (pageOf va + 1) =
        some { w := true, u := true, cow := false, frame := mem + 1 })
      fun _ _ => False := by
  obtain ⟨hal,hnone,hnone',hboth⟩ := hspill
  have hv := pageOf_lt_USERPAGES hva
  have hu := USERPAGES_lt
  have hlen : k.freelist.length = k₂.freelist.length + 1 := by rw [hf.list]; rfl
  rw [mappages_unaligned _ hal hva]
  refine (map_page hf hv).mono ?_ fun _ _ he => by rw [hnone] at he; cases he.2
  rintro ⟨d₁,ok⟩ k₃ ⟨-,hm,hneed,hfree,ht₁⟩
  dsimp only at hm hneed hfree ht₁
  have hroom : need d (pageOf va) ≤ k.freelist.length := by
    unfold needBoth at hboth; omega
  obtain rfl : ok = true := hneed.mpr hroom
  obtain ⟨-,-,hg,-⟩ | ⟨hlt,-,-⟩ := hm
  · rw [if_pos rfl]
    have hnext : d₁.get (pageOf va + 1) = none := by rw [hg,if_neg (by omega),hnone']
    refine (mappages_page ⟨true,true,false⟩ (by omega)).mono ?_
      fun _ _ he => by rw [hnext] at he; cases he.2
    rintro ⟨d₂,ok₂⟩ k₄ ⟨-,hno,hyes⟩
    dsimp only at hno hyes
    cases ok₂ with
    | true =>
      have hget := (hyes rfl).2.1 (pageOf va + 1)
      rwa [if_pos rfl] at hget
    | false =>
      obtain ⟨hn₁,hnil⟩ := hno.mp rfl
      have ht := ht₁ rfl (pageOf va + 1)
      unfold needBoth at hboth
      rw [if_neg fun h => hn₁ (ht.mpr h)] at hboth
      rw [hnil] at hfree
      have hz := congrArg List.length hfree
      unfold need at hboth
      split at hz
      · rename_i htab
        rw [if_pos htab] at hboth
        rw [List.length_nil] at hz
        omega
      · rename_i htab
        rw [if_neg htab] at hboth
        rw [List.length_nil,List.length_tail] at hz
        omega
  · omega

end ResumePointers.Lazy
