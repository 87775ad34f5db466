import ResumePointers.Xv6.Held
import Mathlib.Tactic.Abel

/-! What the functions of `vm.c` do, one theorem a function. Each is told with a
remainder `U`, `K` of references that belong to other page directories and other kernel
objects, and says that the pages these name keep their bytes. -/
namespace ResumePointers.Xv6

theorem uint_of_lt {x : ℕ} (h : x < 2^32) : uint (x : ℤ) = x := by
  unfold uint; omega

theorem pageOf_mul (v : ℕ) : pageOf (v * PGSIZE) = v := Nat.mul_div_cancel v (by decide)

theorem pageOf_lt {va n : ℕ} : pageOf va < n ↔ va < n * PGSIZE :=
  Nat.div_lt_iff_lt_mul (by decide)

theorem page_step (v : ℕ) : v * PGSIZE + PGSIZE = (v + 1) * PGSIZE := by
  rw [Nat.add_mul,Nat.one_mul]

/-- The next page, if it starts below 4 GiB. -/
theorem uint_page_step {v : ℕ} (h : (v + 1) * PGSIZE < 2^32) :
    uint ((v * PGSIZE : ℕ) + PGSIZE) = (v + 1) * PGSIZE := by
  rw [← Nat.cast_add,page_step]
  exact uint_of_lt h

theorem PGROUNDUP_eq (sz : ℕ) : PGROUNDUP sz = pages sz * PGSIZE := by
  rw [PGROUNDUP,pages]

theorem mul_PGSIZE_lt {v sz : ℕ} : v * PGSIZE < sz ↔ v < pages sz := by
  simp only [pages,PGSIZE]
  omega

theorem PGROUNDDOWN_mul (v : ℕ) : PGROUNDDOWN (v * PGSIZE) = v * PGSIZE := by
  rw [PGROUNDDOWN,Nat.mul_div_cancel v (by decide)]

theorem pages_mono {a b : ℕ} (h : a ≤ b) : pages a ≤ pages b :=
  Nat.div_le_div_right (by omega)

theorem pages_KERNBASE : pages KERNBASE = USERPAGES := by decide

theorem pages_le {sz : ℕ} (h : sz ≤ KERNBASE) : pages sz ≤ USERPAGES :=
  pages_KERNBASE ▸ pages_mono h

theorem USERPAGES_lt : USERPAGES < 2^20 := by decide

theorem PDX_lt {va : ℕ} (h : pageOf va < 2^20) : PDX va < NPDENTRIES := by
  rw [PDX_eq]
  simp only [NPTENTRIES,NPDENTRIES]
  omega

/-- A page-aligned request of `n` pages takes `n` turns of the loop. -/
theorem mappagesCount_eq {v n : ℕ} (hn : 0 < n) (h : v + n ≤ 2^20) :
    mappagesCount (v * PGSIZE) (n * PGSIZE) = n := by
  have h1 : uint ((v * PGSIZE : ℕ) + (n * PGSIZE : ℕ) - 1) =
      (v + (n - 1)) * PGSIZE + (PGSIZE - 1) := by
    simp only [uint,PGSIZE]; omega
  have h2 : PGROUNDDOWN ((v + (n - 1)) * PGSIZE + (PGSIZE - 1)) = (v + (n - 1)) * PGSIZE := by
    simp only [PGROUNDDOWN,PGSIZE]; omega
  rw [mappagesCount,h1,h2,PGROUNDDOWN_mul]
  simp only [uint,PGSIZE]
  omega

theorem mappagesCount_page {v : ℕ} (h : v < 2^20) : mappagesCount (v * PGSIZE) PGSIZE = 1 := by
  have := mappagesCount_eq (v := v) (n := 1) one_pos (by omega)
  rwa [Nat.one_mul] at this

variable {κ : Type} [PageAllocator κ] [LawfulPageAllocator κ]
variable {M : Finset Frame} {k : κ} {U K : Multiset Frame} {d : PageDir}

/-- `walkpgdir` with allocation adds at most a page table, and never a mapping. -/
theorem walkpgdirAlloc_spec (va : ℕ) (h : Held M k U (K + d.kern)) (hva : pageOf va < 2^20) :
    Total (walkpgdirAlloc d va) k fun r k' => Keeps (fun _ => True) k k' ∧
      (r = none → starved k' ∧ Held M k' U (K + d.kern) ∧ M.card ≤ (U + (K + d.kern)).card ∧
        ¬ d.hasTable (pageOf va)) ∧
      ∀ d', r = some d' → Held M k' U (K + d'.kern) ∧ (∀ v, d'.get v = d.get v) ∧
        ∀ v, d'.hasTable v ↔ d.hasTable v ∨ v / NPTENTRIES = pageOf va / NPTENTRIES := by
  unfold walkpgdirAlloc
  cases ht : d.pde (PDX va) with
  | some t =>
    simp only [post_pure,reduceCtorEq,false_implies,true_and,Option.some.injEq,
      forall_eq',implies_true]
    refine ⟨.refl _ _,h,fun v => ⟨Or.inl,?_⟩⟩
    rintro (hv | hv)
    · exact hv
    · rw [PageDir.hasTable,hv,← PDX_eq,ht]; rfl
  | none =>
    simp only [post_bind]
    refine (kalloc_held h).imp ?_
    rintro r k' ⟨hp,hn,hs⟩
    cases r with
    | none =>
      obtain ⟨hst,hh,hc⟩ := hn rfl
      simp only [post_pure,reduceCtorEq,false_implies,implies_true,and_true,true_implies]
      exact ⟨hp,hst,hh,hc,by simp [PageDir.hasTable,← PDX_eq,ht]⟩
    | some f =>
      obtain ⟨-,-,hK⟩ := hs f rfl
      simp only [post_pure,reduceCtorEq,false_implies,true_and,Option.some.injEq,forall_eq']
      refine ⟨hp,hK.congr rfl ?_,fun v => ?_,fun v => ?_⟩
      · have htab := tally_change (f := fun i => (d.pde i).map PageTable.frame)
          (g := fun i => (Function.update d.pde (PDX va) (some ⟨f,fun _ => none⟩) i).map
            PageTable.frame) (PDX_lt hva) (by intro j _ hj; simp [hj])
        simp only [ht,Option.map_none,optional_none,add_zero,Function.update_self,
          Option.map_some,optional_some] at htab
        simp only [PageDir.kern,PageDir.tables,htab,← Multiset.singleton_add]
        abel
      · by_cases hv : v / NPTENTRIES = PDX va <;> simp [PageDir.get,hv,ht]
      · rw [← PDX_eq]
        by_cases hv : v / NPTENTRIES = PDX va <;> simp [PageDir.hasTable,hv]

/-- Mapping one user page moves the caller's reference to `f` into the page directory, or
leaves the mappings as they are. -/
theorem mappages_user {v : ℕ} {f : Frame} (perm : Perm)
    (h : Held M k ({f} + (U + d.users)) (K + d.kern)) (hv : v < USERPAGES) :
    Post (mappages d (v * PGSIZE) PGSIZE f perm) k (fun r k' => Keeps (fun _ => True) k k' ∧
      (r.2 = true → Held M k' (U + r.1.users) (K + r.1.kern) ∧ d.get v = none ∧
        ∀ w, r.1.get w = if w = v then some { perm with frame := f } else d.get w) ∧
      (r.2 = false → starved k' ∧ Held M k' ({f} + (U + r.1.users)) (K + r.1.kern) ∧
        r.1 = d ∧ ¬ d.hasTable v ∧ M.card ≤ ({f} + (U + d.users) + (K + d.kern)).card))
      fun e _ => e = .panic "remap" ∧ (d.get v).isSome := by
  have hv20 : v < 2^20 := by have := USERPAGES_lt; omega
  rw [mappages,mappagesCount_page hv20,PGROUNDDOWN_mul]
  simp only [mappagesLoop,post_bind]
  refine Total.post (walkpgdirAlloc_spec (v * PGSIZE) h (by rwa [pageOf_mul])) ?_
  rintro r k₁ ⟨hp,hn,hs⟩
  rw [pageOf_mul] at hn hs
  cases r with
  | none =>
    obtain ⟨hst,hh,hc,ht⟩ := hn rfl
    simp only [post_pure,false_implies,true_and,true_implies,Bool.false_eq_true]
    exact ⟨hp,hst,hh,ht,hc⟩
  | some d₁ =>
    obtain ⟨hh,hg,ht⟩ := hs d₁ rfl
    have ht₁ : d₁.hasTable (pageOf (v * PGSIZE)) := by rw [pageOf_mul,ht]; exact Or.inr rfl
    simp only [pageOf_mul]
    split
    · rename_i hsome
      exact ⟨rfl,hg v ▸ hsome⟩
    · rename_i hnone
      have hnone' : d₁.get v = none := by simpa using hnone
      simp only [post_pure,reduceCtorEq,false_implies,and_true,true_implies]
      refine ⟨hp,?_,hg v ▸ hnone',fun w => ?_⟩
      · have hu := setPte_users ht₁ (by rwa [pageOf_mul]) (some { perm with frame := f })
        rw [pageOf_mul,hnone',users_congr fun w _ => hg w] at hu
        simp only [Option.map_none,optional_none,add_zero,Option.map_some,optional_some] at hu
        rw [setPte_kern]
        exact hh.congr (by rw [hu]; abel) rfl
      · rw [setPte_get ht₁,pageOf_mul,hg w]

/-- The address after a missing page table: the first page of the next one. -/
theorem next_table (v : ℕ) : PGADDR (PDX (v * PGSIZE) + 1) 0 0 - PGSIZE + PGSIZE =
    (v / NPTENTRIES + 1) * NPTENTRIES * PGSIZE := by
  rw [PDX_eq,pageOf_mul]
  simp only [PGADDR,PDXSHIFT,PTXSHIFT,PGSIZE,NPTENTRIES]
  omega

theorem not_hasTable_of_same_table {v w : ℕ} (h : ¬ d.hasTable v) (h1 : v ≤ w)
    (h2 : w < (v / NPTENTRIES + 1) * NPTENTRIES) : ¬ d.hasTable w := by
  have hd : w / NPTENTRIES = v / NPTENTRIES := by
    simp only [NPTENTRIES] at h2 ⊢; omega
  rwa [PageDir.hasTable,hd]

/-- From `d` to `d'` the entries of the pages `lo, …, hi - 1` have been cleared, and no page
still referred to has lost its bytes. -/
structure Shrank (U : Multiset Frame) (k k' : κ) (d d' : PageDir) (lo hi : ℕ) : Prop where
  get : ∀ w, d'.get w = if lo ≤ w ∧ w < hi then none else d.get w
  keeps : Keeps (· ∈ U + d'.users) k k'

omit [LawfulPageAllocator κ] in
theorem Shrank.mem_users {U : Multiset Frame} {k k' : κ} {d d' : PageDir} {lo hi : ℕ}
    (h : Shrank U k k' d d' lo hi) {g : Frame} (hg : g ∈ U + d'.users) : g ∈ U + d.users := by
  rcases Multiset.mem_add.mp hg with hg | hg
  · simp [hg]
  · simp [mem_users_of_clear hg h.get]

/-- The loop of `deallocuvm` clears every entry up to the old size and gives back what
the cleared ones named. -/
theorem deallocuvmLoop_spec {oldsz : ℕ} (hsz : oldsz ≤ KERNBASE) (v : ℕ)
    (h : Held M k (U + d.users) (K + d.kern)) :
    Total (deallocuvmLoop oldsz d (v * PGSIZE)) k fun d' k' =>
      Held M k' (U + d'.users) (K + d'.kern) ∧ Shrank U k k' d d' v (pages oldsz) := by
  induction hn : pages oldsz - v using Nat.strong_induction_on generalizing v d k with
  | h n ih =>
    rw [deallocuvmLoop]
    by_cases hlt : v * PGSIZE < oldsz
    · have hvp : v < pages oldsz := mul_PGSIZE_lt.mp hlt
      have hvu : v < USERPAGES := lt_of_lt_of_le hvp (pages_le hsz)
      rw [if_pos hlt]
      split
      · -- no page table: skip to the next one
        rename_i hw
        rw [walkpgdir_eq_none,pageOf_mul] at hw
        rw [next_table]
        have hge : v < (v / NPTENTRIES + 1) * NPTENTRIES := by
          simp only [NPTENTRIES]; omega
        refine (ih _ (by omega) _ h rfl).imp ?_
        rintro d' k' ⟨hh,hg,hp⟩
        refine ⟨hh,fun w => ?_,hp⟩
        rw [hg w]
        by_cases hskip : v ≤ w ∧ w < (v / NPTENTRIES + 1) * NPTENTRIES
        · rw [get_eq_none_of_not_hasTable (not_hasTable_of_same_table hw hskip.1 hskip.2)]
          split <;> split <;> rfl
        · split <;> split <;> first | rfl | omega
      · -- not present
        rename_i hw
        rw [walkpgdir_eq_some,pageOf_mul] at hw
        rw [page_step]
        refine (ih _ (by omega) _ h rfl).imp ?_
        rintro d' k' ⟨hh,hg,hp⟩
        refine ⟨hh,fun w => ?_,hp⟩
        rw [hg w]
        by_cases hwv : w = v
        · subst hwv; simp [hw.2]
        · split <;> split <;> first | rfl | omega
      · -- present
        rename_i pte hw
        rw [walkpgdir_eq_some,pageOf_mul] at hw
        obtain ⟨ht,hget⟩ := hw
        have hmem : pte.frame ∈ d.users := frame_mem_users hvu hget
        rw [if_neg (h.ne_zero (by simp [hmem]))]
        have ht' : d.hasTable (pageOf (v * PGSIZE)) := by rwa [pageOf_mul]
        have hset := setPte_get ht' none
        have hu := setPte_users ht' (by rwa [pageOf_mul]) none
        rw [pageOf_mul] at hset hu
        simp only [hget,Option.map_some,optional_some,Option.map_none,optional_none,add_zero] at hu
        simp only [post_bind]
        refine Total.post (kfree_user (f := pte.frame) (U := U + (d.setPte (v * PGSIZE) none).users)
          (h.congr (by rw [← hu]; abel) rfl)) ?_
        rintro - k₁ ⟨hh₁,hp₁⟩
        rw [page_step]
        refine (ih _ (by omega) (v + 1) (d := d.setPte (v * PGSIZE) none)
          (hh₁.congr rfl (by rw [setPte_kern])) rfl).imp ?_
        rintro d' k' ⟨hh,hg,hp⟩
        refine ⟨hh,fun w => ?_,(hp₁.mono fun g hgm => ?_).trans hp⟩
        · rw [hg w,hset w]
          by_cases hwv : w = v
          · subst hwv; simp [hvp]
          · rw [if_neg hwv]
            split <;> split <;> first | rfl | omega
        · rcases Multiset.mem_add.mp hgm with hgU | hgd
          · simp [hgU]
          · simp [mem_users_of_clear hgd hg]
    · rw [if_neg hlt]
      rw [mul_PGSIZE_lt] at hlt
      refine ⟨h,fun w => ?_,.refl _ _⟩
      rw [if_neg (by omega)]

/-- `deallocuvm` clears the pages of `[newsz, oldsz)`. -/
theorem deallocuvm_spec {oldsz : ℕ} (newsz : ℕ) (hsz : oldsz ≤ KERNBASE)
    (h : Held M k (U + d.users) (K + d.kern)) :
    Total (deallocuvm d oldsz newsz) k fun r k' =>
      Held M k' (U + r.1.users) (K + r.1.kern) ∧
      Shrank U k k' d r.1 (pages newsz) (pages oldsz) ∧
      r.2 = if oldsz ≤ newsz then oldsz else newsz := by
  unfold deallocuvm
  split
  · rename_i hle
    refine ⟨h,⟨fun w => ?_,.refl _ _⟩,rfl⟩
    have := pages_mono hle
    rw [if_neg (by omega)]
  · simp only [post_bind,PGROUNDUP_eq]
    refine (deallocuvmLoop_spec hsz (pages newsz) h).imp ?_
    rintro d' k' ⟨hh,hs⟩
    exact ⟨hh,hs,rfl⟩

/-- The page table pages from directory entry `i` on. -/
def PageDir.tablesFrom (d : PageDir) (i : ℕ) : Multiset Frame :=
  tally NPDENTRIES fun j => if i ≤ j then (d.pde j).map PageTable.frame else none

theorem tablesFrom_zero (d : PageDir) : d.tablesFrom 0 = d.tables :=
  tally_congr fun j _ => by simp

theorem tablesFrom_end (d : PageDir) : d.tablesFrom NPDENTRIES = 0 :=
  tally_eq_zero.mpr fun j hj => if_neg (by omega)

theorem tablesFrom_succ {d : PageDir} {i : ℕ} (hi : i < NPDENTRIES) :
    d.tablesFrom i = optional ((d.pde i).map PageTable.frame) + d.tablesFrom (i + 1) := by
  have h := tally_change (f := fun j => if i ≤ j then (d.pde j).map PageTable.frame else none)
    (g := fun j => if i + 1 ≤ j then (d.pde j).map PageTable.frame else none) hi
    (by intro j _ hj; split <;> split <;> first | rfl | omega)
  simp only [le_refl,if_true,Nat.not_succ_le_self,if_false,optional_none,add_zero] at h
  rw [PageDir.tablesFrom,PageDir.tablesFrom,← h,add_comm]

theorem freevmLoop_spec {i : ℕ} (hi : i ≤ NPDENTRIES) (h : Held M k U (K + d.tablesFrom i)) :
    Total (freevmLoop d i) k fun _ k' => Held M k' U K ∧ Keeps (· ∈ U) k k' := by
  induction hn : NPDENTRIES - i generalizing i k with
  | zero =>
    obtain rfl : i = NPDENTRIES := by omega
    rw [freevmLoop,if_neg (lt_irrefl _)]
    exact ⟨h.congr rfl (by rw [tablesFrom_end,add_zero]),.refl _ _⟩
  | succ n ih =>
    have hlt : i < NPDENTRIES := by omega
    rw [freevmLoop,if_pos hlt]
    rw [tablesFrom_succ hlt] at h
    split
    · rename_i hp
      simp only [hp,Option.map_none,optional_none,zero_add] at h
      exact ih hlt h (by omega)
    · rename_i t hp
      simp only [hp,Option.map_some,optional_some] at h
      simp only [post_bind]
      refine Total.post (kfree_kern (f := t.frame) (K := K + d.tablesFrom (i + 1))
        (h.congr rfl (by abel))) ?_
      rintro - k₁ ⟨hh,hp₁⟩
      refine (ih hlt hh (by omega)).imp ?_
      rintro - k' ⟨hh',hp'⟩
      exact ⟨hh',(hp₁.mono fun g hg => by simp [hg]).trans hp'⟩

/-- `freevm` gives back the user pages, the page tables and the directory. -/
theorem freevm_spec (h : Held M k (U + d.users) (K + d.kern)) :
    Total (freevm (some d)) k fun _ k' => Held M k' U K ∧ Keeps (· ∈ U) k k' := by
  simp only [freevm,post_bind]
  refine Total.post (deallocuvm_spec 0 le_rfl h) ?_
  rintro ⟨d₁,sz⟩ k₁ ⟨hh,⟨hg,hp⟩,-⟩
  have hu : d₁.users = 0 := users_eq_zero.mpr fun v hv => by
    dsimp only at hg
    rw [hg v,if_pos ⟨by simp [pages,PGSIZE],by rwa [pages_KERNBASE]⟩]
  simp only [hu,add_zero] at hh hp
  refine Total.post (freevmLoop_spec (K := {d₁.frame} + K) (Nat.zero_le _)
    (hh.congr rfl ?_)) ?_
  · rw [tablesFrom_zero,PageDir.kern,← Multiset.singleton_add]; abel
  rintro - k₂ ⟨hh₂,hp₂⟩
  refine (kfree_kern hh₂).imp ?_
  rintro - k' ⟨hh',hp'⟩
  exact ⟨hh',(hp.trans hp₂).trans (hp'.mono fun g hg => by simp [hg])⟩

/-- What `kalloc` followed by `memset(mem, 0, PGSIZE)` has left in the page. -/
def zeroPage : Page := fun _ => 0

/-- A page with the flags that `allocuvm` gives its pages, referred to by nothing else and
holding zeros. -/
def FreshPage (k : κ) (U : Multiset Frame) (x : Option Pte) : Prop :=
  ∃ f, x = some { w := true, u := true, cow := false, frame := f } ∧ U.count f = 1 ∧
    page k f = zeroPage

/-- From `d` to `d'` the absent pages `lo, …, hi - 1` have become fresh zeroed ones, and all
else is as it was. -/
structure Grew (U : Multiset Frame) (k k' : κ) (d d' : PageDir) (lo hi : ℕ) : Prop where
  outside : ∀ w, w < lo ∨ hi ≤ w → d'.get w = d.get w
  absent : ∀ w, lo ≤ w → w < hi → d.get w = none
  fresh : ∀ w, lo ≤ w → w < hi → FreshPage k' (U + d'.users) (d'.get w)
  keeps : Keeps (· ∈ U + d.users) k k'
  count : ∀ g ∈ U + d.users, (U + d'.users).count g = (U + d.users).count g

omit [LawfulPageAllocator κ] in
theorem Grew.refl {lo hi : ℕ} (h : hi ≤ lo) : Grew U k k d d lo hi where
  outside _ _ := rfl
  absent w h1 h2 := by omega
  fresh w h1 h2 := by omega
  keeps := .refl _ _
  count _ _ := rfl

omit [LawfulPageAllocator κ] in
/-- The page `v` has been mapped to a zeroed frame of its own before the others grew. -/
theorem Grew.step {k₁ k' : κ} {d₁ d' : PageDir} {mem : Frame} {v hi : ℕ}
    (hmem : mem ∉ U + d.users) (hvu : v < USERPAGES) (hv : v < hi) (hnone : d.get v = none)
    (hg : ∀ w, d₁.get w = if w = v then some { w := true, u := true, cow := false, frame := mem }
      else d.get w)
    (hkeep : Keeps (· ∈ U + d.users) k k₁) (hzero : page k₁ mem = zeroPage)
    (h : Grew U k₁ k' d₁ d' (v + 1) hi) : Grew U k k' d d' v hi := by
  have hu : d₁.users = {mem} + d.users := users_of_map hvu hnone hg
  have hcmem : (U + d₁.users).count mem = 1 := by
    rw [hu,add_left_comm,Multiset.count_add,Multiset.count_singleton_self,
      Multiset.count_eq_zero.mpr hmem]
  have hmem₁ : mem ∈ U + d₁.users := Multiset.count_pos.mp (by omega)
  have hsub : ∀ g ∈ U + d.users, g ∈ U + d₁.users := fun g hg' => by
    rw [hu,add_left_comm]; exact Multiset.mem_add.mpr (.inr hg')
  refine ⟨fun w hw => ?_,fun w h1 h2 => ?_,fun w h1 h2 => ?_,hkeep.trans (h.keeps.mono hsub),
    fun g hg' => ?_⟩
  · rw [h.outside w (by omega),hg w,if_neg (by omega)]
  · by_cases hwv : w = v
    · rw [hwv,hnone]
    · have := h.absent w (by omega) h2
      rwa [hg w,if_neg hwv] at this
  · by_cases hwv : w = v
    · subst hwv
      refine ⟨mem,?_,?_,?_⟩
      · rw [h.outside w (by omega),hg w,if_pos rfl]
      · rw [h.count mem hmem₁,hcmem]
      · rw [h.keeps.page mem hmem₁,hzero]
    · exact h.fresh w (by omega) h2
  · have hne : g ≠ mem := fun he => hmem (he ▸ hg')
    rw [h.count g (hsub g hg'),hu,add_left_comm,Multiset.count_add,Multiset.count_singleton,
      if_neg hne,zero_add]

omit [LawfulPageAllocator κ] in
/-- A page that is taken back does not matter. -/
theorem Shrank.step {k₁ k' : κ} {d₁ d' : PageDir} {x : Option Pte} {v lo hi : ℕ} (hlo : lo ≤ v)
    (hhi : v < hi) (hg : ∀ w, d₁.get w = if w = v then x else d.get w)
    (hkeep : Keeps (· ∈ U + d.users) k k₁) (h : Shrank U k₁ k' d₁ d' lo hi) :
    Shrank U k k' d d' lo hi := by
  have hget : ∀ w, d'.get w = if lo ≤ w ∧ w < hi then none else d.get w := fun w => by
    rw [h.get w,hg w]
    split
    · rfl
    · rw [if_neg (by omega)]
  have hall : Shrank U k₁ k' d d' lo hi := ⟨hget,h.keeps⟩
  exact ⟨hget,(hkeep.mono fun g => hall.mem_users).trans h.keeps⟩

/-- The loop of `allocuvm`, one page a turn; when it runs out of pages it takes everything
back that lies above the old size. -/
theorem allocuvmLoop_spec {oldsz newsz : ℕ} (hsz : newsz < KERNBASE) {v : ℕ}
    (hv : pages oldsz ≤ v) (h : Held M k (U + d.users) (K + d.kern)) :
    Post (allocuvmLoop oldsz newsz d (v * PGSIZE)) k
      (fun r k' => Held M k' (U + r.1.users) (K + r.1.kern) ∧
        (r.2 = newsz ∧ Grew U k k' d r.1 v (pages newsz) ∨
         r.2 = 0 ∧ starved k' ∧ Shrank U k k' d r.1 (pages oldsz) (pages newsz)))
      fun e _ => e = .panic "remap" ∧ ∃ w, v ≤ w ∧ w < pages newsz ∧ (d.get w).isSome := by
  induction hn : pages newsz - v generalizing v d k with
  | zero =>
    have hlt : ¬ v * PGSIZE < newsz := by rw [mul_PGSIZE_lt]; omega
    rw [allocuvmLoop,if_neg hlt]
    exact ⟨h,.inl ⟨rfl,.refl (by omega)⟩⟩
  | succ n ih =>
    have hlt : v * PGSIZE < newsz := by rw [mul_PGSIZE_lt]; omega
    have hvu : v < USERPAGES := by have := pages_le hsz.le; omega
    rw [allocuvmLoop,if_pos hlt]
    simp only [post_bind]
    refine Total.post (kalloc_held h) ?_
    rintro r k₁ ⟨hp₁,hn₁,hs₁⟩
    cases r with
    | none =>
      obtain ⟨hst,hh,-⟩ := hn₁ rfl
      simp only [post_bind]
      refine Total.post (deallocuvm_spec oldsz hsz.le hh) ?_
      rintro ⟨d',sz⟩ k₂ ⟨hh₂,hs₂,-⟩
      exact ⟨hh₂,.inr ⟨rfl,hs₂.keeps.starved hst,hs₂.get,hp₁.of_all.trans hs₂.keeps⟩⟩
    | some mem =>
      obtain ⟨hfresh,hU,-⟩ := hs₁ mem rfl
      have hmem : mem ∉ U + d.users := fun hm => hfresh (Multiset.mem_add.mpr (.inl hm))
      simp only [post_bind,memset,post_modify]
      have hk₂ := Held.keeps_setPage mem zeroPage k₁
      refine (mappages_user (f := mem) ⟨true,true,false⟩
        (hU.setPage mem zeroPage) hvu).mono ?_ ?_
      · rintro ⟨d₁,ok⟩ k₃ ⟨hp₃,ht,hf⟩
        have hkeep : Keeps (· ∈ U + d.users) k k₃ :=
          hp₁.of_all.trans ((hk₂.mono fun g hg hgm => hmem (hgm ▸ hg)).trans hp₃.of_all)
        cases ok with
        | true =>
          obtain ⟨hh,hnone,hg⟩ := ht rfl
          have hzero : page k₃ mem = zeroPage := by
            rw [hp₃.page mem trivial,page_setPage,if_pos rfl]
          rw [page_step]
          refine (ih (v := v + 1) (by omega) hh (by omega)).mono ?_ ?_
          · rintro r k' ⟨hh',hcase⟩
            refine ⟨hh',hcase.imp (fun hr => ?_) fun hr => ?_⟩
            · exact ⟨hr.1,hr.2.step hmem hvu (by omega) hnone hg hkeep hzero⟩
            · exact ⟨hr.1,hr.2.1,hr.2.2.step hv (by omega) hg hkeep⟩
          · rintro e - ⟨rfl,w,h1,h2,h3⟩
            refine ⟨rfl,w,by omega,h2,?_⟩
            rwa [hg w,if_neg (by omega)] at h3
        | false =>
          obtain ⟨hst,hh,hd,-,-⟩ := hf rfl
          dsimp only at hd hh
          subst hd
          simp only [Bool.false_eq_true,if_false,post_bind]
          refine Total.post (deallocuvm_spec (U := {mem} + U) oldsz hsz.le
            (hh.congr (by abel) rfl)) ?_
          rintro ⟨d',sz⟩ k₄ ⟨hh₄,⟨hg₄,hp₄⟩,-⟩
          refine Total.post (kfree_user (f := mem) (U := U + d'.users)
            (hh₄.congr (by abel) rfl)) ?_
          rintro - k₅ ⟨hh₅,hp₅⟩
          refine ⟨hh₅,.inr ⟨rfl,hp₅.starved (hp₄.starved hst),hg₄,?_⟩⟩
          have hsub : ∀ g, g ∈ U + d'.users → g ∈ U + d₁.users := fun g hgm => by
            rcases Multiset.mem_add.mp hgm with hgm | hgm
            · simp [hgm]
            · simp [mem_users_of_clear hgm hg₄]
          refine (hkeep.mono hsub).trans ((hp₄.mono fun g hgm => ?_).trans
            (hp₅.mono fun g hgm => Multiset.mem_add.mpr (.inl hgm)))
          rw [add_assoc]
          exact Multiset.mem_add.mpr (.inr hgm)
      · rintro e - ⟨rfl,hsome⟩
        exact ⟨rfl,v,le_rfl,by omega,hsome⟩

/-- `allocuvm` grows the user part to `newsz`, refuses a size that reaches the kernel, or
fails for want of pages. -/
theorem allocuvm_spec (oldsz newsz : ℕ) (h : Held M k (U + d.users) (K + d.kern)) :
    Post (allocuvm d oldsz newsz) k
      (fun r k' => Held M k' (U + r.1.users) (K + r.1.kern) ∧
        (newsz < KERNBASE ∧ r.2 = max oldsz newsz ∧
          Grew U k k' d r.1 (pages oldsz) (pages newsz) ∨
         KERNBASE ≤ newsz ∧ r = (d,0) ∧ k' = k ∨
         newsz < KERNBASE ∧ r.2 = 0 ∧ starved k' ∧
          Shrank U k k' d r.1 (pages oldsz) (pages newsz)))
      fun e _ => e = .panic "remap" ∧
        ∃ w, pages oldsz ≤ w ∧ w < pages newsz ∧ (d.get w).isSome := by
  unfold allocuvm
  split
  · rename_i hk
    exact ⟨h,.inr (.inl ⟨hk,rfl,rfl⟩)⟩
  · rename_i hk
    split
    · rename_i hlt
      exact ⟨h,.inl ⟨by omega,(max_eq_left hlt.le).symm,.refl (pages_mono hlt.le)⟩⟩
    · rename_i hlt
      rw [PGROUNDUP_eq]
      refine (allocuvmLoop_spec (by omega) le_rfl h).imp ?_
      rintro r k' ⟨hh,⟨hr,hg⟩ | ⟨hr,hst,hs⟩⟩
      · exact ⟨hh,.inl ⟨by omega,by rw [hr]; omega,hg⟩⟩
      · exact ⟨hh,.inr (.inr ⟨by omega,hr,hst,hs⟩)⟩

end ResumePointers.Xv6
