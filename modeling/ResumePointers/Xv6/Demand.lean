import ResumePointers.Xv6.KernelHalf
import Mathlib.Data.Finset.Card

/-! How many pages the functions of `vm.c` take from an allocator that hands out the head of a
free list: `walkpgdir` one for a new page table, so a page directory costs itself and the page
tables that its mappings fall into. -/
namespace ResumePointers.Xv6

class FreeListAllocator (κ : Type) [PageAllocator κ] where
  freelist : κ → List Frame
  kalloc_head (k : κ) : Partial kalloc k fun r k' =>
    r = (freelist k).head? ∧ freelist k' = (freelist k).tail

export FreeListAllocator (freelist kalloc_head)

/-- The page tables of `d`, by their place in it. -/
def PageDir.tableSet (d : PageDir) : Finset ℕ :=
  (Finset.range NPDENTRIES).filter fun i => (d.pde i).isSome

/-- Where the page tables of the `n` pages from `v` on are. -/
def tablesOf (v n : ℕ) : Finset ℕ := (Finset.range n).image fun i => (v + i) / NPTENTRIES

def tablesOfMaps : List Kmap → Finset ℕ
  | [] => ∅
  | k::ks => tablesOf k.first k.count ∪ tablesOfMaps ks

/-- The page tables of the kernel half. -/
def kernelTables [KernelImage] : Finset ℕ := tablesOfMaps kmap

theorem mem_tableSet {d : PageDir} {v : ℕ} (hv : v < 2^20) :
    v / NPTENTRIES ∈ d.tableSet ↔ d.hasTable v := by
  rw [PageDir.tableSet,Finset.mem_filter,Finset.mem_range,PageDir.hasTable]
  refine and_iff_right ?_
  simp only [NPTENTRIES,NPDENTRIES]
  omega

theorem setPte_tableSet {d : PageDir} (va : ℕ) (x : Option Pte) :
    (d.setPte va x).tableSet = d.tableSet := by
  refine Finset.filter_congr fun i _ => ?_
  have h := setPte_hasTable d va (i * NPTENTRIES) x
  rwa [PageDir.hasTable,PageDir.hasTable,Nat.mul_div_cancel i (by decide)] at h

theorem tablesOf_succ (v n : ℕ) :
    tablesOf v (n + 1) = insert (v / NPTENTRIES) (tablesOf (v + 1) n) := by
  ext i
  simp only [tablesOf,Finset.mem_insert,Finset.mem_image,Finset.mem_range]
  constructor
  · rintro ⟨j,hj,rfl⟩
    cases j with
    | zero => exact .inl rfl
    | succ j => exact .inr ⟨j,by omega,by congr 1; omega⟩
  · rintro (rfl | ⟨j,hj,rfl⟩)
    · exact ⟨0,by omega,rfl⟩
    · exact ⟨j + 1,by omega,by congr 1; omega⟩

theorem mem_tablesOf_le {v n i : ℕ} (hlo : USERPAGES ≤ v) (hi : i ∈ tablesOf v n) :
    USERPAGES / NPTENTRIES ≤ i := by
  obtain ⟨j,-,rfl⟩ := Finset.mem_image.mp hi
  exact Nat.div_le_div_right (by omega)

theorem mem_tablesOfMaps_le {ks : List Kmap} (hk : ∀ k ∈ ks, k.Kernel) {i : ℕ}
    (hi : i ∈ tablesOfMaps ks) : USERPAGES / NPTENTRIES ≤ i := by
  induction ks with
  | nil => cases hi
  | cons k ks ih =>
    rcases Finset.mem_union.mp hi with hi | hi
    · exact mem_tablesOf_le (hk k (by simp)).low hi
    · exact ih (fun k hk' => hk k (by simp [hk'])) hi

theorem tablesOfMaps_card_le {ks : List Kmap} (hk : ∀ k ∈ ks, k.Kernel) :
    (tablesOfMaps ks).card ≤ NPDENTRIES := by
  have hsub : tablesOfMaps ks ⊆ Finset.range NPDENTRIES := by
    intro i hi
    induction ks with
    | nil => cases hi
    | cons k ks ih =>
      rcases Finset.mem_union.mp hi with hi | hi
      · obtain ⟨j,hj,rfl⟩ := Finset.mem_image.mp hi
        have h1 := Finset.mem_range.mp hj
        have h2 := (hk k (by simp)).high
        simp only [Finset.mem_range,NPTENTRIES,NPDENTRIES]
        omega
      · exact ih (fun k hk' => hk k (by simp [hk'])) hi
  exact (Finset.card_le_card hsub).trans (Finset.card_range _).le

variable {κ : Type} [PageAllocator κ] [FreeListAllocator κ] {k : κ} {d : PageDir}

/-- `d'` has come out of `d` by page tables that were taken from the free list. -/
def Paid (k k' : κ) (d d' : PageDir) : Prop :=
  (freelist k').length + d'.tableSet.card = (freelist k).length + d.tableSet.card

theorem Paid.trans {k₁ k' : κ} {d₁ d' : PageDir} (h : Paid k k₁ d d₁) (h' : Paid k₁ k' d₁ d') :
    Paid k k' d d' :=
  Eq.trans h' h

/-- `walkpgdir` takes a page when the page table is missing, and fails when it is missing and
there is no page. -/
theorem walkpgdirAlloc_paid (d : PageDir) {v : ℕ} (hv : v < 2^20) (k : κ) :
    Partial (walkpgdirAlloc d (v * PGSIZE)) k fun r k' =>
      (r = none → Paid k k' d d ∧ freelist k' = [] ∧ v / NPTENTRIES ∉ d.tableSet) ∧
      ∀ d', r = some d' → Paid k k' d d' ∧ d'.tableSet = insert (v / NPTENTRIES) d.tableSet := by
  have hx : PDX (v * PGSIZE) = v / NPTENTRIES := by rw [PDX_eq,pageOf_mul]
  have hi : v / NPTENTRIES < NPDENTRIES := by simp only [NPTENTRIES,NPDENTRIES]; omega
  unfold walkpgdirAlloc
  rw [hx]
  cases ht : d.pde (v / NPTENTRIES) with
  | some t =>
    have hm : v / NPTENTRIES ∈ d.tableSet :=
      (mem_tableSet hv).mpr (by rw [PageDir.hasTable,ht]; rfl)
    refine ⟨fun hr => (by cases hr),fun d' hd => ?_⟩
    obtain rfl := Option.some.inj hd
    exact ⟨rfl,(Finset.insert_eq_of_mem hm).symm⟩
  | none =>
    have hm : v / NPTENTRIES ∉ d.tableSet := fun hm => by
      rw [mem_tableSet hv,PageDir.hasTable,ht] at hm; cases hm
    simp only [post_bind]
    refine (kalloc_head k).imp ?_
    rintro r k' ⟨hr,htail⟩
    cases hf : freelist k with
    | nil =>
      rw [hf,List.head?_nil] at hr
      subst hr
      rw [hf,List.tail_nil] at htail
      exact ⟨fun _ => ⟨by rw [Paid,htail,hf],htail,hm⟩,fun d' hd => by cases hd⟩
    | cons f next =>
      rw [hf,List.head?_cons] at hr
      subst hr
      rw [hf,List.tail_cons] at htail
      refine ⟨fun hr => (by cases hr),fun d' hd => ?_⟩
      obtain rfl := Option.some.inj hd
      have hset : (⟨d.frame,Function.update d.pde (v / NPTENTRIES) (some ⟨f,fun _ => none⟩)⟩ :
          PageDir).tableSet = insert (v / NPTENTRIES) d.tableSet := by
        ext i
        by_cases hiv : i = v / NPTENTRIES
        · subst hiv; simp [PageDir.tableSet,hi]
        · simp [PageDir.tableSet,hiv]
      refine ⟨?_,hset⟩
      rw [Paid,htail,hset,hf,Finset.card_insert_of_notMem hm,List.length_cons]
      omega

/-- A loop of `mappages` pays for the page tables it needs, until one cannot be paid. -/
theorem mappagesLoop_paid (perm : Perm) {n v : ℕ} (pa : Frame) (hhi : v + n ≤ 2^20) :
    Partial (mappagesLoop perm n d (v * PGSIZE) pa) k fun r k' => Paid k k' d r.1 ∧
      r.1.tableSet ⊆ d.tableSet ∪ tablesOf v n ∧
      (r.2 = true → r.1.tableSet = d.tableSet ∪ tablesOf v n) ∧
      (r.2 = false → freelist k' = [] ∧ ∃ i ∈ tablesOf v n, i ∉ r.1.tableSet) := by
  induction n generalizing v pa d k with
  | zero =>
    exact ⟨rfl,Finset.subset_union_left,fun _ => (Finset.union_empty _).symm,
      fun hr => by cases hr⟩
  | succ n ih =>
    simp only [mappagesLoop,post_bind,tablesOf_succ]
    refine Post.imp (walkpgdirAlloc_paid d (v := v) (by omega) k) ?_
    rintro r k₁ ⟨hnone,hsome⟩
    cases r with
    | none =>
      obtain ⟨hp,hf,hi⟩ := hnone rfl
      exact ⟨hp,Finset.subset_union_left,fun hr => (by cases hr),fun _ => ⟨hf,_,by simp,hi⟩⟩
    | some d₁ =>
      obtain ⟨hp,hset⟩ := hsome d₁ rfl
      have hset' : (d₁.setPte (v * PGSIZE) (some { perm with frame := pa })).tableSet =
          insert (v / NPTENTRIES) d.tableSet := by rw [setPte_tableSet,hset]
      have hp' : Paid k k₁ d (d₁.setPte (v * PGSIZE) (some { perm with frame := pa })) := by
        rw [Paid,setPte_tableSet]; exact hp
      have hu : ∀ s : Finset ℕ, insert (v / NPTENTRIES) d.tableSet ∪ s =
          d.tableSet ∪ insert (v / NPTENTRIES) s := fun s => by
        rw [Finset.insert_union,Finset.union_insert]
      dsimp only
      split
      · trivial
      · cases n with
        | zero =>
          refine ⟨hp',?_,fun _ => ?_,fun hr => by cases hr⟩
          · rw [hset']
            exact (hu ∅ ▸ Finset.union_empty _).ge
          · rw [hset',← hu]
            exact (Finset.union_empty _).symm
        | succ n =>
          rw [uint_page_step (by simp only [PGSIZE]; omega)]
          refine (ih (v := v + 1) _ (by omega)).imp ?_
          rintro r k' ⟨hp₂,hsub,hok,hbad⟩
          rw [hset',hu] at hsub hok
          refine ⟨hp'.trans hp₂,hsub,hok,fun hr => ?_⟩
          obtain ⟨hf,i,hi,hn⟩ := hbad hr
          exact ⟨hf,i,Finset.mem_insert_of_mem hi,hn⟩

theorem setupkvmLoop_paid {ks : List Kmap} (hk : ∀ k ∈ ks, k.Kernel) :
    Partial (setupkvmLoop d ks) k fun r k' => Paid k k' d r.1 ∧
      r.1.tableSet ⊆ d.tableSet ∪ tablesOfMaps ks ∧
      (r.2 = true → r.1.tableSet = d.tableSet ∪ tablesOfMaps ks) ∧
      (r.2 = false → freelist k' = [] ∧ ∃ i ∈ tablesOfMaps ks, i ∉ r.1.tableSet) := by
  induction ks generalizing d k with
  | nil =>
    exact ⟨rfl,Finset.subset_union_left,fun _ => (Finset.union_empty _).symm,
      fun hr => by cases hr⟩
  | cons a ks ih =>
    have ha := hk a (by simp)
    simp only [setupkvmLoop,post_bind]
    have hloop := mappagesLoop_paid (d := d) (k := k) a.perm (a.physStart / PGSIZE) ha.high
    rw [← ha.aligned] at hloop
    have hdown : PGROUNDDOWN a.virt = a.virt := by rw [ha.aligned,PGROUNDDOWN_mul]
    change Post (mappagesLoop a.perm a.count d (PGROUNDDOWN a.virt) (a.physStart / PGSIZE)) _ _ _
    rw [hdown]
    refine hloop.imp ?_
    rintro ⟨d₁,ok⟩ k₁ ⟨hp,hsub,hok,hbad⟩
    cases ok with
    | false =>
      obtain ⟨hf,i,hi,hn⟩ := hbad rfl
      refine ⟨hp,fun j hj => ?_,fun hr => (by cases hr),
        fun _ => ⟨hf,i,Finset.mem_union_left _ hi,hn⟩⟩
      rw [tablesOfMaps,← Finset.union_assoc]
      exact Finset.mem_union_left _ (hsub hj)
    | true =>
      refine (ih fun b hb => hk b (by simp [hb])).imp ?_
      rintro r k' ⟨hp₂,hsub₂,hok₂,hbad₂⟩
      rw [show d₁.tableSet = _ from hok rfl,Finset.union_assoc] at hsub₂ hok₂
      refine ⟨hp.trans hp₂,hsub₂,hok₂,fun hr => ?_⟩
      obtain ⟨hf,i,hi,hn⟩ := hbad₂ hr
      exact ⟨hf,i,Finset.mem_union_right _ hi,hn⟩

/-- `setupkvm` takes a page for the directory and one for each page table of the kernel half; it
fails when there are not so many. -/
theorem setupkvm_paid [KernelImage] (k : κ) : Partial setupkvm k fun r k' =>
    (r = none → (freelist k).length ≤ kernelTables.card) ∧
    ∀ d, r = some d → d.tableSet = kernelTables ∧
      (freelist k').length + kernelTables.card + 1 = (freelist k).length := by
  have hempty : ∀ f, (⟨f,fun _ => none⟩ : PageDir).tableSet = ∅ := fun f => by
    simp [PageDir.tableSet]
  simp only [setupkvm,post_bind]
  refine (kalloc_head k).imp ?_
  rintro r k₁ ⟨hr,htail⟩
  cases hf : freelist k with
  | nil =>
    rw [hf,List.head?_nil] at hr
    subst hr
    exact ⟨fun _ => Nat.zero_le _,fun d hd => by cases hd⟩
  | cons f next =>
    rw [hf,List.head?_cons] at hr
    subst hr
    rw [hf,List.tail_cons] at htail
    have hphys : ¬ DEVSPACE < KERNBASE + PHYSTOP := by decide
    simp only [if_neg hphys,post_bind]
    refine (setupkvmLoop_paid kmap_kernel).imp ?_
    rintro ⟨d,ok⟩ k₂ ⟨hp,hsub,hok,hbad⟩
    rw [hempty,Finset.empty_union] at hsub hok
    rw [Paid,hempty,Finset.card_empty,htail] at hp
    dsimp only at hp hsub
    cases ok with
    | false =>
      obtain ⟨hnil,i,hi,hn⟩ := hbad rfl
      -- a table is missing, so fewer than all have been paid for
      have hlt : d.tableSet.card < kernelTables.card :=
        Finset.card_lt_card ⟨hsub,fun h => hn (h hi)⟩
      rw [hnil,List.length_nil] at hp
      rw [List.length_cons]
      simp only [Bool.false_eq_true,if_false,post_bind,post_pure]
      exact Partial.of_forall fun _ _ => ⟨fun _ => by omega,fun d hd => by cases hd⟩
    | true =>
      refine ⟨fun hr => (by cases hr),fun d' hd => ?_⟩
      obtain rfl := Option.some.inj hd
      have hset : d.tableSet = kernelTables := hok rfl
      rw [hset] at hp
      rw [List.length_cons]
      exact ⟨hset,by omega⟩

end ResumePointers.Xv6
