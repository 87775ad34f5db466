import ResumePointers.Xv6.VmSpec

/-! The kernel half of a page directory: the mappings of `kmap`, and `setupkvm`, which
installs them. -/
namespace ResumePointers.Xv6

variable {κ : Type} [PageAllocator κ] [LawfulPageAllocator κ]
variable {M : Finset Frame} {k : κ} {U K : Multiset Frame} {d : PageDir}

/-- The loop of `mappages` in the kernel half, over pages that are still absent: it maps
all of them, or the first few and stops. User entries stay as they are. -/
theorem mappagesLoop_kernel (perm : Perm) {n v : ℕ} (pa : ℕ) (hlo : USERPAGES ≤ v)
    (hhi : v + n ≤ 2^20) (hnone : ∀ w, v ≤ w → w < v + n → d.get w = none)
    (h : Held M k U (K + d.kern)) :
    Total (mappagesLoop perm n d (v * PGSIZE) pa) k fun r k' =>
      Keeps (fun _ => True) k k' ∧ Held M k' U (K + r.1.kern) ∧
      (∀ w, w < v ∨ v + n ≤ w → r.1.get w = d.get w) ∧
      (r.2 = true → ∀ w, v ≤ w → w < v + n →
        r.1.get w = some { perm with frame := pa + (w - v) }) ∧
      (r.2 = false → starved k' ∧ M.card ≤ (U + (K + r.1.kern)).card) := by
  induction n generalizing v pa d k with
  | zero =>
    simp only [mappagesLoop,post_pure,reduceCtorEq,false_implies,and_true,implies_true,true_and]
    exact ⟨.refl _ _,h,fun _ w _ _ => by omega⟩
  | succ n ih =>
    simp only [mappagesLoop,post_bind]
    refine Total.post (walkpgdirAlloc_spec (v * PGSIZE) h
      (by rw [pageOf_mul]; omega)) ?_
    rintro r k₁ ⟨hp,hn,hs⟩
    rw [pageOf_mul] at hn hs
    cases r with
    | none =>
      obtain ⟨hst,hh,hc,-⟩ := hn rfl
      simp only [post_pure,false_implies,true_and,true_implies,Bool.false_eq_true,implies_true]
      exact ⟨hp,hh,hst,hc⟩
    | some d₁ =>
      obtain ⟨hh,hg,ht⟩ := hs d₁ rfl
      have ht₁ : d₁.hasTable (pageOf (v * PGSIZE)) := by rw [pageOf_mul,ht]; exact Or.inr rfl
      have hv : d₁.get v = none := by rw [hg v]; exact hnone v le_rfl (by omega)
      have hset := setPte_get ht₁ (some { perm with frame := pa })
      rw [pageOf_mul] at hset
      simp only [pageOf_mul,hv,Option.isSome_none,Bool.false_eq_true,if_false]
      -- the last turn may leave the 32-bit range, but then nothing follows
      cases n with
      | zero =>
        simp only [mappagesLoop,post_pure,reduceCtorEq,false_implies,and_true]
        refine ⟨hp,hh.congr rfl (by rw [setPte_kern]),fun w hw => ?_,fun _ w hw hw' => ?_⟩
        · rw [hset w,if_neg (by omega),hg w]
        · obtain rfl : w = v := by omega
          rw [hset w,if_pos rfl,Nat.sub_self,Nat.add_zero]
      | succ n =>
        rw [uint_page_step (by simp only [PGSIZE]; omega)]
        refine (ih (v := v + 1) (pa + 1) (by omega) (by omega) (fun w h1 h2 => ?_)
          (hh.congr rfl (by rw [setPte_kern]))).imp ?_
        · rw [hset w,if_neg (by omega),hg w]
          exact hnone w (by omega) (by omega)
        · rintro r k' ⟨hp',hh',hout,hin,hc⟩
          refine ⟨hp.trans hp',hh',fun w hw => ?_,fun hr w h1 h2 => ?_,hc⟩
          · rw [hout w (by omega),hset w,if_neg (by omega),hg w]
          · by_cases hwv : w = v
            · subst hwv
              rw [hout w (by omega),hset w,if_pos rfl,Nat.sub_self,Nat.add_zero]
            · have hpa : pa + 1 + (w - (v + 1)) = pa + (w - v) := by omega
              rw [hin hr w (by omega) (by omega),hpa]

namespace Kmap

def size (k : Kmap) : ℕ := uint ((k.physEnd : ℤ) - k.physStart)
def first (k : Kmap) : ℕ := pageOf k.virt
def count (k : Kmap) : ℕ := mappagesCount k.virt k.size

/-- The mapping is page-aligned and lies in the kernel half. -/
structure Kernel (k : Kmap) : Prop where
  aligned : k.virt = k.first * PGSIZE
  low : USERPAGES ≤ k.first
  high : k.first + k.count ≤ 2^20

end Kmap

/-- The entry that the kernel mappings `ks` give page `v`. -/
def kmapPte : List Kmap → ℕ → Option Pte
  | [], _ => none
  | k::ks, v =>
    if k.first ≤ v ∧ v < k.first + k.count then
      some { k.perm with frame := k.physStart / PGSIZE + (v - k.first) }
    else kmapPte ks v

/-- The kernel mappings are installed one range after the other, or a page table is missing
somewhere on the way. -/
theorem setupkvmLoop_spec {ks : List Kmap} (hk : ∀ k ∈ ks, k.Kernel)
    (hs : ks.Pairwise fun a b => a.first + a.count ≤ b.first)
    (hnone : ∀ a ∈ ks, ∀ w, a.first ≤ w → d.get w = none) (h : Held M k U (K + d.kern)) :
    Total (setupkvmLoop d ks) k fun r k' =>
      Keeps (fun _ => True) k k' ∧ Held M k' U (K + r.1.kern) ∧
      (∀ w < USERPAGES, r.1.get w = d.get w) ∧
      (r.2 = true → ∀ w, r.1.get w = (kmapPte ks w).or (d.get w)) ∧
      (r.2 = false → starved k' ∧ M.card ≤ (U + (K + r.1.kern)).card) := by
  induction ks generalizing d k with
  | nil =>
    simp only [setupkvmLoop,post_pure,implies_true,true_and,reduceCtorEq,false_implies,and_true]
    exact ⟨.refl _ _,h,fun _ w => by simp [kmapPte]⟩
  | cons a ks ih =>
    have ha := hk a (by simp)
    simp only [setupkvmLoop,post_bind]
    have hloop := mappagesLoop_kernel a.perm (n := a.count) (v := a.first)
      (a.physStart / PGSIZE) ha.low ha.high (fun w hw _ => hnone a (by simp) w hw) h
    rw [← ha.aligned] at hloop
    have hdown : PGROUNDDOWN a.virt = a.virt := by rw [ha.aligned,PGROUNDDOWN_mul]
    change Post (mappagesLoop a.perm a.count d (PGROUNDDOWN a.virt) (a.physStart / PGSIZE)) _ _ _
    rw [hdown]
    refine Total.post hloop ?_
    rintro ⟨d₁,ok⟩ k₁ ⟨hp,hh,hout,hin,hc⟩
    have hlow := ha.low
    cases ok with
    | false =>
      simp only [post_pure,Bool.false_eq_true,if_false,false_implies,true_and,true_implies]
      exact ⟨hp,hh,fun w hw => hout w (by omega),hc rfl⟩
    | true =>
      simp only [if_true]
      have hsep := List.pairwise_cons.mp hs
      refine (ih (fun b hb => hk b (by simp [hb])) hsep.2 (fun b hb w hw => ?_) hh).imp ?_
      · have := hsep.1 b hb
        rw [hout w (by omega)]
        exact hnone a (by simp) w (by omega)
      · rintro r k' ⟨hp',hh',hlow',hok,hc'⟩
        refine ⟨hp.trans hp',hh',fun w hw => ?_,fun hr w => ?_,hc'⟩
        · rw [hlow' w hw,hout w (by omega)]
        · rw [hok hr w,kmapPte]
          by_cases hw : a.first ≤ w ∧ w < a.first + a.count
          · have hrest : kmapPte ks w = none := by
              have hall : ∀ b ∈ ks, w < b.first := fun b hb => by
                have := hsep.1 b hb; omega
              clear hok ih hsep hs hnone hk
              induction ks with
              | nil => rfl
              | cons b ks ihk =>
                have hb := hall b (by simp)
                rw [kmapPte,if_neg (by omega),ihk fun c hc => hall c (by simp [hc])]
            rw [hrest,if_pos hw,hin rfl w hw.1 hw.2]
            rfl
          · rw [if_neg hw,hout w (by omega)]

section KernelHalf
variable [KernelImage]

omit [KernelImage] in
theorem Kmap.range_eq {k : Kmap} {v n : ℕ} (hv : k.virt = v * PGSIZE)
    (hs : k.size = n * PGSIZE) (hn : 0 < n) (h : v + n ≤ 2^20) : k.first = v ∧ k.count = n := by
  rw [Kmap.first,Kmap.count,hs,hv,pageOf_mul,mappagesCount_eq hn h]
  exact ⟨rfl,rfl⟩

/-- The pages of the four kernel mappings, each given by its first page and its length. -/
theorem kmap_ranges : kmap.map (fun k => (k.virt,k.first,k.count)) =
    [(KERNBASE,0x80000,0x100),(KERNLINK,0x80100,KernelImage.data - 0x100),
     (KERNBASE + KernelImage.data * PGSIZE,0x80000 + KernelImage.data,0xE000 - KernelImage.data),
     (DEVSPACE,0xFE000,0x2000)] := by
  have h1 : 0x100 < KernelImage.data := KernelImage.extmem_lt_data
  have h2 := KernelImage.data_le_end.trans KernelImage.end_le
  have r1 := Kmap.range_eq (k := ⟨KERNBASE,0,EXTMEM,⟨true,false,false⟩⟩)
    (v := 0x80000) (n := 0x100) rfl (by rw [Kmap.size,uint]; rfl) (by omega) (by omega)
  have r2 := Kmap.range_eq (k := ⟨KERNLINK,EXTMEM,KernelImage.data * PGSIZE,
    ⟨false,false,false⟩⟩) (v := 0x80100) (n := KernelImage.data - 0x100) rfl
    (by simp only [Kmap.size,uint,EXTMEM,PGSIZE]; omega) (by omega) (by omega)
  have r3 := Kmap.range_eq (k := ⟨KERNBASE + KernelImage.data * PGSIZE,
    KernelImage.data * PGSIZE,PHYSTOP,⟨true,false,false⟩⟩)
    (v := 0x80000 + KernelImage.data) (n := 0xE000 - KernelImage.data)
    (by simp only [KERNBASE,PGSIZE]; omega)
    (by simp only [Kmap.size,uint,PHYSTOP,PGSIZE]; omega) (by omega) (by omega)
  have r4 := Kmap.range_eq (k := ⟨DEVSPACE,DEVSPACE,0,⟨true,false,false⟩⟩)
    (v := 0xFE000) (n := 0x2000) rfl (by rw [Kmap.size,uint]; rfl) (by omega) (by omega)
  simp only [kmap,List.map_cons,List.map_nil,r1.1,r1.2,r2.1,r2.2,r3.1,r3.2,r4.1,r4.2]

theorem kmap_kernel : ∀ k ∈ kmap, k.Kernel := by
  have h1 : 0x100 < KernelImage.data := KernelImage.extmem_lt_data
  have h2 := KernelImage.data_le_end.trans KernelImage.end_le
  intro k hk
  have hm : (k.virt,k.first,k.count) ∈ kmap.map fun k => (k.virt,k.first,k.count) :=
    List.mem_map_of_mem hk
  rw [kmap_ranges] at hm
  simp only [List.mem_cons,List.not_mem_nil,or_false,Prod.mk.injEq] at hm
  have hU : USERPAGES = 0x80000 := rfl
  rcases hm with ⟨hv,hf,hc⟩ | ⟨hv,hf,hc⟩ | ⟨hv,hf,hc⟩ | ⟨hv,hf,hc⟩
  · exact ⟨by rw [hv,hf]; rfl,by omega,by omega⟩
  · exact ⟨by rw [hv,hf]; rfl,by omega,by omega⟩
  · exact ⟨by rw [hv,hf,Nat.add_mul]; rfl,by omega,by omega⟩
  · exact ⟨by rw [hv,hf]; rfl,by omega,by omega⟩

theorem kmap_pairwise : kmap.Pairwise fun a b => a.first + a.count ≤ b.first := by
  have h1 : 0x100 < KernelImage.data := KernelImage.extmem_lt_data
  have h2 := KernelImage.data_le_end.trans KernelImage.end_le
  have hp : (kmap.map fun k => (k.virt,k.first,k.count)).Pairwise
      fun a b => a.2.1 + a.2.2 ≤ b.2.1 := by
    rw [kmap_ranges]
    simp only [List.pairwise_cons,List.mem_cons,List.not_mem_nil,or_false,forall_eq_or_imp,
      forall_eq,false_implies,implies_true,and_true,List.Pairwise.nil]
    omega
  exact List.pairwise_map.mp hp

/-- The kernel half of every page directory is what `kmap` says. -/
def KernelHalf (d : PageDir) : Prop := ∀ v, USERPAGES ≤ v → d.get v = kmapPte kmap v

omit [KernelImage] in
theorem exists_of_kmapPte {ks : List Kmap} {v : ℕ} {p : Pte} (h : kmapPte ks v = some p) :
    ∃ k ∈ ks, p.u = k.perm.u := by
  induction ks with
  | nil => cases h
  | cons k ks ih =>
    rw [kmapPte] at h
    split at h
    · obtain rfl := Option.some.inj h
      exact ⟨k,by simp,rfl⟩
    · obtain ⟨a,ha,hu⟩ := ih h
      exact ⟨a,by simp [ha],hu⟩

theorem kmapPte_not_user {v : ℕ} {p : Pte} (h : kmapPte kmap v = some p) : p.u = false := by
  obtain ⟨k,hk,hu⟩ := exists_of_kmapPte h
  rw [hu]
  simp only [kmap,List.mem_cons,List.not_mem_nil,or_false] at hk
  rcases hk with rfl | rfl | rfl | rfl <;> rfl

/-- A page that a user instruction can reach lies below `KERNBASE`. -/
theorem user_page {d : PageDir} {v : ℕ} {pte : Pte} (hk : KernelHalf d)
    (hget : d.get v = some pte) (hu : pte.u = true) : v < USERPAGES := by
  by_contra hv
  have h := kmapPte_not_user ((hk v (by omega)).symm.trans hget)
  rw [hu] at h
  cases h

theorem kmapPte_USERPAGES : (kmapPte kmap USERPAGES).isSome := by
  have h : (⟨KERNBASE,0,EXTMEM,⟨true,false,false⟩⟩ : Kmap).first = 0x80000 ∧
      (⟨KERNBASE,0,EXTMEM,⟨true,false,false⟩⟩ : Kmap).count = 0x100 :=
    Kmap.range_eq rfl (by rw [Kmap.size,uint]; rfl) (by omega) (by omega)
  rw [kmap,kmapPte,h.1,h.2,if_pos (by decide)]
  rfl

/-- `setupkvm` yields an empty user half below the kernel's mappings, or gives every page
back that it had taken. -/
theorem setupkvm_spec (h : Held M k U K) :
    Total setupkvm k fun r k' => Keeps (· ∈ U) k k' ∧
      (r = none → starved k' ∧ Held M k' U K ∧ M.card ≤ (U + K).card + (NPDENTRIES + 1)) ∧
      ∀ d, r = some d → Held M k' U (K + d.kern) ∧ (∀ v < USERPAGES, d.get v = none) ∧
        KernelHalf d := by
  simp only [setupkvm,post_bind]
  refine Total.post (kalloc_held h) ?_
  rintro r k₁ ⟨hp,hn,hs⟩
  cases r with
  | none =>
    obtain ⟨hst,hh,hc⟩ := hn rfl
    simp only [post_pure,reduceCtorEq,false_implies,implies_true,and_true,true_implies]
    exact ⟨hp.of_all,hst,hh,by omega⟩
  | some f =>
    obtain ⟨-,-,hK⟩ := hs f rfl
    have hphys : ¬ DEVSPACE < KERNBASE + PHYSTOP := by decide
    simp only [if_neg hphys,post_bind]
    have hkern : (⟨f,fun _ => none⟩ : PageDir).kern = {f} := by
      simp [PageDir.kern,PageDir.tables,tally_eq_zero.mpr]
    have hget : ∀ v, (⟨f,fun _ => none⟩ : PageDir).get v = none := fun v => rfl
    refine Total.post (setupkvmLoop_spec (K := K) kmap_kernel kmap_pairwise
      (fun a _ w _ => hget w) (hK.congr rfl (by rw [hkern,add_comm]))) ?_
    rintro ⟨d,ok⟩ k₂ ⟨hp₂,hh,hlow,hok,hc⟩
    have hlow' : ∀ v < USERPAGES, d.get v = none := fun v hv => by rw [hlow v hv,hget v]
    cases ok with
    | true =>
      simp only [if_true,post_pure,reduceCtorEq,false_implies,true_and,Option.some.injEq,
        forall_eq']
      exact ⟨(hp.trans hp₂).of_all,hh,hlow',fun v _ => by
        rw [hok rfl v,hget v,Option.or_none]⟩
    | false =>
      simp only [Bool.false_eq_true,if_false,post_bind]
      have hu : d.users = 0 := users_eq_zero.mpr hlow'
      refine Total.post (freevm_spec (d := d) (U := U) (K := K)
        (hh.congr (by rw [hu,add_zero]) rfl)) ?_
      rintro - k₃ ⟨hh₃,hp₃⟩
      simp only [post_pure,reduceCtorEq,false_implies,implies_true,and_true,true_implies]
      obtain ⟨hst,hcard⟩ := hc rfl
      refine ⟨(hp.trans hp₂).of_all.trans hp₃,hp₃.starved hst,hh₃,?_⟩
      have htab := tally_card_le NPDENTRIES fun i => (d.pde i).map PageTable.frame
      simp only [PageDir.kern,PageDir.tables,Multiset.card_add,Multiset.card_cons] at hcard ⊢
      omega

end KernelHalf

end ResumePointers.Xv6
