import ResumePointers.Lib.Ledger
import ResumePointers.Xv6.Vm

/-! What a page allocator owes to the kernel, as a ledger of references, and the
ledger split into the frames that user entries name and those the kernel keeps. -/
namespace ResumePointers.Xv6

/-- Between `k` and `k'` the pages in `S` have kept their bytes, and no shortage is
forgotten. -/
structure Keeps {κ : Type} [PageAllocator κ] (S : Frame → Prop) (k k' : κ) : Prop where
  page : ∀ f, S f → page k' f = page k f
  starved : starved k → starved k'

namespace Keeps

variable {κ : Type} [PageAllocator κ] {S S' : Frame → Prop} {k k₁ k' : κ}

theorem refl (S : Frame → Prop) (k : κ) : Keeps S k k := ⟨fun _ _ => rfl,id⟩

theorem trans (h : Keeps S k k₁) (h' : Keeps S k₁ k') : Keeps S k k' :=
  ⟨fun f hf => (h'.page f hf).trans (h.page f hf),h'.starved ∘ h.starved⟩

theorem mono (h : Keeps S k k') (hs : ∀ f, S' f → S f) : Keeps S' k k' :=
  ⟨fun f hf => h.page f (hs f hf),h.starved⟩

theorem of_all (h : Keeps (fun _ => True) k k') : Keeps S k k' := h.mono fun _ _ => trivial

end Keeps

/-- `Acc M k R`: of the pool `M`, the references in `R` are out and the rest is free. -/
class LawfulPageAllocator (κ : Type) [PageAllocator κ] where
  Acc : Finset Frame → κ → Multiset Frame → Prop
  acc_ne_zero {M : Finset Frame} {k : κ} {R : Multiset Frame} {f : Frame} :
    Acc M k R → f ∈ R → f ≠ 0
  kalloc_acc {M : Finset Frame} {k : κ} {R : Multiset Frame} : Acc M k R →
    Total kalloc k fun r k' => Keeps (fun _ => True) k k' ∧
      (r = none → starved k' ∧ Acc M k' R ∧ M.card ≤ R.card) ∧
      ∀ f, r = some f → f ∉ R ∧ Acc M k' ({f} + R)
  kfree_acc {M : Finset Frame} {k : κ} {R : Multiset Frame} {f : Frame} : Acc M k ({f} + R) →
    Total (kfree f) k fun _ k' => Acc M k' R ∧ Keeps (· ∈ R) k k'
  acc_setPage {M : Finset Frame} {k : κ} {R : Multiset Frame} (f : Frame) (p : Page) :
    Acc M k R → Acc M (setPage f p k) R
  page_setPage (f g : Frame) (p : Page) (k : κ) :
    page (setPage f p k) g = if g = f then p else page k g
  starved_setPage (f : Frame) (p : Page) (k : κ) : starved (setPage f p k) ↔ starved k

export LawfulPageAllocator (Acc acc_ne_zero kalloc_acc kfree_acc acc_setPage page_setPage
  starved_setPage)

variable {κ : Type} [PageAllocator κ] [LawfulPageAllocator κ]

/-- User entries hold the references `U`, the kernel holds `K` for itself, and what the
kernel holds nobody else refers to. -/
structure Held (M : Finset Frame) (k : κ) (U K : Multiset Frame) : Prop where
  acc : Acc M k (U + K)
  sole : Sole U K

namespace Held

variable {M : Finset Frame} {k : κ} {U K U' K' : Multiset Frame} {f : Frame}

theorem congr (h : Held M k U K) (hU : U = U') (hK : K = K') : Held M k U' K' := by
  subst hU hK; exact h

theorem ne_zero (h : Held M k U K) (hf : f ∈ U + K) : f ≠ 0 := acc_ne_zero h.acc hf

theorem setPage (h : Held M k U K) (f : Frame) (p : Page) :
    Held M (PageAllocator.setPage f p k) U K :=
  ⟨acc_setPage f p h.acc,h.sole⟩

theorem keeps_setPage (f : Frame) (p : Page) (k : κ) :
    Keeps (· ≠ f) k (PageAllocator.setPage f p k) :=
  ⟨fun g hg => by rw [page_setPage,if_neg hg],(starved_setPage f p k).mpr⟩

end Held

/-- `kalloc` hands out a frame that nobody refers to, and its one reference can go to a
user entry or to the kernel. -/
theorem kalloc_held {M : Finset Frame} {k : κ} {U K : Multiset Frame} (h : Held M k U K) :
    Total kalloc k fun r k' => Keeps (fun _ => True) k k' ∧
      (r = none → starved k' ∧ Held M k' U K ∧ M.card ≤ (U + K).card) ∧
      ∀ f, r = some f → f ∉ U + K ∧ Held M k' ({f} + U) K ∧ Held M k' U ({f} + K) := by
  refine (kalloc_acc h.acc).imp ?_
  rintro r k' ⟨hp,hn,hs⟩
  refine ⟨hp,fun hr => ⟨(hn hr).1,⟨(hn hr).2.1,h.sole⟩,(hn hr).2.2⟩,fun f hr => ?_⟩
  obtain ⟨hf,ha⟩ := hs f hr
  refine ⟨hf,⟨by rwa [add_assoc],?_⟩,⟨by rwa [add_left_comm],?_⟩⟩
  · rw [Multiset.singleton_add]
    exact h.sole.add_shared fun hk => hf (by simp [hk])
  · rw [Multiset.singleton_add]
    exact h.sole.add_sole hf

theorem kfree_user {M : Finset Frame} {k : κ} {U K : Multiset Frame} {f : Frame}
    (h : Held M k ({f} + U) K) : Total (kfree f) k fun _ k' =>
      Held M k' U K ∧ Keeps (· ∈ U + K) k k' := by
  refine (kfree_acc (by rw [← add_assoc]; exact h.acc)).imp ?_
  rintro - k' ⟨ha,hp⟩
  exact ⟨⟨ha,Sole.drop_shared (by rw [← Multiset.singleton_add]; exact h.sole)⟩,hp⟩

theorem kfree_kern {M : Finset Frame} {k : κ} {U K : Multiset Frame} {f : Frame}
    (h : Held M k U ({f} + K)) : Total (kfree f) k fun _ k' =>
      Held M k' U K ∧ Keeps (· ∈ U + K) k k' := by
  refine (kfree_acc (by rw [add_left_comm]; exact h.acc)).imp ?_
  rintro - k' ⟨ha,hp⟩
  exact ⟨⟨ha,Sole.drop_sole (by rw [← Multiset.singleton_add]; exact h.sole)⟩,hp⟩

end ResumePointers.Xv6
