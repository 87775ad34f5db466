import Mathlib.Data.Multiset.MapFold
import Mathlib.Algebra.Order.Group.Multiset
import Mathlib.Tactic.Abel

/-! A memory taken apart into cells. What is done to one cell leaves the others as they are, and the
parts of a sum share no address. -/
namespace ResumePointers

variable {A V : Type}

/-- The memory is made of these cells, and has no address twice. -/
structure Cells (mem : A → Option V) (cells : Multiset (A × V)) : Prop where
  nodup : (cells.map Prod.fst).Nodup
  mem_iff : ∀ a v, mem a = some v ↔ (a,v) ∈ cells

namespace Cells

variable {mem : A → Option V} {cells rest : Multiset (A × V)} {a b : A} {v w : V}

theorem empty : Cells (fun _ : A => (none : Option V)) 0 where
  nodup := by simp
  mem_iff := by simp

theorem read (h : Cells mem cells) (hv : (a,v) ∈ cells) : mem a = some v := (h.mem_iff a v).mpr hv

/-- Different cells of a sum have different addresses. -/
theorem ne (h : Cells mem ({(a,v)} + rest)) (hw : (b,w) ∈ rest) : a ≠ b := by
  have hn := h.nodup
  rw [Multiset.singleton_add,Multiset.map_cons,Multiset.nodup_cons] at hn
  rintro rfl
  exact hn.1 (Multiset.mem_map.mpr ⟨(a,w),hw,rfl⟩)

variable [DecidableEq A]

/-- A store to an address that the other cells do not have. -/
theorem mem_iff_update (ha : ∀ u, (a,u) ∉ rest)
    (hrest : ∀ b ≠ a, ∀ u, mem b = some u ↔ (b,u) ∈ rest) (b : A) (u : V) :
    Function.update mem a (some w) b = some u ↔ (b,u) ∈ {(a,w)} + rest := by
  rw [Multiset.singleton_add,Multiset.mem_cons,Prod.mk.injEq]
  by_cases hb : b = a
  · subst hb
    rw [Function.update_self,Option.some.injEq,or_iff_left (ha u),eq_comm]
    exact (and_iff_right rfl).symm
  · rw [Function.update_of_ne hb,hrest b hb,or_iff_right fun hu => hb hu.1]

theorem write (h : Cells mem ({(a,v)} + rest)) (w : V) :
    Cells (Function.update mem a (some w)) ({(a,w)} + rest) where
  nodup := by
    have hn := h.nodup
    rw [Multiset.singleton_add,Multiset.map_cons] at hn ⊢
    exact hn
  mem_iff := by
    refine mem_iff_update (fun u hu => h.ne hu rfl) fun b hb u => ?_
    rw [h.mem_iff,Multiset.singleton_add,Multiset.mem_cons,Prod.mk.injEq]
    exact or_iff_right fun hu => hb hu.1

theorem alloc (h : Cells mem cells) (ha : mem a = none) (v : V) :
    Cells (Function.update mem a (some v)) ({(a,v)} + cells) where
  nodup := by
    rw [Multiset.singleton_add,Multiset.map_cons,Multiset.nodup_cons]
    refine ⟨fun hm => ?_,h.nodup⟩
    obtain ⟨⟨b,u⟩,hu,rfl⟩ := Multiset.mem_map.mp hm
    rw [h.read hu] at ha
    cases ha
  mem_iff := by
    refine mem_iff_update (fun u hu => ?_) fun b _ => h.mem_iff b
    rw [h.read hu] at ha
    cases ha

end Cells

end ResumePointers
