import Mathlib.Order.Lattice
import Mathlib.Data.Nat.Basic

/-! Blocks of slots that lie side by side, and a bitmap of the slots that are in none of them. -/
namespace ResumePointers

/-- `live off n` says that there is a block of `n` slots at `off`. -/
structure Tiling (live : ℕ → ℕ → Prop) (free : ℕ → Bool) (size : ℕ) : Prop where
  inside : ∀ off n, live off n → 0 < n ∧ off + n ≤ size
  single : ∀ off m n, live off m → live off n → m = n
  apart : ∀ off n off' n', live off n → live off' n' → off ≠ off' → off + n ≤ off' ∨ off' + n' ≤ off
  exact : ∀ i < size, free i = false ↔ ∃ off n, live off n ∧ off ≤ i ∧ i < off + n

variable {live live' : ℕ → ℕ → Prop} {free free' : ℕ → Bool} {size off off' n n' : ℕ}

theorem Tiling.congr (h : Tiling live free size) (hlive : ∀ o m, live' o m ↔ live o m)
    (hbit : ∀ i < size, free' i = free i) : Tiling live' free' size := by
  obtain rfl : live' = live := by
    funext o m
    exact propext (hlive o m)
  refine ⟨h.inside,h.single,h.apart,fun i hi => ?_⟩
  rw [hbit i hi]
  exact h.exact i hi

/-- Free slots are in no block. -/
theorem Tiling.outside (h : Tiling live free size) (hpos : 0 < n) (hle : off + n ≤ size)
    (hfree : ∀ i, off ≤ i → i < off + n → free i = true) (hl : live off' n') :
    off' + n' ≤ off ∨ off + n ≤ off' := by
  by_contra hno
  obtain ⟨hpos',hle'⟩ := h.inside off' n' hl
  have hboth : off ≤ max off off' ∧ off' ≤ max off off' ∧ max off off' < off + n ∧
      max off off' < off' + n' := by omega
  have htrue := hfree (max off off') hboth.1 hboth.2.2.1
  have hfalse := (h.exact (max off off') (by omega)).mpr ⟨off',n',hl,hboth.2.1,hboth.2.2.2⟩
  rw [htrue] at hfalse
  cases hfalse

/-- A new block where all slots are free. -/
theorem Tiling.give (h : Tiling live free size) (hpos : 0 < n) (hle : off + n ≤ size)
    (hfree : ∀ i, off ≤ i → i < off + n → free i = true)
    (hlive : ∀ o m, live' o m ↔ o = off ∧ m = n ∨ o ≠ off ∧ live o m)
    (hbit : ∀ i < size, free' i = if off ≤ i ∧ i < off + n then false else free i) :
    Tiling live' free' size where
  inside o m hl := by
    rcases (hlive o m).mp hl with ⟨rfl,rfl⟩ | ⟨-,hl⟩
    · exact ⟨hpos,hle⟩
    · exact h.inside o m hl
  single o m m' hm hm' := by
    rcases (hlive o m).mp hm with ⟨rfl,rfl⟩ | ⟨hne,hm⟩
    · rcases (hlive o m').mp hm' with ⟨-,rfl⟩ | ⟨hne,-⟩
      · rfl
      · exact (hne rfl).elim
    · rcases (hlive o m').mp hm' with ⟨rfl,-⟩ | ⟨-,hm'⟩
      · exact (hne rfl).elim
      · exact h.single o m m' hm hm'
  apart o₁ n₁ o₂ n₂ h₁ h₂ hne := by
    rcases (hlive o₁ n₁).mp h₁ with ⟨rfl,rfl⟩ | ⟨-,hl₁⟩
    · rcases (hlive o₂ n₂).mp h₂ with ⟨rfl,rfl⟩ | ⟨-,hl₂⟩
      · exact (hne rfl).elim
      · exact (h.outside hpos hle hfree hl₂).symm
    · rcases (hlive o₂ n₂).mp h₂ with ⟨rfl,rfl⟩ | ⟨-,hl₂⟩
      · exact h.outside hpos hle hfree hl₁
      · exact h.apart o₁ n₁ o₂ n₂ hl₁ hl₂ hne
  exact i hi := by
    rw [hbit i hi]
    split
    · next hin => exact iff_of_true rfl ⟨off,n,(hlive off n).mpr (.inl ⟨rfl,rfl⟩),hin⟩
    · next hout =>
      rw [h.exact i hi]
      constructor
      · rintro ⟨o,m,hl,hin⟩
        refine ⟨o,m,(hlive o m).mpr (.inr ⟨?_,hl⟩),hin⟩
        rintro rfl
        have hsplit := h.outside hpos hle hfree hl
        have hm := (h.inside o m hl).1
        omega
      · rintro ⟨o,m,hl,hin⟩
        rcases (hlive o m).mp hl with ⟨rfl,rfl⟩ | ⟨-,hl⟩
        · exact (hout hin).elim
        · exact ⟨o,m,hl,hin⟩

/-- A block is gone, and its slots are free. -/
theorem Tiling.takeBack (h : Tiling live free size) (hl : live off n)
    (hlive : ∀ o m, live' o m ↔ o ≠ off ∧ live o m)
    (hbit : ∀ i < size, free' i = if off ≤ i ∧ i < off + n then true else free i) :
    Tiling live' free' size where
  inside o m hm := h.inside o m ((hlive o m).mp hm).2
  single o m m' hm hm' := h.single o m m' ((hlive o m).mp hm).2 ((hlive o m').mp hm').2
  apart o₁ n₁ o₂ n₂ h₁ h₂ hne :=
    h.apart o₁ n₁ o₂ n₂ ((hlive o₁ n₁).mp h₁).2 ((hlive o₂ n₂).mp h₂).2 hne
  exact i hi := by
    rw [hbit i hi]
    split
    · next hin =>
      refine iff_of_false (by simp) ?_
      rintro ⟨o,m,hm,hin'⟩
      obtain ⟨hne,hm⟩ := (hlive o m).mp hm
      have hsplit := h.apart o m off n hm hl hne
      omega
    · next hout =>
      rw [h.exact i hi]
      constructor
      · rintro ⟨o,m,hm,hin⟩
        refine ⟨o,m,(hlive o m).mpr ⟨?_,hm⟩,hin⟩
        rintro rfl
        obtain rfl := h.single o n m hl hm
        exact hout hin
      · rintro ⟨o,m,hm,hin⟩
        exact ⟨o,m,((hlive o m).mp hm).2,hin⟩

end ResumePointers
