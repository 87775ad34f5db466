import Mathlib.Computability.Language

/-! Languages that begin with single letters: what it takes for the first letter of a word to belong
to them. -/
namespace ResumePointers

open Computability

variable {α : Type} {S : Set α} {M : Language α} {a : α} {w : List α}

/-- The words of one letter from `S`. -/
def letters (S : Set α) : Language α := (fun a => [a]) '' S

theorem nil_mem_letters_mul : [] ∉ letters S * M := by
  rw [Language.mem_mul]
  rintro ⟨_,⟨b,-,rfl⟩,v,-,h⟩
  simp at h

theorem cons_mem_letters_mul : a::w ∈ letters S * M ↔ a ∈ S ∧ w ∈ M := by
  rw [Language.mem_mul]
  constructor
  · rintro ⟨_,⟨b,hb,rfl⟩,v,hv,h⟩
    obtain ⟨rfl,rfl⟩ := List.cons.inj h
    exact ⟨hb,hv⟩
  · rintro ⟨ha,hw⟩
    exact ⟨[a],⟨a,ha,rfl⟩,w,hw,rfl⟩

/-- A repetition is over, or it goes on with one more letter. -/
theorem kstar_letters_mul : (letters S)∗ * M = M + letters S * ((letters S)∗ * M) := by
  rw [← mul_assoc]
  nth_rewrite 1 [← Language.one_add_self_mul_kstar_eq_kstar]
  rw [add_mul,one_mul]

theorem nil_mem_kstar_mul : [] ∈ (letters S)∗ * M ↔ [] ∈ M := by
  rw [kstar_letters_mul,Language.mem_add]
  exact or_iff_left nil_mem_letters_mul

theorem cons_mem_kstar_mul :
    a::w ∈ (letters S)∗ * M ↔ a::w ∈ M ∨ a ∈ S ∧ w ∈ (letters S)∗ * M := by
  rw [kstar_letters_mul,Language.mem_add,cons_mem_letters_mul,← kstar_letters_mul]

theorem mem_top_mul : w ∈ ⊤ * M ↔ ∃ v, v <:+ w ∧ v ∈ M := by
  rw [Language.mem_mul]
  constructor
  · rintro ⟨u,-,v,hv,rfl⟩
    exact ⟨v,List.suffix_append u v,hv⟩
  · rintro ⟨v,⟨u,rfl⟩,hv⟩
    exact ⟨u,trivial,v,hv,rfl⟩

theorem nil_mem_top_mul : [] ∈ ⊤ * M ↔ [] ∈ M := by simp [mem_top_mul]

/-- A word is found at the front, or further on. -/
theorem cons_mem_top_mul : a::w ∈ ⊤ * M ↔ a::w ∈ M ∨ w ∈ ⊤ * M := by
  simp only [mem_top_mul,List.suffix_cons_iff]
  constructor
  · rintro ⟨v,rfl | hv,hm⟩
    · exact .inl hm
    · exact .inr ⟨v,hv,hm⟩
  · rintro (hm | ⟨v,hv,hm⟩)
    · exact ⟨_,.inl rfl,hm⟩
    · exact ⟨v,.inr hv,hm⟩

end ResumePointers
