import ResumePointers.Alloc.Groups

/-! Whether the scan takes anything at all. It counts every free slot behind the first one until it
has enough of them, in one run or in many. -/
namespace ResumePointers.Alloc

variable {bit : ℕ → Bool} {n i j f : ℕ} {req : ℤ} {s : Scan}

/-- How the scan stands behind `f` free slots: with nothing taken and all of them counted, or with
something taken. -/
inductive Seeks (req : ℤ) (f : ℕ) (s : Scan) : Prop
  | none (ho : s.off = -1) (hm : s.minsz = INT32_MAX) (hf : s.flag = false) (h0 : f = 0)
      (ht : s.tmpminsz = -1) (hto : s.tmpoff = -1)
  | counting (ho : s.off = -1) (hm : s.minsz = INT32_MAX) (hf : s.flag = true) (h0 : 0 < f)
      (ht : s.tmpminsz = f) (hto : 0 ≤ s.tmpoff)
  | taken (hreq : req ≤ f) (h0 : 0 < f) (ho : 0 ≤ s.off) (hto : 0 ≤ s.tmpoff)

theorem Seeks.start : Seeks req 0 Scan.start := .none rfl rfl rfl rfl rfl rfl

theorem slot_seeks_free (h : Seeks req f s) : Seeks req (f + 1) (s.slot req j i true) := by
  unfold Scan.slot
  cases h with
  | none ho hm hf h0 ht hto =>
    subst h0
    rw [if_pos hf]
    exact .counting ho hm rfl Nat.one_pos rfl (Int.natCast_nonneg i)
  | counting ho hm hf h0 ht hto =>
    rw [if_neg (by simp [hf])]
    exact .counting ho hm hf (Nat.succ_pos f) (congrArg (· + 1) ht) hto
  | taken hreq h0 ho hto =>
    split
    · exact .taken (by omega) (Nat.succ_pos f) ho (Int.natCast_nonneg i)
    · exact .taken (by omega) (Nat.succ_pos f) ho hto

theorem slot_seeks_used (h : Seeks req f s) : Seeks req f (s.slot req j i false) := by
  unfold Scan.slot
  cases h with
  | none ho hm hf h0 ht hto =>
    rw [if_pos hf]
    exact .none ho hm hf h0 ht hto
  | counting ho hm hf h0 ht hto =>
    rw [if_neg (by simp [hf]),if_neg Bool.false_ne_true]
    split
    · rename_i hfit
      exact .taken (by have := hfit.2; omega) h0 hto hto
    · exact .counting ho hm hf h0 ht hto
  | taken hreq h0 ho hto =>
    split
    · exact .taken hreq h0 ho hto
    · rw [if_neg Bool.false_ne_true]
      split
      · exact .taken hreq h0 hto hto
      · exact .taken hreq h0 ho hto

theorem slots_seeks (h : Seeks req f s) : Seeks req (f + freeIn bit 0 i) (s.slots req bit j i) := by
  induction i with
  | zero => exact h
  | succ i ih =>
    rw [Scan.slots_succ]
    cases hb : bit i with
    | true =>
      rw [freeIn_free (Nat.zero_le i) hb]
      exact slot_seeks_free ih
    | false =>
      rw [freeIn_used hb]
      exact slot_seeks_used ih

/-- Behind a page the scan has taken something exactly if it has seen free slots, and enough. -/
theorem page_seeks (h : Seeks req f s) (hmax : ((f + freeIn bit 0 n : ℕ) : ℤ) ≤ INT32_MAX) :
    (s.page n req bit j).off = -1 ∧
        (f + freeIn bit 0 n = 0 ∨ ((f + freeIn bit 0 n : ℕ) : ℤ) < req) ∨
      0 ≤ (s.page n req bit j).off ∧ 0 < f + freeIn bit 0 n ∧
        req ≤ ((f + freeIn bit 0 n : ℕ) : ℤ) := by
  have hs := @slots_seeks bit n j f req s h
  unfold Scan.page
  generalize s.slots req bit j n = t at hs
  generalize f + freeIn bit 0 n = g at hs hmax
  dsimp only
  cases hs with
  | none ho hm hf h0 ht hto =>
    refine .inl ⟨?_,.inl h0⟩
    split
    · exact hto
    · exact ho
  | counting ho hm hf h0 ht hto =>
    split
    · rename_i hfit
      exact .inr ⟨hto,h0,by have := hfit.2; omega⟩
    · rename_i hfit
      refine .inl ⟨ho,.inr ?_⟩
      by_contra hle
      exact hfit ⟨by omega,by omega⟩
  | taken hreq h0 ho hto =>
    refine .inr ⟨?_,h0,hreq⟩
    split
    · exact hto
    · exact ho

/-- Behind a page the scan stands as behind its slots, if the request is for slots at all. -/
theorem page_seeks_next (hreq : 0 < req) (h : Seeks req f s) :
    Seeks req (f + freeIn bit 0 n) (s.page n req bit j) := by
  have hs := @slots_seeks bit n j f req s h
  unfold Scan.page
  generalize s.slots req bit j n = t at hs
  generalize f + freeIn bit 0 n = g at hs
  dsimp only
  split
  · rename_i hfit
    have hle := hfit.2
    cases hs with
    | none ho hm hf h0 ht hto => omega
    | counting ho hm hf h0 ht hto => exact .taken (by omega) h0 hto hto
    | taken hreq' h0 ho hto => exact .taken hreq' h0 hto hto
  · exact hs

end ResumePointers.Alloc
