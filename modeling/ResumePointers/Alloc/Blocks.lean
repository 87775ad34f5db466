import ResumePointers.Alloc.Page

/-! What a program gets from `alloc.cpp`: blocks of its own, with zeros in them, as long as no run
of free slots is too short for a request and goes on behind the slots in use. -/
namespace ResumePointers.Alloc

namespace Page

variable {s t : Page} {off n req ptr : ℕ}

/-- What is in no block is zero. -/
def Zeroed (s : Page) : Prop :=
  ∀ a, s.mem ≤ a → a < s.mem + PAGESIZE → ¬ s.InBlock a → s.bytes a = 0

theorem init_zeroed (mem : ℕ) (ram : ℕ → UInt8) : Zeroed (init_alloc mem ram) :=
  fun _ h1 h2 _ => if_pos ⟨h1,h2⟩

/-- The bytes of free slots are in no block. -/
theorem Tiled.outside (h : Tiled s) (hreq : 0 < req) (hle : off + req ≤ NUM_ELEM)
    (hfree : ∀ i, off ≤ i → i < off + req → s.bitmap i = true) {a : ℕ}
    (h1 : s.mem + off * MINALLOC ≤ a) (h2 : a < s.mem + off * MINALLOC + req * MINALLOC) :
    ¬ s.InBlock a := by
  rintro ⟨o,m,hl,h3,h4⟩
  have h8 : MINALLOC = 8 := rfl
  rw [h8] at h1 h2 h3 h4
  have := h.free hreq hle hfree hl
  omega

theorem given_zeroed (h : Tiled s) (hz : Zeroed s) (hreq : 0 < req) (hle : off + req ≤ NUM_ELEM)
    (hfree : ∀ i, off ≤ i → i < off + req → s.bitmap i = true) : Zeroed (s.given off req) := by
  intro a h1 h2 hout
  refine hz a h1 h2 fun ⟨o,m,hl,hin⟩ => hout ⟨o,m,given_live.mpr (.inr ⟨?_,hl⟩),hin⟩
  rintro rfl
  have := h.free hreq hle hfree hl
  have := (hl.inside h).1
  omega

theorem takenBack_zeroed (hz : Zeroed s) (hl : s.Live off n) : Zeroed (s.takenBack off n) := by
  intro a h1 h2 hout
  change clear _ _ _ a = 0
  unfold clear
  split
  · rfl
  · rename_i ha
    refine hz a h1 h2 fun ⟨o,m,hl',hin⟩ => hout ⟨o,m,takenBack_live.mpr ⟨?_,hl'⟩,hin⟩
    rintro rfl
    obtain rfl : n = m := Int.ofNat.inj (Option.some.inj (hl.symm.trans hl'))
    exact ha hin

/-- Blocks that lie apart share no byte. -/
theorem takenBack_bytes (h : Tiled s) (hl : s.Live off n) {off' n' a : ℕ} (hl' : s.Live off' n')
    (hne : off' ≠ off) (h1 : s.mem + off' * MINALLOC ≤ a)
    (h2 : a < s.mem + off' * MINALLOC + n' * MINALLOC) :
    (s.takenBack off n).bytes a = s.bytes a := by
  have h8 : MINALLOC = 8 := rfl
  have hap := h.apart _ _ _ _ hl' hl hne
  refine if_neg ?_
  rw [h8] at h1 h2 ⊢
  omega

theorem step_tiled (op : Op) (h : Tiled s ∧ Zeroed s) (hok : Fair op s) :
    Total (step op) s fun _ t => Tiled t ∧ Zeroed t := by
  obtain ⟨ht,hz⟩ := h
  cases op with
  | alloc sz =>
    obtain ⟨req,hreq,rfl,hc⟩ := hok
    refine (alloc_spec hreq hc).imp ?_
    rintro r t (⟨-,rfl⟩ | ⟨off,-,rfl,hle,hfree⟩)
    · exact ⟨ht,hz⟩
    · exact ⟨given_tiled ht hreq hle hfree,given_zeroed ht hz hreq hle hfree⟩
  | dealloc ptr =>
    rw [step,Total,post_map]
    refine (dealloc_spec ht ptr).imp ?_
    rintro - t (⟨-,rfl⟩ | ⟨off,n,-,hl,rfl⟩)
    · exact ⟨ht,hz⟩
    · exact ⟨takenBack_tiled ht hl,takenBack_zeroed hz hl⟩
  | write addr byte =>
    simp only [step,post_bind,post_modify,post_pure]
    refine ⟨⟨ht.inside,ht.apart,ht.exact⟩,fun a h1 h2 hout => ?_⟩
    have ha : a ≠ addr := by
      rintro rfl
      exact hout hok
    exact (Function.update_of_ne ha _ _).trans (hz a h1 h2 hout)

end Page

open Page

variable {s : Page} {off n req ptr : ℕ}

theorem run_tiled (h : PageRun s) : Tiled s ∧ Zeroed s :=
  h.invariant (I := fun s => Tiled s ∧ Zeroed s)
    (fun _ ⟨mem,ram,hs⟩ => hs ▸ ⟨init_tiled mem ram,init_zeroed mem ram⟩)
    fun op _ hi ho => (step_tiled op hi ho).post fun _ _ ht => ht

/-- In every run in which no request finds a run of free slots that is too short for it and has
enough free slots from its start on, blocks lie side by side in the page, the bitmap has exactly
them, `alloc` gives out free slots and `dealloc` frees those of its own block. -/
theorem blocks_tile (h : PageRun s) : Tiled s ∧
    (∀ req, 0 < req → Clean (fun _ => s.bitmap) NUM_ELEM 1 req →
      Total (alloc (req * MINALLOC)) s fun r _ => ∀ ptr, r = some ptr →
        ∃ off, ptr = s.mem + off * MINALLOC ∧ off + req ≤ NUM_ELEM ∧
          ∀ i, off ≤ i → i < off + req → s.bitmap i = true) ∧
    ∀ ptr, Total (dealloc ptr) s fun _ t => ∀ i, t.bitmap i ≠ s.bitmap i →
      ∃ off n, ptr = s.mem + off * MINALLOC ∧ s.Live off n ∧ off ≤ i ∧ i < off + n := by
  have ht := (run_tiled h).1
  refine ⟨ht,fun req hreq hc => ?_,fun ptr => ?_⟩
  · refine (alloc_spec hreq hc).imp ?_
    rintro r t (⟨rfl,-⟩ | ⟨off,rfl,-,hle,hfree⟩) ptr hr
    · cases hr
    · exact ⟨off,(Option.some.inj hr).symm,hle,hfree⟩
  · refine (dealloc_spec ht ptr).imp ?_
    rintro - t (⟨-,rfl⟩ | ⟨off,n,rfl,hl,rfl⟩) i hi
    · exact (hi rfl).elim
    · refine ⟨off,n,rfl,hl,?_⟩
      by_contra hout
      exact hi (if_neg hout)

/-- A request for one slot finds no run that is too short. -/
theorem clean_one (bitmap : ℕ → Bool) : Clean (fun _ => bitmap) NUM_ELEM 1 1 where
  short _ _ a e hr hlt := by
    have := hr.lt
    omega
  turn p hp := by omega

theorem exists_alloc (hreq : 0 < req) (hc : Clean (fun _ => s.bitmap) NUM_ELEM 1 req) :
    ∃ r t, step (.alloc (req * MINALLOC)) s = .ok r t := by
  obtain ⟨r,t,hs,-⟩ := (alloc_spec hreq hc).exists_ok
  exact ⟨r,t,hs⟩

/-- The run of one request for a slot. -/
theorem exists_first : ∃ r s, step (.alloc 8) (init_alloc 0x1000 fun _ => 0) = .ok r s ∧
    PageRun s := by
  have hc := clean_one (init_alloc 0x1000 fun _ => 0).bitmap
  obtain ⟨r,s,hs⟩ := exists_alloc Nat.one_pos hc
  rw [show ((1 : ℕ) : ℤ) * MINALLOC = 8 by decide] at hs
  exact ⟨r,s,hs,.step (.alloc 8) (.init ⟨_,_,rfl⟩) ⟨1,Nat.one_pos,rfl,hc⟩ hs⟩

theorem blocks_tile_first : ∃ s r, step (.alloc 8) (init_alloc 0x1000 fun _ => 0) = .ok r s ∧
    PageRun s ∧ Tiled s := by
  obtain ⟨r,s,hs,hrun⟩ := exists_first
  exact ⟨s,r,hs,hrun,(blocks_tile hrun).1⟩

/-- The block of 16 bytes lies over the second block of 8 bytes. -/
theorem short_run_overlaps : ∃ rs s,
    runOps step [.alloc 8,.alloc 8,.dealloc 0x1000,.alloc 16] (init_alloc 0x1000 fun _ => 0) =
      .ok rs s ∧ s.Live 0 2 ∧ s.Live 1 1 ∧ ¬ Tiled s := by
  obtain ⟨rs,s,hs,hp⟩ := exists_of_returns (by decide +kernel :
    returns (runOps step [.alloc 8,.alloc 8,.dealloc 0x1000,.alloc 16])
      (init_alloc 0x1000 fun _ => 0) (fun _ s => decide (s.mem = 0x1000 ∧
        s.ptr_to_sz 0x1000 = some 2 ∧ s.ptr_to_sz 0x1008 = some 1)) = true)
  obtain ⟨hmem,h0,h1⟩ := of_decide_eq_true hp
  have hl0 : s.Live 0 2 := by rw [Live,hmem]; exact h0
  have hl1 : s.Live 1 1 := by rw [Live,hmem]; exact h1
  refine ⟨rs,s,hs,hl0,hl1,fun ht => ?_⟩
  have := ht.apart 0 2 1 1 hl0 hl1 (by decide)
  omega

/-- In the same runs a new block is all zeros, and neither `alloc` nor `dealloc` writes to a block
that stays out. -/
theorem blocks_isolated (h : PageRun s) :
    (∀ req, 0 < req → Clean (fun _ => s.bitmap) NUM_ELEM 1 req →
      Total (alloc (req * MINALLOC)) s fun r t =>
        (∀ ptr, r = some ptr → ∀ a, ptr ≤ a → a < ptr + req * MINALLOC → t.bytes a = 0) ∧
        ∀ a, s.InBlock a → t.bytes a = s.bytes a) ∧
    ∀ off n, s.Live off n → Total (dealloc (s.mem + off * MINALLOC)) s fun _ t =>
      ∀ off' n' a, s.Live off' n' → off' ≠ off → s.mem + off' * MINALLOC ≤ a →
        a < s.mem + off' * MINALLOC + n' * MINALLOC → t.bytes a = s.bytes a := by
  obtain ⟨ht,hz⟩ := run_tiled h
  refine ⟨fun req hreq hc => ?_,fun off n hl => ?_⟩
  · refine (alloc_spec hreq hc).imp ?_
    rintro r t (⟨rfl,rfl⟩ | ⟨off,rfl,rfl,hle,hfree⟩)
    · exact ⟨nofun,fun _ _ => rfl⟩
    · refine ⟨fun ptr hr a h1 h2 => ?_,fun _ _ => rfl⟩
      obtain rfl := Option.some.inj hr
      refine hz a (by omega) ?_ (ht.outside hreq hle hfree h1 h2)
      simp only [MINALLOC,NUM_ELEM,PAGESIZE] at hle h2 ⊢
      omega
  · refine (dealloc_spec ht _).imp ?_
    rintro - t (⟨-,rfl⟩ | ⟨o,m,ho,hm,rfl⟩) off' n' a hl' hne h1 h2
    · rfl
    · refine takenBack_bytes ht hm hl' (fun he => hne ?_) h1 h2
      subst he
      simp only [MINALLOC] at ho
      omega

theorem blocks_isolated_first : ∃ s r, step (.alloc 8) (init_alloc 0x1000 fun _ => 0) = .ok r s ∧
    PageRun s ∧ ∀ off n, s.Live off n → Total (dealloc (s.mem + off * MINALLOC)) s fun _ t =>
      ∀ off' n' a, s.Live off' n' → off' ≠ off → s.mem + off' * MINALLOC ≤ a →
        a < s.mem + off' * MINALLOC + n' * MINALLOC → t.bytes a = s.bytes a := by
  obtain ⟨r,s,hs,hrun⟩ := exists_first
  exact ⟨s,r,hs,hrun,(blocks_isolated hrun).2⟩

/-- The block of 16 bytes has the byte that was stored to the second block of 8 bytes. -/
theorem short_run_not_zero : ∃ rs s,
    runOps step [.alloc 8,.alloc 8,.write 0x1008 1,.dealloc 0x1000,.alloc 16]
      (init_alloc 0x1000 fun _ => 0) = .ok rs s ∧
    rs = [some 0x1000,some 0x1008,none,none,some 0x1000] ∧ s.bytes 0x1008 = 1 := by
  obtain ⟨rs,s,hs,hp⟩ := exists_of_returns (by decide +kernel :
    returns (runOps step [.alloc 8,.alloc 8,.write 0x1008 1,.dealloc 0x1000,.alloc 16])
      (init_alloc 0x1000 fun _ => 0) (fun rs s => decide
        (rs = [some 0x1000,some 0x1008,none,none,some 0x1000] ∧ s.bytes 0x1008 = 1)) = true)
  exact ⟨rs,s,hs,of_decide_eq_true hp⟩

end ResumePointers.Alloc
