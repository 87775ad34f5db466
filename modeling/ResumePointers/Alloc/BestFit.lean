import ResumePointers.Alloc.Groups
import ResumePointers.Alloc.Page

/-! When `alloc.cpp` gives out the best fit, over all bitmaps: the smallest run that is large enough
has to be a group of its own, and the last one that the scan takes. -/
namespace ResumePointers.Alloc

/-- A run of at least `req` free slots that is as small as any. -/
structure BestRun (bit : ℕ → Bool) (n req a e : ℕ) : Prop where
  run : FreeRun bit n a e
  large : req ≤ e - a
  least : ∀ a' e', FreeRun bit n a' e' → req ≤ e' - a' → e - a ≤ e' - a'

/-- `req` slots from slot `a` on are free. -/
def Room (bit : ℕ → Bool) (n req a : ℕ) : Prop :=
  a + req ≤ n ∧ ∀ i, a ≤ i → i < a + req → bit i = true

/-- What a request for `req` slots is to be answered with. -/
def BestFit (s : Page) (req : ℕ) (r : Option ℕ) : Prop :=
  (r = none ↔ ¬ ∃ a, Room s.bitmap NUM_ELEM req a) ∧
    ∀ ptr, r = some ptr → ∃ a e, BestRun s.bitmap NUM_ELEM req a e ∧ ptr = s.mem + a * MINALLOC

variable {bit : ℕ → Bool} {n req a e : ℕ} {s : Page}

theorem Final.slots (h : Final bit n req (a,e)) : req ≤ freeIn bit a e ∧ a < e ∧ e ≤ n := by
  obtain ⟨c,hg⟩ := h.1.group
  exact ⟨hg.full,hg.lt,hg.le⟩

theorem Final.le (h : Final bit n req (a,e)) : a + req ≤ n := by
  obtain ⟨h1,h2,h3⟩ := h.slots
  have := @freeIn_le bit a e
  omega

/-- The run at the start of the last group ends the group, if it is long enough. -/
theorem Final.of_run {e' : ℕ} (h : Final bit n req (a,e)) (hr : FreeRun bit n a e')
    (hreq : req ≤ e' - a) : e = e' := by
  obtain ⟨c,hg⟩ := h.1.group
  exact hg.of_run hr.lt hr.le hr.free hr.right hreq

theorem freeIn_sub {c : ℕ} (hca : c ≤ a) (hen : e ≤ n) : freeIn bit a e ≤ freeIn bit c n :=
  Finset.card_le_card (Finset.filter_subset_filter _ (Finset.Ico_subset_Ico hca hen))

theorem Room.le_freeIn (h : Room bit n req a) : req ≤ freeIn bit 0 n := by
  calc req = freeIn bit a (a + req) := by rw [freeIn_run h.2]; omega
    _ ≤ freeIn bit 0 n := freeIn_sub (Nat.zero_le a) h.1

theorem BestRun.room (h : BestRun bit n req a e) : Room bit n req a := by
  have hlt := h.run.lt
  have hle := h.run.le
  have hlarge := h.large
  exact ⟨by omega,fun i h1 h2 => h.run.free i h1 (by omega)⟩

/-- `alloc`, whatever the bitmap: nothing, if too few slots are free, and else the first slots of the
last group that the scan takes. -/
theorem Page.alloc_final (hreq : 0 < req) : Total (Page.alloc (req * MINALLOC)) s fun r t =>
    r = none ∧ t = s ∧ freeIn s.bitmap 0 NUM_ELEM < req ∨
      ∃ a e, Final s.bitmap NUM_ELEM req (a,e) ∧ r = some (s.mem + a * MINALLOC) ∧
        t = s.given a req := by
  rcases @page_final s.bitmap NUM_ELEM req (by decide) hreq with
    ⟨hoff,hfew⟩ | ⟨a,e,hfin,hoff⟩
  · exact (Page.alloc_none hoff).imp fun r t h => .inl ⟨h.1,h.2,hfew⟩
  · exact (Page.alloc_some hoff fun _ => hfin.le).imp fun r t h => .inr ⟨a,e,hfin,h⟩

/-- A request is answered with the best fit exactly where too few slots are free at all, or where a
best run is the last group of the page up to which no group is larger than the one before it. -/
theorem best_fit_iff (s : Page) (hreq : 0 < req) :
    (Total (Page.alloc (req * MINALLOC)) s fun r _ => BestFit s req r) ↔
      freeIn s.bitmap 0 NUM_ELEM < req ∨
        ∃ a e, BestRun s.bitmap NUM_ELEM req a e ∧ Final s.bitmap NUM_ELEM req (a,e) := by
  have halloc := Page.alloc_final (s := s) hreq
  constructor
  · intro h
    obtain ⟨r,t,-,hfit,hres⟩ := (h.and_post halloc).exists_ok
    rcases hres with ⟨-,-,hfew⟩ | ⟨a,e,hfin,rfl,-⟩
    · exact .inl hfew
    · obtain ⟨a',e',hbest,hptr⟩ := hfit.2 _ rfl
      obtain rfl : a = a' := by
        simp only [MINALLOC] at hptr
        omega
      obtain rfl := hfin.of_run hbest.run hbest.large
      exact .inr ⟨a,e,hbest,hfin⟩
  · intro h
    refine halloc.imp ?_
    rintro r t (⟨rfl,-,hfew⟩ | ⟨a,e,hfin,rfl,-⟩)
    · refine ⟨iff_of_true rfl ?_,fun ptr hr => by cases hr⟩
      rintro ⟨a,hroom⟩
      exact absurd hroom.le_freeIn (by omega)
    · rcases h with hfew | ⟨a',e',hbest,hfin'⟩
      · have h1 := @freeIn_sub s.bitmap _ _ _ _ (Nat.zero_le a) hfin.slots.2.2
        have h2 := hfin.slots.1
        omega
      · obtain ⟨rfl,rfl⟩ := Prod.mk.inj (hfin'.unique hfin)
        refine ⟨iff_of_false (by simp) (not_not.mpr ⟨a',hbest.room⟩),fun ptr hr => ?_⟩
        exact ⟨a',e',hbest,(Option.some.inj hr).symm⟩

theorem init_run : FreeRun (Page.init_alloc 0x1000 fun _ => 0).bitmap NUM_ELEM 0 NUM_ELEM :=
  ⟨by decide,le_rfl,fun _ _ _ => rfl,fun b h => by omega,fun h => absurd h (lt_irrefl _)⟩

/-- The group of a new page. -/
theorem init_final : Final (Page.init_alloc 0x1000 fun _ => 0).bitmap NUM_ELEM 1 (0,NUM_ELEM) := by
  have hgroup : Group (Page.init_alloc 0x1000 fun _ => 0).bitmap NUM_ELEM 1 0 0 NUM_ELEM := by
    refine ⟨le_rfl,fun i _ h => absurd h (Nat.not_lt_zero i),rfl,by decide,le_rfl,init_run.right,?_,
      fun i _ _ h => by cases h⟩
    rw [freeIn_run init_run.free]
    decide
  refine ⟨⟨(0,NUM_ELEM),hgroup,.refl⟩,fun g hg => ?_⟩
  have h1 := hg.1.behind
  have h2 := hg.1.lt
  have h3 := hg.1.le
  dsimp only at h1
  omega

/-- The first request for a slot. -/
theorem best_fit_iff_first :
    (Total (Page.alloc ((1 : ℕ) * MINALLOC)) (Page.init_alloc 0x1000 fun _ => 0) fun r _ =>
      BestFit (Page.init_alloc 0x1000 fun _ => 0) 1 r) ∧
    ∃ a e, BestRun (Page.init_alloc 0x1000 fun _ => 0).bitmap NUM_ELEM 1 a e ∧
      Final (Page.init_alloc 0x1000 fun _ => 0).bitmap NUM_ELEM 1 (a,e) := by
  have hbest : BestRun (Page.init_alloc 0x1000 fun _ => 0).bitmap NUM_ELEM 1 0 NUM_ELEM := by
    refine ⟨init_run,by decide,fun a' e' hr _ => ?_⟩
    have hbegin : a' = 0 := by
      by_contra hne
      have hused := hr.left (a' - 1) (by omega)
      cases hused
    have hend : ¬ e' < NUM_ELEM := fun hlt => by cases hr.right hlt
    omega
  refine ⟨?_,0,NUM_ELEM,hbest,init_final⟩
  rw [best_fit_iff _ Nat.one_pos]
  exact .inr ⟨0,NUM_ELEM,hbest,init_final⟩

/-- Only slot 1 is in use, and two slots are asked for: the answer is slot 0. -/
theorem short_run_is_taken : ∃ s : Page, ∃ t, Page.alloc 16 s = .ok (some s.mem) t ∧
    (∀ i, s.bitmap i = true ↔ i ≠ 1) ∧ ¬ BestFit s 2 (some s.mem) := by
  obtain ⟨r,t,hs,hp⟩ := exists_of_returns (by decide +kernel :
    returns (Page.alloc 16) ⟨0x1000,fun i => decide (i ≠ 1),fun _ => none,fun _ => 0⟩
      (fun r _ => decide (r = some 0x1000)) = true)
  obtain rfl := of_decide_eq_true hp
  refine ⟨_,t,hs,fun i => by simp,fun hfit => ?_⟩
  obtain ⟨a,e,hbest,hptr⟩ := hfit.2 _ rfl
  obtain rfl : a = 0 := by
    simp only [MINALLOC] at hptr
    omega
  have hused := hbest.run.free 1 (by decide) (by have := hbest.large; omega)
  simp at hused

end ResumePointers.Alloc
