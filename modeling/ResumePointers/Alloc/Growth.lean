import ResumePointers.Alloc.Elastic

/-! What a program gets from `ealloc.cpp`: blocks that lie in one page each and apart from each
other, as long as requests fit in a page and the scan does not carry one page into the next. -/
namespace ResumePointers.Alloc

open Heap

/-- The runs of a program that keeps to `Fair`. -/
abbrev HeapRun : Heap → Prop :=
  Reach Heap.step Heap.Fair fun s => ∃ ram, s = Heap.init_alloc ram

variable {s t : Heap} {req page : ℕ}

theorem heap_run_tiled (h : HeapRun s) : s.Tiled :=
  h.invariant (I := Heap.Tiled) (fun _ ⟨ram,hs⟩ => hs ▸ Heap.init_tiled ram)
    fun op _ hi ho => (Heap.step_tiled op hi ho).post fun _ _ ht => ht

/-- The block lies in a page that is mapped. -/
def InPage (s : Heap) (ptr n : ℕ) : Prop :=
  ∃ p < MAXPAGES, s.mem p ≠ 0 ∧ s.mem p ≤ ptr ∧ ptr + n * MINALLOC ≤ s.mem p + PAGESIZE

theorem inPage_of_slots {p off : ℕ} (hp : p < MAXPAGES) (hmem : s.mem p ≠ 0)
    (hle : off + req ≤ NUM_ELEM) : InPage s (s.mem p + off * MINALLOC) req := by
  refine ⟨p,hp,hmem,Nat.le_add_right _ _,?_⟩
  simp only [NUM_ELEM,PAGESIZE,MINALLOC] at hle ⊢
  omega

/-- Blocks that lie apart in their pages lie apart in memory. -/
theorem Heap.Tiled.disjoint (h : s.Tiled) {ptr ptr' : ℕ} {r r' : ℤ × ℤ}
    (hr : s.ptr_to_sz_pg ptr = some r) (hr' : s.ptr_to_sz_pg ptr' = some r') (hne : ptr ≠ ptr') :
    ptr + (r.1 * MINALLOC).toNat ≤ ptr' ∨ ptr' + (r'.1 * MINALLOC).toNat ≤ ptr := by
  obtain ⟨p,off,n,rfl,rfl,hp,hmem,-,hle⟩ := h.inside _ _ hr
  obtain ⟨p',off',n',rfl,rfl,hp',hmem',-,hle'⟩ := h.inside _ _ hr'
  dsimp only
  rw [← Int.natCast_mul,← Int.natCast_mul,Int.toNat_natCast,Int.toNat_natCast]
  by_cases hpp : p = p'
  · subst hpp
    have hoff : off ≠ off' := fun he => hne (by rw [he])
    have := h.apart p off n off' n' ⟨hp,hmem,hr⟩ ⟨hp,hmem,hr'⟩ hoff
    simp only [MINALLOC]
    omega
  · have := h.pages p hp p' hp' hmem hmem' hpp
    simp only [NUM_ELEM,PAGESIZE,MINALLOC] at *
    omega

/-- In every run of fair calls a block that is returned lies in one mapped page, blocks lie apart,
and the row of a page has exactly the blocks of that page. -/
theorem elastic_blocks_tile (h : HeapRun s) :
    (∀ req page, 0 < req → s.Fresh page → s.Straight req →
      Total (alloc (req * MINALLOC) page) s fun r t => ∀ ptr, r = some ptr → InPage t ptr req) ∧
    (∀ ptr r ptr' r', s.ptr_to_sz_pg ptr = some r → s.ptr_to_sz_pg ptr' = some r' → ptr ≠ ptr' →
      ptr + (r.1 * MINALLOC).toNat ≤ ptr' ∨ ptr' + (r'.1 * MINALLOC).toNat ≤ ptr) ∧
    (∀ ptr, Total (dealloc ptr) s fun _ t => t.Tiled) ∧
    ∀ p < MAXPAGES, s.mem p ≠ 0 → ∀ i < NUM_ELEM,
      s.bit p i = false ↔ ∃ off n, s.Live p off n ∧ off ≤ i ∧ i < off + n := by
  have ht := heap_run_tiled h
  refine ⟨fun req page hreq hf hs => ?_,fun _ _ _ _ h1 h2 hne => ht.disjoint h1 h2 hne,
    fun ptr => ?_,fun p hp _ i hi => ht.exact p hp i hi⟩
  · refine (alloc_spec ht hreq hf hs).imp ?_
    rintro r t (⟨rfl,-⟩ | ⟨u,p,off,-,-,hp,hmem,rfl,rfl,hle,-⟩) ptr hr
    · cases hr
    · obtain rfl := Option.some.inj hr
      exact inPage_of_slots (s := u.given p off req) hp hmem hle
  · refine (dealloc_spec ht ptr).imp ?_
    rintro - t (⟨-,rfl⟩ | ⟨p,off,n,-,hl,rfl⟩)
    · exact ht
    · exact takenBack_tiled ht hl

theorem exists_elastic_alloc (h : s.Tiled) (hreq : 0 < req) (hf : s.Fresh page)
    (hs : s.Straight req) : ∃ r t, step (.alloc (req * MINALLOC) page) s = .ok r t := by
  obtain ⟨r,t,ht,-⟩ := (alloc_spec h hreq hf hs).exists_ok
  exact ⟨r,t,ht⟩

theorem elastic_blocks_tile_first : ∃ r s,
    step (.alloc 8 0x1000) (Heap.init_alloc fun _ => 0) = .ok r s ∧ HeapRun s ∧
    ∀ ptr r ptr' r', s.ptr_to_sz_pg ptr = some r → s.ptr_to_sz_pg ptr' = some r' → ptr ≠ ptr' →
      ptr + (r.1 * MINALLOC).toNat ≤ ptr' ∨ ptr' + (r'.1 * MINALLOC).toNat ≤ ptr := by
  have hf : (Heap.init_alloc fun _ => 0).Fresh 0x1000 := ⟨by decide,fun _ _ h => (h rfl).elim⟩
  have hs : (Heap.init_alloc fun _ => 0).Straight 1 :=
    ⟨0,⟨Nat.zero_le _,fun j _ => iff_of_false (fun h => h rfl) (Nat.not_lt_zero j)⟩,
      ⟨fun p hp => absurd hp (Nat.not_lt_zero p),fun p hp => absurd hp (Nat.not_lt_zero _)⟩,
      .inl (by decide)⟩
  obtain ⟨r,s,hok⟩ := exists_elastic_alloc (Heap.init_tiled _) Nat.one_pos hf hs
  rw [show ((1 : ℕ) : ℤ) * MINALLOC = 8 by decide] at hok
  have hrun : HeapRun s := .step (.alloc 8 0x1000) (.init ⟨_,rfl⟩) ⟨1,Nat.one_pos,rfl,hf,hs⟩ hok
  exact ⟨r,s,hok,hrun,(elastic_blocks_tile hrun).2.1⟩

/-- The first request is for 4104 bytes, and gets a page of 4096. -/
theorem request_beyond_page : ∃ s,
    step (.alloc 4104 0x1000) (Heap.init_alloc fun _ => 0) = .ok (some 0x1000) s ∧
    s.Live 0 0 513 ∧ ¬ InPage s 0x1000 513 := by
  obtain ⟨r,s,hs,hp⟩ := exists_of_returns (by decide +kernel :
    returns (step (.alloc 4104 0x1000)) (Heap.init_alloc fun _ => 0) (fun r s => decide
      (r = some 0x1000 ∧ (s.mem 0 = 0x1000 ∧ s.mem 1 = 0 ∧ s.mem 2 = 0 ∧ s.mem 3 = 0) ∧
        s.ptr_to_sz_pg 0x1000 = some (513,0))) = true)
  obtain ⟨rfl,⟨h0,h1,h2,h3⟩,ht⟩ := of_decide_eq_true hp
  refine ⟨s,hs,⟨by decide,by rw [h0]; decide,by rw [h0]; exact ht⟩,?_⟩
  rintro ⟨p,hlt,hne,-,hle⟩
  have hcase : p = 0 ∨ p = 1 ∨ p = 2 ∨ p = 3 := by
    simp only [MAXPAGES] at hlt
    omega
  rcases hcase with rfl | rfl | rfl | rfl
  · rw [h0] at hle
    exact absurd hle (by decide)
  · exact hne h1
  · exact hne h2
  · exact hne h3

end ResumePointers.Alloc
