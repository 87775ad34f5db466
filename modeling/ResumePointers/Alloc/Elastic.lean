import ResumePointers.Alloc.Page

/-! The elastic allocator (`os/allocation-assignment/ealloc.cpp`): up to four pages, each mapped
when the scan of those before it has found nothing. The scan goes from page to page with what it
has, and a new page is taken without a look at the size. -/
namespace ResumePointers.Alloc

def MAXPAGES : ℕ := 4

/-- The globals of `ealloc.cpp`, the rows of `bitmap` one behind the other, and the memory. -/
@[ext] structure Heap where
  mem : ℕ → ℕ
  bitmap : ℕ → Bool
  ptr_to_sz_pg : ℕ → Option (ℤ × ℤ)
  bytes : ℕ → UInt8

namespace Heap

/-- `init_alloc`, with `mem` as it is before `main`. -/
def init_alloc (ram : ℕ → UInt8) : Heap where
  mem _ := 0
  bitmap _ := true
  ptr_to_sz_pg _ := none
  bytes := ram

/-- `bitmap[j][i]` -/
def bit (s : Heap) (j i : ℕ) : Bool := s.bitmap (j * NUM_ELEM + i)

def onBitmap : EStateM Fault (ℕ → Bool) Unit → EStateM Fault Heap Unit :=
  zoom Heap.bitmap fun b s => { s with bitmap := b }

/-- `mem[j] = mmap(..)`, which answers with `page`. -/
def map (s : Heap) (j page : ℕ) : Heap := { s with
  mem := Function.update s.mem j page
  bytes := clear s.bytes page PAGESIZE }

/-- The loop over the pages. -/
def pages (req : ℤ) (page : ℕ) : List ℕ → Scan → EStateM Fault Heap Scan
  | [], scan => pure scan
  | j::js, scan => do
    let s ← get
    if s.mem j ≠ 0 then pages req page js (scan.page NUM_ELEM req (s.bit j) j)
    else if scan.off = -1 then do
      set (s.map j page)
      pages req page js { scan with off := 0, pg_ind := j }
    else pages req page js scan

/-- The end of `alloc`: the block goes into the table, and its slots are in use. -/
def enter (req : ℤ) (scan : Scan) : EStateM Fault Heap (Option ℕ) := do
  let s ← get
  let ptr := s.mem scan.pg_ind.toNat + (scan.off * MINALLOC).toNat
  set { s with ptr_to_sz_pg := Function.update s.ptr_to_sz_pg ptr (some (req,scan.pg_ind)) }
  onBitmap (fill (MAXPAGES * NUM_ELEM) false (scan.pg_ind * NUM_ELEM + scan.off) req.toNat)
  pure (some ptr)

/-- `alloc(sz)`, where `mmap`, if it is called, answers with `page`. -/
def alloc (sz : ℤ) (page : ℕ) : EStateM Fault Heap (Option ℕ) := do
  if sz.tmod MINALLOC ≠ 0 then pure none
  else do
    let req := sz.tdiv MINALLOC
    let scan ← pages req page (List.range MAXPAGES) Scan.start
    if scan.off = -1 then pure none else enter req scan

def dealloc (ptr : ℕ) : EStateM Fault Heap Unit := do
  let s ← get
  match s.ptr_to_sz_pg ptr with
  | none => pure ()
  | some nb_pgs => do
    let off := (ptr - s.mem nb_pgs.2.toNat) % 0x1000 / MINALLOC
    onBitmap (fill (MAXPAGES * NUM_ELEM) true (nb_pgs.2 * NUM_ELEM + off) nb_pgs.1.toNat)
    modify fun s => { s with ptr_to_sz_pg := Function.update s.ptr_to_sz_pg ptr none }
    -- a negative count is a `size_t` that goes behind all memory
    if nb_pgs.1 < 0 then throw .outOfBounds
    else modify fun s => { s with bytes := clear s.bytes ptr (nb_pgs.1 * MINALLOC).toNat }

/-- The first `k` pages are mapped, and no other. -/
def Mapped (s : Heap) (k : ℕ) : Prop := k ≤ MAXPAGES ∧ ∀ j < MAXPAGES, s.mem j ≠ 0 ↔ j < k

/-- A block of `n` slots from slot `off` of page `p` on is out. -/
def Live (s : Heap) (p off n : ℕ) : Prop :=
  p < MAXPAGES ∧ s.mem p ≠ 0 ∧ s.ptr_to_sz_pg (s.mem p + off * MINALLOC) = some ((n : ℤ),(p : ℤ))

/-- Every page has its own addresses, the blocks in the table lie side by side in their pages,
and the bitmap has them. -/
structure Tiled (s : Heap) : Prop where
  mapped : ∃ k, s.Mapped k
  pages : ∀ i < MAXPAGES, ∀ j < MAXPAGES, s.mem i ≠ 0 → s.mem j ≠ 0 → i ≠ j →
    s.mem i + PAGESIZE ≤ s.mem j ∨ s.mem j + PAGESIZE ≤ s.mem i
  inside : ∀ ptr r, s.ptr_to_sz_pg ptr = some r → ∃ p off n : ℕ,
    ptr = s.mem p + off * MINALLOC ∧ r = ((n : ℤ),(p : ℤ)) ∧ p < MAXPAGES ∧ s.mem p ≠ 0 ∧ 0 < n ∧
      off + n ≤ NUM_ELEM
  apart : ∀ p off n off' n', s.Live p off n → s.Live p off' n' → off ≠ off' →
    off + n ≤ off' ∨ off' + n' ≤ off
  exact : ∀ p < MAXPAGES, ∀ i < NUM_ELEM,
    s.bit p i = false ↔ ∃ off n, s.Live p off n ∧ off ≤ i ∧ i < off + n

inductive Op
  | alloc (sz : ℤ) (page : ℕ)
  | dealloc (ptr : ℕ)

def step : Op → EStateM Fault Heap (Option ℕ)
  | .alloc sz page => alloc sz page
  | .dealloc ptr => (fun _ => none) <$> dealloc ptr

/-- What `mmap` answers with: a page that is not mapped yet. -/
def Fresh (s : Heap) (page : ℕ) : Prop :=
  page ≠ 0 ∧ ∀ j < MAXPAGES, s.mem j ≠ 0 →
    page + PAGESIZE ≤ s.mem j ∨ s.mem j + PAGESIZE ≤ page

/-- The request fits in a page or all pages are there, and the scan does not carry what is not
one run of one page. -/
def Straight (s : Heap) (req : ℕ) : Prop :=
  ∃ k, s.Mapped k ∧ Clean s.bit NUM_ELEM k req ∧ (req ≤ NUM_ELEM ∨ k = MAXPAGES)

def Fair (op : Op) (s : Heap) : Prop :=
  match op with
  | .alloc sz page => ∃ req : ℕ, 0 < req ∧ sz = req * MINALLOC ∧ s.Fresh page ∧ s.Straight req
  | .dealloc _ => True

variable {s t : Heap} {p off n req ptr page k j : ℕ} {scan : Scan}

theorem init_tiled (ram : ℕ → UInt8) : Tiled (init_alloc ram) where
  mapped := ⟨0,Nat.zero_le _,fun j _ => iff_of_false (fun h => h rfl) (Nat.not_lt_zero j)⟩
  pages _ _ _ _ h := (h rfl).elim
  inside _ _ h := by cases h
  apart _ _ _ _ _ h := (h.2.1 rfl).elim
  exact _ _ _ _ := iff_of_false (fun h => by cases h) fun ⟨_,_,h,_⟩ => h.2.1 rfl

theorem Mapped.eq {k' : ℕ} (h : s.Mapped k) (h' : s.Mapped k') : k = k' := by
  by_contra hne
  rcases Nat.lt_or_gt_of_ne hne with hlt | hlt
  · exact absurd ((h.2 k (by have := h'.1; omega)).mp ((h'.2 k (by have := h'.1; omega)).mpr hlt))
      (lt_irrefl k)
  · exact absurd ((h'.2 k' (by have := h.1; omega)).mp ((h.2 k' (by have := h.1; omega)).mpr hlt))
      (lt_irrefl k')

/-- The pages behind a new one are not mapped, and the loop leaves them so. -/
theorem pages_skip (page : ℕ) (req : ℤ) (js : List ℕ) (h : ∀ j ∈ js, s.mem j = 0)
    (hoff : scan.off ≠ -1) : Total (pages req page js scan) s fun r t => r = scan ∧ t = s := by
  induction js with
  | nil => exact ⟨rfl,rfl⟩
  | cons j js ih =>
    have hj : ¬ s.mem j ≠ 0 := not_not.mpr (h j (List.mem_cons_self ..))
    simp only [pages,post_bind,post_get,if_neg hj,if_neg hoff]
    exact ih fun i hi => h i (List.mem_cons_of_mem _ hi)

/-- The scan of the first `k` pages. -/
def scans (s : Heap) (req : ℤ) (k : ℕ) : Scan :=
  (List.range k).foldl (fun scan j => scan.page NUM_ELEM req (s.bit j) j) Scan.start

theorem scans_succ (req : ℤ) (k : ℕ) :
    s.scans req (k + 1) = (s.scans req k).page NUM_ELEM req (s.bit k) k := by
  simp only [scans,List.range_succ,List.foldl_append,List.foldl_cons,List.foldl_nil]

/-- Mapped pages are scanned one after another. -/
theorem pages_mapped {req : ℤ} {js rest : List ℕ} (h : ∀ j ∈ js, s.mem j ≠ 0)
    {Q : Scan → Heap → Prop} {E : Fault → Heap → Prop} :
    Post (pages req page (js ++ rest) scan) s Q E ↔ Post (pages req page rest
      (js.foldl (fun scan j => scan.page NUM_ELEM req (s.bit j) j) scan)) s Q E := by
  induction js generalizing scan with
  | nil => rfl
  | cons j js ih =>
    simp only [List.cons_append,pages,post_bind,post_get,if_pos (h j (List.mem_cons_self ..)),
      List.foldl_cons]
    exact ih fun i hi => h i (List.mem_cons_of_mem _ hi)

/-- The loop over the pages: if the scan of the mapped pages has taken nothing, the next page is
mapped, where there is one. -/
theorem pages_spec (page : ℕ) (req : ℤ) (hm : s.Mapped k) :
    Total (pages req page (List.range MAXPAGES) Scan.start) s fun r t =>
      t = s ∧ r = s.scans req k ∧ (r.off = -1 → k = MAXPAGES) ∨
      k < MAXPAGES ∧ (s.scans req k).off = -1 ∧ r.off = 0 ∧ r.pg_ind = k ∧ t = s.map k page := by
  have hmapped : ∀ j ∈ List.range k, s.mem j ≠ 0 := fun j hj => by
    have hjk := List.mem_range.mp hj
    exact (hm.2 j (hjk.trans_le hm.1)).mpr hjk
  have hsplit : List.range MAXPAGES = List.range k ++ List.range' k (MAXPAGES - k) := by
    have happend := @List.range'_append_1 0 k (MAXPAGES - k)
    rw [Nat.zero_add,Nat.add_sub_cancel' hm.1,← List.range_eq_range',← List.range_eq_range']
      at happend
    exact happend.symm
  rw [hsplit,Total,pages_mapped hmapped]
  change Total (pages req page (List.range' k (MAXPAGES - k)) (s.scans req k)) s _
  rcases Nat.lt_or_eq_of_le hm.1 with hlt | rfl
  · obtain ⟨m,hm'⟩ : ∃ m, MAXPAGES - k = m + 1 := ⟨MAXPAGES - k - 1,by omega⟩
    have hnull : ¬ s.mem k ≠ 0 := fun h => absurd ((hm.2 k hlt).mp h) (lt_irrefl k)
    have hrest : ∀ i ∈ List.range' (k + 1) m, s.mem i = 0 := fun i hi => by
      obtain ⟨h1,h2⟩ := List.mem_range'_1.mp hi
      by_contra hne
      have := (hm.2 i (by omega)).mp hne
      omega
    rw [hm',List.range'_succ]
    simp only [pages,post_bind,post_get,if_neg hnull]
    split
    · rename_i hoff
      simp only [post_bind,post_set]
      refine (pages_skip page req _ (fun i hi => ?_) (by simp)).imp ?_
      · obtain ⟨h1,-⟩ := List.mem_range'_1.mp hi
        exact (Function.update_of_ne (by omega) _ _).trans (hrest i hi)
      · rintro r t ⟨rfl,rfl⟩
        exact .inr ⟨hlt,hoff,rfl,rfl,rfl⟩
    · rename_i hoff
      refine (pages_skip page req _ hrest hoff).imp ?_
      rintro r t ⟨rfl,rfl⟩
      exact .inl ⟨rfl,rfl,fun h => (hoff h).elim⟩
  · rw [Nat.sub_self]
    exact .inl ⟨rfl,rfl,fun _ => rfl⟩

/-- What the scan of the mapped pages has found. -/
theorem scans_best (hreq : 0 < req) (hc : Clean s.bit NUM_ELEM k req) :
    Best s.bit NUM_ELEM req k (s.scans req k) := by
  have hloop : ∀ j ≤ k, Best s.bit NUM_ELEM req j (s.scans req j) ∧
      Stands s.bit NUM_ELEM k req j 0 (s.scans req j) := by
    intro j hj
    induction j with
    | zero => exact start_spec hreq
    | succ j ih =>
      obtain ⟨hb,hs⟩ := ih (by omega)
      rw [scans_succ]
      exact page_spec hc (by decide) hj hb hs
  exact (hloop k le_rfl).1

/-- The heap with `req` slots from slot `off` of page `p` on given out. -/
def given (s : Heap) (p off req : ℕ) : Heap := { s with
  ptr_to_sz_pg := Function.update s.ptr_to_sz_pg (s.mem p + off * MINALLOC)
    (some ((req : ℤ),(p : ℤ)))
  bitmap := fun i => if p * NUM_ELEM + off ≤ i ∧ i < p * NUM_ELEM + off + req then false
    else s.bitmap i }

/-- The heap with the block of `n` slots at slot `off` of page `p` taken back. -/
def takenBack (s : Heap) (p off n : ℕ) : Heap := { s with
  ptr_to_sz_pg := Function.update s.ptr_to_sz_pg (s.mem p + off * MINALLOC) none
  bitmap := fun i => if p * NUM_ELEM + off ≤ i ∧ i < p * NUM_ELEM + off + n then true
    else s.bitmap i
  bytes := clear s.bytes (s.mem p + off * MINALLOC) (n * MINALLOC) }

/-- A block of page `p` is a piece of row `p`. -/
theorem row_iff {q i : ℕ} (hle : off + n ≤ NUM_ELEM) (hi : i < NUM_ELEM) :
    p * NUM_ELEM + off ≤ q * NUM_ELEM + i ∧ q * NUM_ELEM + i < p * NUM_ELEM + off + n ↔
      q = p ∧ off ≤ i ∧ i < off + n := by
  simp only [NUM_ELEM,PAGESIZE,MINALLOC] at hle hi ⊢
  omega

theorem Live.inside (h : Tiled s) (hl : s.Live p off n) : 0 < n ∧ off + n ≤ NUM_ELEM := by
  obtain ⟨p',off',n',hptr,hr,-,-,hpos,hle⟩ := h.inside _ _ hl.2.2
  have h8 : MINALLOC = 8 := rfl
  rw [Prod.mk.injEq,Int.natCast_inj,Int.natCast_inj] at hr
  obtain ⟨rfl,rfl⟩ := hr
  rw [h8] at hptr
  obtain rfl : off = off' := by omega
  exact ⟨hpos,hle⟩

/-- Blocks begin at different addresses. -/
theorem Tiled.address (h : Tiled s) {q o m : ℕ} (hp : p < MAXPAGES) (hmem : s.mem p ≠ 0)
    (hoff : off < NUM_ELEM) (hl : s.Live q o m)
    (he : s.mem q + o * MINALLOC = s.mem p + off * MINALLOC) : q = p ∧ o = off := by
  obtain ⟨hpos,hin⟩ := hl.inside h
  by_cases hqp : q = p
  · subst hqp
    simp only [MINALLOC] at he
    exact ⟨rfl,by omega⟩
  · have := h.pages q hl.1 p hp hl.2.1 hmem hqp
    simp only [NUM_ELEM,PAGESIZE,MINALLOC] at *
    omega

theorem given_live (h : Tiled s) {q o m : ℕ} (hp : p < MAXPAGES) (hmem : s.mem p ≠ 0)
    (hoff : off < NUM_ELEM) : (s.given p off req).Live q o m ↔
      (q = p ∧ o = off) ∧ m = req ∨ ¬ (q = p ∧ o = off) ∧ s.Live q o m := by
  by_cases hqo : q = p ∧ o = off
  · obtain ⟨rfl,rfl⟩ := hqo
    simp only [Live,given,Function.update_self,Option.some.injEq,Prod.mk.injEq,Int.natCast_inj,
      and_true,true_and,not_true_eq_false,false_and,or_false]
    exact ⟨fun hl => hl.2.2.symm,fun hm => ⟨hp,hmem,hm.symm⟩⟩
  · simp only [hqo,false_and,false_or,not_false_eq_true,true_and]
    by_cases he : s.mem q + o * MINALLOC = s.mem p + off * MINALLOC
    · refine iff_of_false (fun hl => hqo ?_) fun hl => hqo (h.address hp hmem hoff hl he)
      have hval := hl.2.2
      simp only [given,he,Function.update_self,Option.some.injEq,Prod.mk.injEq,
        Int.natCast_inj] at hval
      obtain ⟨-,rfl⟩ := hval
      simp only [MINALLOC] at he
      exact ⟨rfl,by omega⟩
    · simp only [Live,given,Function.update_of_ne he]

theorem takenBack_live (h : Tiled s) {q o m : ℕ} (hl : s.Live p off n) :
    (s.takenBack p off n).Live q o m ↔ ¬ (q = p ∧ o = off) ∧ s.Live q o m := by
  have hin := hl.inside h
  by_cases hqo : q = p ∧ o = off
  · obtain ⟨rfl,rfl⟩ := hqo
    simp [Live,takenBack,Function.update_self]
  · simp only [hqo,not_false_eq_true,true_and]
    by_cases he : s.mem q + o * MINALLOC = s.mem p + off * MINALLOC
    · refine iff_of_false (fun hl' => ?_) fun hl' =>
        hqo (h.address hl.1 hl.2.1 (by omega) hl' he)
      have hval := hl'.2.2
      simp only [takenBack,he,Function.update_self] at hval
      cases hval
    · simp only [Live,takenBack,Function.update_of_ne he]

theorem given_bit {q i : ℕ} (hle : off + req ≤ NUM_ELEM) (hi : i < NUM_ELEM) :
    (s.given p off req).bit q i = if q = p ∧ off ≤ i ∧ i < off + req then false else s.bit q i :=
  if_congr (row_iff hle hi) rfl rfl

theorem takenBack_bit {q i : ℕ} (hle : off + n ≤ NUM_ELEM) (hi : i < NUM_ELEM) :
    (s.takenBack p off n).bit q i = if q = p ∧ off ≤ i ∧ i < off + n then true else s.bit q i :=
  if_congr (row_iff hle hi) rfl rfl

theorem Tiled.tiling (h : Tiled s) {q : ℕ} (hq : q < MAXPAGES) :
    Tiling (s.Live q) (s.bit q) NUM_ELEM where
  inside _ _ hl := hl.inside h
  single _ _ _ hm hn := by
    have heq := Option.some.inj (hm.2.2.symm.trans hn.2.2)
    rw [Prod.mk.injEq,Int.natCast_inj] at heq
    exact heq.1
  apart := h.apart q
  exact := h.exact q hq

theorem given_tiled (h : Tiled s) (hp : p < MAXPAGES) (hmem : s.mem p ≠ 0) (hreq : 0 < req)
    (hle : off + req ≤ NUM_ELEM) (hfree : ∀ i, off ≤ i → i < off + req → s.bit p i = true) :
    Tiled (s.given p off req) := by
  have hlive : ∀ q o m, (s.given p off req).Live q o m ↔ _ := fun _ _ _ =>
    given_live h hp hmem (by omega)
  have ht : ∀ q < MAXPAGES, Tiling ((s.given p off req).Live q) ((s.given p off req).bit q) NUM_ELEM := by
    intro q hq
    by_cases hqp : q = p
    · subst hqp
      refine (h.tiling hq).give hreq hle hfree (fun o m => ?_) fun i hi => ?_
      · simpa using hlive q o m
      · exact (given_bit hle hi).trans (if_congr (by simp) rfl rfl)
    · refine (h.tiling hq).congr (fun o m => ?_) fun i hi => ?_
      · simpa [hqp] using hlive q o m
      · exact (given_bit hle hi).trans (if_neg fun hin => hqp hin.1)
  refine ⟨h.mapped,h.pages,fun ptr r hptr => ?_,fun q o m o' m' hl => (ht q hl.1).apart o m o' m' hl,
    fun q hq => (ht q hq).exact⟩
  by_cases he : ptr = s.mem p + off * MINALLOC
  · subst he
    simp only [given,Function.update_self,Option.some.injEq] at hptr
    exact ⟨p,off,req,rfl,hptr.symm,hp,hmem,hreq,hle⟩
  · simp only [given,Function.update_of_ne he] at hptr
    exact h.inside ptr r hptr

theorem takenBack_tiled (h : Tiled s) (hl : s.Live p off n) : Tiled (s.takenBack p off n) := by
  have hlive := fun q o m => takenBack_live (q := q) (o := o) (m := m) h hl
  have hle := (hl.inside h).2
  have ht : ∀ q < MAXPAGES,
      Tiling ((s.takenBack p off n).Live q) ((s.takenBack p off n).bit q) NUM_ELEM := by
    intro q hq
    by_cases hqp : q = p
    · subst hqp
      refine (h.tiling hq).takeBack hl (fun o m => ?_) fun i hi => ?_
      · simpa using hlive q o m
      · exact (takenBack_bit hle hi).trans (if_congr (by simp) rfl rfl)
    · refine (h.tiling hq).congr (fun o m => ?_) fun i hi => ?_
      · simpa [hqp] using hlive q o m
      · exact (takenBack_bit hle hi).trans (if_neg fun hin => hqp hin.1)
  refine ⟨h.mapped,h.pages,fun ptr r hptr => ?_,fun q o m o' m' hl => (ht q hl.1).apart o m o' m' hl,
    fun q hq => (ht q hq).exact⟩
  by_cases he : ptr = s.mem p + off * MINALLOC
  · subst he
    simp [takenBack,Function.update_self] at hptr
  · simp only [takenBack,Function.update_of_ne he] at hptr
    exact h.inside ptr r hptr

theorem map_mem_self (s : Heap) (k page : ℕ) : (s.map k page).mem k = page :=
  Function.update_self _ _ _

theorem map_mem_off {i : ℕ} (h : i ≠ k) : (s.map k page).mem i = s.mem i :=
  Function.update_of_ne h _ _

theorem map_live (h : Tiled s) (hk : s.mem k = 0) {q o m : ℕ} :
    (s.map k page).Live q o m ↔ s.Live q o m := by
  by_cases hq : q = k
  · subst hq
    refine iff_of_false (fun hl => ?_) fun hl => hl.2.1 hk
    obtain ⟨p,o',n',-,hr,-,hne,-⟩ := h.inside _ _ hl.2.2
    rw [Prod.mk.injEq,Int.natCast_inj,Int.natCast_inj] at hr
    exact hne (hr.2 ▸ hk)
  · simp only [Live,map,Function.update_of_ne hq]

theorem map_tiled (h : Tiled s) (hm : s.Mapped k) (hk : k < MAXPAGES) (hf : s.Fresh page) :
    Tiled (s.map k page) := by
  have hnull : s.mem k = 0 := by
    by_contra hne
    exact absurd ((hm.2 k hk).mp hne) (lt_irrefl k)
  have hlive : ∀ q o m, (s.map k page).Live q o m ↔ s.Live q o m := fun _ _ _ => map_live h hnull
  refine ⟨⟨k + 1,hk,fun j hj => ?_⟩,fun i hi j hj hmi hmj hne => ?_,fun ptr r hptr => ?_,
    fun q o₁ n₁ o₂ n₂ h₁ h₂ => h.apart _ _ _ _ _ ((hlive _ _ _).mp h₁) ((hlive _ _ _).mp h₂),
    fun q hq i hi => ?_⟩
  · by_cases hjk : j = k
    · subst hjk
      rw [map_mem_self]
      exact iff_of_true hf.1 (Nat.lt_succ_self j)
    · rw [map_mem_off hjk,hm.2 j hj]
      omega
  · by_cases hik : i = k
    · subst hik
      rw [map_mem_off (Ne.symm hne)] at hmj ⊢
      rw [map_mem_self]
      exact hf.2 j hj hmj
    · rw [map_mem_off hik] at hmi ⊢
      by_cases hjk : j = k
      · subst hjk
        rw [map_mem_self]
        exact (hf.2 i hi hmi).symm
      · rw [map_mem_off hjk] at hmj ⊢
        exact h.pages i hi j hj hmi hmj hne
  · obtain ⟨p,o,m,hp,hr,hlt,hne,hpos,hle⟩ := h.inside ptr r hptr
    have hpk : p ≠ k := fun he => hne (he ▸ hnull)
    exact ⟨p,o,m,by rw [map_mem_off hpk,hp],hr,hlt,by rwa [map_mem_off hpk],hpos,hle⟩
  · refine (h.exact q hq i hi).trans ?_
    simp only [hlive]

theorem enter_spec (hoff : scan.off = off) (hpg : scan.pg_ind = p) (hp : p < MAXPAGES)
    (hle : off + req ≤ NUM_ELEM) : Total (enter req scan) s fun r t =>
      r = some (s.mem p + off * MINALLOC) ∧ t = s.given p off req := by
  have hptr : (scan.off * MINALLOC).toNat = off * MINALLOC := by
    rw [hoff,← Int.natCast_mul,Int.toNat_natCast]
  have hidx : scan.pg_ind * NUM_ELEM + scan.off = (p * NUM_ELEM + off : ℕ) := by
    rw [hpg,hoff]
    push_cast
    rfl
  simp only [enter,post_bind,post_get,post_set,onBitmap,post_zoom,hptr,hidx,Int.toNat_natCast]
  rw [hpg,Int.toNat_natCast]
  refine (fill_spec (fun _ => ?_) _).imp ?_
  · simp only [MAXPAGES,NUM_ELEM,PAGESIZE,MINALLOC] at *
    omega
  · rintro - b rfl
    exact ⟨rfl,rfl⟩

/-- `alloc` gives out free slots of a page that is mapped, or that it maps, or nothing. -/
theorem alloc_spec (h : Tiled s) (hreq : 0 < req) (hf : s.Fresh page) (hs : s.Straight req) :
    Total (alloc (req * MINALLOC) page) s fun r t => r = none ∧ t = s ∨
      ∃ u p off, Tiled u ∧ (u = s ∨ ∃ k, u = s.map k page) ∧ p < MAXPAGES ∧ u.mem p ≠ 0 ∧
        r = some (u.mem p + off * MINALLOC) ∧ t = u.given p off req ∧ off + req ≤ NUM_ELEM ∧
        ∀ i, off ≤ i → i < off + req → u.bit p i = true := by
  obtain ⟨k,hm,hc,hbig⟩ := hs
  have h8 : (MINALLOC : ℤ) ≠ 0 := by decide
  have hmod : ¬ ((req : ℤ) * MINALLOC).tmod MINALLOC ≠ 0 := by
    rw [Int.mul_tmod_left]; simp
  have hdiv : ((req : ℤ) * MINALLOC).tdiv MINALLOC = req := Int.mul_tdiv_cancel _ h8
  simp only [alloc,if_neg hmod,post_bind,hdiv]
  refine (pages_spec page req hm).imp ?_
  rintro scan t (⟨rfl,rfl,-⟩ | ⟨hk,-,hoff,hpg,rfl⟩)
  · cases scans_best hreq hc with
    | none hoff =>
      rw [if_pos hoff]
      exact .inl ⟨rfl,rfl⟩
    | @found p a m hoff hpg hreqm hp hle hfree =>
      rw [if_neg (by omega)]
      have hp4 : p < MAXPAGES := hp.trans_le hm.1
      refine (enter_spec hoff hpg hp4 (by omega)).imp ?_
      rintro r u ⟨rfl,rfl⟩
      exact .inr ⟨t,p,a,h,.inl rfl,hp4,(hm.2 p hp4).mpr hp,rfl,rfl,by omega,fun i h1 h2 =>
        hfree i h1 (by omega)⟩
  · rw [if_neg (by omega)]
    have hle : 0 + req ≤ NUM_ELEM := by omega
    refine (enter_spec hoff hpg hk hle).imp ?_
    rintro r u ⟨rfl,rfl⟩
    have ht := map_tiled h hm hk hf
    refine .inr ⟨s.map k page,k,0,ht,.inr ⟨k,rfl⟩,hk,?_,rfl,rfl,hle,fun i _ hi => ?_⟩
    · rw [map_mem_self]
      exact hf.1
    · by_contra hno
      obtain ⟨o,m,hl,-⟩ := (h.exact k hk i (by omega)).mp (Bool.not_eq_true _ ▸ hno)
      exact absurd ((hm.2 k hk).mp hl.2.1) (lt_irrefl k)

theorem dealloc_spec (h : Tiled s) (ptr : ℕ) :
    Total (dealloc ptr) s fun _ t => s.ptr_to_sz_pg ptr = none ∧ t = s ∨
      ∃ p off n, ptr = s.mem p + off * MINALLOC ∧ s.Live p off n ∧ t = s.takenBack p off n := by
  simp only [dealloc,post_bind,post_get]
  cases hp : s.ptr_to_sz_pg ptr with
  | none => exact .inl ⟨rfl,rfl⟩
  | some r =>
    obtain ⟨p,off,n,rfl,rfl,hlt,hmem,hpos,hle⟩ := h.inside ptr r hp
    have hoff : (s.mem p + off * MINALLOC - s.mem p) % 0x1000 / MINALLOC = off := by
      simp only [MINALLOC,NUM_ELEM,PAGESIZE] at hle ⊢
      omega
    have hidx : (p : ℤ) * NUM_ELEM + (off : ℕ) = (p * NUM_ELEM + off : ℕ) := by
      push_cast
      rfl
    simp only [post_bind,onBitmap,post_zoom,Int.toNat_natCast,hoff,hidx]
    refine (fill_spec (fun _ => ?_) _).imp ?_
    · simp only [MAXPAGES,NUM_ELEM,PAGESIZE,MINALLOC] at *
      omega
    · rintro - b rfl
      rw [post_modify,if_neg (by omega),post_modify,← Int.natCast_mul,Int.toNat_natCast]
      exact .inr ⟨p,off,n,rfl,⟨hlt,hmem,hp⟩,rfl⟩

theorem step_tiled (op : Op) (h : Tiled s) (hok : Fair op s) :
    Total (step op) s fun _ t => Tiled t := by
  cases op with
  | alloc sz page =>
    obtain ⟨req,hreq,rfl,hf,hs⟩ := hok
    refine (alloc_spec h hreq hf hs).imp ?_
    rintro r t (⟨-,rfl⟩ | ⟨u,p,off,hu,-,hp,hmem,-,rfl,hle,hfree⟩)
    · exact h
    · exact given_tiled hu hp hmem hreq hle hfree
  | dealloc ptr =>
    rw [step,Total,post_map]
    refine (dealloc_spec h ptr).imp ?_
    rintro - t (⟨-,rfl⟩ | ⟨p,off,n,-,hl,rfl⟩)
    · exact h
    · exact takenBack_tiled h hl

end Heap

end ResumePointers.Alloc
