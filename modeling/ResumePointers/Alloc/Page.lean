import ResumePointers.Alloc.Scan
import ResumePointers.Lib.Runs
import ResumePointers.Lib.Tiling

/-! The page allocator (`os/allocation-assignment/alloc.cpp`): one page of 512 slots of 8 bytes,
a bitmap of the free ones, and a table of the blocks that are out. -/
namespace ResumePointers.Alloc

def PAGESIZE : ℕ := 4096
def MINALLOC : ℕ := 8
def NUM_ELEM : ℕ := PAGESIZE / MINALLOC

/-- An index behind the end of an array. -/
inductive Fault
  | outOfBounds
deriving DecidableEq

/-- `for(int i = off; i < off + n; i++) bitmap[i] = v`, with a bitmap of `size` entries. -/
def fill (size : ℕ) (v : Bool) (off : ℤ) : ℕ → EStateM Fault (ℕ → Bool) Unit
  | 0 => pure ()
  | n+1 => do
    let bitmap ← get
    if 0 ≤ off ∧ off < size then
      set (Function.update bitmap off.toNat v)
      fill size v (off + 1) n
    else throw .outOfBounds

/-- `memset(ptr, 0, n)` -/
def clear (bytes : ℕ → UInt8) (ptr n : ℕ) : ℕ → UInt8 :=
  fun a => if ptr ≤ a ∧ a < ptr + n then 0 else bytes a

theorem fill_spec {size : ℕ} {v : Bool} {off n : ℕ} (h : 0 < n → off + n ≤ size)
    (bitmap : ℕ → Bool) :
    Total (fill size v off n) bitmap fun _ b =>
      b = fun i => if off ≤ i ∧ i < off + n then v else bitmap i := by
  induction n generalizing off bitmap with
  | zero =>
    funext i
    rw [if_neg (by omega)]
  | succ n ih =>
    have hle := h (Nat.succ_pos n)
    have hin : (0 : ℤ) ≤ off ∧ (off : ℤ) < size := by omega
    simp only [fill,post_bind,post_get,if_pos hin,post_set,Int.toNat_natCast]
    refine (@ih (off + 1) (by omega) _).imp ?_
    rintro - b rfl
    funext i
    by_cases hi : i = off
    · subst hi
      rw [if_neg (by omega),if_pos (by omega),Function.update_self]
    · rw [Function.update_of_ne hi]
      by_cases h' : off + 1 ≤ i ∧ i < off + 1 + n
      · rw [if_pos h',if_pos (by omega)]
      · rw [if_neg h',if_neg (by omega)]

/-- The globals of `alloc.cpp`, and the memory. -/
@[ext] structure Page where
  mem : ℕ
  bitmap : ℕ → Bool
  ptr_to_sz : ℕ → Option ℤ
  bytes : ℕ → UInt8

namespace Page

/-- `init_alloc`, where `mmap` answers with `mem`. -/
def init_alloc (mem : ℕ) (ram : ℕ → UInt8) : Page where
  mem := mem
  bitmap _ := true
  ptr_to_sz _ := none
  bytes := clear ram mem PAGESIZE

def onBitmap : EStateM Fault (ℕ → Bool) Unit → EStateM Fault Page Unit :=
  zoom Page.bitmap fun b s => { s with bitmap := b }

def alloc (sz : ℤ) : EStateM Fault Page (Option ℕ) := do
  if sz.tmod MINALLOC ≠ 0 then pure none
  else do
    let s ← get
    let req := sz.tdiv MINALLOC
    let scan := Scan.start.page NUM_ELEM req s.bitmap 0
    if scan.off = -1 then pure none
    else do
      let ptr := s.mem + (scan.off * MINALLOC).toNat
      set { s with ptr_to_sz := Function.update s.ptr_to_sz ptr (some req) }
      onBitmap (fill NUM_ELEM false scan.off req.toNat)
      pure (some ptr)

def dealloc (ptr : ℕ) : EStateM Fault Page Unit := do
  let s ← get
  match s.ptr_to_sz ptr with
  | none => pure ()
  | some num_blocks => do
    let off := (ptr - s.mem) % 0x1000 / MINALLOC
    onBitmap (fill NUM_ELEM true off num_blocks.toNat)
    modify fun s => { s with ptr_to_sz := Function.update s.ptr_to_sz ptr none }
    -- a negative count is a `size_t` that goes behind all memory
    if num_blocks < 0 then throw .outOfBounds
    else modify fun s => { s with bytes := clear s.bytes ptr (num_blocks * MINALLOC).toNat }

/-- `n` slots from slot `off` on are out. -/
def Live (s : Page) (off n : ℕ) : Prop := s.ptr_to_sz (s.mem + off * MINALLOC) = some (n : ℤ)

/-- The blocks in the table lie side by side in the page, and the bitmap has them. -/
structure Tiled (s : Page) : Prop where
  inside : ∀ ptr r, s.ptr_to_sz ptr = some r →
    ∃ off n : ℕ, ptr = s.mem + off * MINALLOC ∧ r = n ∧ 0 < n ∧ off + n ≤ NUM_ELEM
  apart : ∀ off n off' n', s.Live off n → s.Live off' n' → off ≠ off' →
    off + n ≤ off' ∨ off' + n' ≤ off
  exact : ∀ i < NUM_ELEM, s.bitmap i = false ↔ ∃ off n, s.Live off n ∧ off ≤ i ∧ i < off + n

inductive Op
  | alloc (sz : ℤ)
  | dealloc (ptr : ℕ)
  | write (addr : ℕ) (byte : UInt8)

/-- A call, or a store of the program that makes the calls. -/
def step : Op → EStateM Fault Page (Option ℕ)
  | .alloc sz => alloc sz
  | .dealloc ptr => (fun _ => none) <$> dealloc ptr
  | .write addr byte => do
    modify fun s => { s with bytes := Function.update s.bytes addr byte }
    pure none

/-- The address lies in a block that is out. -/
def InBlock (s : Page) (addr : ℕ) : Prop :=
  ∃ off n, s.Live off n ∧ s.mem + off * MINALLOC ≤ addr ∧
    addr < s.mem + off * MINALLOC + n * MINALLOC

/-- Requests are for a positive number of slots, and find no run of free slots that is too short
and has enough free slots from its start on; stores stay in blocks that are out. -/
def Fair (op : Op) (s : Page) : Prop :=
  match op with
  | .alloc sz => ∃ req : ℕ, 0 < req ∧ sz = req * MINALLOC ∧
    Clean (fun _ => s.bitmap) NUM_ELEM 1 req
  | .dealloc _ => True
  | .write addr _ => s.InBlock addr

variable {s t : Page} {off n req ptr : ℕ}

theorem Live.inside (h : Tiled s) (hl : s.Live off n) : 0 < n ∧ off + n ≤ NUM_ELEM := by
  obtain ⟨off',n',hptr,hn,hpos,hle⟩ := h.inside _ _ hl
  have h8 : MINALLOC = 8 := rfl
  rw [h8] at hptr
  obtain rfl : off = off' := by omega
  obtain rfl : n = n' := Int.ofNat.inj hn
  exact ⟨hpos,hle⟩

theorem init_tiled (mem : ℕ) (ram : ℕ → UInt8) : Tiled (init_alloc mem ram) where
  inside _ _ h := by cases h
  apart _ _ _ _ h := by cases h
  exact i _ := iff_of_false (fun h => by cases h) fun ⟨_,_,h,_⟩ => by cases h

/-- The page with `req` slots from `off` on given out. -/
def given (s : Page) (off req : ℕ) : Page := { s with
  ptr_to_sz := Function.update s.ptr_to_sz (s.mem + off * MINALLOC) (some (req : ℤ))
  bitmap := fun i => if off ≤ i ∧ i < off + req then false else s.bitmap i }

/-- The page with the block of `n` slots at `off` taken back. -/
def takenBack (s : Page) (off n : ℕ) : Page := { s with
  ptr_to_sz := Function.update s.ptr_to_sz (s.mem + off * MINALLOC) none
  bitmap := fun i => if off ≤ i ∧ i < off + n then true else s.bitmap i
  bytes := clear s.bytes (s.mem + off * MINALLOC) (n * MINALLOC) }

theorem given_live {off' n' : ℕ} : (s.given off req).Live off' n' ↔
    off' = off ∧ n' = req ∨ off' ≠ off ∧ s.Live off' n' := by
  have h8 : MINALLOC = 8 := rfl
  unfold Live given
  by_cases h : off' = off
  · subst h
    simp only [Function.update_self,Option.some.injEq,Int.natCast_inj,true_and,ne_eq,not_true_eq_false,
      false_and,or_false]
    exact eq_comm
  · dsimp only
    rw [Function.update_of_ne (by rw [h8]; omega)]
    simp [h]

theorem takenBack_live {off' n' : ℕ} :
    (s.takenBack off n).Live off' n' ↔ off' ≠ off ∧ s.Live off' n' := by
  have h8 : MINALLOC = 8 := rfl
  unfold Live takenBack
  by_cases h : off' = off
  · subst h
    simp [Function.update_self]
  · dsimp only
    rw [Function.update_of_ne (by rw [h8]; omega)]
    simp [h]

theorem Tiled.tiling (h : Tiled s) : Tiling s.Live s.bitmap NUM_ELEM where
  inside _ _ hl := hl.inside h
  single _ _ _ hm hn := Int.ofNat.inj (Option.some.inj (hm.symm.trans hn))
  apart := h.apart
  exact := h.exact

/-- Free slots are in no block. -/
theorem Tiled.free (h : Tiled s) (hreq : 0 < req) (hle : off + req ≤ NUM_ELEM)
    (hfree : ∀ i, off ≤ i → i < off + req → s.bitmap i = true) {off' n' : ℕ}
    (hl : s.Live off' n') : off' + n' ≤ off ∨ off + req ≤ off' := h.tiling.outside hreq hle hfree hl

theorem given_tiled (h : Tiled s) (hreq : 0 < req) (hle : off + req ≤ NUM_ELEM)
    (hfree : ∀ i, off ≤ i → i < off + req → s.bitmap i = true) : Tiled (s.given off req) := by
  have ht : Tiling (s.given off req).Live (s.given off req).bitmap NUM_ELEM :=
    h.tiling.give hreq hle hfree (fun _ _ => given_live) fun _ _ => rfl
  refine ⟨fun ptr r hptr => ?_,ht.apart,ht.exact⟩
  by_cases hp : ptr = s.mem + off * MINALLOC
  · subst hp
    simp only [given,Function.update_self,Option.some.injEq] at hptr
    exact ⟨off,req,rfl,hptr.symm,hreq,hle⟩
  · simp only [given,Function.update_of_ne hp] at hptr
    exact h.inside ptr r hptr

theorem takenBack_tiled (h : Tiled s) (hl : s.Live off n) : Tiled (s.takenBack off n) := by
  have ht : Tiling (s.takenBack off n).Live (s.takenBack off n).bitmap NUM_ELEM :=
    h.tiling.takeBack hl (fun _ _ => takenBack_live) fun _ _ => rfl
  refine ⟨fun ptr r hptr => ?_,ht.apart,ht.exact⟩
  by_cases hp : ptr = s.mem + off * MINALLOC
  · subst hp
    simp [takenBack,Function.update_self] at hptr
  · simp only [takenBack,Function.update_of_ne hp] at hptr
    exact h.inside ptr r hptr

theorem alloc_none {req : ℤ} (hoff : (Scan.start.page NUM_ELEM req s.bitmap 0).off = -1) :
    Total (alloc (req * MINALLOC)) s fun r t => r = none ∧ t = s := by
  have hdiv : (req * MINALLOC).tdiv MINALLOC = req := Int.mul_tdiv_cancel _ (by decide)
  simp only [alloc,Int.mul_tmod_left,ne_eq,not_true_eq_false,if_false,post_bind,post_get,hdiv,
    if_pos hoff]
  exact ⟨rfl,rfl⟩

theorem alloc_some {req : ℤ} (hoff : (Scan.start.page NUM_ELEM req s.bitmap 0).off = off)
    (hle : 0 < req.toNat → off + req.toNat ≤ NUM_ELEM) : Total (alloc (req * MINALLOC)) s fun r t =>
      r = some (s.mem + off * MINALLOC) ∧ t = { s with
        ptr_to_sz := Function.update s.ptr_to_sz (s.mem + off * MINALLOC) (some req)
        bitmap := fun i => if off ≤ i ∧ i < off + req.toNat then false else s.bitmap i } := by
  have hdiv : (req * MINALLOC).tdiv MINALLOC = req := Int.mul_tdiv_cancel _ (by decide)
  simp only [alloc,Int.mul_tmod_left,ne_eq,not_true_eq_false,if_false,post_bind,post_get,hdiv]
  generalize Scan.start.page NUM_ELEM req s.bitmap 0 = scan at hoff
  have hptr : (scan.off * MINALLOC).toNat = off * MINALLOC := by
    rw [hoff,← Int.natCast_mul,Int.toNat_natCast]
  rw [if_neg (by omega)]
  simp only [post_bind,post_set,onBitmap,post_zoom,hptr]
  rw [hoff]
  refine (fill_spec hle _).imp ?_
  rintro - b rfl
  exact ⟨rfl,rfl⟩

/-- `alloc` gives out a run of free slots, or nothing. -/
theorem alloc_spec (hreq : 0 < req) (hc : Clean (fun _ => s.bitmap) NUM_ELEM 1 req) :
    Total (alloc (req * MINALLOC)) s fun r t => r = none ∧ t = s ∨
      ∃ off, r = some (s.mem + off * MINALLOC) ∧ t = s.given off req ∧ off + req ≤ NUM_ELEM ∧
        ∀ i, off ≤ i → i < off + req → s.bitmap i = true := by
  obtain ⟨h1,h2⟩ := @start_spec (fun _ => s.bitmap) NUM_ELEM 1 req hreq
  cases (page_spec hc (by decide) Nat.one_pos h1 h2).1 with
  | none hoff => exact (alloc_none hoff).imp fun _ _ h => .inl h
  | @found p a m hoff hpg hm hp hle hfree =>
    refine (alloc_some hoff fun _ => by omega).imp ?_
    rintro r t ⟨rfl,rfl⟩
    exact .inr ⟨a,rfl,rfl,by omega,fun i h1 h2 => hfree i h1 (by omega)⟩

theorem dealloc_spec (h : Tiled s) (ptr : ℕ) :
    Total (dealloc ptr) s fun _ t => s.ptr_to_sz ptr = none ∧ t = s ∨
      ∃ off n, ptr = s.mem + off * MINALLOC ∧ s.Live off n ∧ t = s.takenBack off n := by
  simp only [dealloc,post_bind,post_get]
  cases hp : s.ptr_to_sz ptr with
  | none => exact .inl ⟨rfl,rfl⟩
  | some r =>
    obtain ⟨off,n,rfl,rfl,hpos,hle⟩ := h.inside ptr r hp
    have hoff : (s.mem + off * MINALLOC - s.mem) % 0x1000 / MINALLOC = off := by
      simp only [MINALLOC,NUM_ELEM,PAGESIZE] at hle ⊢
      omega
    simp only [post_bind,onBitmap,post_zoom,hoff,Int.toNat_natCast]
    refine (fill_spec (fun _ => hle) _).imp ?_
    rintro - b rfl
    rw [post_modify,if_neg (by omega),post_modify,← Int.natCast_mul,Int.toNat_natCast]
    exact .inr ⟨off,n,rfl,hp,rfl⟩

end Page

/-- The runs of a program that keeps to `Fair`. -/
abbrev PageRun : Page → Prop :=
  Reach Page.step Page.Fair fun s => ∃ mem ram, s = Page.init_alloc mem ram

end ResumePointers.Alloc
