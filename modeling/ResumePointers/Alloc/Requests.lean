import ResumePointers.Alloc.BestFit
import ResumePointers.Alloc.Search

/-! Which arguments `alloc` of `alloc.cpp` copes with. Its only check is that 8 divides the size, so
a request for no slots, or for fewer than none, is answered like any other. -/
namespace ResumePointers.Alloc

namespace Page

/-- The answer to a call: nothing is done, or a new block of at least one slot is recorded, which lies
in the page, and nothing of another block is touched. -/
inductive Handled (s : Page) : Option ℕ → Page → Prop
  | refused {t : Page} (hbits : t.bitmap = s.bitmap) (htable : t.ptr_to_sz = s.ptr_to_sz) :
      Handled s none t
  | given {t : Page} {off n : ℕ} (hnew : s.ptr_to_sz (s.mem + off * MINALLOC) = none)
      (hmem : t.mem = s.mem) (hlive : t.Live off n) (hpos : 0 < n) (hle : off + n ≤ NUM_ELEM)
      (htable : ∀ ptr, ptr ≠ s.mem + off * MINALLOC → t.ptr_to_sz ptr = s.ptr_to_sz ptr)
      (hbits : ∀ i, t.bitmap i ≠ s.bitmap i → off ≤ i ∧ i < off + n)
      (hapart : ∀ off' n', s.Live off' n' → off' + n' ≤ off ∨ off + n ≤ off') :
      Handled s (some (s.mem + off * MINALLOC)) t

/-- The size is no multiple of 8; or it is not positive, and no slot is free; or too few slots are
free for it, or the last group that the scan takes is one run. -/
def Answers (s : Page) (sz : ℤ) : Prop :=
  sz.tmod MINALLOC ≠ 0 ∨ sz ≤ 0 ∧ freeIn s.bitmap 0 NUM_ELEM = 0 ∨
    ∃ req : ℕ, 0 < req ∧ sz = req * MINALLOC ∧ (freeIn s.bitmap 0 NUM_ELEM < req ∨
      ∃ a e, Final s.bitmap NUM_ELEM req (a,e) ∧ ∀ i, a ≤ i → i < e → s.bitmap i = true)

/-- Requests are such, and stores stay in blocks that are out. -/
def Sound (op : Op) (s : Page) : Prop :=
  match op with
  | .alloc sz => s.Answers sz
  | .dealloc _ => True
  | .write addr _ => s.InBlock addr

variable {s : Page} {a e req : ℕ} {sz : ℤ}

theorem Handled.block {ptr : ℕ} {t : Page} (h : Handled s (some ptr) t) : ∃ off n,
    ptr = s.mem + off * MINALLOC ∧ t.mem = s.mem ∧ t.Live off n ∧ 0 < n ∧
      ∀ off' n', s.Live off' n' → off' + n' ≤ off ∨ off + n ≤ off' := by
  cases h with
  | @given _ off n _ hmem hlive hpos _ _ _ hapart => exact ⟨off,n,rfl,hmem,hlive,hpos,hapart⟩

theorem alloc_refused (hmod : sz.tmod MINALLOC ≠ 0) :
    Total (alloc sz) s fun r t => r = none ∧ t = s := by
  simp only [alloc,if_pos hmod]
  exact ⟨rfl,rfl⟩

/-- A request for no slots, or for fewer, gets a free slot if there is one. -/
theorem alloc_nonpos {req : ℤ} (hreq : req ≤ 0) : Total (alloc (req * MINALLOC)) s fun r t =>
    freeIn s.bitmap 0 NUM_ELEM = 0 ∧ r = none ∧ t = s ∨
      freeIn s.bitmap 0 NUM_ELEM ≠ 0 ∧ ∃ a : ℕ, r = some (s.mem + a * MINALLOC) ∧ t.mem = s.mem ∧
        t.ptr_to_sz (s.mem + a * MINALLOC) = some req := by
  have hmax : ((0 + freeIn s.bitmap 0 NUM_ELEM : ℕ) : ℤ) ≤ INT32_MAX := by
    have h1 : freeIn s.bitmap 0 NUM_ELEM ≤ NUM_ELEM - 0 := freeIn_le
    have h2 : ((NUM_ELEM : ℕ) : ℤ) ≤ INT32_MAX := by decide
    omega
  rcases page_seeks (j := 0) (@Seeks.start req) hmax with ⟨hoff,hfew⟩ | ⟨hoff,hsome,-⟩
  · exact (alloc_none hoff).imp fun r t h => .inl ⟨by omega,h⟩
  · obtain ⟨a,ha⟩ := Int.eq_ofNat_of_zero_le hoff
    refine (alloc_some ha (by omega)).imp ?_
    rintro r t ⟨rfl,rfl⟩
    exact .inr ⟨by omega,a,rfl,rfl,Function.update_self _ _ _⟩

theorem given_handled (h : Tiled s) (hreq : 0 < req) (hle : a + req ≤ NUM_ELEM)
    (hfree : ∀ i, a ≤ i → i < a + req → s.bitmap i = true) :
    Handled s (some (s.mem + a * MINALLOC)) (s.given a req) := by
  have hapart : ∀ off' n', s.Live off' n' → off' + n' ≤ a ∨ a + req ≤ off' :=
    fun _ _ hl => h.free hreq hle hfree hl
  refine .given ?_ rfl (Function.update_self _ _ _) hreq hle
    (fun ptr hp => Function.update_of_ne hp _ _) (fun i hi => ?_) hapart
  · cases hp : s.ptr_to_sz (s.mem + a * MINALLOC) with
    | none => rfl
    | some r =>
      obtain ⟨off,n,hptr,rfl,hpos,-⟩ := h.inside _ _ hp
      obtain rfl : a = off := by
        simp only [MINALLOC] at hptr
        omega
      have := hapart a n hp
      omega
  · by_contra hout
    exact hi (if_neg hout)

/-- A block apart from all others is made of free slots. -/
theorem Tiled.free_of_apart (h : Tiled s) (hle : a + req ≤ NUM_ELEM)
    (hapart : ∀ off' n', s.Live off' n' → off' + n' ≤ a ∨ a + req ≤ off') {i : ℕ} (hi : a ≤ i)
    (hir : i < a + req) : s.bitmap i = true := by
  by_contra hused
  obtain ⟨off,n,hl,h1,h2⟩ := (h.exact i (by omega)).mp (Bool.not_eq_true _ ▸ hused)
  have := hapart off n hl
  omega

/-- If its first slots are free, as many as are asked for, then the last group is one run. -/
theorem one_run_of_free {bit : ℕ → Bool} {n : ℕ} (hfin : Final bit n req (a,e))
    (hfree : ∀ i, a ≤ i → i < a + req → bit i = true) {i : ℕ} (hi : a ≤ i) (hie : i < e) :
    bit i = true := by
  obtain ⟨c,hg⟩ := hfin.1.group
  by_contra hused
  have hb : bit i = false := by simpa using hused
  have hlate : a + req ≤ i := by
    by_contra hlt
    rw [hfree i hi (by omega)] at hb
    cases hb
  have hne : a ≠ i := by
    rintro rfl
    rw [hg.first] at hb
    cases hb
  have htight : freeIn bit a i < req := hg.tight i (by omega) hie hb
  have hcount : freeIn bit a (a + req) = req := by
    rw [freeIn_run hfree]
    omega
  have hmono : freeIn bit a (a + req) ≤ freeIn bit a i := freeIn_mono hlate
  omega

/-- Where `Answers` holds, nothing is done, or free slots are given out. -/
theorem answers_spec (h : s.Answers sz) : Total (alloc sz) s fun r t => r = none ∧ t = s ∨
    ∃ a req, 0 < req ∧ a + req ≤ NUM_ELEM ∧ (∀ i, a ≤ i → i < a + req → s.bitmap i = true) ∧
      r = some (s.mem + a * MINALLOC) ∧ t = s.given a req := by
  by_cases hmod : sz.tmod MINALLOC = 0
  · rcases h with hno | ⟨hsz,hfull⟩ | ⟨req,hreq,rfl,hans⟩
    · exact (hno hmod).elim
    · obtain ⟨q,rfl⟩ : ∃ q : ℤ, sz = q * MINALLOC :=
        ⟨sz.tdiv MINALLOC,(Int.tdiv_mul_cancel (Int.dvd_of_tmod_eq_zero hmod)).symm⟩
      refine (alloc_nonpos (by simp only [MINALLOC] at hsz; omega)).imp ?_
      rintro r t (⟨-,hres⟩ | ⟨hsome,-⟩)
      · exact .inl hres
      · exact (hsome hfull).elim
    · refine (alloc_final hreq).imp ?_
      rintro r t (⟨rfl,rfl,-⟩ | ⟨a,e,hfin,rfl,rfl⟩)
      · exact .inl ⟨rfl,rfl⟩
      · have hlarge := hfin.slots.1
        have hlen := @freeIn_le s.bitmap a e
        rcases hans with hfew | ⟨a',e',hfin',hfree⟩
        · have := @freeIn_sub s.bitmap _ _ _ _ (Nat.zero_le a) hfin.slots.2.2
          omega
        · obtain ⟨rfl,rfl⟩ := Prod.mk.inj (hfin'.unique hfin)
          exact .inr ⟨a',req,hreq,hfin.le,fun i h1 h2 => hfree i h1 (by omega),rfl,rfl⟩
  · exact (alloc_refused hmod).imp fun _ _ h => .inl h

/-- Where blocks tile the page, a call is handled exactly if `Answers` holds of its argument. -/
theorem handled_iff (h : Tiled s) (sz : ℤ) :
    Total (alloc sz) s (fun r t => Handled s r t) ↔ s.Answers sz := by
  constructor
  · intro hh
    by_cases hmod : sz.tmod MINALLOC = 0
    · obtain ⟨q,rfl⟩ : ∃ q : ℤ, sz = q * MINALLOC :=
        ⟨sz.tdiv MINALLOC,(Int.tdiv_mul_cancel (Int.dvd_of_tmod_eq_zero hmod)).symm⟩
      rcases le_or_gt q 0 with hq | hq
      · -- a block of no slots, or of fewer, is none
        obtain ⟨r,t,-,hres,hspec⟩ := (hh.and_post (alloc_nonpos hq)).exists_ok
        rcases hspec with ⟨hfull,-⟩ | ⟨-,a,rfl,hmem,hrec⟩
        · exact .inr (.inl ⟨by simp only [MINALLOC]; omega,hfull⟩)
        · obtain ⟨off,n,hptr,hmem',hlive,hpos,-⟩ := hres.block
          rw [Live,hmem',← hptr,hrec] at hlive
          have := Option.some.inj hlive
          omega
      · obtain ⟨req,rfl⟩ := Int.eq_ofNat_of_zero_le hq.le
        have hreq : 0 < req := by omega
        obtain ⟨r,t,-,hres,hspec⟩ := (hh.and_post (alloc_final hreq)).exists_ok
        rcases hspec with ⟨-,-,hfew⟩ | ⟨a,e,hfin,rfl,rfl⟩
        · exact .inr (.inr ⟨req,hreq,rfl,.inl hfew⟩)
        · obtain ⟨off,n,hptr,-,hlive,-,hapart⟩ := hres.block
          obtain rfl : a = off := by
            simp only [MINALLOC] at hptr
            omega
          rcases given_live.mp hlive with ⟨-,rfl⟩ | ⟨hne,-⟩
          · have hfree := fun i => h.free_of_apart (i := i) hfin.le hapart
            have hone : ∀ i, a ≤ i → i < e → s.bitmap i = true :=
              fun i h1 h2 => one_run_of_free hfin hfree h1 h2
            exact .inr (.inr ⟨n,hreq,rfl,.inr ⟨a,e,hfin,hone⟩⟩)
          · exact (hne rfl).elim
    · exact .inl hmod
  · intro hans
    refine (answers_spec hans).imp ?_
    rintro r t (⟨rfl,rfl⟩ | ⟨a,req,hreq,hle,hfree,rfl,rfl⟩)
    · exact .refused rfl rfl
    · exact given_handled h hreq hle hfree

theorem step_sound (op : Op) (h : Tiled s) (hok : Sound op s) :
    Total (step op) s fun _ t => Tiled t := by
  cases op with
  | alloc sz =>
    refine (answers_spec hok).imp ?_
    rintro r t (⟨-,rfl⟩ | ⟨a,req,hreq,hle,hfree,-,rfl⟩)
    · exact h
    · exact given_tiled h hreq hle hfree
  | dealloc ptr =>
    rw [step,Total,post_map]
    refine (dealloc_spec h ptr).imp ?_
    rintro - t (⟨-,rfl⟩ | ⟨off,n,-,hl,rfl⟩)
    · exact h
    · exact takenBack_tiled h hl
  | write addr byte =>
    simp only [step,post_bind,post_modify,post_pure]
    exact ⟨h.inside,h.apart,h.exact⟩

end Page

open Page

/-- The runs of a program whose requests `alloc` copes with. -/
abbrev SoundRun : Page → Prop :=
  Reach Page.step Page.Sound fun s => ∃ mem ram, s = Page.init_alloc mem ram

variable {s : Page}

theorem sound_run_tiled (h : SoundRun s) : s.Tiled :=
  h.invariant (I := Page.Tiled) (fun _ ⟨mem,ram,hs⟩ => hs ▸ Page.init_tiled mem ram)
    fun op _ hi ho => (Page.step_sound op hi ho).post fun _ _ ht => ht

/-- In every state that such a run reaches, a call of `alloc` with any argument is handled exactly
if `Answers` holds of the argument. -/
theorem every_argument_handled (h : SoundRun s) (sz : ℤ) :
    Total (alloc sz) s (fun r t => s.Handled r t) ↔ s.Answers sz :=
  handled_iff (sound_run_tiled h) sz

/-- The first request, for one slot. -/
theorem every_argument_handled_first : ∃ s, SoundRun s ∧ s.Answers ((1 : ℕ) * MINALLOC) ∧
    Total (alloc ((1 : ℕ) * MINALLOC)) s fun r t => s.Handled r t := by
  have hinit : SoundRun (Page.init_alloc 0x1000 fun _ => 0) := .init ⟨_,_,rfl⟩
  have hans : (Page.init_alloc 0x1000 fun _ => 0).Answers ((1 : ℕ) * MINALLOC) :=
    .inr (.inr ⟨1,Nat.one_pos,rfl,.inr ⟨0,NUM_ELEM,init_final,fun _ _ _ => rfl⟩⟩)
  refine ⟨_,hinit,hans,?_⟩
  rw [every_argument_handled hinit]
  exact hans

/-- The first request is for -8 bytes. It gets the first slot, which is recorded as a block of -1 slots
and stays free, and `dealloc` of it clears more bytes than there are. -/
theorem negative_request_is_taken : ∃ s, alloc (-8) (Page.init_alloc 0x1000 fun _ => 0) =
    .ok (some 0x1000) s ∧ s.ptr_to_sz 0x1000 = some (-1) ∧
    (returns (dealloc 0x1000) s fun _ _ => true) = false ∧
    ¬ (Page.init_alloc 0x1000 fun _ => 0).Handled (some 0x1000) s := by
  obtain ⟨r,s,hok,hp⟩ := exists_of_returns (by decide +kernel :
    returns (alloc (-8)) (Page.init_alloc 0x1000 fun _ => 0) (fun r s => decide
      (r = some 0x1000 ∧ s.ptr_to_sz 0x1000 = some (-1) ∧
        (returns (dealloc 0x1000) s fun _ _ => true) = false)) = true)
  obtain ⟨rfl,hrec,hfault⟩ := of_decide_eq_true hp
  refine ⟨s,hok,hrec,hfault,fun hh => ?_⟩
  obtain ⟨off,n,hptr,hmem,hlive,-⟩ := hh.block
  rw [Live,hmem,← hptr,hrec] at hlive
  have := Option.some.inj hlive
  omega

end ResumePointers.Alloc
