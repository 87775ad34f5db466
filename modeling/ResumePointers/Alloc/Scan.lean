import Mathlib.Data.Finset.Prod
import Mathlib.Data.Finset.Card
import Mathlib.Order.Interval.Finset.Nat

/-! The search for a run of free slots in `os/allocation-assignment`: the loop over the slots of
a page that `alloc.cpp` has, and that `ealloc.cpp` runs through page after page. It closes a run
only where it takes it, so a run that is too short goes on behind the slots in use. -/
namespace ResumePointers.Alloc

def INT32_MAX : ℤ := 2^31 - 1

/-- The local variables of `alloc`. -/
@[ext] structure Scan where
  minsz : ℤ
  tmpminsz : ℤ
  tmpoff : ℤ
  off : ℤ
  pg_ind : ℤ
  flag : Bool
deriving DecidableEq

namespace Scan

def start : Scan := ⟨INT32_MAX,-1,-1,-1,-1,false⟩

/-- `(minsz >= tmpminsz) && (tmpminsz >= req)` -/
def Fits (req : ℤ) (s : Scan) : Prop := s.minsz ≥ s.tmpminsz ∧ s.tmpminsz ≥ req

instance (req : ℤ) (s : Scan) : Decidable (s.Fits req) := inferInstanceAs (Decidable (_ ∧ _))

def take (j : ℕ) (s : Scan) : Scan :=
  { s with minsz := s.tmpminsz, off := s.tmpoff, pg_ind := j }

/-- The body of the loop at slot `i` of page `j`, with `bit` in the bitmap. -/
def slot (req : ℤ) (j i : ℕ) (bit : Bool) (s : Scan) : Scan :=
  if s.flag = false then
    if bit then { s with flag := true, tmpoff := i, tmpminsz := 1 } else s
  else if bit then { s with tmpminsz := s.tmpminsz + 1 }
  else if s.Fits req then { s.take j with flag := false } else s

/-- The first `i` slots of page `j`. -/
def slots (req : ℤ) (bit : ℕ → Bool) (j i : ℕ) (s : Scan) : Scan :=
  (List.range i).foldl (fun s i => s.slot req j i (bit i)) s

/-- A page of `n` slots, and the test behind it. -/
def page (n : ℕ) (req : ℤ) (bit : ℕ → Bool) (j : ℕ) (s : Scan) : Scan :=
  let s := s.slots req bit j n
  if s.Fits req then s.take j else s

theorem slots_succ (req : ℤ) (bit : ℕ → Bool) (j i : ℕ) (s : Scan) :
    s.slots req bit j (i + 1) = (s.slots req bit j i).slot req j i (bit i) := by
  rw [slots,List.range_succ,List.foldl_append]
  rfl

end Scan

/-- `[a, e)` is a run of free slots that goes no further on either side. -/
structure FreeRun (bit : ℕ → Bool) (n a e : ℕ) : Prop where
  lt : a < e
  le : e ≤ n
  free : ∀ i, a ≤ i → i < e → bit i = true
  left : ∀ b, a = b + 1 → bit b = false
  right : e < n → bit e = false

/-- The free slots of pages `p`, `p + 1`, ..., `k - 1` from slot `a` of page `p` on. -/
def freeFrom (bit : ℕ → ℕ → Bool) (n k p a : ℕ) : ℕ :=
  ((Finset.range k ×ˢ Finset.range n).filter fun x =>
    bit x.1 x.2 = true ∧ (p < x.1 ∨ p = x.1 ∧ a ≤ x.2)).card

variable {bit : ℕ → ℕ → Bool} {n k p a e i j req : ℕ} {s : Scan}

theorem freeFrom_free (hp : p < k) (ha : a < n) (hb : bit p a = true) :
    freeFrom bit n k p a = freeFrom bit n k p (a + 1) + 1 := by
  unfold freeFrom
  rw [← Finset.card_insert_of_notMem (a := (p,a)) (by simp)]
  congr 1
  ext ⟨q,b⟩
  simp only [Finset.mem_filter,Finset.mem_product,Finset.mem_range,Finset.mem_insert,Prod.mk.injEq]
  constructor
  · rintro ⟨⟨hq,hbn⟩,hfree,hlt | ⟨rfl,hle⟩⟩
    · exact .inr ⟨⟨hq,hbn⟩,hfree,.inl hlt⟩
    · by_cases h : b = a
      · exact .inl ⟨rfl,h⟩
      · exact .inr ⟨⟨hq,hbn⟩,hfree,.inr ⟨rfl,by omega⟩⟩
  · rintro (⟨rfl,rfl⟩ | ⟨hqb,hfree,hlt | ⟨rfl,hle⟩⟩)
    · exact ⟨⟨hp,ha⟩,hb,.inr ⟨rfl,le_rfl⟩⟩
    · exact ⟨hqb,hfree,.inl hlt⟩
    · exact ⟨hqb,hfree,.inr ⟨rfl,by omega⟩⟩

theorem freeFrom_mono (h : a ≤ e) : freeFrom bit n k p e ≤ freeFrom bit n k p a := by
  refine Finset.card_le_card fun x hx => ?_
  rw [Finset.mem_filter] at hx ⊢
  exact ⟨hx.1,hx.2.1,hx.2.2.imp_right fun h' => ⟨h'.1,h.trans h'.2⟩⟩

theorem freeFrom_next : freeFrom bit n k (p + 1) 0 ≤ freeFrom bit n k p a := by
  refine Finset.card_le_card fun x hx => ?_
  rw [Finset.mem_filter] at hx ⊢
  exact ⟨hx.1,hx.2.1,.inl (by omega)⟩

/-- A run counts with all its slots. -/
theorem freeFrom_run (hp : p < k) (hae : a ≤ e) (hn : e ≤ n)
    (hfree : ∀ i, a ≤ i → i < e → bit p i = true) :
    freeFrom bit n k p a = e - a + freeFrom bit n k p e := by
  induction e, hae using Nat.le_induction with
  | base => simp
  | succ e hae ih =>
    rw [ih (by omega) fun i h1 h2 => hfree i h1 (by omega),
      freeFrom_free hp (by omega) (hfree e hae (by omega))]
    omega

/-- Of the first `k` pages, no run that is too short has enough free slots from its start on, in
its own page and in those behind it, and behind a page whose last run is long enough comes one
that goes on with it, or one that has a free slot at all if the run ends before the page does. -/
structure Clean (bit : ℕ → ℕ → Bool) (n k req : ℕ) : Prop where
  short : ∀ p < k, ∀ a e, FreeRun (bit p) n a e → e - a < req → freeFrom bit n k p a < req
  turn : ∀ p, p + 1 < k → ∀ a e, FreeRun (bit p) n a e → req ≤ e - a →
    (e = n → bit (p + 1) 0 = true) ∧
    (e < n → (∀ i, e ≤ i → i < n → bit p i = false) → ∃ i < n, bit (p + 1) i = true)

/-- What the scan has found in the first `j` pages: nothing, or `m` free slots of one of them. -/
inductive Best (bit : ℕ → ℕ → Bool) (n req j : ℕ) (s : Scan) : Prop
  | none (h : s.off = -1)
  | found {p a m : ℕ} (hoff : s.off = a) (hpg : s.pg_ind = p) (hm : req ≤ m) (hp : p < j)
      (hle : a + m ≤ n) (hfree : ∀ i, a ≤ i → i < a + m → bit p i = true)

/-- How the scan stands before slot `i` of page `j`. -/
inductive Stands (bit : ℕ → ℕ → Bool) (n k req j i : ℕ) (s : Scan) : Prop
  | idle (hf : s.flag = false) (ht : s.tmpminsz < req) (hused : ∀ i' < i, bit j i' = false)
  | taken {a e : ℕ} (hf : s.flag = false) (ha : s.tmpoff = a) (ho : s.off = a)
      (ht : s.tmpminsz = (e - a : ℕ)) (hm : s.minsz = (e - a : ℕ)) (hpg : s.pg_ind = j)
      (hr : FreeRun (bit j) n a e) (hreq : req ≤ e - a) (hen : e < n) (hei : e < i)
      (hused : ∀ i', e ≤ i' → i' < i → bit j i' = false)
  | passed (hf : s.flag = false) (hused : ∀ i' < i, bit j i' = false)
      (hsome : j < k → ∃ i' < n, bit j i' = true)
  | open {a : ℕ} (hf : s.flag = true) (hai : a < i) (ha : s.tmpoff = a) (ht : s.tmpminsz = (i - a : ℕ))
      (hfree : ∀ i', a ≤ i' → i' < i → bit j i' = true) (hleft : ∀ b, a = b + 1 → bit j b = false)
  | short (hf : s.flag = true) (ht : s.tmpminsz + freeFrom bit n k j i < req)
  | stuck (hf : s.flag = true) (ht : s.minsz < s.tmpminsz)
  | carried (hf : s.flag = true) (hi : i = 0) (ht : s.minsz ≤ s.tmpminsz)
      (hb : j < k → bit j 0 = true)

theorem Best.mono (h : Best bit n req j s) (hj : j ≤ p) : Best bit n req p s := by
  cases h with
  | none h => exact .none h
  | found ho hpg hm hp hle hfree => exact .found ho hpg hm (hp.trans_le hj) hle hfree

theorem Best.congr {t : Scan} (h : Best bit n req j s) (ho : t.off = s.off)
    (hp : t.pg_ind = s.pg_ind) : Best bit n req j t := by
  cases h with
  | none h => exact .none (ho.trans h)
  | found h1 h2 hm hp' hle hfree => exact .found (ho.trans h1) (hp.trans h2) hm hp' hle hfree

/-- A run that fits is the best one so far. -/
theorem Best.run {t : Scan} (hr : FreeRun (bit j) n a e) (hreq : req ≤ e - a) (ho : t.off = a)
    (hp : t.pg_ind = j) : Best bit n req (j + 1) t := by
  have hlt := hr.lt
  have hle := hr.le
  exact .found ho hp hreq (Nat.lt_succ_self j) (by omega) fun i h1 h2 => hr.free i h1 (by omega)

theorem slot_idle_free (hf : s.flag = false) (hb : Best bit n req (j + 1) s)
    (hbit : bit j i = true) (hleft : ∀ b, i = b + 1 → bit j b = false) :
    Best bit n req (j + 1) (s.slot req j i true) ∧ Stands bit n k req j (i + 1) (s.slot req j i true) := by
  rw [Scan.slot,if_pos hf,if_pos rfl]
  refine ⟨hb.congr rfl rfl,.open (a := i) rfl (Nat.lt_succ_self i) rfl (by simp) ?_ hleft⟩
  intro i' h1 h2
  obtain rfl : i' = i := by omega
  exact hbit

theorem slot_idle_used (hf : s.flag = false) : s.slot req j i false = s := by
  rw [Scan.slot,if_pos hf]
  rfl

theorem slot_open_free (hf : s.flag = true) :
    s.slot req j i true = { s with tmpminsz := s.tmpminsz + 1 } := by
  rw [Scan.slot,hf]
  rfl

theorem slot_open_used (hf : s.flag = true) : s.slot req j i false =
    if s.Fits req then { s.take j with flag := false } else s := by
  rw [Scan.slot,hf]
  rfl

/-- One slot. -/
theorem slot_spec (hc : Clean bit n k req) (hj : j < k) (hi : i < n)
    (hb : Best bit n req (j + 1) s) (hs : Stands bit n k req j i s) :
    Best bit n req (j + 1) (s.slot req j i (bit j i)) ∧
    Stands bit n k req j (i + 1) (s.slot req j i (bit j i)) := by
  have hsucc : ∀ {m : ℕ} (_ : ∀ i', m ≤ i' → i' < i → bit j i' = false), bit j i = false →
      ∀ i', m ≤ i' → i' < i + 1 → bit j i' = false := by
    intro m h hbit i' h1 h2
    rcases Nat.lt_succ_iff_lt_or_eq.mp h2 with hlt | rfl
    · exact h i' h1 hlt
    · exact hbit
  cases hbit : bit j i with
  | true =>
    cases hs with
    | idle hf ht hused => exact slot_idle_free hf hb hbit fun b hib => hused b (by omega)
    | taken hf ha ho ht hm hpg hr hreq hen hei hused =>
      exact slot_idle_free hf hb hbit fun b hib => hused b (by omega) (by omega)
    | passed hf hused => exact slot_idle_free hf hb hbit fun b hib => hused b (by omega)
    | @«open» a hf hai ha ht hfree hleft =>
      rw [slot_open_free hf]
      refine ⟨hb.congr rfl rfl,.open (a := a) hf (by omega) ha ?_ (fun i' h1 h2 => ?_) hleft⟩
      · dsimp only
        omega
      · rcases Nat.lt_succ_iff_lt_or_eq.mp h2 with hlt | rfl
        · exact hfree i' h1 hlt
        · exact hbit
    | short hf ht =>
      rw [slot_open_free hf]
      refine ⟨hb.congr rfl rfl,.short hf ?_⟩
      have := freeFrom_free hj hi hbit
      dsimp only
      omega
    | stuck hf ht =>
      rw [slot_open_free hf]
      exact ⟨hb.congr rfl rfl,.stuck hf (by dsimp only; omega)⟩
    | carried hf h0 ht =>
      rw [slot_open_free hf]
      exact ⟨hb.congr rfl rfl,.stuck hf (by dsimp only; omega)⟩
  | false =>
    cases hs with
    | idle hf ht hused =>
      rw [slot_idle_used hf]
      exact ⟨hb,.idle hf ht fun i' h => hsucc (fun i' _ => hused i') hbit i' (Nat.zero_le _) h⟩
    | taken hf ha ho ht hm hpg hr hreq hen hei hused =>
      rw [slot_idle_used hf]
      exact ⟨hb,.taken hf ha ho ht hm hpg hr hreq hen (by omega) (hsucc hused hbit)⟩
    | passed hf hused hsome =>
      rw [slot_idle_used hf]
      exact ⟨hb,.passed hf (fun i' h => hsucc (fun i' _ => hused i') hbit i' (Nat.zero_le _) h)
        hsome⟩
    | @«open» a hf hai ha ht hfree hleft =>
      have hr : FreeRun (bit j) n a i := ⟨hai,hi.le,hfree,hleft,fun _ => hbit⟩
      rw [slot_open_used hf]
      split
      · rename_i hfit
        have hreq : req ≤ i - a := by
          have := hfit.2
          omega
        refine ⟨Best.run hr hreq ha rfl,.taken rfl ha ha ht ht rfl hr hreq hi (by omega) ?_⟩
        intro i' h1 h2
        obtain rfl : i' = i := by omega
        exact hbit
      · rename_i hfit
        refine ⟨hb,?_⟩
        by_cases hlt : i - a < req
        · -- the run is too short, and goes on
          refine .short hf ?_
          have h1 := hc.short j hj a i hr hlt
          have h2 := freeFrom_run hj hai.le hi.le hfree
          have h3 : freeFrom bit n k j (i + 1) ≤ freeFrom bit n k j i := freeFrom_mono (by omega)
          omega
        · refine .stuck hf ?_
          by_contra hle
          exact hfit ⟨by omega,by omega⟩
    | short hf ht =>
      rw [slot_open_used hf,if_neg fun hfit => by have := hfit.2; omega]
      have h3 : freeFrom bit n k j (i + 1) ≤ freeFrom bit n k j i := freeFrom_mono (by omega)
      exact ⟨hb,.short hf (by omega)⟩
    | stuck hf ht =>
      rw [slot_open_used hf,if_neg fun hfit => by have := hfit.1; omega]
      exact ⟨hb,.stuck hf ht⟩
    | carried hf h0 ht hfirst =>
      subst h0
      rw [hfirst hj] at hbit
      cases hbit

/-- A page, and the test behind it. -/
theorem page_spec (hc : Clean bit n k req) (hn : 0 < n) (hj : j < k)
    (hb : Best bit n req j s) (hs : Stands bit n k req j 0 s) :
    Best bit n req (j + 1) (s.page n req (bit j) j) ∧
    Stands bit n k req (j + 1) 0 (s.page n req (bit j) j) := by
  have hloop : ∀ i ≤ n, Best bit n req (j + 1) (s.slots req (bit j) j i) ∧
      Stands bit n k req j i (s.slots req (bit j) j i) := by
    intro i hi
    induction i with
    | zero => exact ⟨hb.mono (Nat.le_succ j),hs⟩
    | succ i ih =>
      obtain ⟨h1,h2⟩ := ih (by omega)
      rw [Scan.slots_succ]
      exact slot_spec hc hj (by omega) h1 h2
  obtain ⟨hb',hs'⟩ := hloop n le_rfl
  unfold Scan.page
  generalize s.slots req (bit j) j n = t at hb' hs'
  have hvoid : ∀ i' < 0, bit (j + 1) i' = false := fun i' h => absurd h (Nat.not_lt_zero _)
  dsimp only
  cases hs' with
  | idle hf ht =>
    rw [if_neg fun hfit => by have := hfit.2; omega]
    exact ⟨hb',.idle hf ht hvoid⟩
  | taken hf ha ho ht hm hpg hr hreq hen hei hused =>
    have hfit : t.Fits req := ⟨by omega,by omega⟩
    rw [if_pos hfit]
    refine ⟨Best.run hr hreq ha rfl,.passed hf hvoid fun hk => ?_⟩
    exact (hc.turn j hk _ _ hr hreq).2 hen hused
  | passed hf hused hsome =>
    obtain ⟨i',hi',hfree⟩ := hsome hj
    rw [hused i' hi'] at hfree
    cases hfree
  | @«open» a hf hai ha ht hfree hleft =>
    have hr : FreeRun (bit j) n a n := ⟨hai,le_rfl,hfree,hleft,fun h => absurd h (lt_irrefl _)⟩
    split
    · rename_i hfit
      have hreq : req ≤ n - a := by
        have := hfit.2
        omega
      exact ⟨Best.run hr hreq ha rfl,.carried hf rfl le_rfl fun hk => (hc.turn j hk a n hr hreq).1 rfl⟩
    · rename_i hfit
      refine ⟨hb',?_⟩
      by_cases hlt : n - a < req
      · refine .short hf ?_
        have h1 := hc.short j hj a n hr hlt
        have h2 := freeFrom_run hj hai.le le_rfl hfree
        have h3 : freeFrom bit n k (j + 1) 0 ≤ freeFrom bit n k j n := freeFrom_next
        omega
      · refine .stuck hf ?_
        by_contra hle
        exact hfit ⟨by omega,by omega⟩
  | short hf ht =>
    rw [if_neg fun hfit => by have := hfit.2; omega]
    have h3 : freeFrom bit n k (j + 1) 0 ≤ freeFrom bit n k j n := freeFrom_next
    exact ⟨hb',.short hf (by omega)⟩
  | stuck hf ht =>
    rw [if_neg fun hfit => by have := hfit.1; omega]
    exact ⟨hb',.stuck hf ht⟩
  | carried hf h0 => omega

theorem start_spec (hreq : 0 < req) : Best bit n req 0 Scan.start ∧
    Stands bit n k req 0 0 Scan.start := by
  refine ⟨.none rfl,.idle rfl ?_ fun i' h => absurd h (Nat.not_lt_zero _)⟩
  change (-1 : ℤ) < req
  omega

end ResumePointers.Alloc
