import ResumePointers.Lib.Bisect
import ResumePointers.Mips.Mergesort

/-! `binarySearch` of `assembly/queryProcessing.s`, and the call of it for one query. -/
namespace ResumePointers.Mips

variable {A : Type}

/-- The instructions up to `leave`. The routine is called for the part above the middle at `site 0`, and
for the one below it at `site 1`. -/
def look (site : ℕ → Word) (routine : M A Unit) : M A Unit := do
  if (← reg .a2).slt (← reg .a1) then li .v1 (-1)
  else do
    add .t1 .a2 .a1
    srl .t0 .t1 1
    sll .t1 .t0 2
    add .t1 .t1 .a0
    lw .t1 0 .t1
    if (← reg .t1) = (← reg .a3) then move .v1 .t0
    else if (← reg .a3).slt (← reg .t1) then do
      addi .a2 .t0 (-1)
      jal (site 1) routine
    else do
      addi .a1 .t0 1
      jal (site 0) routine

def binarySearch (site : ℕ → Word) : ℕ → M A Unit
  | 0 => throw .fuel
  | fuel + 1 => do
    addi .sp .sp (-4)
    sw .ra 0 .sp
    look site (binarySearch site fuel)
    lw .ra 0 .sp
    addi .sp .sp 4

/-- What `main` does with a key in `v0`. The array is at `s7`, and `t9` is its length. -/
def query (site : ℕ → Word) (fuel : ℕ) : M A Unit := do
  move .a0 .s7
  li .a1 0
  move .a2 .t9
  move .a3 .v0
  addi .sp .sp (-8)
  sw .t1 0 .sp
  sw .t8 4 .sp
  jal (site 2) (binarySearch site fuel)
  lw .t1 0 .sp
  lw .t8 4 .sp
  addi .sp .sp 8

/-- The registers that a search changes. -/
def searched : List Reg := [.a1,.a2,.t0,.t1,.v1]

/-- The machine with no memory but `d` words of stack and `n` elements of the array. -/
def Cpu.confine (s : Cpu A) (sp base : Word) (d n : ℕ) : Cpu A :=
  { s with
    mem := fun a =>
      if (∃ j < d, a = under sp (j + 1)) ∨ ∃ i < n, a = cell base i then s.mem a else none }

/-- The words of stack that a query for an array of `n` words takes. -/
def queryDepth (n : ℕ) : ℕ := Nat.size (n + 1) + 3

/-- `main` asks for the key in `v0`, with the words `xs` in its array. The block for the answers has been
allocated behind it. -/
structure Asked (s : Cpu A) (sp base : Word) (d : ℕ) (xs : List Word) : Prop where
  stack : Stack s sp d
  room : queryDepth xs.length ≤ d
  part : Part s base 0 xs
  length : s.reg .t9 = .ofNat 32 xs.length
  fits : Fits base (xs.length + 1)
  apart : Apart sp base d 0 (xs.length + 1)
  sorted : xs.Pairwise fun x y => x.toInt ≤ y.toInt

/-- The answer to the query of `s`. -/
structure Right (s u : Cpu A) (xs : List Word) : Prop where
  index : s.reg .v0 ∈ xs → ∃ i, xs[i]? = some (s.reg .v0) ∧ u.reg .v1 = .ofNat 32 i
  absent : u.reg .v1 = -1 ↔ s.reg .v0 ∉ xs

/-- The query ends with the right answer, and it does so as well where nothing but the array and the
stack can be read. -/
def Answers (site : ℕ → Word) (s : Cpu A) (sp base : Word) (d : ℕ) (xs : List Word) : Prop :=
  ∃ enough, ∀ fuel, enough ≤ fuel → Total (query site fuel) s (fun _ u => Right s u xs) ∧
    Total (query site fuel) (s.confine sp base d xs.length) fun _ u => Right s u xs

/-- The elements of the array that are in the memory, as signed numbers. -/
def element (mem : Memory) (base : Word) (i : ℕ) : Option ℤ := (mem (cell base i)).map BitVec.toInt

/-- The words of the array as signed numbers. -/
def values (xs : List Word) : List ℤ := xs.map BitVec.toInt

/-- The search of `m` elements from `l` on for the key in `a3`. -/
def seek (s : Cpu A) (base : Word) (l m : ℕ) : Option (Option ℕ) :=
  bisect (element s.mem base) (s.reg .a3).toInt l m

/-- The answer in `v1`. -/
def answer : Option ℕ → Word
  | none => -1
  | some i => .ofNat 32 i

/-- The search is called for `m` elements from `l` on. -/
structure Window (s : Cpu A) (base : Word) (l m : ℕ) : Prop where
  a0 : s.reg .a0 = base
  low : s.reg .a1 = .ofNat 32 l
  high : s.reg .a2 = .ofNat 32 (l + m) - 1
  fits : Fits base (l + m)

/-- No memory is changed but `d` words of stack. -/
structure Pushes (mem mem' : Memory) (sp : Word) (d : ℕ) : Prop where
  allocated : ∀ a, (mem a).isSome = true → (mem' a).isSome = true
  frame : ∀ a, (∀ j, 0 < j → j ≤ d → a ≠ under sp j) → mem' a = mem a

/-- What a search that was called in `s` leaves in `u`. -/
structure Searched (s u : Cpu A) (sp base : Word) (d l m : ℕ) : Prop where
  found : ∃ r, seek s base l m = some r ∧ u.reg .v1 = answer r
  pushes : Pushes s.mem u.mem sp d
  kept : Kept searched s u

/-- The routine is correct for fewer than `2 ^ k` elements. -/
def Searching (routine : M A Unit) (k : ℕ) : Prop :=
  ∀ (s : Cpu A) (sp base : Word) (l m : ℕ), Stack s sp (k + 1) → Apart sp base (k + 1) l m →
    Window s base l m → m < 2 ^ k →
      Post routine s (fun _ u => Searched s u sp base (k + 1) l m) fun _ _ => seek s base l m = none

/-- The search that was called in `s` has saved `ra` and is in `t`. -/
structure Inside (s t : Cpu A) (sp : Word) (d : ℕ) : Prop where
  pointer : t.reg .sp = under sp 1
  savedRa : t.mem (under sp 1) = some (s.reg .ra)
  pushes : Pushes s.mem t.mem sp d
  kept : Kept (.sp::.ra::searched) s t

variable {site : ℕ → Word} {s t u : Cpu A} {sp base w : Word} {d k l m n fuel : ℕ} {r : Reg}
  {mem mem' mem'' : Memory} {xs : List Word} {c : M A Unit} {Q : Unit → Cpu A → Prop} {E : Fault → Cpu A → Prop}

theorem post_lw_none {offset a : Word} {x : Reg} (ha : s.reg x + offset = a)
    (haligned : a.toNat % 4 = 0) (h : s.mem a = none) : Post (lw r offset x) s Q E ↔ E .access s := by
  subst ha
  rw [lw,post_bind,post_get,if_pos haligned,h]
  rfl

theorem Pushes.refl : Pushes mem mem sp d := ⟨fun _ ha => ha,fun _ _ => rfl⟩

theorem Pushes.trans (h : Pushes mem mem' sp d) (h' : Pushes mem' mem'' sp d) :
    Pushes mem mem'' sp d :=
  ⟨fun a ha => h'.allocated a (h.allocated a ha),fun a ha => (h'.frame a ha).trans (h.frame a ha)⟩

theorem Pushes.store (h : Pushes mem mem' sp d) {j : ℕ} (hpos : 0 < j) (hj : j ≤ d) :
    Pushes mem (Function.update mem' (under sp j) (some w)) sp d where
  allocated a ha := by
    rw [Function.update_apply]
    split
    · rfl
    · exact h.allocated a ha
  frame a ha := by
    rw [Function.update_of_ne (ha j hpos hj)]
    exact h.frame a ha

/-- What is pushed below the lowered stack pointer. -/
theorem Pushes.lift (h : Pushes mem mem' (under sp n) k) (hd : n + k ≤ d) : Pushes mem mem' sp d where
  allocated := h.allocated
  frame a ha := by
    refine h.frame a fun j hpos hj => ?_
    rw [under_under]
    exact ha (n + j) (by omega) (by omega)

/-- The words above the lowered stack pointer are as before. -/
theorem Pushes.above (h : Pushes mem mem' (under sp n) k) (hst : Stack s sp d) (hd : n + k ≤ d)
    {j : ℕ} (hj : j ≤ n) : mem' (under sp j) = mem (under sp j) := by
  refine h.frame _ fun i hpos hi => ?_
  rw [under_under,Ne,hst.under_inj (by omega) (by omega)]
  omega

/-- The array is not on the stack. -/
theorem Pushes.bisect_eq (h : Pushes mem mem' sp d) (hap : Apart sp base d l m) (key : ℤ) :
    bisect (element mem' base) key l m = bisect (element mem base) key l m := by
  refine bisect_congr fun i hi hi' => ?_
  obtain ⟨i,rfl⟩ := Nat.exists_eq_add_of_le hi
  rw [element,element,h.frame _ fun j hpos hj => ?_]
  exact (hap j hpos hj i (by omega)).symm

theorem Apart.sub (h : Apart sp base d l m) {i p : ℕ} (hp : i + p ≤ m) : Apart sp base d (l + i) p := by
  intro j hpos hj i' hi'
  rw [Nat.add_assoc]
  exact h j hpos hj (i + i') (by omega)

theorem Inside.set (h : Inside s t sp d) (hr : r ∈ searched) (w : Word) : Inside s (t.set r w) sp d where
  pointer := by
    rw [set_reg,if_neg (by rintro rfl; revert hr; decide)]
    exact h.pointer
  savedRa := h.savedRa
  pushes := h.pushes
  kept := h.kept.set (List.mem_cons_of_mem _ (List.mem_cons_of_mem _ hr)) w

theorem Inside.seek_eq (h : Inside s t sp d) (hap : Apart sp base d l m) :
    seek t base l m = seek s base l m := by
  rw [seek,seek,h.kept _ (by decide),h.pushes.bisect_eq hap]

/-- The middle of the window is read. -/
theorem post_probe (hw : Window t base l (m + 1))
    (hnone : t.mem (cell base (l + m / 2)) = none → ∀ u, E .access u)
    (hsome : ∀ w u, t.mem (cell base (l + m / 2)) = some w → u.mem = t.mem →
      u.reg .t0 = .ofNat 32 (l + m / 2) → u.reg .t1 = w → Kept [.t0,.t1] t u → Post c u Q E) :
    Post (do
      add .t1 .a2 .a1
      srl .t0 .t1 1
      sll .t1 .t0 2
      add .t1 .t1 .a0
      lw .t1 0 .t1
      c) t Q E := by
  obtain ⟨ha0,hlow,hhigh,hfits⟩ := hw
  have hbound := hfits.bound
  have hhigh : t.reg .a2 = .ofNat 32 (l + m) := by
    rw [hhigh,← Nat.add_assoc,BitVec.ofNat_add]
    exact add_sub_cancel_right _ _
  have hmid : (l + m + l) / 2 = l + m / 2 := by omega
  have hcell : BitVec.ofNat 32 (4 * (l + m / 2)) + base = cell base (l + m / 2) := BitVec.add_comm ..
  rw [post_bind]
  refine Iff.mpr (post_add (no_overflow ?_)) ?_
  · rw [hhigh,hlow,toNat_ofNat (by omega),toNat_ofNat (by omega)]
    omega
  rw [hhigh,hlow,← BitVec.ofNat_add,post_bind,post_srl,set_reg,if_pos rfl,half_ofNat (by omega),hmid,
    post_bind,post_sll,set_reg,if_pos rfl,shift_ofNat,post_bind]
  refine Iff.mpr (post_add (no_overflow ?_)) ?_
  · simp only [set_reg,reduceCtorEq,↓reduceIte,ha0]
    rw [toNat_ofNat (by omega)]
    omega
  simp only [set_reg,reduceCtorEq,↓reduceIte,ha0,hcell]
  rw [post_bind]
  have haligned := hfits.cell_aligned (i := l + m / 2) (by omega)
  cases hx : t.mem (cell base (l + m / 2)) with
  | none =>
    refine Iff.mpr (post_lw_none ?_ haligned hx) (hnone hx _)
    rw [set_reg,if_pos rfl]
    exact BitVec.add_zero _
  | some w =>
    refine Iff.mpr (post_lw ?_ haligned hx) ?_
    · rw [set_reg,if_pos rfl]
      exact BitVec.add_zero _
    · refine hsome w _ hx rfl ?_ ?_ fun r hr => ?_
      · simp only [set_reg,reduceCtorEq,↓reduceIte]
      · rw [set_reg,if_pos rfl]
      · simp only [List.mem_cons,not_or] at hr
        obtain ⟨h₁,h₂,-⟩ := hr
        simp only [set_reg,if_neg h₁,if_neg h₂]

/-- The routine calls itself for a part of the window. -/
theorem post_again {routine : M A Unit} {v : Word} (hr : Searching routine k)
    (hin : Inside s t sp (k + 2)) (hst : Stack s sp (k + 2)) (hap : Apart sp base (k + 2) l m)
    (hw : Window t base l m) (hm : m < 2 ^ k) :
    Post (jal v routine) t
      (fun _ u => Inside s u sp (k + 2) ∧ ∃ r, seek s base l m = some r ∧ u.reg .v1 = answer r)
      fun _ _ => seek s base l m = none := by
  have hlow : Apart (under sp 1) base (k + 1) l m := hap.part (i := 0) (by omega) (by omega)
  have hseek : seek (t.set .ra v) base l m = seek s base l m := hin.seek_eq hap
  have hw' : Window (t.set .ra v) base l m := ⟨hw.a0,hw.low,hw.high,hw.fits⟩
  have hst' : Stack (t.set .ra v) (under sp 1) (k + 1) :=
    hst.lower (hin.pointer) (by omega) hin.pushes.allocated
  refine post_jal ((hr _ _ _ _ _ hst' hlow hw' hm).mono (fun _ u hu => ?_) fun _ _ he => hseek ▸ he)
  refine ⟨hu.kept _ (by decide),⟨?_,?_,?_,?_⟩,hseek ▸ hu.found⟩
  · exact (hu.kept _ (by decide)).trans hin.pointer
  · exact (hu.pushes.above hst (by omega) (Nat.le_refl 1)).trans hin.savedRa
  · exact hin.pushes.trans (hu.pushes.lift (by omega))
  · refine (hin.kept.set (d := .ra) (by decide) v).trans (hu.kept.mono ?_)
    exact fun r hr => List.mem_cons_of_mem _ (List.mem_cons_of_mem _ hr)

theorem toInt_pred (h : n < 2 ^ 31) : (BitVec.ofNat 32 n - 1).toInt = (n : ℤ) - 1 := by
  cases n with
  | zero => decide
  | succ n =>
    have hn : BitVec.ofNat 32 (n + 1) - 1 = .ofNat 32 n := by
      rw [← succ_ofNat]
      exact add_sub_cancel_right _ _
    rw [hn,toInt_ofNat (by omega)]
    omega

/-- The half below the middle. -/
theorem post_lower {routine : M A Unit} {v : Word} (hr : Searching routine k)
    (hin : Inside s u sp (k + 2)) (hst : Stack s sp (k + 2)) (hap : Apart sp base (k + 2) l n)
    (ha0 : u.reg .a0 = base) (hlow : u.reg .a1 = .ofNat 32 l) (ht0 : u.reg .t0 = .ofNat 32 (l + n))
    (hfits : Fits base (l + n)) (hn : n < 2 ^ k) :
    Post (do
      addi .a2 .t0 (-1)
      jal v routine) u
      (fun _ u => Inside s u sp (k + 2) ∧ ∃ r, seek s base l n = some r ∧ u.reg .v1 = answer r)
      fun _ _ => seek s base l n = none := by
  have hbound := hfits.bound
  rw [post_bind]
  refine Iff.mpr (post_addi ?_) ?_
  · rw [ht0]
    refine no_overflow_neg ?_ (by decide)
    rw [toNat_ofNat (by omega)]
    omega
  refine post_again hr (hin.set (by decide) _) hst hap ⟨?_,?_,?_,hfits⟩ hn
  · rwa [set_reg,if_neg (by decide)]
  · rwa [set_reg,if_neg (by decide)]
  · rw [set_reg,if_pos rfl,ht0]
    exact (BitVec.sub_eq_add_neg _ _).symm

/-- The half above the middle `i`. -/
theorem post_upper {routine : M A Unit} {v : Word} {i : ℕ} (hr : Searching routine k)
    (hin : Inside s u sp (k + 2)) (hst : Stack s sp (k + 2))
    (hap : Apart sp base (k + 2) (i + 1) n) (ha0 : u.reg .a0 = base)
    (hhigh : u.reg .a2 = .ofNat 32 (i + 1 + n) - 1) (ht0 : u.reg .t0 = .ofNat 32 i)
    (hfits : Fits base (i + 1 + n)) (hn : n < 2 ^ k) :
    Post (do
      addi .a1 .t0 1
      jal v routine) u
      (fun _ u => Inside s u sp (k + 2) ∧ ∃ r, seek s base (i + 1) n = some r ∧ u.reg .v1 = answer r)
      fun _ _ => seek s base (i + 1) n = none := by
  have hbound := hfits.bound
  rw [post_bind]
  refine Iff.mpr (post_addi (no_overflow ?_)) ?_
  · rw [ht0,toNat_ofNat (by omega),show (1 : Word).toNat = 1 from rfl]
    omega
  refine post_again hr (hin.set (by decide) _) hst hap ⟨?_,?_,?_,hfits⟩ hn
  · rwa [set_reg,if_neg (by decide)]
  · rw [set_reg,if_pos rfl,ht0,succ_ofNat]
  · rwa [set_reg,if_neg (by decide)]

theorem look_spec {routine : M A Unit} (hr : ∀ j, k = j + 1 → Searching routine j)
    (hin : Inside s t sp (k + 1)) (hst : Stack s sp (k + 1)) (hap : Apart sp base (k + 1) l m)
    (hw : Window t base l m) (hm : m < 2 ^ k) :
    Post (look site routine) t
      (fun _ u => Inside s u sp (k + 1) ∧ ∃ r, seek s base l m = some r ∧ u.reg .v1 = answer r)
      fun _ _ => seek s base l m = none := by
  have hbound := hw.fits.bound
  rw [look,post_bind,post_reg,post_bind,post_reg,hw.high,hw.low,BitVec.slt,toInt_pred (by omega),
    toInt_ofNat (by omega)]
  rw [← hin.seek_eq hap]
  cases m with
  | zero =>
    rw [if_pos (decide_eq_true (by omega)),post_li]
    refine ⟨hin.set (by decide) _,none,?_,?_⟩
    · exact bisect_zero
    · rw [set_reg,if_pos rfl]
      rfl
  | succ m =>
    rw [if_neg (by rw [decide_eq_true_eq]; omega)]
    obtain ⟨k,rfl⟩ : ∃ j, k = j + 1 := Nat.exists_eq_add_one.mpr (Nat.pos_of_ne_zero (by
      rintro rfl
      omega))
    have hr := hr k rfl
    refine post_probe hw (fun hnone u => ?_) fun w u hsome hmem ht0 ht1 hkept => ?_
    · refine bisect_none ?_
      rw [element,hnone]
      rfl
    · have hread : element t.mem base (l + m / 2) = some w.toInt := by
        rw [element,hsome]
        rfl
      have hin' : Inside s u sp (k + 2) := {
        pointer := (hkept _ (by decide)).trans hin.pointer
        savedRa := hmem ▸ hin.savedRa
        pushes := hmem ▸ hin.pushes
        kept := hin.kept.trans (hkept.mono (by decide)) }
      have ha0 : u.reg .a0 = base := (hkept _ (by decide)).trans hw.a0
      rw [post_bind,post_reg,post_bind,post_reg,ht1,hkept _ (by decide)]
      split
      · next he =>
        refine ⟨hin'.set (by decide) _,some (l + m / 2),bisect_found hread (he ▸ rfl),?_⟩
        rw [set_reg,if_pos rfl,ht0]
        rfl
      · next hne =>
        rw [post_bind,post_reg,post_bind,post_reg,ht1,hkept _ (by decide)]
        have hne' : w.toInt ≠ (t.reg .a3).toInt := fun he => hne (BitVec.eq_of_toInt_eq he)
        split
        · next hlt =>
          have hlt := BitVec.slt_iff_toInt_lt.mp hlt
          have hseek : seek t base l (m + 1) = seek s base l (m / 2) :=
            (bisect_lower hread hlt).trans (hin.seek_eq (hap.sub (i := 0) (by omega)))
          rw [hseek]
          exact post_lower hr hin' hst (hap.sub (i := 0) (by omega)) ha0
            ((hkept _ (by decide)).trans hw.low) ht0 (hw.fits.mono (by omega)) (by omega)
        · next hge =>
          have hlt : w.toInt < (t.reg .a3).toInt := by
            rw [BitVec.slt_iff_toInt_lt,not_lt] at hge
            exact lt_of_le_of_ne hge hne'
          have hseek : seek t base l (m + 1) = seek s base (l + m / 2 + 1) (m - m / 2) :=
            (bisect_upper hread hlt).trans (hin.seek_eq (hap.sub (i := m / 2 + 1) (by omega)))
          have hright : l + m / 2 + 1 + (m - m / 2) = l + (m + 1) := by omega
          rw [hseek]
          refine post_upper hr hin' hst (hap.sub (i := m / 2 + 1) (by omega)) ha0 ?_ ht0
            (hw.fits.mono (by omega)) (by omega)
          rw [hkept _ (by decide),hright]
          exact hw.high

/-- One round of `binarySearch`, with a routine that is correct for the halves. -/
theorem searching_step {routine : M A Unit} (hr : ∀ j, k = j + 1 → Searching routine j) :
    Searching (do
      addi .sp .sp (-4)
      sw .ra 0 .sp
      look site routine
      lw .ra 0 .sp
      addi .sp .sp 4) k := by
  intro s sp base l m hst hap hw hm
  refine post_save hst (Nat.succ_pos _) fun t hmem hsp hkept => ?_
  have hin : Inside s t sp (k + 1) := {
    pointer := hsp
    savedRa := by rw [hmem,Function.update_self]
    pushes := hmem ▸ Pushes.refl.store Nat.one_pos (Nat.succ_pos k)
    kept := hkept.mono (by simp) }
  have hw' : Window t base l m := ⟨(hkept _ (by decide)).trans hw.a0,(hkept _ (by decide)).trans hw.low,
    (hkept _ (by decide)).trans hw.high,hw.fits⟩
  rw [post_bind]
  refine (look_spec hr hin hst hap hw' hm).imp fun _ u hu => ?_
  obtain ⟨hu,r,hseek,hv1⟩ := hu
  refine Iff.mpr (post_restore hst (Nat.succ_pos k) hu.pointer rfl rfl hu.savedRa) ?_
  refine ⟨⟨r,hseek,hv1⟩,hu.pushes,?_⟩
  rw [← hst.pointer]
  exact ((hu.kept.mono (by decide)).back (r := .ra)).back

/-- The routine with enough fuel and stack for `k` halvings. -/
theorem searching_binarySearch (h : k ≤ fuel) :
    Searching (binarySearch site (fuel + 1) : M A Unit) k := by
  induction fuel generalizing k with
  | zero => exact searching_step fun j hj => by omega
  | succ fuel ih => exact searching_step fun j hj => ih (by omega)

/-- The arguments are loaded, and `t1` and `t8` are saved. -/
theorem post_ask (hst : Stack s sp (k + 3))
    (hk : ∀ t, t.reg .sp = under sp 2 → t.reg .a0 = s.reg .s7 → t.reg .a1 = 0 →
      t.reg .a2 = s.reg .t9 → t.reg .a3 = s.reg .v0 → t.mem (under sp 2) = some (s.reg .t1) →
        t.mem (under sp 1) = some (s.reg .t8) → Pushes s.mem t.mem sp (k + 3) →
          Kept [.a0,.a1,.a2,.a3,.sp] s t → Post c t Q E) :
    Post (do
      move .a0 .s7
      li .a1 0
      move .a2 .t9
      move .a3 .v0
      addi .sp .sp (-8)
      sw .t1 0 .sp
      sw .t8 4 .sp
      c) s Q E := by
  have hlow : sp + -8 = under sp 2 := by
    rw [under]
    bv_omega
  have hnext : under sp 2 + 4 = under sp 1 := by
    rw [under,under]
    bv_omega
  have hne : under sp 2 ≠ under sp 1 := by
    rw [Ne,hst.under_inj (by omega) (by omega)]
    omega
  rw [post_bind,post_move,post_bind,post_li,post_bind,post_move,post_bind,post_move,post_bind]
  refine Iff.mpr (post_addi ?_) ?_
  · simp only [set_reg,reduceCtorEq,↓reduceIte,hst.pointer]
    exact no_overflow_neg hst.small (by decide)
  simp only [set_reg,reduceCtorEq,↓reduceIte,hst.pointer,hlow]
  rw [post_bind]
  refine Iff.mpr (post_sw (a := under sp 2) ?_ (under_aligned hst.aligned 2)
    (hst.cells 2 (by decide) (by omega))) ?_
  · rw [set_reg,if_pos rfl]
    exact BitVec.add_zero _
  have hpush : Pushes s.mem (Function.update s.mem (under sp 2) (some (s.reg .t1))) sp (k + 3) :=
    Pushes.refl.store (by decide) (by omega)
  rw [post_bind]
  refine Iff.mpr (post_sw (a := under sp 1) ?_ (under_aligned hst.aligned 1)
    (hpush.allocated _ (hst.cells 1 (by decide) (by omega)))) ?_
  · rw [write_reg,set_reg,if_pos rfl,hnext]
  refine hk _ ?_ ?_ ?_ ?_ ?_ ?_ ?_ (hpush.store (by decide) (by omega)) fun r hr => ?_
  · simp only [write_reg,set_reg,↓reduceIte]
  · simp only [write_reg,set_reg,reduceCtorEq,↓reduceIte]
  · simp only [write_reg,set_reg,reduceCtorEq,↓reduceIte]
  · simp only [write_reg,set_reg,reduceCtorEq,↓reduceIte]
  · simp only [write_reg,set_reg,reduceCtorEq,↓reduceIte]
  · rw [write_mem,Function.update_of_ne hne,write_mem,Function.update_self]
    simp only [set_reg,reduceCtorEq,↓reduceIte]
  · rw [write_mem,Function.update_self]
    simp only [write_reg,set_reg,reduceCtorEq,↓reduceIte]
  · simp only [List.mem_cons,not_or] at hr
    obtain ⟨h₁,h₂,h₃,h₄,h₅,-⟩ := hr
    simp only [write_reg,set_reg,if_neg h₁,if_neg h₂,if_neg h₃,if_neg h₄,if_neg h₅]

/-- `t1` and `t8` are loaded again. -/
theorem post_resume {v : Word} (hst : Stack s sp (k + 3)) (hsp : t.reg .sp = under sp 2)
    (ht1 : t.mem (under sp 2) = some v) (ht8 : t.mem (under sp 1) = some w) :
    Post (do
      lw .t1 0 .sp
      lw .t8 4 .sp
      addi .sp .sp 8) t Q E ↔ Q () (((t.set .t1 v).set .t8 w).set .sp sp) := by
  have hsmall := hst.small
  have hroom := hst.room
  have hnext : under sp 2 + 4 = under sp 1 := by
    rw [under,under]
    bv_omega
  have hback : under sp 2 + 8 = sp := by
    rw [under]
    bv_omega
  rw [post_bind,post_lw (a := under sp 2) (by rw [hsp]; exact BitVec.add_zero _)
    (under_aligned hst.aligned 2) ht1,post_bind,post_lw (s := t.set .t1 v) (a := under sp 1)
    (by rw [set_reg,if_neg (by decide),hsp,hnext]) (under_aligned hst.aligned 1) ht8,
    post_addi (no_overflow ?_)]
  · simp only [set_reg,reduceCtorEq,↓reduceIte,hsp,hback]
  · simp only [set_reg,reduceCtorEq,↓reduceIte,hsp]
    rw [hst.toNat_under (by omega),show (8 : Word).toNat = 8 from rfl]
    omega

/-- The registers that a query changes for `main`. -/
def asked : List Reg := [.a0,.a1,.a2,.a3,.t0,.v1,.ra]

/-- With enough fuel and stack a query is the search of one element more than there are. -/
theorem query_spec (hst : Stack s sp (k + 3)) (hap : Apart sp base (k + 3) 0 (n + 1))
    (hs7 : s.reg .s7 = base) (ht9 : s.reg .t9 = .ofNat 32 n) (hfits : Fits base (n + 1))
    (hn : n + 1 < 2 ^ k) (hfuel : k ≤ fuel) :
    Post (query site (fuel + 1)) s
      (fun _ u => (∃ r, bisect (element s.mem base) (s.reg .v0).toInt 0 (n + 1) = some r ∧
        u.reg .v1 = answer r) ∧ Kept asked s u)
      fun _ _ => bisect (element s.mem base) (s.reg .v0).toInt 0 (n + 1) = none := by
  refine post_ask hst fun t hsp ha0 ha1 ha2 ha3 ht1 ht8 hpush hkept => ?_
  have hst' : Stack (t.set .ra (site 2)) (under sp 2) (k + 1) := hst.lower hsp (by omega) hpush.allocated
  have hap' : Apart (under sp 2) base (k + 1) 0 (n + 1) := hap.part (i := 0) (by omega) (by omega)
  have hw : Window (t.set .ra (site 2)) base 0 (n + 1) := {
    a0 := ha0.trans hs7
    low := ha1
    high := by
      rw [set_reg,if_neg (by decide),ha2,ht9,Nat.zero_add,← succ_ofNat]
      exact (add_sub_cancel_right _ _).symm
    fits := hfits.mono (by omega) }
  have hseek : seek (t.set .ra (site 2)) base 0 (n + 1) =
      bisect (element s.mem base) (s.reg .v0).toInt 0 (n + 1) := by
    rw [seek,set_reg,if_neg (by decide),ha3]
    exact hpush.bisect_eq hap _
  rw [post_bind]
  refine post_jal ((searching_binarySearch hfuel _ _ _ _ _ hst' hap' hw hn).mono (fun _ u hu => ?_)
    fun _ _ he => hseek ▸ he)
  have hsp' : u.reg .sp = under sp 2 := (hu.kept _ (by decide)).trans hsp
  have ht1' : u.mem (under sp 2) = some (s.reg .t1) :=
    (hu.pushes.above hst (by omega) (Nat.le_refl 2)).trans ht1
  have ht8' : u.mem (under sp 1) = some (s.reg .t8) :=
    (hu.pushes.above hst (by omega) (by omega)).trans ht8
  refine ⟨hu.kept _ (by decide),Iff.mpr (post_resume hst hsp' ht1' ht8') ⟨?_,?_⟩⟩
  · obtain ⟨r,hr,hv1⟩ := hu.found
    refine ⟨r,hseek ▸ hr,?_⟩
    simpa only [set_reg,reduceCtorEq,↓reduceIte] using hv1
  · have hall : Kept (.t1::.t8::.sp::asked) s u :=
      ((hkept.mono (by decide)).set (d := .ra) (by decide) (site 2)).trans (hu.kept.mono (by decide))
    rw [← hst.pointer]
    exact hall.back.back.back

theorem Holds.word {i j : ℕ} (h : Holds mem base i xs) (hx : xs[j]? = some w) :
    mem (cell base (i + j)) = some w := by
  induction xs generalizing i j with
  | nil => cases hx
  | cons x xs ih =>
    cases j with
    | zero =>
      obtain rfl := Option.some.inj hx
      exact h.1
    | succ j =>
      rw [Nat.add_comm j,← Nat.add_assoc]
      exact ih h.2 hx

theorem values_get {i : ℕ} : (values xs)[i]? = some w.toInt ↔ xs[i]? = some w := by
  rw [values,List.getElem?_map,Option.map_eq_some_iff]
  constructor
  · rintro ⟨v,hv,he⟩
    rwa [← BitVec.eq_of_toInt_eq he]
  · exact fun h => ⟨w,h,rfl⟩

theorem mem_values : w.toInt ∈ values xs ↔ w ∈ xs := by
  rw [List.mem_iff_getElem?,List.mem_iff_getElem?]
  exact exists_congr fun _ => values_get

theorem Asked.element (h : Asked s sp base d xs) (i : ℕ) (x : ℤ) (hx : (values xs)[i]? = some x) :
    element s.mem base i = some x := by
  rw [values,List.getElem?_map,Option.map_eq_some_iff] at hx
  obtain ⟨v,hv,rfl⟩ := hx
  have hword := h.part.holds.word hv
  rw [Nat.zero_add] at hword
  rw [Mips.element,hword]
  rfl

theorem Asked.pairwise (h : Asked s sp base d xs) : (values xs).Pairwise (· ≤ ·) :=
  List.pairwise_map.mpr h.sorted

/-- What the search of the list finds is the right answer. -/
theorem Asked.right (h : Asked s sp base d xs) {r : Option ℕ}
    (hr : bisect ((values xs)[·]?) (s.reg .v0).toInt 0 (xs.length + 1) = some r)
    (hv1 : u.reg .v1 = answer r) : Right s u xs := by
  have hbound := h.fits.bound
  have hlow : BelowKey (values xs) (s.reg .v0).toInt 0 := fun _ _ _ hi =>
    absurd hi (Nat.not_lt_zero _)
  have hhigh : AboveKey (values xs) (s.reg .v0).toInt (0 + (xs.length + 1)) := by
    intro i x hi hle
    have hlen := (List.getElem?_eq_some_iff.mp hi).1
    rw [values,List.length_map] at hlen
    omega
  obtain ⟨hfound,habsent⟩ := bisect_correct h.pairwise hlow hhigh hr
  cases r with
  | none =>
    have hnot : s.reg .v0 ∉ xs := fun hmem => habsent rfl (mem_values.mpr hmem)
    exact ⟨fun hmem => absurd hmem hnot,iff_of_true hv1 hnot⟩
  | some i =>
    have hi := values_get.mp (hfound i rfl)
    have hlen := (List.getElem?_eq_some_iff.mp hi).1
    refine ⟨fun _ => ⟨i,hi,hv1⟩,iff_of_false (fun he => ?_) (not_not.mpr (List.mem_of_getElem? hi))⟩
    have htoInt := congrArg BitVec.toInt (hv1.symm.trans he)
    rw [answer,toInt_ofNat (by omega),show (-1 : Word).toInt = -1 from rfl] at htoInt
    omega

/-- What the query needs, with `k + 3` words of stack. -/
theorem Asked.depth (h : Asked s sp base d xs) : ∃ k, d = k + 3 ∧ xs.length + 1 < 2 ^ k := by
  obtain ⟨k,rfl⟩ := Nat.exists_eq_add_of_le h.room
  exact ⟨Nat.size (xs.length + 1) + k,by rw [queryDepth]; omega,(Nat.lt_size_self _).trans_le
    (Nat.pow_le_pow_right Nat.two_pos (Nat.le_add_right _ _))⟩

theorem Asked.post (h : Asked s sp base d xs) (hfuel : d ≤ fuel) :
    Post (query site fuel) s
      (fun _ u => ∃ r, bisect (Mips.element s.mem base) (s.reg .v0).toInt 0 (xs.length + 1) = some r ∧
        u.reg .v1 = answer r)
      fun _ _ => bisect (Mips.element s.mem base) (s.reg .v0).toInt 0 (xs.length + 1) = none := by
  obtain ⟨k,rfl,hk⟩ := h.depth
  obtain ⟨fuel,rfl⟩ : ∃ f, fuel = f + 1 := Nat.exists_eq_add_one.mpr (by omega)
  exact (query_spec h.stack h.apart h.part.s7 h.length h.fits hk (by omega)).imp fun _ _ hu => hu.1

/-- The search of the list stays inside it exactly if the key is not above all elements. -/
theorem Asked.bisect_isSome_iff (h : Asked s sp base d xs) :
    (bisect ((values xs)[·]?) (s.reg .v0).toInt 0 (xs.length + 1)).isSome = true ↔
      ∃ x ∈ xs, (s.reg .v0).toInt ≤ x.toInt := by
  have hlow : BelowKey (values xs) (s.reg .v0).toInt 0 := fun _ _ _ hi =>
    absurd hi (Nat.not_lt_zero _)
  have hlen : 0 + (xs.length + 1) = (values xs).length + 1 := by
    rw [values,List.length_map,Nat.zero_add]
  rw [bisect_past_isSome_iff h.pairwise hlow (Nat.succ_pos _) hlen]
  simp [values]

/-- A key that is not above the whole array is answered rightly, whatever else is in the memory. -/
theorem Asked.total (h : Asked s sp base d xs) (hx : ∃ x ∈ xs, (s.reg .v0).toInt ≤ x.toInt)
    (hfuel : d ≤ fuel) : Total (query site fuel) s fun _ u => Right s u xs := by
  obtain ⟨r,hr⟩ := Option.isSome_iff_exists.mp (h.bisect_isSome_iff.mpr hx)
  have hsearch := bisect_mono h.element hr
  refine (h.post hfuel).mono (fun _ u hu => ?_) fun _ _ he => ?_
  · obtain ⟨r',hr',hv1⟩ := hu
    obtain rfl := Option.some.inj (hsearch.symm.trans hr')
    exact h.right hr hv1
  · cases hsearch.symm.trans he

theorem confine_stack {j : ℕ} (hpos : 0 < j) (hj : j ≤ d) :
    (s.confine sp base d n).mem (under sp j) = s.mem (under sp j) := by
  refine if_pos (Or.inl ⟨j - 1,by omega,?_⟩)
  rw [Nat.sub_add_cancel hpos]

theorem confine_cell {i : ℕ} (hi : i < n) :
    (s.confine sp base d n).mem (cell base i) = s.mem (cell base i) := if_pos (Or.inr ⟨i,hi,rfl⟩)

theorem Asked.confine_behind (h : Asked s sp base d xs) :
    (s.confine sp base d xs.length).mem (cell base xs.length) = none := by
  refine if_neg ?_
  rintro (⟨j,hj,he⟩ | ⟨i,hi,he⟩)
  · refine h.apart (j + 1) (Nat.succ_pos j) hj xs.length (Nat.lt_succ_self _) ?_
    rw [Nat.zero_add,he]
  · rw [h.fits.cell_inj (by omega) (by omega)] at he
    omega

theorem Asked.confine (h : Asked s sp base d xs) : Asked (s.confine sp base d xs.length) sp base d xs where
  stack := {
    pointer := h.stack.pointer
    aligned := h.stack.aligned
    small := h.stack.small
    room := h.stack.room
    cells := fun j hpos hj => by
      rw [confine_stack hpos hj]
      exact h.stack.cells j hpos hj }
  room := h.room
  part := ⟨h.part.s7,h.part.fits,h.part.holds.congr fun j hj => confine_cell (by omega)⟩
  length := h.length
  fits := h.fits
  apart := h.apart
  sorted := h.sorted

/-- The confined machine searches the list. -/
theorem Asked.confine_bisect (h : Asked s sp base d xs) (key : ℤ) :
    bisect (Mips.element (s.confine sp base d xs.length).mem base) key 0 (xs.length + 1) =
      bisect ((values xs)[·]?) key 0 (xs.length + 1) := by
  refine bisect_congr fun i _ hi => ?_
  rcases Nat.lt_or_ge i xs.length with hlt | hge
  · have hget : (values xs)[i]? = some xs[i].toInt := values_get.mpr (List.getElem?_eq_getElem hlt)
    rw [h.confine.element i _ hget,hget]
  · obtain rfl : i = xs.length := by omega
    rw [Mips.element,h.confine_behind,List.getElem?_eq_none (by rw [values,List.length_map])]
    rfl

/-- The confined machine answers nothing for a key above all elements. -/
theorem Answers.bounded (ha : Answers site s sp base d xs) (h : Asked s sp base d xs) :
    ∃ x ∈ xs, (s.reg .v0).toInt ≤ x.toInt := by
  obtain ⟨enough,hall⟩ := ha
  have htotal := (hall (max d enough) (le_max_right _ _)).2
  obtain ⟨_,_,_,-,r,hr,-⟩ := (htotal.and_post (h.confine.post (le_max_left _ _))).exists_ok
  rw [h.confine_bisect] at hr
  exact h.bisect_isSome_iff.mp (Option.isSome_iff_exists.mpr ⟨r,hr⟩)

/-- Queries are answered rightly, and without a look behind the array, exactly for the keys that are not
above all its elements. -/
theorem query_answers_iff (h : Asked s sp base d xs) :
    Answers site s sp base d xs ↔ ∃ x ∈ xs, (s.reg .v0).toInt ≤ x.toInt := by
  constructor
  · exact fun ha => ha.bounded h
  · refine fun hx => ⟨d,fun fuel hfuel => ⟨h.total hx hfuel,?_⟩⟩
    exact (h.confine.total hx hfuel).imp fun _ _ hu => ⟨hu.index,hu.absent⟩

/-- An array of one word and a word behind it, with five words of stack. -/
def single (key : Word) : Cpu Unit where
  reg r := match r with
    | .s7 => 0x10040000
    | .t9 => 1
    | .v0 => key
    | .sp => 0x7fffeffc
    | _ => 0
  mem a :=
    if a = 0x10040000 then some 5
    else if a = 0x10040004 then some 7
    else if 0x7fffefe8 ≤ a ∧ a < 0x7fffeffc then some 0
    else none
  system := ()

theorem asked_single (key : Word) : Asked (single key) 0x7fffeffc 0x10040000 5 [5] := by
  have hcells : ∀ j ≤ 5, 0 < j → ((single key).mem (under 0x7fffeffc j)).isSome = true := by
    change ∀ j ≤ 5, 0 < j → ((single 0).mem (under 0x7fffeffc j)).isSome = true
    decide +kernel
  have hapart : ∀ j ≤ 5, 0 < j → ∀ i < 2, under 0x7fffeffc j ≠ cell 0x10040000 (0 + i) := by
    decide +kernel
  have hword : (single key).mem (cell 0x10040000 0) = some 5 := by
    change (single 0).mem (cell 0x10040000 0) = some 5
    decide +kernel
  exact {
    stack := ⟨rfl,rfl,by decide,by decide,fun j hpos hj => hcells j hj hpos⟩
    room := by decide
    part := ⟨rfl,⟨rfl,by decide⟩,hword,trivial⟩
    length := rfl
    fits := ⟨rfl,by decide⟩
    apart := fun j hpos hj => hapart j hj hpos
    sorted := List.pairwise_singleton _ _ }

theorem query_answers_iff_single :
    Answers (fun _ => 0x00400000) (single 5) 0x7fffeffc 0x10040000 5 [5] ↔
      ∃ x ∈ [(5 : Word)], ((single 5).reg .v0).toInt ≤ x.toInt := query_answers_iff (asked_single 5)

/-- The key 7 is above the array, and the query finds it behind. -/
theorem not_answers_single :
    ¬ Answers (fun _ => 0x00400000) (single 7) 0x7fffeffc 0x10040000 5 [5] ∧
      ∃ u, query (fun _ => 0x00400000) 5 (single 7) = .ok () u ∧ u.reg .v1 = 1 := by
  constructor
  · intro ha
    obtain ⟨x,hx,hle⟩ := ha.bounded (asked_single 7)
    obtain rfl := List.mem_singleton.mp hx
    exact absurd hle (by decide)
  · obtain ⟨⟨⟩,u,hrun,hu⟩ := exists_of_returns (by decide +kernel :
      returns (query (fun _ => 0x00400000) 5) (single 7) (fun _ u => u.reg .v1 = 1) = true)
    exact ⟨u,hrun,of_decide_eq_true hu⟩

end ResumePointers.Mips
