import ResumePointers.Lib.MergeSort
import ResumePointers.Mips.Scratch

/-! `mergesort` of `assembly/queryProcessing.s`: it leaves the part of the array that it is called with as
the stable merge sort of its words. -/
namespace ResumePointers.Mips

variable {A : Type}

/-- `site i` is the address behind the `i`-th `jal`. -/
def mergesort (sbrk : Cpu A → Option (Cpu A)) (site : Fin 3 → Word) : ℕ → M A Unit
  | 0 => throw .fuel
  | fuel + 1 => do
    addi .sp .sp (-4)
    sw .ra 0 .sp
    if (← reg .a1).slt (← reg .a2) then do
      add .t0 .a1 .a2
      srl .t0 .t0 1
      addi .sp .sp (-12)
      sw .a1 8 .sp
      sw .a2 4 .sp
      sw .t0 0 .sp
      move .a2 .t0
      jal (site 0) (mergesort sbrk site fuel)
      lw .t0 0 .sp
      addi .t1 .t0 1
      move .a1 .t1
      lw .a2 4 .sp
      jal (site 1) (mergesort sbrk site fuel)
      lw .a1 8 .sp
      lw .a2 4 .sp
      lw .a3 0 .sp
      jal (site 2) (merge sbrk fuel)
      lw .ra 12 .sp
      addi .sp .sp 16
    else do
      lw .ra 0 .sp
      addi .sp .sp 4

/-- The words of stack that the sort of `n` words takes. -/
def depth (n : ℕ) : ℕ := 4 * Nat.clog 2 n + 1

/-- The registers that a caller of `mergesort` loses, besides `ra` that the call sets. -/
def lost : List Reg := .a1::.a2::.a3::changed

/-- `mergesort` is called for the words `xs` of the array, which are the elements from `l` up to the one
whose index is in `a2`. -/
structure Called (s : Cpu A) (sp base : Word) (d l : ℕ) (xs : List Word) : Prop where
  stack : Stack s sp d
  part : Part s base l xs
  apart : Apart sp base d l xs.length
  low : s.reg .a1 = .ofNat 32 l
  high : xs.length = ((s.reg .a2).toInt + 1 - l).toNat
  room : depth xs.length ≤ d

/-- What the sort of these words leaves in `u`. -/
structure Sorted (s u : Cpu A) (sp base : Word) (d l : ℕ) (xs : List Word) : Prop where
  holds : Holds u.mem base l (xs.mergeSort BitVec.sle)
  changes : Changes s.mem u.mem sp base d l xs.length
  kept : Kept lost s u

/-- The routine sorts parts with fewer than `n` words. -/
def Sorting (routine : M A Unit) (n : ℕ) : Prop :=
  ∀ (s : Cpu A) (sp base : Word) (d l : ℕ) (xs : List Word), Called s sp base d l xs → xs.length < n →
    Post routine s (fun _ u => Sorted s u sp base d l xs) fun e _ => e = .refused

/-- The sort that was called in `s` for `n` words is in `t` between two of its own calls. -/
structure Between (s t : Cpu A) (sp base : Word) (d l mid high n : ℕ) : Prop where
  pointer : t.reg .sp = under sp 4
  savedRa : t.mem (under sp 1) = some (s.reg .ra)
  savedLow : t.mem (under sp 2) = some (.ofNat 32 l)
  savedHigh : t.mem (under sp 3) = some (.ofNat 32 high)
  savedMid : t.mem (under sp 4) = some (.ofNat 32 mid)
  changes : Changes s.mem t.mem sp base (4 + d) l n
  kept : Kept (.sp::.ra::lost) s t

variable {sbrk : Cpu A → Option (Cpu A)} {site : Fin 3 → Word} {s t u v : Cpu A} {sp base w : Word}
  {d d' i j l m n p q mid high fuel : ℕ} {mem mem' mem'' : Memory} {r : Reg} {xs ys : List Word}
  {k : M A Unit} {Q : Unit → Cpu A → Prop} {E : Fault → Cpu A → Prop}

theorem Changes.refl : Changes mem mem sp base d l n := ⟨fun _ ha => ha,fun _ _ _ _ => rfl⟩

theorem Changes.trans (h : Changes mem mem' sp base d l n) (h' : Changes mem' mem'' sp base d l n) :
    Changes mem mem'' sp base d l n where
  allocated a ha := h'.allocated a (h.allocated a ha)
  frame a ha hst hne := (h'.frame a (h.allocated a ha) hst hne).trans (h.frame a ha hst hne)

theorem Changes.store (h : Changes mem mem' sp base d l n) (hpos : 0 < j) (hj : j ≤ d) :
    Changes mem (Function.update mem' (under sp j) (some w)) sp base d l n where
  allocated a ha := by
    rw [Function.update_apply]
    split
    · rfl
    · exact h.allocated a ha
  frame a ha hst hne := by
    rw [Function.update_of_ne (hst j hpos hj)]
    exact h.frame a ha hst hne

/-- What a call with a lower stack pointer changes in a part of the array, its caller changes. -/
theorem Changes.lift (h : Changes mem mem' (under sp m) base d' (l + i) p) (hd : m + d' ≤ d)
    (hp : i + p ≤ n) : Changes mem mem' sp base d l n where
  allocated := h.allocated
  frame a ha hst hne := by
    refine h.frame a ha (fun j hpos hj => ?_) fun j hj => ?_
    · rw [under_under]
      exact hst (m + j) (by omega) (by omega)
    · rw [Nat.add_assoc]
      exact hne (i + j) (by omega)

theorem Stack.lower (h : Stack s sp n) (ht : t.reg .sp = under sp m) (hm : m + d ≤ n)
    (hm' : ∀ a, (s.mem a).isSome = true → (t.mem a).isSome = true) : Stack t (under sp m) d where
  pointer := ht
  aligned := under_aligned h.aligned m
  small := by
    have hsmall := h.small
    rw [h.toNat_under (by omega)]
    omega
  room := by
    have hroom := h.room
    rw [h.toNat_under (by omega)]
    omega
  cells j hpos hj := by
    rw [under_under]
    exact hm' _ (h.cells (m + j) (by omega) (by omega))

theorem Apart.part (h : Apart sp base d l n) (hd : m + d' ≤ d) (hp : i + p ≤ n) :
    Apart (under sp m) base d' (l + i) p := by
  intro j hpos hj i' hi'
  rw [under_under,Nat.add_assoc]
  exact h (m + j) (by omega) (by omega) (i + i') (by omega)

/-- The words above the lowered stack pointer are as before. -/
theorem Changes.above (h : Changes mem mem' (under sp m) base d' (l + i) p) (hst : Stack s sp d)
    (hap : Apart sp base d l n) (hd : m + d' ≤ d) (hp : i + p ≤ n) (hpos : 0 < j) (hj : j ≤ m)
    (hw : mem (under sp j) = some w) : mem' (under sp j) = some w := by
  rw [h.frame _ (by rw [hw]; rfl) (fun j' hpos' hj' => ?_) fun i' hi' => ?_,hw]
  · rw [under_under,Ne,hst.under_inj (by omega) (by omega)]
    omega
  · rw [Nat.add_assoc]
    exact hap j hpos (by omega) (i + i') (by omega)

/-- The other words of the array are as before. -/
theorem Changes.beside (h : Changes mem mem' (under sp m) base d' (l + i) p)
    (hap : Apart sp base d l n) (hfits : Fits base (l + n)) (hd : m + d' ≤ d) (hp : i + p ≤ n)
    (hh : Holds mem base (l + j) xs) (hj : j + xs.length ≤ n) (hne : j + xs.length ≤ i ∨ i + p ≤ j) :
    Holds mem' base (l + j) xs := by
  refine hh.congr fun j' hj' => h.frame _ (hh.isSome hj') (fun j'' hpos'' hj'' => ?_) fun i' hi' => ?_
  · rw [under_under,Nat.add_assoc]
    exact (hap (m + j'') (by omega) (by omega) (j + j') (by omega)).symm
  · rw [Ne,hfits.cell_inj (by omega) (by omega)]
    omega

theorem Between.set (h : Between s t sp base d l mid high n) (hr : r ∈ lost) (w : Word) :
    Between s (t.set r w) sp base d l mid high n where
  pointer := by
    have hne : Reg.sp ≠ r := by
      rintro rfl
      exact absurd hr (by decide)
    rw [set_reg,if_neg hne]
    exact h.pointer
  savedRa := h.savedRa
  savedLow := h.savedLow
  savedHigh := h.savedHigh
  savedMid := h.savedMid
  changes := h.changes
  kept := h.kept.set (List.mem_cons_of_mem _ (List.mem_cons_of_mem _ hr)) w

/-- A call keeps what is on the stack. -/
theorem Between.call (h : Between s t sp base d l mid high n) (hst : Stack s sp (4 + d))
    (hap : Apart sp base (4 + d) l n) (hc : Changes t.mem u.mem (under sp 4) base d' (l + i) p)
    (hd : d' ≤ d) (hp : i + p ≤ n) (hk : Kept (.ra::lost) t u) :
    Between s u sp base d l mid high n where
  pointer := (hk _ (by decide)).trans h.pointer
  savedRa := hc.above hst hap (by omega) hp (by decide) (by decide) h.savedRa
  savedLow := hc.above hst hap (by omega) hp (by decide) (by decide) h.savedLow
  savedHigh := hc.above hst hap (by omega) hp (by decide) (by decide) h.savedHigh
  savedMid := hc.above hst hap (by omega) hp (by decide) (by decide) h.savedMid
  changes := h.changes.trans (hc.lift (by omega) hp)
  kept := h.kept.trans (hk.mono (List.subset_cons_self _ _))

/-- The larger half takes four words less. -/
theorem depth_halves (hq : 0 < q) (hle : q ≤ p) (hle' : p ≤ q + 1) : depth (p + q) = 4 + depth p := by
  rw [depth,depth,Nat.clog_of_two_le Nat.one_lt_two (by omega),show (p + q + 2 - 1) / 2 = p by omega]
  omega

theorem depth_mono (h : q ≤ p) : depth q ≤ depth p :=
  Nat.add_le_add_right (Nat.mul_le_mul_left 4 (Nat.clog_mono_right 2 h)) 1

theorem half_ofNat (h : n < 2 ^ 32) : (BitVec.ofNat 32 n) >>> 1 = .ofNat 32 (n / 2) := by
  refine BitVec.eq_of_toNat_eq ?_
  rw [BitVec.toNat_ushiftRight,toNat_ofNat h,toNat_ofNat (by omega),Nat.shiftRight_one]

theorem toInt_ofNat (h : n < 2 ^ 31) : (BitVec.ofNat 32 n).toInt = n := by
  rw [BitVec.toInt_eq_toNat_of_lt]
  · rw [toNat_ofNat (by omega)]
  · rw [toNat_ofNat (by omega)]
    omega

theorem eq_ofNat (hn : n < 2 ^ 31) (h : w.toInt = n) : w = .ofNat 32 n :=
  BitVec.eq_of_toInt_eq (h.trans (toInt_ofNat hn).symm)

/-- What the routine has on the stack between its calls. -/
def pushed (sp ra low high mid : Word) (mem : Memory) : Memory :=
  Function.update (Function.update (Function.update (Function.update mem (under sp 1) (some ra))
    (under sp 2) (some low)) (under sp 3) (some high)) (under sp 4) (some mid)

theorem pushed_words {ra low high mid : Word} (hst : Stack s sp n) (hn : 4 ≤ n) :
    pushed sp ra low high mid mem (under sp 1) = some ra ∧
      pushed sp ra low high mid mem (under sp 2) = some low ∧
      pushed sp ra low high mid mem (under sp 3) = some high ∧
      pushed sp ra low high mid mem (under sp 4) = some mid := by
  have hne : ∀ j < 4, ∀ j' ≤ 4, j < j' → under sp j ≠ under sp j' := by
    intro j hj j' hj' hlt
    rw [Ne,hst.under_inj (by omega) (by omega)]
    exact hlt.ne
  refine ⟨?_,?_,?_,Function.update_self ..⟩
  · rw [pushed,Function.update_of_ne (hne 1 (by decide) 4 (by decide) (by decide)),
      Function.update_of_ne (hne 1 (by decide) 3 (by decide) (by decide)),
      Function.update_of_ne (hne 1 (by decide) 2 (by decide) (by decide)),Function.update_self]
  · rw [pushed,Function.update_of_ne (hne 2 (by decide) 4 (by decide) (by decide)),
      Function.update_of_ne (hne 2 (by decide) 3 (by decide) (by decide)),Function.update_self]
  · rw [pushed,Function.update_of_ne (hne 3 (by decide) 4 (by decide) (by decide)),Function.update_self]

theorem changes_pushed {ra low high mid : Word} (hd : 4 ≤ d) :
    Changes mem (pushed sp ra low high mid mem) sp base d l n :=
  (((Changes.refl.store (by decide) (by omega)).store (by decide) (by omega)).store (by decide)
    (by omega)).store (by decide) hd

/-- The branch for two words or more starts with saving `low`, `high` and `mid`. -/
theorem post_split (hst : Stack s sp (4 + d)) (ha1 : s.reg .a1 = .ofNat 32 l)
    (ha2 : s.reg .a2 = .ofNat 32 high) (hmid : (l + high) / 2 = mid) (hsmall : l + high < 2 ^ 31)
    (hmem : t.mem = Function.update s.mem (under sp 1) (some (s.reg .ra)))
    (hsp : t.reg .sp = under sp 1) (hkept : Kept [.sp] s t)
    (hk : ∀ u : Cpu A, u.reg .sp = under sp 4 → u.reg .a1 = .ofNat 32 l → u.reg .a2 = .ofNat 32 mid →
      u.mem = pushed sp (s.reg .ra) (.ofNat 32 l) (.ofNat 32 high) (.ofNat 32 mid) s.mem →
        Kept [.sp,.t0,.a2] s u → Post k u Q E) :
    Post (do
      add .t0 .a1 .a2
      srl .t0 .t0 1
      addi .sp .sp (-12)
      sw .a1 8 .sp
      sw .a2 4 .sp
      sw .t0 0 .sp
      move .a2 .t0
      k) t Q E := by
  have ha1 : t.reg .a1 = .ofNat 32 l := (hkept _ (by decide)).trans ha1
  have ha2 : t.reg .a2 = .ofNat 32 high := (hkept _ (by decide)).trans ha2
  have hat₂ : under sp 4 + 8 = under sp 2 := by
    rw [under,under]
    bv_omega
  have hat₃ : under sp 4 + 4 = under sp 3 := by
    rw [under,under]
    bv_omega
  have hat₄ : under sp 1 + -12 = under sp 4 := by
    rw [under,under]
    bv_omega
  have halloc : ∀ j, 0 < j → j ≤ 4 → ∀ mem, Changes s.mem mem sp sp 4 0 0 →
      (mem (under sp j)).isSome = true := fun j hpos hj mem h =>
    h.allocated _ (hst.cells j hpos (by omega))
  have hchange₁ : Changes s.mem t.mem sp sp 4 0 0 := by
    rw [hmem]
    exact Changes.refl.store (by decide) (by decide)
  have hchange₂ := hchange₁.store (j := 2) (w := .ofNat 32 l) (by decide) (by decide)
  have hchange₃ := hchange₂.store (j := 3) (w := .ofNat 32 high) (by decide) (by decide)
  rw [post_bind]
  refine Iff.mpr (post_add (no_overflow ?_)) ?_
  · rw [ha1,ha2,toNat_ofNat (by omega),toNat_ofNat (by omega)]
    exact hsmall
  rw [ha1,ha2,← BitVec.ofNat_add,post_bind,post_srl,set_reg,if_pos rfl,half_ofNat (by omega),set_set,hmid,
    post_bind]
  refine Iff.mpr (post_addi ?_) ?_
  · rw [set_reg,if_neg (by decide),hsp]
    refine no_overflow_neg ?_ (by decide)
    have hsmall := hst.small
    rw [hst.toNat_under (by omega)]
    omega
  rw [set_reg,if_neg (by decide),hsp,hat₄,post_bind]
  refine Iff.mpr (post_sw (a := under sp 2) ?_ (under_aligned hst.aligned 2)
    (halloc 2 (by decide) (by decide) _ hchange₁)) ?_
  · rw [set_reg,if_pos rfl,hat₂]
  simp only [set_reg,reduceCtorEq,↓reduceIte,ha1]
  rw [post_bind]
  refine Iff.mpr (post_sw (a := under sp 3) ?_ (under_aligned hst.aligned 3)
    (halloc 3 (by decide) (by decide) _ hchange₂)) ?_
  · rw [write_reg,set_reg,if_pos rfl,hat₃]
  simp only [write_reg,set_reg,reduceCtorEq,↓reduceIte,ha2]
  rw [post_bind]
  refine Iff.mpr (post_sw (a := under sp 4) ?_ (under_aligned hst.aligned 4)
    (halloc 4 (by decide) (by decide) _ hchange₃)) ?_
  · rw [write_reg,write_reg,set_reg,if_pos rfl,add_zero]
  rw [post_bind,post_move]
  simp only [write_reg,set_reg,reduceCtorEq,↓reduceIte]
  refine hk _ rfl ?_ rfl ?_ fun r hr => ?_
  · simp only [write_reg,set_reg,reduceCtorEq,↓reduceIte,ha1]
  · rw [pushed,← hmem]
    rfl
  · obtain ⟨h₁,h₂,h₃⟩ : r ≠ .sp ∧ r ≠ .t0 ∧ r ≠ .a2 := by simpa using hr
    simp only [write_reg,set_reg,if_neg h₁,if_neg h₂,if_neg h₃]
    exact hkept r (by simpa using h₁)

theorem between_pushed (hst : Stack s sp (4 + d)) (hsp : t.reg .sp = under sp 4)
    (hmem : t.mem = pushed sp (s.reg .ra) (.ofNat 32 l) (.ofNat 32 high) (.ofNat 32 mid) s.mem)
    (hkept : Kept [.sp,.t0,.a2] s t) : Between s t sp base d l mid high n := by
  have hwords := @pushed_words _ s sp (4 + d) s.mem (s.reg .ra) (.ofNat 32 l) (.ofNat 32 high)
    (.ofNat 32 mid) hst (Nat.le_add_right 4 d)
  rw [← hmem] at hwords
  obtain ⟨hra,hlow,hhigh,hmid⟩ := hwords
  have hchange : Changes s.mem t.mem sp base (4 + d) l n := by
    rw [hmem]
    exact changes_pushed (Nat.le_add_right 4 d)
  exact ⟨hsp,hra,hlow,hhigh,hmid,hchange,hkept.mono (by decide)⟩

/-- The array is not on the stack. -/
theorem Holds.pushed {ra low high mid : Word} (h : Holds s.mem base l xs) (hap : Apart sp base d l xs.length)
    (hd : 4 ≤ d) (hmem : t.mem = Mips.pushed sp ra low high mid s.mem) : Holds t.mem base l xs := by
  have hchange : Changes s.mem t.mem sp base d l 0 := by
    rw [hmem]
    exact changes_pushed hd
  refine h.congr fun i hi => hchange.frame _ (h.isSome hi) (fun j hpos hj => ?_) fun i' hi' => ?_
  · exact (hap j hpos hj i hi).symm
  · exact absurd hi' (Nat.not_lt_zero i')

/-- A call for a part of the words. -/
theorem post_half {routine : M A Unit} {site : Word} (hr : Sorting routine fuel)
    (hb : Between s t sp base d l mid high n) (hst : Stack s sp (4 + d))
    (hap : Apart sp base (4 + d) l n) (hs7 : s.reg .s7 = base) (hfits : Fits base (l + n))
    (hn : i + xs.length ≤ n) (hh : Holds t.mem base (l + i) xs) (ha1 : t.reg .a1 = .ofNat 32 (l + i))
    (ha2 : t.reg .a2 = .ofNat 32 m) (hm : m + 1 = l + i + xs.length) (hroom : depth xs.length ≤ d)
    (hfuel : xs.length < fuel) (hE : ∀ u, E .refused u)
    (hk : ∀ u, Between s u sp base d l mid high n → Holds u.mem base (l + i) (xs.mergeSort BitVec.sle) →
      Changes t.mem u.mem (under sp 4) base d (l + i) xs.length → Post k u Q E) :
    Post (do
      jal site routine
      k) t Q E := by
  have hbound := hfits.bound
  have hcalled : Called (t.set .ra site) (under sp 4) base d (l + i) xs := {
    stack := hst.lower hb.pointer (Nat.le_refl _) hb.changes.allocated
    part := ⟨(hb.kept _ (by decide)).trans hs7,hfits.mono (by omega),hh⟩
    apart := hap.part (Nat.le_refl _) hn
    low := ha1
    high := by
      rw [set_reg,if_neg (by decide),ha2,toInt_ofNat (by omega)]
      omega
    room := hroom }
  rw [post_bind]
  refine post_jal ((hr _ _ _ _ _ _ hcalled hfuel).mono (fun _ u hu => ?_) fun e u he => ?_)
  · refine ⟨(hu.kept _ (by decide)).trans rfl,hk u ?_ hu.holds hu.changes⟩
    refine hb.call hst hap hu.changes (Nat.le_refl _) hn ?_
    exact ((Kept.refl _ t).set (by decide) site).trans (hu.kept.mono (List.subset_cons_self _ _))
  · rw [he]
    exact hE u

/-- A saved word is loaded. -/
theorem post_saved {offset : Word} (hst : Stack s sp (4 + d)) (ht : t.reg .sp = under sp 4)
    (hoffset : offset = .ofNat 32 16 - .ofNat 32 (4 * j)) (hw : t.mem (under sp j) = some w) :
    Post (lw r offset .sp) t Q E ↔ Q () (t.set r w) := by
  subst hoffset
  refine post_lw ?_ (under_aligned hst.aligned j) hw
  rw [ht,under,under]
  generalize BitVec.ofNat 32 (4 * j) = w
  bv_omega

/-- Between the calls for the halves. -/
theorem post_next (hb : Between s t sp base d l mid high n) (hst : Stack s sp (4 + d))
    (hsmall : mid + 1 < 2 ^ 31)
    (hk : ∀ u, Between s u sp base d l mid high n → u.reg .a1 = .ofNat 32 (mid + 1) →
      u.reg .a2 = .ofNat 32 high → u.mem = t.mem → Post k u Q E) :
    Post (do
      lw .t0 0 .sp
      addi .t1 .t0 1
      move .a1 .t1
      lw .a2 4 .sp
      k) t Q E := by
  have hone : (1 : Word).toNat = 1 := rfl
  rw [post_bind,post_saved hst hb.pointer (by decide) hb.savedMid,post_bind]
  refine Iff.mpr (post_addi (no_overflow ?_)) ?_
  · rw [set_reg,if_pos rfl,toNat_ofNat (by omega),hone]
    exact hsmall
  rw [set_reg,if_pos rfl,succ_ofNat,post_bind,post_move,set_reg,if_pos rfl,post_bind]
  have hb₁ := ((hb.set (r := .t0) (by decide) (.ofNat 32 mid)).set (r := .t1) (by decide)
    (.ofNat 32 (mid + 1))).set (r := .a1) (by decide) (.ofNat 32 (mid + 1))
  rw [post_saved hst hb₁.pointer (by decide) hb₁.savedHigh]
  exact hk _ (hb₁.set (by decide) _) rfl rfl rfl

/-- The last call, of `merge`. -/
theorem post_join {site : Word} (hs : IsSbrk sbrk) (hb : Between s t sp base d l mid high n)
    (hst : Stack s sp (4 + d)) (hap : Apart sp base (4 + d) l n) (hd : 0 < d) (hs7 : s.reg .s7 = base)
    (hfits : Fits base (l + n)) (hn : (xs ++ ys).length = n)
    (hmid : mid + 1 = l + xs.length) (hhigh : high + 1 = l + xs.length + ys.length)
    (hpos : 0 < xs.length) (hfuel : xs.length + ys.length < fuel) (hE : ∀ u, E .refused u)
    (hh : Holds t.mem base l (xs ++ ys))
    (hk : ∀ u, Between s u sp base d l mid high n → Holds u.mem base l (xs.merge ys BitVec.sle) →
      Post k u Q E) :
    Post (do
      lw .a1 8 .sp
      lw .a2 4 .sp
      lw .a3 0 .sp
      jal site (merge sbrk fuel)
      k) t Q E := by
  subst hn
  rw [post_bind,post_saved hst hb.pointer (by decide) hb.savedLow,post_bind]
  have hb₁ := hb.set (r := .a1) (by decide) (.ofNat 32 l)
  rw [post_saved hst hb₁.pointer (by decide) hb₁.savedHigh,post_bind]
  have hb₂ := hb₁.set (r := .a2) (by decide) (.ofNat 32 high)
  rw [post_saved hst hb₂.pointer (by decide) hb₂.savedMid,post_bind]
  have hb₃ := hb₂.set (r := .a3) (by decide) (.ofNat 32 mid)
  generalize hq : Cpu.set _ Reg.a3 _ = q at hb₃ ⊢
  have hq₁ : q.reg .a1 = .ofNat 32 l := by rw [← hq]; rfl
  have hq₂ : q.reg .a2 = .ofNat 32 high := by rw [← hq]; rfl
  have hq₃ : q.reg .a3 = .ofNat 32 mid := by rw [← hq]; rfl
  have hmem : q.mem = t.mem := by rw [← hq]; rfl
  have hlower : Stack (q.set .ra site) (under sp 4) 1 :=
    hst.lower hb₃.pointer (by omega) hb₃.changes.allocated
  have hpart : Part (q.set .ra site) base l (xs ++ ys) :=
    ⟨(hb₃.kept _ (by decide)).trans hs7,hfits,by rw [set_mem,hmem]; exact hh⟩
  have hapart : Apart (under sp 4) base 1 (l + 0) (xs ++ ys).length := hap.part (by omega) (by omega)
  have hcall := merge_spec hs hlower hpart hapart hq₁ hq₂ hq₃ hmid hhigh hpos hfuel
  refine post_jal (hcall.mono (fun _ u hu => ?_) fun e u he => ?_)
  · obtain ⟨hholds,hchanges,hkept⟩ := hu
    refine ⟨(hkept _ (by decide)).trans rfl,hk u ?_ hholds⟩
    refine hb₃.call (i := 0) hst hap hchanges hd (by omega) ?_
    exact ((Kept.refl _ q).set (by decide) site).trans (hkept.mono (by decide))
  · rw [he]
    exact hE u

/-- The routine is correct with one more round of fuel than there are words. -/
theorem sorting_mergesort {sites : Fin 3 → Word} (hs : IsSbrk sbrk) (fuel : ℕ) :
    Sorting (mergesort sbrk sites fuel) (fuel - 1) := by
  induction fuel with
  | zero => exact fun _ _ _ _ _ _ _ h => absurd h (Nat.not_lt_zero _)
  | succ fuel ih =>
    intro s sp base d l xs hc hfuel
    obtain ⟨hst,hpart,hap,ha1,ha2,hroom⟩ := hc
    have hfits := hpart.fits
    have hbound := hfits.bound
    have hdpos : 0 < d := Nat.lt_of_lt_of_le (Nat.succ_pos _) hroom
    refine post_save hst hdpos fun t hmem hsp hkept => ?_
    rw [post_bind,post_reg,post_bind,post_reg,hkept _ (by decide),hkept _ (by decide),BitVec.slt,
      ha1,toInt_ofNat (by omega)]
    by_cases hlen : 2 ≤ xs.length
    · rw [if_pos (decide_eq_true (by omega))]
      obtain ⟨as,bs,rfl,hpos,hle,hle'⟩ := MergeSort.exists_halves hlen
      have happ : (as ++ bs).length = as.length + bs.length := List.length_append
      obtain ⟨d,rfl⟩ : ∃ c, d = 4 + c := by
        refine Nat.exists_eq_add_of_le ?_
        rw [happ,depth_halves hpos hle hle'] at hroom
        omega
      have hdepth : depth as.length ≤ d := by
        rw [happ,depth_halves hpos hle hle'] at hroom
        omega
      have hd : 0 < d := Nat.lt_of_lt_of_le (Nat.succ_pos _) hdepth
      have hdepth' : depth bs.length ≤ d := (depth_mono hle).trans hdepth
      have ha2 : s.reg .a2 = .ofNat 32 (l + (as ++ bs).length - 1) := eq_ofNat (by omega) (by omega)
      have hhalf : (l + (l + (as ++ bs).length - 1)) / 2 = l + as.length - 1 := by omega
      refine post_split hst ha1 ha2 hhalf (by omega) hmem hsp hkept fun t₁ hsp₁ h₁ h₂ hmem₁ hk₁ => ?_
      have hb₁ : Between s t₁ sp base d l (l + as.length - 1) (l + (as ++ bs).length - 1)
          (as ++ bs).length := between_pushed hst hsp₁ hmem₁ hk₁
      obtain ⟨has,hbs⟩ := holds_append.mp (hpart.holds.pushed hap (Nat.le_add_right 4 d) hmem₁)
      refine post_half (i := 0) ih hb₁ hst hap hpart.s7 hfits (by omega) has h₁ h₂ (by omega)
        hdepth (by omega) (fun _ => rfl) fun u₁ hu₁ has₁ hc₁ => ?_
      have hbs₁ := hc₁.beside hap hfits (by omega) (by omega) hbs (by omega) (Or.inr (by omega))
      refine post_next hu₁ hst (by omega) fun t₂ hb₂ h₃ h₄ hmem₂ => ?_
      refine post_half (i := as.length) ih hb₂ hst hap hpart.s7 hfits (by omega) (hmem₂ ▸ hbs₁) ?_ h₄
        (by omega) hdepth' (by omega) (fun _ => rfl) fun u₂ hu₂ hbs₂ hc₂ => ?_
      · rw [h₃,Nat.sub_add_cancel (by omega)]
      have hlas : (as.mergeSort BitVec.sle).length = as.length := List.length_mergeSort ..
      have hlbs : (bs.mergeSort BitVec.sle).length = bs.length := List.length_mergeSort ..
      have has₂ := hc₂.beside (j := 0) hap hfits (by omega) (by omega) (hmem₂ ▸ has₁) (by omega)
        (Or.inl (by omega))
      have hboth : Holds u₂.mem base l (as.mergeSort BitVec.sle ++ bs.mergeSort BitVec.sle) := by
        rw [holds_append,hlas]
        exact ⟨has₂,hbs₂⟩
      refine post_join hs hu₂ hst hap hd hpart.s7 hfits (by rw [List.length_append]; omega)
        (by omega) (by omega) (by omega) (by omega) (fun _ => rfl) hboth fun u₃ hu₃ hh₃ => ?_
      refine Iff.mpr (post_restore hst (by omega) hu₃.pointer rfl rfl hu₃.savedRa) ?_
      refine ⟨?_,hu₃.changes,?_⟩
      · rw [MergeSort.mergeSort_append hpos hle hle']
        exact hh₃
      · rw [← hst.pointer]
        exact ((hu₃.kept.mono (by decide)).back (r := .ra)).back
    · rw [if_neg (by rw [decide_eq_true_eq]; omega)]
      refine Iff.mpr (post_restore hst hdpos hsp rfl rfl (by rw [hmem,Function.update_self])) ?_
      have hone : xs.mergeSort BitVec.sle = xs := by
        rcases xs with - | ⟨x,- | ⟨y,zs⟩⟩
        · exact List.mergeSort_nil
        · exact List.mergeSort_singleton x
        · exact absurd (Nat.le_add_left 2 zs.length) hlen
      have hchange : Changes s.mem t.mem sp base d l xs.length := by
        rw [hmem]
        exact Changes.refl.store Nat.one_pos hdpos
      refine ⟨?_,hchange,?_⟩
      · rw [hone]
        refine hpart.holds.congr fun i hi => ?_
        change t.mem _ = _
        rw [hmem,Function.update_of_ne (hap 1 Nat.one_pos hdpos i hi).symm]
      · rw [← hst.pointer]
        exact ((hkept.mono (by decide)).back (r := .ra)).back

theorem pairwise_sorted (xs : List Word) :
    (xs.mergeSort BitVec.sle).Pairwise fun x y => x.toInt ≤ y.toInt := by
  have htrans : ∀ x y z : Word, x.sle y = true → y.sle z = true → x.sle z = true := by
    intro x y z hxy hyz
    rw [BitVec.sle_iff_toInt_le] at hxy hyz ⊢
    exact hxy.trans hyz
  have htotal : ∀ x y : Word, (x.sle y || y.sle x) = true := by
    intro x y
    rw [Bool.or_eq_true,BitVec.sle_iff_toInt_le,BitVec.sle_iff_toInt_le]
    exact Int.le_total _ _
  exact (List.pairwise_mergeSort htrans htotal xs).imp fun h => BitVec.sle_iff_toInt_le.mp h

/-- Unless the system refuses memory, the sort ends, with the range ascending as signed numbers, and of the
memory that was allocated changes nothing else than the stack below the stack pointer of its caller. -/
theorem mergesort_sorts {sites : Fin 3 → Word} (hs : IsSbrk sbrk) (hc : Called s sp base d l xs)
    (hfuel : xs.length + 1 < fuel) :
    Post (mergesort sbrk sites fuel) s (fun _ u =>
      (∃ ys : List Word, Holds u.mem base l ys ∧ ys.Perm xs ∧ ys.Pairwise fun x y => x.toInt ≤ y.toInt) ∧
        Changes s.mem u.mem sp base d l xs.length ∧ u.reg .sp = s.reg .sp ∧ u.reg .ra = s.reg .ra)
      fun e _ => e = .refused := by
  refine (sorting_mergesort hs fuel s sp base d l xs hc (by omega)).imp fun _ u hu => ?_
  refine ⟨⟨_,hu.holds,List.mergeSort_perm xs _,pairwise_sorted xs⟩,hu.changes,?_,?_⟩
  · exact hu.kept _ (by decide)
  · exact hu.kept _ (by decide)

/-- A system that gives out the addresses from a break on. -/
def bump (s : Cpu ℕ) : Option (Cpu ℕ) :=
  let n := (s.reg .a0).toNat / 4
  if s.system % 4 = 0 ∧ s.system + 4 * n ≤ 2 ^ 31 ∧ ∀ i < n, s.mem (cell (.ofNat 32 s.system) i) = none then
    some { s.set .v0 (.ofNat 32 s.system) with
      mem := fill (.ofNat 32 s.system) 0 (.replicate n 0) s.mem
      system := s.system + 4 * n }
  else none

theorem isSbrk_bump : IsSbrk bump := by
  intro s t n ha0 hn h
  have hlen : (s.reg .a0).toNat / 4 = n := by
    rw [ha0,toNat_ofNat hn]
    omega
  rw [bump,hlen] at h
  split at h
  · next hfree =>
    obtain ⟨haligned,hbound,hfresh⟩ := hfree
    have h := Option.some.inj h
    have hsys : (BitVec.ofNat 32 s.system).toNat = s.system := toNat_ofNat (by omega)
    have hfits : Fits (.ofNat 32 s.system) n := ⟨by rw [hsys]; exact haligned,by rw [hsys]; exact hbound⟩
    have hreg : t.reg = (s.set .v0 (.ofNat 32 s.system)).reg := by rw [← h]
    have hv0 : t.reg .v0 = .ofNat 32 s.system := by rw [hreg,set_reg,if_pos rfl]
    have hmem : t.mem = fill (.ofNat 32 s.system) 0 (.replicate n 0) s.mem := by rw [← h]
    refine {
      kept := fun r hr => ?_
      fits := hv0 ▸ hfits
      fresh := hv0 ▸ hfresh
      cells := fun i hi => ?_
      frame := fun a ha => ?_ }
    · rw [hreg,set_reg,if_neg (by simpa using hr)]
    · have hholds : Holds t.mem (.ofNat 32 s.system) 0 (.replicate n 0) := by
        rw [hmem]
        refine holds_fill ?_
        rw [List.length_replicate,Nat.zero_add]
        exact hfits
      have hsome := hholds.isSome (j := i) (by rwa [List.length_replicate])
      rwa [Nat.zero_add,← hv0] at hsome
    · rw [hmem]
      refine fill_of_ne fun i hi he => ?_
      rw [List.length_replicate] at hi
      rw [Nat.zero_add] at he
      rw [he,hfresh i hi] at ha
      cases ha
  · cases h

/-- Two words at 0x10040000, the break behind them, and five words of stack. -/
def pair : Cpu ℕ where
  reg r := match r with
    | .s7 => 0x10040000
    | .a2 => 1
    | .sp => 0x7fffeffc
    | _ => 0
  mem a :=
    if a = 0x10040000 then some 5
    else if a = 0x10040004 then some (-3)
    else if 0x7fffefe8 ≤ a ∧ a < 0x7fffeffc then some 0
    else none
  system := 0x10040008

theorem mergesort_sorts_pair :
    ∃ u, mergesort bump (fun _ => 0x00400000) 4 pair = .ok () u ∧
      (∃ ys : List Word, Holds u.mem 0x10040000 0 ys ∧ ys.Perm [5,-3] ∧
        ys.Pairwise fun x y => x.toInt ≤ y.toInt) ∧
        Changes pair.mem u.mem 0x7fffeffc 0x10040000 5 0 2 ∧ u.reg .sp = pair.reg .sp ∧
          u.reg .ra = pair.reg .ra := by
  have hcells : ∀ j ≤ 5, 0 < j → (pair.mem (under 0x7fffeffc j)).isSome = true := by decide +kernel
  have hapart : ∀ j ≤ 5, 0 < j → ∀ i < 2, under 0x7fffeffc j ≠ cell 0x10040000 (0 + i) := by
    decide +kernel
  have hwords : pair.mem (cell 0x10040000 0) = some 5 ∧ pair.mem (cell 0x10040000 1) = some (-3) := by
    decide +kernel
  have hdepth : depth 2 = 5 := by
    rw [depth,Nat.clog_of_two_le Nat.one_lt_two (by decide),show (2 + 2 - 1) / 2 = 1 from rfl,
      Nat.clog_one_right]
  have hcalled : Called pair 0x7fffeffc 0x10040000 5 0 [5,-3] := {
    stack := ⟨rfl,rfl,by decide,by decide,fun j hpos hj => hcells j hj hpos⟩
    part := ⟨rfl,⟨rfl,by decide⟩,hwords.1,hwords.2,trivial⟩
    apart := fun j hpos hj => hapart j hj hpos
    low := rfl
    high := by decide
    room := hdepth.le }
  obtain ⟨⟨⟩,u,hrun,-⟩ := exists_of_returns (by decide +kernel :
    returns (mergesort bump (fun _ => 0x00400000) 4) pair (fun _ _ => true) = true)
  exact ⟨u,hrun,(mergesort_sorts isSbrk_bump hcalled (by decide)).of_ok hrun⟩

end ResumePointers.Mips
