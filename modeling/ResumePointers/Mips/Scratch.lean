import ResumePointers.Mips.Merge

/-! What `merge` of `assembly/queryProcessing.s` does: with scratch arrays from `sbrk`, it leaves the part
of the array that it is called with as the merged list, and the stack as it was. -/
namespace ResumePointers.Mips

variable {A : Type}

/-- `sbrk` has returned a block of `n` words, none of which was allocated before. -/
structure Granted (s t : Cpu A) (n : ℕ) : Prop where
  kept : Kept [.v0] s t
  fits : Fits (t.reg .v0) n
  fresh : ∀ i < n, s.mem (cell (t.reg .v0) i) = none
  cells : ∀ i < n, (t.mem (cell (t.reg .v0) i)).isSome = true
  frame : ∀ a, (s.mem a).isSome = true → t.mem a = s.mem a

/-- `sbrk`, called with a number of bytes in `a0`, returns a block unless it is refused. -/
def IsSbrk (sbrk : Cpu A → Option (Cpu A)) : Prop :=
  ∀ s t n, s.reg .a0 = .ofNat 32 (4 * n) → 4 * n < 2 ^ 32 → sbrk s = some t → Granted s t n

/-- There are `n` words of stack below `sp`. -/
structure Stack (s : Cpu A) (sp : Word) (n : ℕ) : Prop where
  pointer : s.reg .sp = sp
  aligned : sp.toNat % 4 = 0
  small : sp.toNat < 2 ^ 31
  room : 4 * n ≤ sp.toNat
  cells : ∀ j, 0 < j → j ≤ n → (s.mem (under sp j)).isSome = true

/-- The array at `s7` has these words from element `l` on. -/
structure Part (s : Cpu A) (base : Word) (l : ℕ) (xs : List Word) : Prop where
  s7 : s.reg .s7 = base
  fits : Fits base (l + xs.length)
  holds : Holds s.mem base l xs

/-- `d` words of stack and `n` elements of the array have no address in common. -/
def Apart (sp base : Word) (d l n : ℕ) : Prop :=
  ∀ j, 0 < j → j ≤ d → ∀ i < n, under sp j ≠ cell base (l + i)

/-- Of the memory that was allocated before, only `d` words of stack and `n` elements of the array are
changed. -/
structure Changes (mem mem' : Memory) (sp base : Word) (d l n : ℕ) : Prop where
  allocated : ∀ a, (mem a).isSome = true → (mem' a).isSome = true
  frame : ∀ a, (mem a).isSome = true → (∀ j, 0 < j → j ≤ d → a ≠ under sp j) →
    (∀ i < n, a ≠ cell base (l + i)) → mem' a = mem a

/-- `a` is the address of one of `n` elements of the array. -/
def InPart (base : Word) (l n : ℕ) (a : Word) : Prop := ∃ i < n, a = cell base (l + i)

variable {sbrk : Cpu A → Option (Cpu A)} {s t u : Cpu A} {d r : Reg} {sp base : Word}
  {left right : Word} {l m n fuel mid high : ℕ} {xs ys : List Word} {k : M A Unit} {Q : Unit → Cpu A → Prop}
  {E : Fault → Cpu A → Prop}

theorem sub_ofNat (h : m ≤ n) : (BitVec.ofNat 32 n - .ofNat 32 m) = .ofNat 32 (n - m) := by
  obtain ⟨p,rfl⟩ := Nat.exists_eq_add_of_le h
  rw [BitVec.ofNat_add,add_sub_cancel_left,Nat.add_sub_cancel_left]

/-- The instructions around a call of `sbrk` for `n` words. -/
theorem post_allocate (hs : IsSbrk sbrk) (hr : t.reg r = .ofNat 32 (4 * n)) (hne : r ≠ .v0)
    (hn : 4 * n < 2 ^ 32) (hE : ∀ u, E .refused u)
    (hk : ∀ (u : Cpu A) (p : Word), u.reg d = p → Fits p n → (∀ i < n, t.mem (cell p i) = none) →
      (∀ i < n, (u.mem (cell p i)).isSome = true) →
        (∀ a, (t.mem a).isSome = true → u.mem a = t.mem a) → Kept [d,.v0,.a0] t u → Post k u Q E) :
    Post (do
      li .v0 9
      move .a0 r
      syscall sbrk
      move d .v0
      k) t Q E := by
  rw [post_bind,post_li,post_bind,post_move,post_bind,set_reg,if_neg hne,hr,syscall,post_bind,post_get,
    if_pos (by rw [set_reg,if_neg (by decide),set_reg,if_pos rfl])]
  cases hcall : sbrk _ with
  | none => exact hE _
  | some u =>
    have hgrant := hs _ u n (by rw [set_reg,if_pos rfl]) hn hcall
    dsimp only
    rw [post_set,post_bind,post_move]
    refine hk _ (u.reg .v0) (by rw [set_reg,if_pos rfl]) hgrant.fits hgrant.fresh hgrant.cells
      hgrant.frame fun r' hr' => ?_
    simp only [List.mem_cons,not_or] at hr'
    obtain ⟨h₁,h₂,h₃,-⟩ := hr'
    rw [set_reg,if_neg h₁,hgrant.kept r' (by simpa using h₂)]
    simp only [set_reg,if_neg h₂,if_neg h₃]

theorem under_aligned (h : sp.toNat % 4 = 0) (n : ℕ) : (under sp n).toNat % 4 = 0 := by
  rw [under,BitVec.toNat_sub,BitVec.toNat_ofNat]
  omega

theorem Stack.toNat_under (h : Stack s sp n) (hm : m ≤ n) : (under sp m).toNat = sp.toNat - 4 * m := by
  have hsmall := h.small
  have hroom := h.room
  rw [under,BitVec.toNat_sub,toNat_ofNat (by omega)]
  omega

theorem Stack.under_inj (h : Stack s sp n) {i j : ℕ} (hi : i ≤ n) (hj : j ≤ n) :
    under sp i = under sp j ↔ i = j := by
  constructor
  · intro he
    have hroom := h.room
    have hnat := congrArg BitVec.toNat he
    rw [h.toNat_under hi,h.toNat_under hj] at hnat
    omega
  · rintro rfl
    rfl

/-- A routine starts with saving `ra`. -/
theorem post_save (hst : Stack s sp n) (hn : 0 < n)
    (hk : ∀ t, t.mem = Function.update s.mem (under sp 1) (some (s.reg .ra)) →
      t.reg .sp = under sp 1 → Kept [.sp] s t → Post k t Q E) :
    Post (do
      addi .sp .sp (-4)
      sw .ra 0 .sp
      k) s Q E := by
  have hsp : sp + -4 = under sp 1 := by
    rw [under]
    bv_omega
  rw [post_bind]
  refine Iff.mpr (post_addi ?_) ?_
  · rw [hst.pointer]
    exact no_overflow_neg hst.small (by decide)
  rw [hst.pointer,hsp,post_bind]
  refine Iff.mpr (post_sw (a := under sp 1) ?_ (under_aligned hst.aligned 1) (hst.cells 1 Nat.one_pos hn)) ?_
  · rw [set_reg,if_pos rfl,add_zero]
  refine hk _ rfl (by rw [write_reg,set_reg,if_pos rfl]) fun r hr => ?_
  rw [write_reg,set_reg,if_neg (by simpa using hr)]

/-- A routine ends with restoring `ra` and `sp`, which is `m` words up. -/
theorem post_restore {offset w v : Word} (hst : Stack s sp n) (hm : m ≤ n) (ht : t.reg .sp = under sp m)
    (hoffset : offset = .ofNat 32 (4 * m) - 4) (hw : w = .ofNat 32 (4 * m))
    (hra : t.mem (under sp 1) = some v) :
    Post (do
      lw .ra offset .sp
      addi .sp .sp w) t Q E ↔ Q () ((t.set .ra v).set .sp sp) := by
  subst hoffset hw
  have hsmall := hst.small
  have hroom := hst.room
  have htop : under sp m + (BitVec.ofNat 32 (4 * m) - 4) = under sp 1 := by
    rw [under,under]
    generalize BitVec.ofNat 32 (4 * m) = w
    bv_omega
  have hback : under sp m + BitVec.ofNat 32 (4 * m) = sp := by
    rw [under]
    generalize BitVec.ofNat 32 (4 * m) = w
    bv_omega
  rw [post_bind,post_lw (a := under sp 1) (by rw [ht,htop]) (under_aligned hst.aligned 1) hra,
    post_addi (no_overflow ?_),set_reg,if_neg (by decide),ht,hback]
  rw [set_reg,if_neg (by decide),ht,hst.toNat_under hm,toNat_ofNat (by omega)]
  omega

/-- A register that is lost is set to what it was. -/
theorem Kept.back {rs : List Reg} (h : Kept (r::rs) s t) : Kept rs s (t.set r (s.reg r)) := by
  intro r' hr'
  rw [set_reg]
  split
  · next he => rw [he]
  · next hne =>
    refine h r' fun hm => ?_
    rcases List.mem_cons.mp hm with he | hm
    · exact hne he
    · exact hr' hm

/-- What `merge` has computed when it asks for memory. -/
structure Entered (s t : Cpu A) (sp : Word) (m n : ℕ) : Prop where
  mem : t.mem = Function.update s.mem (under sp 1) (some (s.reg .ra))
  pointer : t.reg .sp = under sp 1
  s3 : t.reg .s3 = .ofNat 32 m
  s4 : t.reg .s4 = .ofNat 32 n
  t0 : t.reg .t0 = .ofNat 32 (4 * m)
  t1 : t.reg .t1 = .ofNat 32 (4 * n)
  kept : Kept [.sp,.s3,.s4,.t0,.t1] s t

theorem post_enter (hst : Stack s sp 1) (ha1 : s.reg .a1 = .ofNat 32 l)
    (ha2 : s.reg .a2 = .ofNat 32 high) (ha3 : s.reg .a3 = .ofNat 32 mid) (hmid : mid + 1 = l + m)
    (hhigh : high + 1 = l + m + n) (hsmall : high + 1 < 2 ^ 31) (hm : 0 < m)
    (hk : ∀ t, Entered s t sp m n → Post k t Q E) :
    Post (do
      addi .sp .sp (-4)
      sw .ra 0 .sp
      sub .s3 .a3 .a1
      addi .s3 .s3 1
      sub .s4 .a2 .a3
      sll .t0 .s3 2
      sll .t1 .s4 2
      k) s Q E := by
  have hone : (1 : Word).toNat = 1 := rfl
  have hs3 : (BitVec.ofNat 32 mid - .ofNat 32 l) = .ofNat 32 (m - 1) := by
    rw [sub_ofNat (by omega),show mid - l = m - 1 by omega]
  have hs4 : (BitVec.ofNat 32 high - .ofNat 32 mid) = .ofNat 32 n := by
    rw [sub_ofNat (by omega),show high - mid = n by omega]
  refine post_save hst Nat.one_pos fun u hmem hsp hkept => ?_
  have ha1 : u.reg .a1 = .ofNat 32 l := (hkept _ (by decide)).trans ha1
  have ha2 : u.reg .a2 = .ofNat 32 high := (hkept _ (by decide)).trans ha2
  have ha3 : u.reg .a3 = .ofNat 32 mid := (hkept _ (by decide)).trans ha3
  rw [post_bind]
  refine Iff.mpr (post_sub ?_) ?_
  · rw [ha1,ha3]
    exact no_overflow_sub (by rw [toNat_ofNat] <;> omega) (by rw [toNat_ofNat] <;> omega)
  rw [ha1,ha3,hs3,post_bind]
  refine Iff.mpr (post_addi (no_overflow ?_)) ?_
  · rw [set_reg,if_pos rfl,toNat_ofNat (by omega),hone]
    omega
  rw [set_reg,if_pos rfl,set_set,succ_ofNat,Nat.sub_add_cancel hm,post_bind]
  refine Iff.mpr (post_sub ?_) ?_
  · simp only [set_reg,reduceCtorEq,↓reduceIte,ha2,ha3]
    exact no_overflow_sub (by rw [toNat_ofNat] <;> omega) (by rw [toNat_ofNat] <;> omega)
  simp only [set_reg,reduceCtorEq,↓reduceIte,ha2,ha3,hs4]
  rw [post_bind,post_sll,post_bind,post_sll]
  simp only [set_reg,reduceCtorEq,↓reduceIte,shift_ofNat]
  refine hk _ ⟨hmem,hsp,rfl,rfl,rfl,rfl,fun r hr => ?_⟩
  simp only [List.mem_cons,not_or] at hr
  obtain ⟨h₁,h₂,h₃,h₄,h₅,-⟩ := hr
  simp only [set_reg,if_neg h₂,if_neg h₃,if_neg h₄,if_neg h₅]
  exact hkept r (by simpa using h₁)

/-- The blocks at `left` and `right` have been allocated since `s`. -/
structure Blocks (s t : Cpu A) (left right : Word) (m n : ℕ) : Prop where
  fitsLeft : Fits left m
  fitsRight : Fits right n
  freshLeft : ∀ i < m, s.mem (cell left i) = none
  freshRight : ∀ i < n, s.mem (cell right i) = none
  cellsLeft : ∀ i < m, (t.mem (cell left i)).isSome = true
  cellsRight : ∀ i < n, (t.mem (cell right i)).isSome = true
  apart : ∀ i < m, ∀ j < n, cell left i ≠ cell right j
  frame : ∀ a, (s.mem a).isSome = true → t.mem a = s.mem a
  s5 : t.reg .s5 = left
  s6 : t.reg .s6 = right
  kept : Kept [.v0,.a0,.s5,.s6] s t

theorem post_blocks (hs : IsSbrk sbrk) (ht0 : t.reg .t0 = .ofNat 32 (4 * m))
    (ht1 : t.reg .t1 = .ofNat 32 (4 * n)) (hm : 4 * m < 2 ^ 32) (hn : 4 * n < 2 ^ 32)
    (hE : ∀ u, E .refused u) (hk : ∀ u left right, Blocks t u left right m n → Post k u Q E) :
    Post (do
      li .v0 9
      move .a0 .t0
      syscall sbrk
      move .s5 .v0
      li .v0 9
      move .a0 .t1
      syscall sbrk
      move .s6 .v0
      k) t Q E := by
  refine post_allocate hs ht0 (by decide) hm hE fun u left hleft hfitsL hfreshL hcellsL hframeL hkL => ?_
  refine post_allocate hs ((hkL _ (by decide)).trans ht1) (by decide) hn hE
    fun v right hright hfitsR hfreshR hcellsR hframeR hkR => ?_
  refine hk v left right {
    fitsLeft := hfitsL
    fitsRight := hfitsR
    freshLeft := hfreshL
    freshRight := fun i hi => ?_
    cellsLeft := fun i hi => ?_
    cellsRight := hcellsR
    apart := fun i hi j hj he => ?_
    frame := fun a ha => ?_
    s5 := (hkR _ (by decide)).trans hleft
    s6 := hright
    kept := (hkL.mono (by decide)).trans (hkR.mono (by decide)) }
  · by_contra hne
    have ha := hframeL _ (Option.isSome_iff_ne_none.mpr hne)
    rw [hfreshR i hi] at ha
    exact hne ha.symm
  · rw [hframeR _ (hcellsL i hi)]
    exact hcellsL i hi
  · have ha := hcellsL i hi
    rw [he,hfreshR j hj] at ha
    cases ha
  · rw [hframeR a (by rw [hframeL a ha]; exact ha),hframeL a ha]

/-- A loop that copies words which are in the memory since before the block was allocated. -/
theorem copy_block {body : M A Unit} {count target : Reg} {first : ℕ} {dst : Word}
    (hbody : Indexes body r mid first) (hr : r ∉ copiers) (hcount : count ∉ copiers)
    (htarget : target ∉ copiers) (hmid : t.reg r = .ofNat 32 mid)
    (hxs : t.reg count = .ofNat 32 xs.length) (hdst : t.reg target = dst) (hs7 : t.reg .s7 = base)
    (hh : Holds s.mem base first xs) (hbase : Fits base (first + xs.length))
    (hfits : Fits dst xs.length) (hfresh : ∀ i < xs.length, s.mem (cell dst i) = none)
    (hcells : ∀ i < xs.length, (t.mem (cell dst i)).isSome = true)
    (hframe : ∀ a, (s.mem a).isSome = true → t.mem a = s.mem a) (hfuel : xs.length < fuel)
    (hk : ∀ u : Cpu A, u.mem = fill dst 0 xs t.mem → Kept copiers t u → Post k u Q E) :
    Post (do
      li .t0 0
      copyLoop count target body fuel
      k) t Q E := by
  have hset : ∀ r, r ∉ copiers → (t.set .t0 0).reg r = t.reg r := (Kept.refl _ t).set (by decide) 0
  rw [post_bind,post_li,post_bind]
  refine (copyLoop_spec (i := 0) hbody hr ((hset r hr).trans hmid) rfl ?_ hcount
    ((hset _ htarget).trans hdst) htarget ((hset _ (by decide)).trans hs7)
    (hh.congr fun i hi => hframe _ (hh.isSome hi)) hbase ?_ ?_ ?_ hfuel).post fun _ v hv => ?_
  · rw [Nat.zero_add]
    exact (hset _ hcount).trans hxs
  · rw [Nat.zero_add]
    exact hfits
  · intro i hi
    rw [Nat.zero_add]
    exact hcells i hi
  · intro i hi j hj he
    have ha := hh.isSome hi
    rw [Nat.zero_add] at he
    rw [Nat.add_zero] at he
    rw [he,hfresh j hj] at ha
    cases ha
  · obtain ⟨hmem,hkept⟩ := hv
    exact hk v hmem (((Kept.refl _ t).set (by decide) 0).trans hkept)

/-- The two parts are in the blocks at `left` and `right`, and what was allocated in `s` is as
before. -/
structure Copied (s t : Cpu A) (left right : Word) (xs ys : List Word) : Prop where
  holdsLeft : Holds t.mem left 0 xs
  holdsRight : Holds t.mem right 0 ys
  fitsLeft : Fits left xs.length
  fitsRight : Fits right ys.length
  freshLeft : ∀ i < xs.length, s.mem (cell left i) = none
  freshRight : ∀ i < ys.length, s.mem (cell right i) = none
  frame : ∀ a, (s.mem a).isSome = true → t.mem a = s.mem a
  s5 : t.reg .s5 = left
  s6 : t.reg .s6 = right
  kept : Kept (.v0::.a0::.s5::.s6::copiers) s t

/-- A block that is filled leaves what was allocated before it alone. -/
theorem frame_fill {dst : Word} (hfresh : ∀ i < xs.length, s.mem (cell dst i) = none)
    (hframe : ∀ a, (s.mem a).isSome = true → t.mem a = s.mem a) {a : Word}
    (ha : (s.mem a).isSome = true) : fill dst 0 xs t.mem a = s.mem a := by
  rw [fill_of_ne fun i hi he => ?_,hframe a ha]
  rw [he,Nat.zero_add,hfresh i hi] at ha
  cases ha

theorem post_copy (hb : Blocks s t left right xs.length ys.length)
    (hs3 : s.reg .s3 = .ofNat 32 xs.length) (hs4 : s.reg .s4 = .ofNat 32 ys.length)
    (ha1 : s.reg .a1 = .ofNat 32 l) (ha3 : s.reg .a3 = .ofNat 32 mid) (hmid : mid + 1 = l + xs.length)
    (hp : Part s base l (xs ++ ys)) (hfuel : xs.length + ys.length < fuel)
    (hk : ∀ u, Copied s u left right xs ys → Post k u Q E) :
    Post (do
      li .t0 0
      forum1 fuel
      li .t0 0
      forum2 fuel
      k) t Q E := by
  have hfits := hp.fits
  rw [List.length_append,← Nat.add_assoc] at hfits
  obtain ⟨hxs,hys⟩ := holds_append.mp hp.holds
  rw [← hmid] at hys hfits
  have hfuel₁ : xs.length < fuel := by omega
  have hframe : ∀ a, (s.mem a).isSome = true → fill left 0 xs t.mem a = s.mem a := fun a =>
    frame_fill hb.freshLeft hb.frame
  refine copy_block indexes_fromLow (by decide) (by decide) (by decide) ((hb.kept _ (by decide)).trans ha1)
    ((hb.kept _ (by decide)).trans hs3) hb.s5 ((hb.kept _ (by decide)).trans hp.s7) hxs
    (hfits.mono (by omega)) hb.fitsLeft hb.freshLeft hb.cellsLeft hb.frame hfuel₁ fun u hmem hu => ?_
  have hku : Kept (.v0::.a0::.s5::.s6::copiers) s u :=
    (hb.kept.mono (by decide)).trans (hu.mono (by decide))
  rw [← hmem] at hframe
  refine copy_block indexes_behindMid (by decide) (by decide) (by decide) ((hku _ (by decide)).trans ha3)
    ((hku _ (by decide)).trans hs4) ((hu _ (by decide)).trans hb.s6) ((hku _ (by decide)).trans hp.s7) hys
    hfits hb.fitsRight hb.freshRight (fun i hi => ?_) hframe (by omega) fun v hmem' hv => ?_
  · rw [hmem]
    exact fill_isSome (hb.cellsRight i hi)
  refine hk v {
    holdsLeft := ?_
    holdsRight := ?_
    fitsLeft := hb.fitsLeft
    fitsRight := hb.fitsRight
    freshLeft := hb.freshLeft
    freshRight := hb.freshRight
    frame := fun a ha => ?_
    s5 := (hv _ (by decide)).trans ((hu _ (by decide)).trans hb.s5)
    s6 := (hv _ (by decide)).trans ((hu _ (by decide)).trans hb.s6)
    kept := hku.trans (hv.mono (by decide)) }
  · have hfill : Holds u.mem left 0 xs := by
      rw [hmem]
      exact holds_fill (by rw [Nat.zero_add]; exact hb.fitsLeft)
    refine hfill.congr fun i hi => ?_
    rw [hmem',fill_of_ne fun j hj => ?_]
    rw [Nat.zero_add,Nat.zero_add]
    exact hb.apart i hi j hj
  · rw [hmem']
    exact holds_fill (by rw [Nat.zero_add]; exact hb.fitsRight)
  · rw [hmem']
    exact frame_fill hb.freshRight hframe ha

/-- A block that was fresh is apart from the array. -/
theorem stream_of_fresh {index count source : Reg} {src : Word} (hindex : u.reg index = .ofNat 32 0)
    (hcount : u.reg count = .ofNat 32 xs.length) (hsource : u.reg source = src)
    (hh : Holds u.mem src 0 xs) (hfits : Fits src xs.length)
    (hfresh : ∀ i < xs.length, t.mem (cell src i) = none)
    (hsome : ∀ i < n, (t.mem (cell base (l + i))).isSome = true) :
    Stream (InPart base l n) u index count source src 0 xs where
  index := hindex
  count := by
    rw [Nat.zero_add]
    exact hcount
  source := hsource
  holds := hh
  fits := by
    rw [Nat.zero_add]
    exact hfits
  outside := by
    rintro p hp ⟨i,hi,he⟩
    have ha := hsome i hi
    rw [← he,Nat.zero_add,hfresh p hp] at ha
    cases ha

/-- The registers that `merge` changes. -/
def changed : List Reg := .v0::.a0::.s3::.s4::.s5::.s6::mergers

theorem merge_spec (hs : IsSbrk sbrk) (hst : Stack s sp 1) (hp : Part s base l (xs ++ ys))
    (hap : Apart sp base 1 l (xs ++ ys).length) (ha1 : s.reg .a1 = .ofNat 32 l)
    (ha2 : s.reg .a2 = .ofNat 32 high) (ha3 : s.reg .a3 = .ofNat 32 mid)
    (hmid : mid + 1 = l + xs.length) (hhigh : high + 1 = l + xs.length + ys.length)
    (hpos : 0 < xs.length) (hfuel : xs.length + ys.length < fuel) :
    Post (merge sbrk fuel) s (fun _ u => Holds u.mem base l (xs.merge ys BitVec.sle) ∧
      Changes s.mem u.mem sp base 1 l (xs ++ ys).length ∧ Kept changed s u) fun e _ => e = .refused := by
  have hfits := hp.fits
  have hbound := hfits.bound
  rw [List.length_append] at hfits hbound
  have hsome : ∀ i < (xs ++ ys).length, (s.mem (cell base (l + i))).isSome = true := fun i hi =>
    hp.holds.isSome hi
  refine post_enter hst ha1 ha2 ha3 hmid hhigh (by omega) hpos fun t ht => ?_
  -- the array is not where `ra` has been saved
  have hmem : ∀ a, a ≠ under sp 1 → t.mem a = s.mem a := by
    intro a ha
    rw [ht.mem,Function.update_of_ne ha]
  have hcell : ∀ i < (xs ++ ys).length, t.mem (cell base (l + i)) = s.mem (cell base (l + i)) :=
    fun i hi => hmem _ (hap 1 Nat.one_pos (Nat.le_refl 1) i hi).symm
  have hpt : Part t base l (xs ++ ys) :=
    ⟨(ht.kept _ (by decide)).trans hp.s7,hp.fits,hp.holds.congr fun i hi => hcell i hi⟩
  refine post_blocks hs ht.t0 ht.t1 (by omega) (by omega) (fun _ => rfl) fun u₀ left right hb => ?_
  refine post_copy hb ht.s3 ht.s4 ((ht.kept _ (by decide)).trans ha1) ((ht.kept _ (by decide)).trans ha3)
    hmid hpt hfuel fun u hu => ?_
  have hsome' : ∀ i < (xs ++ ys).length, (t.mem (cell base (l + i))).isSome = true := by
    intro i hi
    rw [hcell i hi]
    exact hsome i hi
  rw [post_bind,post_li,post_bind,post_li,post_bind,post_move]
  generalize hq : Cpu.set _ Reg.s2 _ = q
  have hkq : Kept (.s0::.s1::.s2::.v0::.a0::.s5::.s6::copiers) t q := by
    rw [← hq]
    exact (((hu.kept.mono (by decide)).set (by decide) _).set (by decide) _).set (by decide) _
  have hqmem : q.mem = u.mem := by rw [← hq]; rfl
  have hq5 : q.reg .s5 = left := by rw [← hq]; exact hu.s5
  have hq6 : q.reg .s6 = right := by rw [← hq]; exact hu.s6
  have hq2 : q.reg .s2 = .ofNat 32 l := by
    rw [← hq,set_reg,if_pos rfl]
    exact (hu.kept .a1 (by decide)).trans ((ht.kept .a1 (by decide)).trans ha1)
  have hx : Stream (InPart base l (xs ++ ys).length) q .s0 .s3 .s5 left 0 xs := by
    refine stream_of_fresh ?_ ((hkq _ (by decide)).trans ht.s3) hq5 (hqmem ▸ hu.holdsLeft) hu.fitsLeft
      hu.freshLeft hsome'
    rw [← hq]
    rfl
  have hy : Stream (InPart base l (xs ++ ys).length) q .s1 .s4 .s6 right 0 ys := by
    refine stream_of_fresh ?_ ((hkq _ (by decide)).trans ht.s4) hq6 (hqmem ▸ hu.holdsRight) hu.fitsRight
      hu.freshRight hsome'
    rw [← hq]
    rfl
  have hroom : Target (InPart base l (xs ++ ys).length) q base l
      (xs.length + ys.length) := {
    s2 := hq2
    s7 := (hkq _ (by decide)).trans hpt.s7
    cells := fun i hi => by
      rw [← List.length_append] at hi
      rw [hqmem,hu.frame _ (hsome' i hi)]
      exact hsome' i hi
    fits := hfits
    inside := fun i hi => ⟨i,by rwa [List.length_append],rfl⟩ }
  refine post_loops hx hy hroom hfuel fun v hv hkv => ?_
  have hlen : (xs.merge ys BitVec.sle).length = (xs ++ ys).length := by
    rw [List.length_merge,List.length_append]
  have hother : ∀ a, (t.mem a).isSome = true → (∀ i < (xs ++ ys).length, a ≠ cell base (l + i)) →
      v.mem a = t.mem a := by
    intro a ha hne
    rw [hv,fill_of_ne (by rwa [hlen]),hqmem,hu.frame a ha]
  have hra : v.mem (under sp 1) = some (s.reg .ra) := by
    have htop : t.mem (under sp 1) = some (s.reg .ra) := by rw [ht.mem,Function.update_self]
    rw [hother _ (by rw [htop]; rfl) (hap 1 Nat.one_pos (Nat.le_refl 1)),htop]
  have hkall : Kept (.sp::changed) s v :=
    (ht.kept.mono (by decide)).trans ((hkq.mono (by decide)).trans (hkv.mono (by decide)))
  have hvsp : v.reg .sp = under sp 1 :=
    (hkv _ (by decide)).trans ((hkq _ (by decide)).trans ht.pointer)
  refine Iff.mpr (post_restore hst (Nat.le_refl 1) hvsp rfl rfl hra) ?_
  refine ⟨?_,⟨fun a ha => ?_,fun a ha hst' hne => ?_⟩,fun r hr => ?_⟩
  · change Holds v.mem base l _
    rw [hv]
    refine holds_fill ?_
    rw [hlen]
    exact hp.fits
  · change (v.mem a).isSome = true
    have hta : (t.mem a).isSome = true := by
      rw [ht.mem,Function.update_apply]
      split
      · rfl
      · exact ha
    rw [hv,hqmem]
    refine fill_isSome ?_
    rw [hu.frame a hta]
    exact hta
  · have hne₁ := hst' 1 Nat.one_pos (Nat.le_refl 1)
    have hta : t.mem a = s.mem a := hmem a hne₁
    exact (hother a (by rw [hta]; exact ha) hne).trans hta
  · rw [← hst.pointer]
    exact ((hkall.mono (List.subset_cons_self .ra _)).back).back r hr

end ResumePointers.Mips
