import ResumePointers.Mips.Cells

/-! `merge` of `assembly/queryProcessing.s`, which merges two neighbouring parts of the array at `s7`. -/
namespace ResumePointers.Mips

variable {A : Type}

/-- One of the loops that copy a part of the array. What is between the brackets of the source, an
index, is left in `t3`. -/
def copyLoop (count target : Reg) (index : M A Unit) : ℕ → M A Unit
  | 0 => throw .fuel
  | fuel + 1 => do
    if (← reg count).sle (← reg .t0) then pure ()
    else do
      sll .t1 .t0 2
      add .t2 .t1 target
      index
      sll .t3 .t3 2
      add .t3 .s7 .t3
      lw .t4 0 .t3
      sw .t4 0 .t2
      addi .t0 .t0 1
      copyLoop count target index fuel

/-- `l + i`. -/
def fromLow : M A Unit := add .t3 .a1 .t0

/-- `mid + 1 + j`. -/
def behindMid : M A Unit := do
  add .t3 .a3 .t0
  addi .t3 .t3 1

def forum1 : ℕ → M A Unit := copyLoop .s3 .s5 fromLow

def forum2 : ℕ → M A Unit := copyLoop .s4 .s6 behindMid

/-- An element of `L` or `R` is loaded. -/
def fetch (index source offset address value : Reg) : M A Unit := do
  move offset index
  sll offset offset 2
  add address offset source
  lw value 0 address

/-- `a[k]` is stored, and the indices are incremented. -/
def put (value index : Reg) : M A Unit := do
  move .t0 .s2
  sll .t0 .t0 2
  add .t1 .t0 .s7
  sw value 0 .t1
  addi index index 1
  addi .s2 .s2 1

def elsium : M A Unit := put .t5 .s1

def while1 : ℕ → M A Unit
  | 0 => throw .fuel
  | fuel + 1 => do
    if (← reg .s3).sle (← reg .s0) then pure ()
    else if (← reg .s4).sle (← reg .s1) then pure ()
    else do
      fetch .s0 .s5 .t0 .t1 .t2
      fetch .s1 .s6 .t3 .t4 .t5
      if (← reg .t5).slt (← reg .t2) then elsium else put .t2 .s0
      while1 fuel

/-- One of the loops for the elements that are left in `L` or `R`. -/
def tailLoop (index count source offset address value : Reg) : ℕ → M A Unit
  | 0 => throw .fuel
  | fuel + 1 => do
    if (← reg count).sle (← reg index) then pure ()
    else do
      fetch index source offset address value
      put value index
      tailLoop index count source offset address value fuel

def while2 : ℕ → M A Unit := tailLoop .s0 .s3 .s5 .t0 .t1 .t2

def while3 : ℕ → M A Unit := tailLoop .s1 .s4 .s6 .t3 .t4 .t5

def merge (sbrk : Cpu A → Option (Cpu A)) (fuel : ℕ) : M A Unit := do
  addi .sp .sp (-4)
  sw .ra 0 .sp
  sub .s3 .a3 .a1
  addi .s3 .s3 1
  sub .s4 .a2 .a3
  sll .t0 .s3 2
  sll .t1 .s4 2
  li .v0 9
  move .a0 .t0
  syscall sbrk
  move .s5 .v0
  li .v0 9
  move .a0 .t1
  syscall sbrk
  move .s6 .v0
  li .t0 0
  forum1 fuel
  li .t0 0
  forum2 fuel
  li .s0 0
  li .s1 0
  move .s2 .a1
  while1 fuel
  while2 fuel
  while3 fuel
  lw .ra 0 .sp
  addi .sp .sp 4

/-- Registers that the loops compute in. -/
def temporaries : List Reg := [.t0,.t1,.t2,.t3,.t4,.t5]

/-- The words `xs` of an array, from an index that is in a register up to a count that is in another
one. They lie where `S` does not hold. -/
structure Stream (S : Word → Prop) (t : Cpu A) (index count source : Reg) (src : Word) (i : ℕ)
    (xs : List Word) : Prop where
  index : t.reg index = .ofNat 32 i
  count : t.reg count = .ofNat 32 (i + xs.length)
  source : t.reg source = src
  holds : Holds t.mem src i xs
  fits : Fits src (i + xs.length)
  outside : ∀ p < xs.length, ¬ S (cell src (i + p))

/-- There is room for `n` words from `a[k]` on, where `S` holds. -/
structure Target (S : Word → Prop) (t : Cpu A) (base : Word) (k n : ℕ) : Prop where
  s2 : t.reg .s2 = .ofNat 32 k
  s7 : t.reg .s7 = base
  cells : ∀ p < n, (t.mem (cell base (k + p))).isSome = true
  fits : Fits base (k + n)
  inside : ∀ p < n, S (cell base (k + p))

variable {S : Word → Prop} {s t u : Cpu A} {index count source target offset address value r : Reg}
  {src base w : Word} {i j k n fuel : ℕ} {x : Word} {xs ys : List Word}
  {E : Fault → Cpu A → Prop}

theorem sle_ofNat {m : ℕ} (hm : m < 2 ^ 31) (hn : n < 2 ^ 31) :
    (BitVec.ofNat 32 m).sle (.ofNat 32 n) = decide (m ≤ n) := by
  rw [BitVec.sle,BitVec.toInt_eq_toNat_of_lt,BitVec.toInt_eq_toNat_of_lt]
  · rw [toNat_ofNat (by omega),toNat_ofNat (by omega)]
    simp
  all_goals
    rw [toNat_ofNat (by omega)]
    omega

theorem shift_ofNat (i : ℕ) : (BitVec.ofNat 32 i) <<< 2 = .ofNat 32 (4 * i) := by
  refine BitVec.eq_of_toNat_eq ?_
  rw [BitVec.toNat_shiftLeft,BitVec.toNat_ofNat,BitVec.toNat_ofNat,Nat.shiftLeft_eq]
  omega

theorem succ_ofNat (i : ℕ) : (BitVec.ofNat 32 i + 1) = .ofNat 32 (i + 1) := (BitVec.ofNat_add i 1).symm

/-- Where `S` does not hold, the words of a stream can be read whatever is stored. -/
theorem Stream.congr (h : Stream S t index count source src i xs)
    (hindex : u.reg index = t.reg index) (hcount : u.reg count = t.reg count)
    (hsource : u.reg source = t.reg source) (hm : ∀ a, ¬ S a → u.mem a = t.mem a) :
    Stream S u index count source src i xs where
  index := hindex.trans h.index
  count := hcount.trans h.count
  source := hsource.trans h.source
  holds := h.holds.congr fun p hp => hm _ (h.outside p hp)
  fits := h.fits
  outside := h.outside

/-- A stream after its first word. -/
theorem Stream.tail (h : Stream S t index count source src i (x::xs))
    (hindex : u.reg index = .ofNat 32 (i + 1)) (hcount : u.reg count = t.reg count)
    (hsource : u.reg source = t.reg source) (hm : ∀ a, ¬ S a → u.mem a = t.mem a) :
    Stream S u index count source src (i + 1) xs := by
  have hlen : i + (x::xs).length = i + 1 + xs.length := by
    rw [List.length_cons]
    omega
  have hout : ∀ p < xs.length, ¬ S (cell src (i + 1 + p)) := by
    intro p hp
    rw [Nat.add_assoc,Nat.add_comm 1]
    exact h.outside (p + 1) (Nat.succ_lt_succ hp)
  exact {
    index := hindex
    count := by rw [hcount,h.count,hlen]
    source := hsource.trans h.source
    holds := h.holds.2.congr fun p hp => hm _ (hout p hp)
    fits := hlen ▸ h.fits
    outside := hout }

/-- The room that is left when `m` words have been stored. -/
theorem Target.advance {m : ℕ} (h : Target S t base k (m + n)) (hs2 : u.reg .s2 = .ofNat 32 (k + m))
    (hs7 : u.reg .s7 = t.reg .s7)
    (hm : ∀ a, (t.mem a).isSome = true → (u.mem a).isSome = true) : Target S u base (k + m) n where
  s2 := hs2
  s7 := hs7.trans h.s7
  cells p hp := by
    rw [Nat.add_assoc]
    exact hm _ (h.cells (m + p) (Nat.add_lt_add_left hp m))
  fits := by
    rw [Nat.add_assoc]
    exact h.fits
  inside p hp := by
    rw [Nat.add_assoc]
    exact h.inside (m + p) (Nat.add_lt_add_left hp m)

theorem Target.first (h : Target S t base k (n + 1)) : S (cell base k) := h.inside 0 (Nat.succ_pos n)

theorem Target.congr (h : Target S t base k n) (hs2 : u.reg .s2 = t.reg .s2)
    (hs7 : u.reg .s7 = t.reg .s7) (hm : u.mem = t.mem) : Target S u base k n :=
  ⟨hs2.trans h.s2,hs7.trans h.s7,hm ▸ h.cells,h.fits,h.inside⟩

/-- Stores into the room leave the other addresses alone. -/
theorem Target.fill_off (h : Target S t base k (xs.length + n)) {a : Word} (ha : ¬ S a) (mem : Memory) :
    fill base k xs mem a = mem a :=
  fill_of_ne fun p hp he => ha (he ▸ h.inside p (by omega))

theorem fetch_spec (hs : Stream S t index count source src i (x::xs)) (hsource : source ≠ offset) :
    Total (fetch index source offset address value) t fun _ u =>
      u.mem = t.mem ∧ u.reg value = x ∧ Kept [offset,address,value] t u := by
  have hbound := hs.fits.bound
  rw [List.length_cons] at hbound
  have hsmall : (BitVec.ofNat 32 (4 * i)).toNat = 4 * i := toNat_ofNat (by omega)
  rw [fetch,Total,post_bind,post_move,post_bind,post_sll,post_bind]
  refine Iff.mpr (post_add (no_overflow ?_)) ?_
  · simp only [set_reg,↓reduceIte,if_neg hsource,hs.index,hs.source,shift_ofNat,hsmall]
    omega
  refine Iff.mpr (post_lw (a := cell src i) (w := x) ?_ (hs.fits.cell_aligned (Nat.le_add_right _ _))
    hs.holds.1) ?_
  · simp only [set_reg,↓reduceIte,if_neg hsource,hs.index,hs.source,shift_ofNat]
    rw [cell,add_zero,add_comm]
  refine ⟨rfl,by rw [set_reg,if_pos rfl],?_⟩
  exact (((Kept.refl _ t).set (by simp) _).set (by simp) _ |>.set (by simp) _).set (by simp) _

/-- A word is stored, and the room for it is used up. -/
theorem put_spec (ht : Target S t base k (n + 1)) (hi : t.reg index = .ofNat 32 i)
    (hsmall : i + 1 < 2 ^ 31) (hvalue : value ∉ [Reg.t0,.t1]) (hx : t.reg value = x)
    (hindex : index ∉ [Reg.t0,.t1,.s2,.s7]) :
    Total (put value index) t fun _ u => u.mem = Function.update t.mem (cell base k) (some x) ∧
      (∀ a, ¬ S a → u.mem a = t.mem a) ∧ u.reg index = .ofNat 32 (i + 1) ∧
        Target S u base (k + 1) n ∧ Kept [.t0,.t1,.s2,index] t u := by
  have hbound := ht.fits.bound
  have hoffset : (BitVec.ofNat 32 (4 * k)).toNat = 4 * k := toNat_ofNat (by omega)
  have hone : (1 : Word).toNat = 1 := rfl
  obtain ⟨hv₀,hv₁⟩ : value ≠ .t0 ∧ value ≠ .t1 := by simpa using hvalue
  obtain ⟨hi₀,hi₁,hi₂,hi₇⟩ : index ≠ .t0 ∧ index ≠ .t1 ∧ index ≠ .s2 ∧ index ≠ .s7 := by
    simpa using hindex
  rw [put,Total,post_bind,post_move,post_bind,post_sll,post_bind]
  refine Iff.mpr (post_add (no_overflow ?_)) ?_
  · simp only [set_reg,reduceCtorEq,↓reduceIte,ht.s2,ht.s7,shift_ofNat,hoffset]
    omega
  rw [post_bind]
  refine Iff.mpr (post_sw (a := cell base k) ?_ (ht.fits.cell_aligned (Nat.le_add_right _ _))
    (ht.cells 0 (Nat.succ_pos n))) ?_
  · simp only [set_reg,reduceCtorEq,↓reduceIte,ht.s2,ht.s7,shift_ofNat]
    rw [cell,add_zero,add_comm]
  rw [post_bind]
  refine Iff.mpr (post_addi (no_overflow ?_)) ?_
  · simp only [write_reg,set_reg,if_neg hi₀,if_neg hi₁,hi,hone,toNat_ofNat (by omega : i < 2 ^ 32)]
    omega
  refine Iff.mpr (post_addi (no_overflow ?_)) ?_
  · simp only [write_reg,set_reg,if_neg hi₂.symm,reduceCtorEq,↓reduceIte,ht.s2,hone,
      toNat_ofNat (by omega : k < 2 ^ 32)]
    omega
  simp only [set_reg,write_reg,if_neg hv₀,if_neg hv₁,hx]
  refine ⟨rfl,fun a ha => ?_,?_,?_,?_⟩
  · have hne : a ≠ cell base k := fun he => ha (he ▸ ht.first)
    exact Function.update_of_ne hne _ _
  · simp only [↓reduceIte,if_neg hi₀,if_neg hi₁,if_neg hi₂,hi,succ_ofNat]
  · refine Target.advance (m := 1) (t := t) (by rw [Nat.add_comm 1]; exact ht) ?_ ?_ fun a ha => ?_
    · simp only [set_reg,reduceCtorEq,↓reduceIte,if_neg hi₂.symm,ht.s2,succ_ofNat]
    · simp only [set_reg,write_reg,reduceCtorEq,↓reduceIte,if_neg hi₇.symm]
    · change (Function.update t.mem (cell base k) (some x) a).isSome = true
      rw [Function.update_apply]
      split
      · rfl
      · exact ha
  · intro r hr
    obtain ⟨hr₀,hr₁,hr₂,hr₃⟩ : r ≠ .t0 ∧ r ≠ .t1 ∧ r ≠ .s2 ∧ r ≠ index := by simpa using hr
    simp only [set_reg,write_reg,if_neg hr₀,if_neg hr₁,if_neg hr₂,if_neg hr₃]

/-- A loop for the elements that are left stores them all. -/
theorem tailLoop_spec (hs : Stream S t index count source src i xs)
    (ht : Target S t base k (xs.length + n)) (hfuel : xs.length < fuel)
    (hfetch : [offset,address,value] ⊆ temporaries) (hsource : source ≠ offset)
    (hvalue : value ∉ [Reg.t0,.t1]) (hindex : index ∉ .s2::.s7::temporaries)
    (hcount : count ∉ .s2::index::temporaries) (hsrc : source ∉ .s2::index::temporaries) :
    Total (tailLoop index count source offset address value fuel) t fun _ u =>
      u.mem = fill base k xs t.mem ∧ Target S u base (k + xs.length) n ∧
        Kept (.s2::index::temporaries) t u := by
  induction fuel generalizing t i k xs with
  | zero => omega
  | succ fuel ih =>
    have hbound := hs.fits.bound
    rw [tailLoop,Total,post_bind,post_reg,post_bind,post_reg,hs.count,hs.index,
      sle_ofNat (by omega) (by omega)]
    cases xs with
    | nil =>
      rw [if_pos (by simp)]
      exact ⟨rfl,ht.advance ht.s2 rfl fun _ ha => ha,Kept.refl _ t⟩
    | cons x xs =>
      rw [List.length_cons] at hbound hfuel ht
      rw [if_neg (by simp),post_bind]
      refine (fetch_spec hs hsource).imp fun _ u₁ hu₁ => ?_
      obtain ⟨hmem₁,hx,hkept₁⟩ := hu₁
      have hkept₁ : Kept temporaries t u₁ := hkept₁.mono hfetch
      have ht₁ : Target S u₁ base k (xs.length + n + 1) := by
        rw [Nat.add_right_comm]
        exact ht.congr (hkept₁ .s2 (by decide)) (hkept₁ .s7 (by decide)) hmem₁
      have hi₁ : u₁.reg index = .ofNat 32 i := (hkept₁ index fun hm => hindex (by simp [hm])).trans hs.index
      have hput : index ∉ [Reg.t0,.t1,.s2,.s7] := by
        simp [temporaries] at hindex ⊢
        tauto
      rw [post_bind]
      refine (put_spec ht₁ hi₁ (by omega) hvalue hx hput).imp fun _ u₂ hu₂ => ?_
      obtain ⟨hmem₂,hout,hi₂,ht₂,hkept₂⟩ := hu₂
      rw [hmem₁] at hmem₂
      have hkept : Kept (.s2::index::temporaries) t u₂ :=
        (hkept₁.mono (by simp)).trans (hkept₂.mono (by simp [temporaries]))
      have hs₂ := hs.tail hi₂ (hkept _ hcount) (hkept _ hsrc) fun a ha => by rw [hout a ha,hmem₁]
      refine (ih hs₂ ht₂ (by omega)).imp fun _ u hu => ?_
      obtain ⟨hmem,ht',hkept'⟩ := hu
      rw [hmem₂] at hmem
      rw [List.length_cons,Nat.add_comm xs.length,← Nat.add_assoc]
      exact ⟨hmem,ht',hkept.trans hkept'⟩

/-- The registers that the merging loops change. -/
def mergers : List Reg := .s0::.s1::.s2::temporaries

variable {left right : Word}

/-- What the first of the loops leaves when it ends in `u`: it has stored a part of the merged list, and
the rest of it is what is left in `L` and what is left in `R`. -/
def PartMerged (S : Word → Prop) (t u : Cpu A) (base left right : Word) (k : ℕ)
    (xs ys : List Word) : Prop :=
  ∃ ws i j xs' ys', xs.merge ys BitVec.sle = ws ++ (xs' ++ ys') ∧
    Stream S u .s0 .s3 .s5 left i xs' ∧ Stream S u .s1 .s4 .s6 right j ys' ∧
      Target S u base (k + ws.length) (xs'.length + ys'.length) ∧
        u.mem = fill base k ws t.mem ∧ Kept mergers t u

theorem PartMerged.cons {xs' ys' : List Word} (h : PartMerged S s u base left right (k + 1) xs' ys')
    (hmerge : xs.merge ys BitVec.sle = x::xs'.merge ys' BitVec.sle)
    (hmem : s.mem = Function.update t.mem (cell base k) (some x)) (hkept : Kept mergers t s) :
    PartMerged S t u base left right k xs ys := by
  obtain ⟨ws,i,j,as,bs,hws,hx,hy,ht,hm,hk⟩ := h
  refine ⟨x::ws,i,j,as,bs,by rw [hmerge,hws,List.cons_append],hx,hy,?_,?_,hkept.trans hk⟩
  · rw [List.length_cons,Nat.add_comm ws.length,← Nat.add_assoc]
    exact ht
  · rw [hm,hmem,fill]

theorem while1_spec (hx : Stream S t .s0 .s3 .s5 left i xs) (hy : Stream S t .s1 .s4 .s6 right j ys)
    (ht : Target S t base k (xs.length + ys.length)) (hfuel : xs.length + ys.length < fuel) :
    Total (while1 fuel) t fun _ u => PartMerged S t u base left right k xs ys := by
  induction fuel generalizing t i j k xs ys with
  | zero => omega
  | succ fuel ih =>
    have hboundx := hx.fits.bound
    have hboundy := hy.fits.bound
    rw [while1,Total,post_bind,post_reg,post_bind,post_reg,hx.count,hx.index,
      sle_ofNat (by omega) (by omega)]
    cases xs with
    | nil =>
      rw [if_pos (by simp)]
      exact ⟨[],i,j,[],ys,by simp,hx,hy,ht,rfl,Kept.refl _ t⟩
    | cons x xs =>
      rw [if_neg (by simp),post_bind,post_reg,post_bind,post_reg,hy.count,hy.index,
        sle_ofNat (by omega) (by omega)]
      cases ys with
      | nil =>
        rw [if_pos (by simp)]
        exact ⟨[],i,j,x::xs,[],by simp,hx,hy,ht,rfl,Kept.refl _ t⟩
      | cons y ys =>
        rw [List.length_cons] at hboundx hboundy
        rw [if_neg (by simp),post_bind]
        refine (fetch_spec hx (by decide)).imp fun _ u₁ hu₁ => ?_
        obtain ⟨hmem₁,hx₁,hkept₁⟩ := hu₁
        have hy₁ : Stream S u₁ .s1 .s4 .s6 right j (y::ys) := hy.congr (hkept₁ _ (by decide))
          (hkept₁ _ (by decide)) (hkept₁ _ (by decide)) fun a _ => by rw [hmem₁]
        rw [post_bind]
        refine (fetch_spec hy₁ (by decide)).imp fun _ u₂ hu₂ => ?_
        obtain ⟨hmem₂,hy₂,hkept₂⟩ := hu₂
        rw [hmem₁] at hmem₂
        have hx₂ : u₂.reg .t2 = x := (hkept₂ _ (by decide)).trans hx₁
        have hkept : Kept temporaries t u₂ := (hkept₁.mono (by decide)).trans (hkept₂.mono (by decide))
        have ht₂ : Target S u₂ base k (xs.length + (y::ys).length + 1) := by
          rw [Nat.add_right_comm]
          exact ht.congr (hkept _ (by decide)) (hkept _ (by decide)) hmem₂
        rw [post_bind,post_reg,post_bind,post_reg,hx₂,hy₂]
        dsimp only
        by_cases hless : y.slt x = true
        · rw [if_pos hless,post_bind]
          have hj : u₂.reg .s1 = .ofNat 32 j := (hkept _ (by decide)).trans hy.index
          refine (put_spec ht₂ hj (by omega) (by decide) hy₂ (by decide)).imp fun _ u₃ hu₃ => ?_
          obtain ⟨hmem,hout,hj₃,ht₃,hkept₃⟩ := hu₃
          rw [hmem₂] at hmem hout
          have hk : Kept (.s1::.s2::temporaries) t u₃ :=
            (hkept.mono (by decide)).trans (hkept₃.mono (by decide))
          have hx₃ : Stream S u₃ .s0 .s3 .s5 left i (x::xs) :=
            hx.congr (hk _ (by decide)) (hk _ (by decide)) (hk _ (by decide)) hout
          have hy₃ := hy.tail hj₃ (hk _ (by decide)) (hk _ (by decide)) hout
          refine (ih hx₃ hy₃ ?_ ?_).imp fun _ u hu => hu.cons ?_ hmem (hk.mono (by decide))
          · rw [List.length_cons,Nat.add_right_comm]
            exact ht₃
          · rw [List.length_cons] at hfuel ⊢
            rw [List.length_cons] at hfuel
            omega
          · rw [List.cons_merge_cons,if_neg]
            rw [BitVec.sle_eq_not_slt,hless]
            decide
        · rw [if_neg hless,post_bind]
          have hi : u₂.reg .s0 = .ofNat 32 i := (hkept _ (by decide)).trans hx.index
          refine (put_spec ht₂ hi (by omega) (by decide) hx₂ (by decide)).imp fun _ u₃ hu₃ => ?_
          obtain ⟨hmem,hout,hi₃,ht₃,hkept₃⟩ := hu₃
          rw [hmem₂] at hmem hout
          have hk : Kept (.s0::.s2::temporaries) t u₃ :=
            (hkept.mono (by decide)).trans (hkept₃.mono (by decide))
          have hx₃ := hx.tail hi₃ (hk _ (by decide)) (hk _ (by decide)) hout
          have hy₃ : Stream S u₃ .s1 .s4 .s6 right j (y::ys) :=
            hy.congr (hk _ (by decide)) (hk _ (by decide)) (hk _ (by decide)) hout
          refine (ih hx₃ hy₃ ht₃ ?_).imp fun _ u hu => hu.cons ?_ hmem (hk.mono (by decide))
          · rw [List.length_cons] at hfuel
            omega
          · rw [List.cons_merge_cons,if_pos]
            rw [BitVec.sle_eq_not_slt,Bool.eq_false_iff.mpr hless]
            decide

/-- The three loops store the merged list. -/
theorem post_loops {m : M A Unit} {Q : Unit → Cpu A → Prop}
    (hx : Stream S t .s0 .s3 .s5 left i xs) (hy : Stream S t .s1 .s4 .s6 right j ys)
    (ht : Target S t base k (xs.length + ys.length)) (hfuel : xs.length + ys.length < fuel)
    (hm : ∀ u : Cpu A, u.mem = fill base k (xs.merge ys BitVec.sle) t.mem → Kept mergers t u →
      Post m u Q E) :
    Post (do while1 fuel; while2 fuel; while3 fuel; m) t Q E := by
  rw [post_bind]
  refine (while1_spec hx hy ht hfuel).post fun _ u₁ hu₁ => ?_
  obtain ⟨ws,i',j',xs',ys',hws,hx₁,hy₁,ht₁,hmem₁,hk₁⟩ := hu₁
  have hlen := congrArg List.length hws
  rw [List.length_merge,List.length_append,List.length_append] at hlen
  rw [post_bind]
  refine (tailLoop_spec hx₁ ht₁ (by omega) (by decide) (by decide) (by decide) (by decide) (by decide)
    (by decide)).post fun _ u₂ hu₂ => ?_
  obtain ⟨hmem₂,ht₂,hk₂⟩ := hu₂
  have hy₂ : Stream S u₂ .s1 .s4 .s6 right j' ys' := by
    refine hy₁.congr (hk₂ _ (by decide)) (hk₂ _ (by decide)) (hk₂ _ (by decide)) fun a ha => ?_
    rw [hmem₂,ht₁.fill_off ha]
  rw [post_bind]
  refine (tailLoop_spec (n := 0) hy₂ ht₂ (by omega) (by decide) (by decide) (by decide) (by decide)
    (by decide) (by decide)).post fun _ u hu => ?_
  obtain ⟨hmem,-,hk⟩ := hu
  refine hm u ?_ ((hk₁.trans (hk₂.mono (by decide))).trans (hk.mono (by decide)))
  rw [hmem,hmem₂,hmem₁,← fill_append,hws]
  exact fill_append.symm

/-- The registers that the copying loops change. -/
def copiers : List Reg := [.t0,.t1,.t2,.t3,.t4]

/-- With `low` in register `r`, `index` leaves the index of the element that is `t0` elements behind
element `first`. -/
def Indexes (index : M A Unit) (r : Reg) (low first : ℕ) : Prop :=
  ∀ (u : Cpu A) (j : ℕ) (Q : Unit → Cpu A → Prop) (E : Fault → Cpu A → Prop),
    u.reg r = .ofNat 32 low → u.reg .t0 = .ofNat 32 j → first + j < 2 ^ 31 →
      (Post index u Q E ↔ Q () (u.set .t3 (.ofNat 32 (first + j))))

theorem set_set (s : Cpu A) (r : Reg) (v w : Word) : (s.set r v).set r w = s.set r w := by
  rw [Cpu.set,Cpu.set,Cpu.set,Function.update_idem]

variable {low first : ℕ} {dst : Word} {body : M A Unit}

theorem indexes_fromLow : Indexes (fromLow : M A Unit) .a1 low low := by
  intro u j Q E hlow hj hsmall
  rw [fromLow,post_add (no_overflow _),hlow,hj,← BitVec.ofNat_add]
  rw [hlow,hj,toNat_ofNat (by omega),toNat_ofNat (by omega)]
  omega

theorem indexes_behindMid : Indexes (behindMid : M A Unit) .a3 low (low + 1) := by
  intro u j Q E hlow hj hsmall
  have hone : (1 : Word).toNat = 1 := rfl
  rw [behindMid,post_bind,post_add (no_overflow _),post_addi (no_overflow _),set_set,set_reg,if_pos rfl,
    hlow,hj,← BitVec.ofNat_add,succ_ofNat,Nat.add_right_comm]
  · rw [set_reg,if_pos rfl,hlow,hj,← BitVec.ofNat_add,toNat_ofNat (by omega),hone]
    omega
  · rw [hlow,hj,toNat_ofNat (by omega),toNat_ofNat (by omega)]
    omega

/-- One round of a loop that copies. -/
theorem copy_round {m : M A Unit} {Q : Unit → Cpu A → Prop} (hbody : Indexes body r low first)
    (hr : r ∉ copiers) (hlow : t.reg r = .ofNat 32 low) (hi : t.reg .t0 = .ofNat 32 i)
    (hdst : t.reg target = dst) (htarget : target ∉ copiers) (hs7 : t.reg .s7 = base)
    (hx : t.mem (cell base (first + i)) = some x) (hbase : Fits base (first + i + 1))
    (hfits : Fits dst (i + 1)) (hcell : (t.mem (cell dst i)).isSome = true)
    (hm : ∀ q : Cpu A, q.mem = Function.update t.mem (cell dst i) (some x) →
      q.reg .t0 = .ofNat 32 (i + 1) → Kept copiers t q → Post m q Q E) :
    Post (do
      sll .t1 .t0 2
      add .t2 .t1 target
      body
      sll .t3 .t3 2
      add .t3 .s7 .t3
      lw .t4 0 .t3
      sw .t4 0 .t2
      addi .t0 .t0 1
      m) t Q E := by
  have hbound := hbase.bound
  have hbound' := hfits.bound
  have hoffset : (BitVec.ofNat 32 (4 * i)).toNat = 4 * i := toNat_ofNat (by omega)
  have hoffset' : (BitVec.ofNat 32 (4 * (first + i))).toNat = 4 * (first + i) :=
    toNat_ofNat (by omega)
  have hone : (1 : Word).toNat = 1 := rfl
  have htarget₁ : target ≠ .t1 := fun he => htarget (he ▸ by decide)
  have hr₁ : r ≠ .t1 := fun he => hr (he ▸ by decide)
  have hr₂ : r ≠ .t2 := fun he => hr (he ▸ by decide)
  rw [post_bind,post_sll,post_bind,hi,shift_ofNat]
  refine Iff.mpr (post_add (no_overflow ?_)) ?_
  · rw [set_reg,if_pos rfl,set_reg,if_neg htarget₁,hdst,hoffset]
    omega
  rw [set_reg,if_pos rfl,set_reg,if_neg htarget₁,hdst,post_bind]
  refine Iff.mpr (hbody _ i _ _ ?_ ?_ (by omega)) ?_
  · rw [set_reg,if_neg hr₂,set_reg,if_neg hr₁,hlow]
  · simp only [set_reg,reduceCtorEq,↓reduceIte,hi]
  rw [post_bind,post_sll,set_reg,if_pos rfl,shift_ofNat,set_set,post_bind]
  refine Iff.mpr (post_add (no_overflow ?_)) ?_
  · simp only [set_reg,reduceCtorEq,↓reduceIte,hs7,hoffset']
    omega
  rw [post_bind]
  refine Iff.mpr (post_lw (a := cell base (first + i)) (w := x) ?_
    (hbase.cell_aligned (Nat.le_add_right _ _)) hx) ?_
  · simp only [set_reg,reduceCtorEq,↓reduceIte,hs7]
    rw [cell,add_zero]
  rw [post_bind]
  refine Iff.mpr (post_sw (a := cell dst i) ?_ (hfits.cell_aligned (Nat.le_add_right _ _)) hcell) ?_
  · simp only [set_reg,reduceCtorEq,↓reduceIte]
    rw [cell,add_zero,add_comm]
  rw [post_bind]
  refine Iff.mpr (post_addi (no_overflow ?_)) (hm _ ?_ ?_ ?_)
  · simp only [write_reg,set_reg,reduceCtorEq,↓reduceIte,hi,hone,toNat_ofNat (by omega : i < 2 ^ 32)]
    omega
  · simp only [set_mem,write_mem,set_reg,↓reduceIte]
  · simp only [write_reg,set_reg,reduceCtorEq,↓reduceIte,hi,succ_ofNat]
  · intro r' hr'
    simp only [copiers,List.mem_cons,not_or] at hr'
    obtain ⟨h₀,h₁,h₂,h₃,h₄,-⟩ := hr'
    simp only [write_reg,set_reg,if_neg h₀,if_neg h₁,if_neg h₂,if_neg h₃,if_neg h₄]

/-- A loop that copies a part of the array stores its words in the block at `dst`. -/
theorem copyLoop_spec (hbody : Indexes body r low first) (hr : r ∉ copiers)
    (hlow : t.reg r = .ofNat 32 low) (hi : t.reg .t0 = .ofNat 32 i)
    (hcount : t.reg count = .ofNat 32 (i + xs.length)) (hcount' : count ∉ copiers)
    (hdst : t.reg target = dst) (htarget : target ∉ copiers) (hs7 : t.reg .s7 = base)
    (hholds : Holds t.mem base (first + i) xs) (hbase : Fits base (first + i + xs.length))
    (hfits : Fits dst (i + xs.length))
    (hcells : ∀ p < xs.length, (t.mem (cell dst (i + p))).isSome = true)
    (hapart : ∀ p < xs.length, ∀ q < xs.length, cell base (first + i + p) ≠ cell dst (i + q))
    (hfuel : xs.length < fuel) :
    Total (copyLoop count target body fuel) t fun _ u =>
      u.mem = fill dst i xs t.mem ∧ Kept copiers t u := by
  induction fuel generalizing t i xs with
  | zero => omega
  | succ fuel ih =>
    have hbound := hbase.bound
    have hbound' := hfits.bound
    rw [copyLoop,Total,post_bind,post_reg,post_bind,post_reg,hcount,hi,sle_ofNat (by omega) (by omega)]
    cases xs with
    | nil =>
      rw [if_pos (by simp)]
      exact ⟨rfl,Kept.refl _ t⟩
    | cons x xs =>
      have hlen : (x::xs).length = 1 + xs.length := by rw [List.length_cons,Nat.add_comm]
      rw [hlen] at hcount hbase hfits hcells hapart hfuel
      rw [if_neg (by simp)]
      refine copy_round hbody hr hlow hi hdst htarget hs7 hholds.1 (hbase.mono (by omega))
        (hfits.mono (by omega)) (hcells 0 (by omega)) fun q hmem hi' hkept => ?_
      refine (@ih q (i + 1) xs ((hkept _ hr).trans hlow) hi' ?_ ((hkept _ htarget).trans hdst)
        ((hkept _ (by decide)).trans hs7) ?_ ?_ ?_ ?_ ?_ (by omega)).imp fun _ u hu => ?_
      · rw [hkept _ hcount',hcount,Nat.add_assoc]
      · refine hholds.2.congr fun p hp => ?_
        rw [hmem,Function.update_of_ne]
        have := hapart (p + 1) (by omega) 0 (by omega)
        rw [Nat.add_assoc _ 1 p,Nat.add_comm 1]
        exact this
      · rw [← Nat.add_assoc,Nat.add_assoc _ 1]
        exact hbase
      · rw [Nat.add_assoc]
        exact hfits
      · intro p hp
        rw [hmem,Nat.add_assoc,Function.update_apply]
        split
        · rfl
        · exact hcells (1 + p) (by omega)
      · intro p hp p' hp'
        have := hapart (1 + p) (by omega) (1 + p') (by omega)
        simpa only [Nat.add_assoc] using this
      · obtain ⟨hmem',hkept'⟩ := hu
        exact ⟨by rw [hmem',hmem]; rfl,hkept.trans hkept'⟩

end ResumePointers.Mips
