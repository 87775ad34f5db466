import Mathlib.Data.List.Basic
import Mathlib.Data.Nat.Bitwise

/-! Remainders of bit strings by a shift register with feedback, as cyclic redundancy checks
use them: the register is linear, a message followed by its check bits leaves it zero, and a
flipped bit leaves what its distance from the end says. -/
namespace ResumePointers

/-- The sum of two bit strings. -/
def xorBits (a b : List Bool) : List Bool := List.zipWith (· ^^ ·) a b

def zeros (n : ℕ) : List Bool := List.replicate n false

variable {g a b c r s : List Bool} {i j n : ℕ}

@[simp] theorem length_zeros (n : ℕ) : (zeros n).length = n := List.length_replicate

@[simp] theorem xorBits_cons (x y : Bool) (a b : List Bool) :
    xorBits (x::a) (y::b) = (x ^^ y)::xorBits a b := rfl

theorem xorBits_append {a' b' : List Bool} (h : a.length = b.length) :
    xorBits (a ++ a') (b ++ b') = xorBits a b ++ xorBits a' b' := List.zipWith_append h

theorem length_xorBits (h : a.length = b.length) : (xorBits a b).length = b.length := by
  simp [xorBits,h]

theorem xorBits_comm (a b : List Bool) : xorBits a b = xorBits b a :=
  List.zipWith_comm_of_comm Bool.xor_comm

theorem xorBits_assoc (a b c : List Bool) :
    xorBits (xorBits a b) c = xorBits a (xorBits b c) := by
  induction a generalizing b c with
  | nil => rfl
  | cons x a ih =>
    cases b with
    | nil => rfl
    | cons y b =>
      cases c with
      | nil => rfl
      | cons z c => rw [xorBits_cons,xorBits_cons,xorBits_cons,xorBits_cons,Bool.xor_assoc,ih]

theorem xorBits_self (a : List Bool) : xorBits a a = zeros a.length := by
  rw [xorBits,List.zipWith_self,zeros]
  simp

theorem xorBits_zeros (h : a.length ≤ n) : xorBits a (zeros n) = a := by
  induction a generalizing n with
  | nil => rfl
  | cons x a ih =>
    cases n with
    | zero => simp at h
    | succ n =>
      rw [zeros,List.replicate_succ,← zeros,xorBits_cons,Bool.xor_false,ih (Nat.le_of_succ_le_succ h)]

theorem zeros_xorBits (h : a.length ≤ n) : xorBits (zeros n) a = a := by
  rw [xorBits_comm,xorBits_zeros h]

/-- Adding the same string twice changes nothing. -/
theorem xorBits_cancel (h : a.length = b.length) : xorBits a (xorBits a b) = b := by
  rw [← xorBits_assoc,xorBits_self,zeros_xorBits h.ge]

theorem xorBits_eq_zeros (h : a.length = b.length) :
    xorBits a b = zeros b.length ↔ a = b := by
  constructor
  · intro he
    have := xorBits_cancel h
    rw [he,xorBits_zeros h.le] at this
    exact this
  · rintro rfl
    exact xorBits_self a

/-- Shift a bit into the register; a one that leaves it feeds `g` back. -/
def shiftIn (g : List Bool) : List Bool → Bool → List Bool
  | [],_ => []
  | x::r,b => if x then xorBits g (r ++ [b]) else r ++ [b]

/-- What the register holds after the string `a`, from all zeros. -/
def remainder (g a : List Bool) : List Bool := a.foldl (shiftIn g) (zeros g.length)

theorem length_shiftIn (h : r.length = g.length) (b : Bool) :
    (shiftIn g r b).length = g.length := by
  cases r with
  | nil => exact h
  | cons x r =>
    have hr : g.length = (r ++ [b]).length := by simpa using h.symm
    rw [shiftIn]
    split_ifs
    · rw [length_xorBits hr,hr]
    · exact hr.symm

theorem length_foldl_shiftIn (h : r.length = g.length) :
    (a.foldl (shiftIn g) r).length = g.length := by
  induction a generalizing r with
  | nil => exact h
  | cons b a ih => exact ih (length_shiftIn h b)

@[simp] theorem length_remainder : (remainder g a).length = g.length :=
  length_foldl_shiftIn (length_zeros _)

theorem shiftIn_xor (hr : r.length = g.length) (hs : s.length = g.length) (x y : Bool) :
    shiftIn g (xorBits r s) (x ^^ y) = xorBits (shiftIn g r x) (shiftIn g s y) := by
  cases r with
  | nil => rfl
  | cons p r =>
    cases s with
    | nil => rw [List.length_nil] at hs; simp [← hs] at hr
    | cons q s =>
      have hlen : r.length = s.length := Nat.succ.inj (hr.trans hs.symm)
      have hshift : xorBits r s ++ [x ^^ y] = xorBits (r ++ [x]) (s ++ [y]) :=
        (@xorBits_append r s [x] [y] hlen).symm
      have hg : g.length = (s ++ [y]).length := by simpa using hs.symm
      have hstep : shiftIn g (xorBits (p::r) (q::s)) (x ^^ y) =
          if p ^^ q then xorBits g (xorBits (r ++ [x]) (s ++ [y]))
          else xorBits (r ++ [x]) (s ++ [y]) := by
        rw [← hshift]
        rfl
      rw [hstep,shiftIn,shiftIn]
      cases p <;> cases q
      · rfl
      · simp only [Bool.false_xor,if_true,Bool.false_eq_true,if_false]
        rw [← xorBits_assoc,xorBits_comm g,xorBits_assoc]
      · simp only [Bool.xor_false,if_true,Bool.false_eq_true,if_false]
        rw [xorBits_assoc]
      · simp only [Bool.xor_self,if_true,Bool.false_eq_true,if_false]
        rw [xorBits_comm g (r ++ [x]),xorBits_assoc,xorBits_cancel hg]

theorem foldl_shiftIn_xor (hab : a.length = b.length) (hr : r.length = g.length)
    (hs : s.length = g.length) : (xorBits a b).foldl (shiftIn g) (xorBits r s) =
      xorBits (a.foldl (shiftIn g) r) (b.foldl (shiftIn g) s) := by
  induction a generalizing b r s with
  | nil => rw [List.length_eq_zero_iff.mp hab.symm]; rfl
  | cons x a ih =>
    cases b with
    | nil => cases hab
    | cons y b =>
      have hstep := shiftIn_xor hr hs x y
      rw [List.foldl_cons,List.foldl_cons,← ih (Nat.succ.inj hab) (length_shiftIn hr x)
        (length_shiftIn hs y),← hstep]
      rfl

/-- The register is linear. -/
theorem remainder_xor (h : a.length = b.length) :
    remainder g (xorBits a b) = xorBits (remainder g a) (remainder g b) := by
  have hlin := foldl_shiftIn_xor (g := g) h (length_zeros _) (length_zeros _)
  rw [xorBits_self,length_zeros] at hlin
  exact hlin

/-- As long as nothing but zeros leaves the register, the bits only move through it. -/
theorem foldl_shiftIn_short (a r : List Bool) (h : r.length + a.length = g.length) :
    a.foldl (shiftIn g) (zeros a.length ++ r) = r ++ a := by
  induction a generalizing r with
  | nil => simp [zeros]
  | cons b a ih =>
    have hstep : shiftIn g (zeros (b::a).length ++ r) b = zeros a.length ++ (r ++ [b]) := by
      rw [List.length_cons,zeros,List.replicate_succ,← List.append_assoc]
      rfl
    rw [List.foldl_cons,hstep,ih (r ++ [b]) (by simp at h ⊢; omega),List.append_assoc]
    rfl

theorem remainder_short (h : a.length = g.length) : remainder g a = a := by
  have := foldl_shiftIn_short (g := g) a [] (by simpa using h)
  rw [List.append_nil,h] at this
  exact this

theorem remainder_zeros (n : ℕ) : remainder g (zeros n) = zeros g.length := by
  have h := remainder_xor (g := g) (rfl : (zeros n).length = (zeros n).length)
  rw [xorBits_self,xorBits_self,length_zeros,length_remainder] at h
  exact h

/-- A message with its check bits leaves the register zero. -/
theorem remainder_check (g a : List Bool) :
    remainder g (a ++ remainder g (a ++ zeros g.length)) = zeros g.length := by
  have hr : (remainder g a).length = g.length := length_remainder
  -- the check bits are zeros and themselves, the register is its content and zeros
  have hsplit (c : List Bool) (hc : c.length = g.length) : remainder g (a ++ c) =
      xorBits (remainder g (a ++ zeros g.length)) c := by
    have hlin := foldl_shiftIn_xor (g := g) (a := zeros g.length) (b := c)
      ((length_zeros _).trans hc.symm) hr (length_zeros g.length)
    rw [zeros_xorBits hc.le,xorBits_zeros hr.le] at hlin
    rw [remainder,remainder,List.foldl_append,List.foldl_append]
    exact hlin.trans (congrArg _ (remainder_short hc))
  rw [hsplit _ length_remainder,xorBits_self,length_remainder]

/-- What a single one leaves after `i` more places. -/
def syndrome (g : List Bool) (i : ℕ) : List Bool := remainder g (true::zeros i)

@[simp] theorem length_syndrome : (syndrome g i).length = g.length := length_remainder

/-- A flipped bit adds the syndrome of its distance from the end. -/
theorem remainder_flip (g u v : List Bool) (b : Bool) : remainder g (u ++ (!b)::v) =
    xorBits (remainder g (u ++ b::v)) (syndrome g v.length) := by
  have hflip : u ++ (!b)::v = xorBits (u ++ b::v) (zeros u.length ++ true::zeros v.length) := by
    rw [xorBits_append (length_zeros _).symm,xorBits_cons,xorBits_zeros le_rfl,xorBits_zeros le_rfl,
      Bool.xor_true]
  have hunit : remainder g (zeros u.length ++ true::zeros v.length) = syndrome g v.length := by
    rw [remainder,List.foldl_append,← remainder,remainder_zeros]
    rfl
  rw [hflip,remainder_xor (by simp),hunit]

/-- The numbers differ from each other and from those in the set of bits `seen`. -/
def distinct : List ℕ → ℕ → Bool
  | [],_ => true
  | v::vs,seen => !seen.testBit v && distinct vs (seen ||| 1 <<< v)

theorem distinct_sound {vs : List ℕ} {seen : ℕ} (h : distinct vs seen = true) :
    vs.Nodup ∧ ∀ v ∈ vs, seen.testBit v = false := by
  induction vs generalizing seen with
  | nil => simp
  | cons v vs ih =>
    rw [distinct,Bool.and_eq_true,Bool.not_eq_true'] at h
    obtain ⟨hnodup,hseen⟩ := ih h.2
    have hor (w : ℕ) (hw : w ∈ vs) : seen.testBit w = false ∧ v ≠ w := by
      have := hseen w hw
      rw [Nat.testBit_or,Bool.or_eq_false_iff,Nat.one_shiftLeft,Nat.testBit_two_pow] at this
      exact ⟨this.1,of_decide_eq_false this.2⟩
    refine ⟨List.nodup_cons.mpr ⟨fun hv => (hor v hv).2 rfl,hnodup⟩,?_⟩
    rintro w (_ | ⟨_,hw⟩)
    · exact h.1
    · exact (hor w hw).1

end ResumePointers
