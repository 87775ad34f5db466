import Mathlib

/-! Binary floating point with `p` bits and no bound on the exponent: a rational is rounded to the
nearest number with `p` significant bits, and to the even one of two equally near. -/
namespace ResumePointers.Rounding

/-- The nearest integer, the even one in the middle between two. -/
def roundEven (x : ℚ) : ℤ :=
  if x - ⌊x⌋ < 1 / 2 ∨ x - ⌊x⌋ = 1 / 2 ∧ ⌊x⌋ % 2 = 0 then ⌊x⌋ else ⌊x⌋ + 1

/-- The distance between numbers of `p` bits around `x`. -/
def ulp (p : ℕ) (x : ℚ) : ℚ := 2 ^ (Int.log 2 |x| + 1 - p)

def roundBits (p : ℕ) (x : ℚ) : ℚ := roundEven (x / ulp p x) * ulp p x

variable {p : ℕ} {x : ℚ}

@[simp] theorem roundEven_intCast (n : ℤ) : roundEven n = n := by
  simp [roundEven]

theorem abs_roundEven_sub_le (x : ℚ) : |roundEven x - x| ≤ 1 / 2 := by
  have hle : (⌊x⌋ : ℚ) ≤ x := Int.floor_le x
  have hlt : x < ⌊x⌋ + 1 := Int.lt_floor_add_one x
  rw [roundEven,abs_le]
  split_ifs with h
  · have : x - ⌊x⌋ ≤ 1 / 2 := h.elim le_of_lt fun h => le_of_eq h.1
    constructor <;> linarith
  · have : 1 / 2 ≤ x - ⌊x⌋ := not_lt.mp fun hlt => h (.inl hlt)
    push_cast
    constructor <;> linarith

theorem ulp_pos (p : ℕ) (x : ℚ) : 0 < ulp p x := zpow_pos two_pos _

theorem ulp_le (hx : x ≠ 0) : ulp p x ≤ 2 * |x| / 2 ^ p := by
  have hlog : (2 : ℚ) ^ Int.log 2 |x| ≤ |x| := by
    exact_mod_cast Int.zpow_log_le_self one_lt_two (abs_pos.mpr hx)
  rw [ulp,zpow_sub₀ two_ne_zero,zpow_add₀ two_ne_zero,zpow_one,zpow_natCast]
  apply div_le_div_of_nonneg_right _ (by positivity)
  linarith

/-- The error is relative to the number. -/
theorem abs_roundBits_sub_le (p : ℕ) (x : ℚ) : |roundBits p x - x| ≤ |x| / 2 ^ p := by
  have hu := ulp_pos p x
  have herr : |roundBits p x - x| = |roundEven (x / ulp p x) - x / ulp p x| * ulp p x := by
    rw [roundBits,← abs_of_pos hu,← abs_mul,abs_of_pos hu,sub_mul,div_mul_cancel₀ _ hu.ne']
  rcases eq_or_ne x 0 with rfl | hx
  · have h0 : roundEven 0 = 0 := by simpa using roundEven_intCast 0
    simp [roundBits,h0]
  · calc |roundBits p x - x| = |roundEven (x / ulp p x) - x / ulp p x| * ulp p x := herr
      _ ≤ 1 / 2 * (2 * |x| / 2 ^ p) :=
        mul_le_mul (abs_roundEven_sub_le _) (ulp_le hx) hu.le (by norm_num)
      _ = |x| / 2 ^ p := by ring

/-- A multiple of the distance between the numbers around it is one of them. -/
theorem roundBits_of_mul {n : ℤ} (h : x = n * ulp p x) : roundBits p x = x := by
  have hdiv : x / ulp p x = n := by
    rw [div_eq_iff (ulp_pos p x).ne']
    exact h
  rw [roundBits,hdiv,roundEven_intCast]
  exact h.symm

theorem roundBits_two_pow (hp : 0 < p) : roundBits p (2 ^ p) = 2 ^ p := by
  have hlog : Int.log 2 |(2 : ℚ) ^ p| = p := by
    have := Int.log_natCast (R := ℚ) 2 (2 ^ p)
    rw [Nat.log_pow one_lt_two] at this
    rw [abs_of_pos (by positivity)]
    exact_mod_cast this
  have hulp : ulp p ((2 : ℚ) ^ p) = 2 := by
    rw [ulp,hlog]
    norm_num
  apply roundBits_of_mul (n := 2 ^ (p - 1))
  rw [hulp]
  push_cast
  exact (pow_sub_one_mul hp.ne' 2).symm

/-- Natural numbers up to `2 ^ p` are kept. -/
theorem roundBits_natCast {n : ℕ} (hp : 0 < p) (h : n ≤ 2 ^ p) : roundBits p n = n := by
  rcases eq_or_lt_of_le h with rfl | hlt
  · exact_mod_cast roundBits_two_pow hp
  · rcases Nat.eq_zero_or_pos n with rfl | hn
    · exact roundBits_of_mul (n := 0) (by simp)
    · obtain ⟨k,hk⟩ : ∃ k, p = Nat.log 2 n + 1 + k :=
        Nat.exists_eq_add_of_le (Nat.log_lt_of_lt_pow hn.ne' hlt)
      have hlog : Int.log 2 |(n : ℚ)| = Nat.log 2 n := by rw [Nat.abs_cast,Int.log_natCast]
      have hulp : ulp p (n : ℚ) = ((2 : ℚ) ^ k)⁻¹ := by
        rw [ulp,hlog,hk,← zpow_natCast,← zpow_neg]
        congr 1
        push_cast
        ring
      apply roundBits_of_mul (n := n * 2 ^ k)
      rw [hulp]
      push_cast
      field_simp

/-- The first natural number that is lost. -/
theorem roundBits_two_pow_add_one (hp : 1 < p) : roundBits p (2 ^ p + 1) = 2 ^ p := by
  have hlog : Int.log 2 |(2 : ℚ) ^ p + 1| = p := by
    have hnat : Nat.log 2 (2 ^ p + 1) = p := by
      apply Nat.log_eq_of_pow_le_of_lt_pow (Nat.le_succ _)
      have : 1 < 2 ^ p := Nat.one_lt_two_pow (by omega)
      omega
    have := Int.log_natCast (R := ℚ) 2 (2 ^ p + 1)
    rw [hnat] at this
    rw [abs_of_pos (by positivity)]
    exact_mod_cast this
  have hulp : ulp p ((2 : ℚ) ^ p + 1) = 2 := by
    rw [ulp,hlog]
    norm_num
  obtain ⟨k,rfl⟩ : ∃ k, p = k + 2 := Nat.exists_eq_add_of_le' hp
  have hhalf : ((2 : ℚ) ^ (k + 2) + 1) / 2 = (2 ^ (k + 1) : ℤ) + 1 / 2 := by
    push_cast
    ring
  have hfloor : ⌊((2 ^ (k + 1) : ℤ) : ℚ) + 1 / 2⌋ = 2 ^ (k + 1) := by
    rw [Int.floor_intCast_add]
    norm_num
  have heven : (2 : ℤ) ^ (k + 1) % 2 = 0 := by
    rw [pow_succ]
    exact Int.mul_emod_left _ _
  rw [roundBits,hulp,hhalf,roundEven,hfloor,if_pos]
  · push_cast
    ring
  · exact .inr ⟨by ring,heven⟩

end ResumePointers.Rounding
