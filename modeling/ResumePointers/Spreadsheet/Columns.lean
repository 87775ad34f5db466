import ResumePointers.Spreadsheet.Formula
import ResumePointers.Lib.BijectiveBase
import ResumePointers.Lib.Rounding

/-! The names of the columns (`getCharCode` and `getCoordinates` of
`frontend/src/components/Sheet.jsx`), in the double precision of the language's numbers: a column
number is exact up to `2 ^ 53`, and from there on columns share their names. -/
namespace ResumePointers.Spreadsheet

namespace Num

/-- The exact result of an operation as the language rounds it. The results here are zero or far
above the smallest doubles. -/
def toDouble : Num → Num
  | fin q =>
    let r := Rounding.roundBits 53 q
    if |r| < 2 ^ 1024 then fin r else infinite (fin r).sign
  | x => x

/-- The integer part. -/
def trunc (q : ℚ) : ℤ := if 0 ≤ q then ⌊q⌋ else ⌈q⌉

/-- The remainder, with the sign of the dividend; it is always exact. -/
def rem : Num → Num → Num
  | fin a,fin b => if b = 0 then nan else fin (a - b * trunc (a / b))
  | fin a,negInf => fin a
  | fin a,posInf => fin a
  | _,_ => nan

/-- `Math.floor`. -/
def floor : Num → Num
  | fin q => fin ⌊q⌋
  | x => x

end Num

/-- `String.fromCharCode`: only an integer part modulo `2 ^ 16` is kept, and nothing of an infinity
or a `NaN`. -/
def fromCharCode : Num → Char
  | .fin q => Char.ofNat (Num.trunc q % 2 ^ 16).toNat
  | _ => Char.ofNat 0

/-- The loop of `getCharCode`; `none` means that it has not ended within `fuel` rounds. -/
def charCodeLoop : ℕ → Num → List Char → Option (List Char)
  | 0,_,_ => none
  | fuel + 1,curr,ans =>
    if (Num.fin 0).lt curr then
      let modulo := (curr.sub (.fin 1)).toDouble.rem (.fin 26)
      charCodeLoop fuel ((curr.sub modulo).toDouble.div (.fin 26)).toDouble.floor
        (fromCharCode ((Num.fin 65).add modulo).toDouble::ans)
    else some ans

/-- A number is below `2 ^ 1024`, and every round makes it smaller than its half. -/
def getCharCode (colNum : Num) : Option (List Char) :=
  charCodeLoop 1100 (colNum.add (.fin 1)).toDouble []

/-- A round of the loop of `getCoordinates` over the letters of an address. -/
def columnStep (col : Num) (c : Char) : Num :=
  ((col.mul (.fin 26)).toDouble.add (.fin (c.toNat - 64 : ℤ))).toDouble

/-- The column that `getCoordinates` returns. -/
def getColumn (word : List Char) : Num :=
  ((word.foldl columnStep (.fin 0)).sub (.fin 1)).toDouble

open BijectiveBase (value)

/-- The letter of a digit. -/
def letter (d : ℕ) : Char := Char.ofNat (65 + d)

/-- The digits that a word writes, from 0 for an A to 25 for a Z. -/
def digitsOf (word : List Char) : List ℕ := word.map fun c => c.toNat - 65

/-- What a word stands for as a number with the digits from A to Z. -/
def columnNumber (word : List Char) : ℕ := value 26 (digitsOf word)

variable {d n v fuel : ℕ} {ds : List ℕ} {word row : List Char}

/-- No column number up to `2 ^ 53` is near the infinity of the doubles. -/
theorem column_lt_infinity : (2 : ℚ) ^ 53 + 1 < 2 ^ 1024 :=
  calc (2 : ℚ) ^ 53 + 1 < 2 ^ 54 := by norm_num
    _ < 2 ^ 1024 := pow_lt_pow_right₀ one_lt_two (by norm_num)

theorem abs_toDouble_sub_le {q : ℚ} (h : |q| ≤ 2 ^ 53) :
    ∃ r, (Num.fin q).toDouble = .fin r ∧ |r - q| ≤ |q| / 2 ^ 53 := by
  have herr := Rounding.abs_roundBits_sub_le 53 q
  refine ⟨Rounding.roundBits 53 q,?_,herr⟩
  have hle : |q| / 2 ^ 53 ≤ 1 := by
    rw [div_le_one (by positivity)]
    exact h
  have hlt : |Rounding.roundBits 53 q| < 2 ^ 1024 := by
    calc |Rounding.roundBits 53 q| ≤ |q| + |Rounding.roundBits 53 q - q| := by
          rw [← sub_le_iff_le_add']
          exact abs_sub_abs_le_abs_sub _ _
      _ ≤ 2 ^ 53 + 1 := add_le_add h (herr.trans hle)
      _ < 2 ^ 1024 := column_lt_infinity
  exact if_pos hlt

@[simp] theorem toDouble_natCast (h : n ≤ 2 ^ 53) : (Num.fin n).toDouble = .fin n := by
  have hr := Rounding.roundBits_natCast (by norm_num) h
  have hlt : |(n : ℚ)| < 2 ^ 1024 := by
    have hle : (n : ℚ) ≤ 2 ^ 53 := by exact_mod_cast h
    rw [Nat.abs_cast]
    exact lt_of_le_of_lt (by linarith) column_lt_infinity
  simp only [Num.toDouble,hr,if_pos hlt]

/-- The first column number that the language cannot tell from another one. -/
theorem toDouble_lost : (Num.fin (2 ^ 53 + 1)).toDouble = .fin (2 ^ 53) := by
  have hr := Rounding.roundBits_two_pow_add_one (p := 53) (by norm_num)
  have hlt : |(2 ^ 53 : ℚ)| < 2 ^ 1024 := by
    rw [abs_of_pos (by positivity)]
    exact lt_of_le_of_lt (by linarith) column_lt_infinity
  simp only [Num.toDouble,hr,if_pos hlt]

theorem rem_natCast (a b : ℕ) (hb : 0 < b) : (Num.fin a).rem (.fin b) = .fin (a % b : ℕ) := by
  have hb' : (b : ℚ) ≠ 0 := by exact_mod_cast hb.ne'
  have hfloor : Num.trunc ((a : ℚ) / b) = (a / b : ℕ) := by
    rw [Num.trunc,if_pos (by positivity)]
    exact_mod_cast Rat.floor_natCast_div_natCast a b
  rw [Num.rem,if_neg hb',hfloor]
  congr 1
  have hdivmod : (b : ℚ) * (a / b : ℕ) + (a % b : ℕ) = a := by
    exact_mod_cast Nat.div_add_mod a b
  rw [Int.cast_natCast]
  linarith

theorem letter_toNat : ∀ d < 26, (letter d).toNat = 65 + d := by decide

theorem fromCharCode_letter (hd : d < 26) : fromCharCode (.fin (65 + d : ℕ)) = letter d := by
  have htrunc : Num.trunc ((65 + d : ℕ) : ℚ) = (65 + d : ℕ) := by
    rw [Num.trunc,if_pos (Nat.cast_nonneg _)]
    exact Int.floor_natCast _
  have hmod : (((65 + d : ℕ) : ℤ) % 2 ^ 16).toNat = 65 + d := by omega
  rw [fromCharCode,htrunc,hmod,letter]

/-- What is left is a little more than `v`, also as a double. -/
theorem floor_quotient (h : v * 26 + 1 ≤ 2 ^ 53) :
    ((Num.fin (v * 26 + 1 : ℕ)).div (.fin 26)).toDouble.floor = .fin v := by
  have hq : (Num.fin (v * 26 + 1 : ℕ)).div (.fin 26) = .fin (v + 1 / 26) := by
    rw [Num.div,if_neg (by norm_num)]
    congr 1
    push_cast
    ring
  have hv : (v : ℚ) * 26 + 1 ≤ 2 ^ 53 := by exact_mod_cast h
  have hv0 : (0 : ℚ) ≤ v := Nat.cast_nonneg v
  have habs : |(v : ℚ) + 1 / 26| = v + 1 / 26 := abs_of_pos (by positivity)
  obtain ⟨r,hr,herr⟩ := abs_toDouble_sub_le (q := (v : ℚ) + 1 / 26) (by rw [habs]; linarith)
  have hsmall : |(v : ℚ) + 1 / 26| / 2 ^ 53 ≤ 1 / 26 := by
    rw [habs,div_le_iff₀ (by positivity)]
    linarith
  obtain ⟨hlow,hhigh⟩ := abs_le.mp (herr.trans hsmall)
  rw [hq,hr,Num.floor]
  congr 1
  have hfloor : ⌊r⌋ = (v : ℤ) := by
    rw [Int.floor_eq_iff]
    push_cast
    constructor <;> linarith
  rw [hfloor]
  rfl

theorem charCodeLoop_concat (hd : d < 26) (h : v * 26 + (d + 1) ≤ 2 ^ 53) (ans : List Char) :
    charCodeLoop (fuel + 1) (.fin (v * 26 + (d + 1) : ℕ)) ans =
      charCodeLoop fuel (.fin v) (letter d::ans) := by
  have hpos : (Num.fin 0).lt (.fin (v * 26 + (d + 1) : ℕ)) = true := by
    apply decide_eq_true
    exact_mod_cast Nat.succ_pos _
  have hsub (m k : ℕ) : (Num.fin (m + k : ℕ)).sub (.fin k) = .fin m := by
    rw [Num.sub,Num.neg,Num.add]
    congr 1
    push_cast
    ring
  have hmodulo : ((Num.fin (v * 26 + (d + 1) : ℕ)).sub (.fin 1)).toDouble.rem (.fin 26) =
      .fin d := by
    have hone := hsub (v * 26 + d) 1
    rw [Nat.cast_one] at hone
    rw [← Nat.add_assoc,hone,toDouble_natCast (by omega)]
    have := rem_natCast (v * 26 + d) 26 (by norm_num)
    rw [Nat.mul_add_mod_self_right,Nat.mod_eq_of_lt hd] at this
    exact this
  have hrest : (Num.fin (v * 26 + (d + 1) : ℕ)).sub (.fin d) = .fin (v * 26 + 1 : ℕ) := by
    have := hsub (v * 26 + 1) d
    rwa [Nat.add_assoc,Nat.add_comm 1 d] at this
  have hchar : (Num.fin 65).add (.fin d) = .fin (65 + d : ℕ) := by
    rw [Num.add]
    push_cast
    rfl
  rw [charCodeLoop,if_pos hpos]
  simp only [hmodulo]
  rw [hrest,hchar,toDouble_natCast (by omega),toDouble_natCast (by omega),
    floor_quotient (by omega),fromCharCode_letter hd]

theorem charCodeLoop_value (hds : ∀ d ∈ ds, d < 26) (h : value 26 ds ≤ 2 ^ 53)
    (hfuel : ds.length < fuel) (ans : List Char) :
    charCodeLoop fuel (.fin (value 26 ds)) ans = some (ds.map letter ++ ans) := by
  induction ds using List.reverseRecOn generalizing fuel ans with
  | nil =>
    obtain ⟨fuel,rfl⟩ := Nat.exists_eq_succ_of_ne_zero (Nat.ne_of_gt hfuel)
    simp [charCodeLoop,Num.lt]
  | append_singleton ds d ih =>
    rw [List.length_append,List.length_singleton] at hfuel
    obtain ⟨fuel,rfl⟩ := Nat.exists_eq_succ_of_ne_zero (Nat.ne_of_gt (Nat.zero_lt_of_lt hfuel))
    rw [BijectiveBase.value_concat] at h
    have hds' : ∀ d ∈ ds, d < 26 := fun d hd => hds d (List.mem_append_left _ hd)
    rw [BijectiveBase.value_concat,charCodeLoop_concat (hds d (by simp)) h,
      ih hds' (by omega) (by omega)]
    simp

theorem getCharCode_natCast (h : n + 1 ≤ 2 ^ 53) (hds : ∀ d ∈ ds, d < 26)
    (hval : value 26 ds = n + 1) : getCharCode (.fin n) = some (ds.map letter) := by
  have hadd : (Num.fin n).add (.fin 1) = .fin (n + 1 : ℕ) := by
    rw [Num.add]
    push_cast
    rfl
  have hlen : ds.length < 1100 := by
    have hpow : 2 ^ ds.length < 2 ^ 54 :=
      lt_of_le_of_lt (BijectiveBase.two_pow_length_le (by norm_num : 2 ≤ 26) ds) (by omega)
    exact lt_trans ((Nat.pow_lt_pow_iff_right one_lt_two).mp hpow) (by norm_num)
  have hloop := charCodeLoop_value hds (hval ▸ h) hlen []
  rw [getCharCode,hadd,toDouble_natCast h,← hval,hloop,List.append_nil]

theorem columnStep_letter (hd : d < 26) (h : v * 26 ≤ 2 ^ 53) :
    columnStep (.fin v) (letter d) = (Num.fin (v * 26 + (d + 1) : ℕ)).toDouble := by
  have hletter : (((letter d).toNat : ℤ) - 64 : ℤ) = (d + 1 : ℕ) := by
    have := letter_toNat d hd
    omega
  have hmul : (Num.fin v).mul (.fin 26) = .fin (v * 26 : ℕ) := by
    rw [Num.mul]
    push_cast
    rfl
  have hadd : (Num.fin (v * 26 : ℕ)).add (.fin (d + 1 : ℕ)) = .fin (v * 26 + (d + 1) : ℕ) := by
    rw [Num.add]
    push_cast
    rfl
  rw [columnStep,hletter,hmul,toDouble_natCast h,Int.cast_natCast,hadd]

theorem foldl_columnStep (hds : ∀ d ∈ ds, d < 26) (h : value 26 ds ≤ 2 ^ 53) :
    (ds.map letter).foldl columnStep (.fin 0) = .fin (value 26 ds : ℕ) := by
  induction ds using List.reverseRecOn with
  | nil => simp
  | append_singleton ds d ih =>
    rw [BijectiveBase.value_concat] at h
    rw [List.map_append,List.foldl_append,ih (fun d hd => hds d (by simp [hd])) (by omega),
      BijectiveBase.value_concat,← toDouble_natCast h]
    exact columnStep_letter (hds d (by simp)) (by omega)

theorem getColumn_map (hds : ∀ d ∈ ds, d < 26) (h : n + 1 ≤ 2 ^ 53)
    (hval : value 26 ds = n + 1) : getColumn (ds.map letter) = .fin n := by
  have hsub : (Num.fin (n + 1 : ℕ)).sub (.fin 1) = .fin n := by
    rw [Num.sub,Num.neg,Num.add]
    congr 1
    push_cast
    ring
  rw [getColumn,foldl_columnStep hds (hval ▸ h),hval,hsub]
  exact toDouble_natCast (by omega)

/-- The word of the first number that is lost is read as if it were the word before it. -/
theorem getColumn_lost (hds : ∀ e ∈ ds ++ [d], e < 26) (hval : value 26 (ds ++ [d]) = 2 ^ 53 + 1) :
    getColumn ((ds ++ [d]).map letter) = .fin (2 ^ 53 - 1 : ℕ) := by
  have hd : d < 26 := hds d (by simp)
  have hds' : ∀ d ∈ ds, d < 26 := fun d hd => hds d (List.mem_append_left _ hd)
  have hlost : (Num.fin (2 ^ 53 + 1 : ℕ)).toDouble = .fin (2 ^ 53 : ℕ) := by
    exact_mod_cast toDouble_lost
  have hsub : (Num.fin (2 ^ 53 : ℕ)).sub (.fin 1) = .fin (2 ^ 53 - 1 : ℕ) := by
    rw [Num.sub,Num.neg,Num.add]
    norm_num
  rw [BijectiveBase.value_concat] at hval
  rw [getColumn,List.map_append,List.foldl_append,foldl_columnStep hds' (by omega)]
  have hlast := columnStep_letter hd (v := value 26 ds) (by omega)
  rw [hval,hlost] at hlast
  have hfold : (List.map letter [d]).foldl columnStep (.fin (value 26 ds : ℕ)) =
      .fin (2 ^ 53 : ℕ) := hlast
  rw [hfold,hsub]
  exact toDouble_natCast (by norm_num)

theorem isUpper_iff {c : Char} : isUpper c = true ↔ 65 ≤ c.toNat ∧ c.toNat ≤ 90 := by
  simp [isUpper,Char.le_def,UInt32.le_iff_toNat_le]

theorem digitsOf_lt (hword : ∀ c ∈ word, isUpper c = true) : ∀ d ∈ digitsOf word, d < 26 := by
  intro d hd
  obtain ⟨c,hc,rfl⟩ := List.mem_map.mp hd
  have := isUpper_iff.mp (hword c hc)
  omega

theorem map_letter_digitsOf (hword : ∀ c ∈ word, isUpper c = true) :
    (digitsOf word).map letter = word := by
  have hletter : ∀ c ∈ word, letter (c.toNat - 65) = c := by
    intro c hc
    have := isUpper_iff.mp (hword c hc)
    rw [letter,Nat.add_sub_cancel' this.1,Char.ofNat_toNat]
  rw [digitsOf,List.map_map]
  exact (List.map_congr_left hletter).trans (List.map_id word)

theorem exists_columnNumber (hne : word ≠ []) : ∃ n, columnNumber word = n + 1 := by
  apply Nat.exists_eq_succ_of_ne_zero
  obtain ⟨word,c,rfl⟩ := (List.eq_nil_or_concat word).resolve_left hne
  simp [columnNumber,digitsOf]

/-- The word and the row of an address. -/
theorem span_append (hword : ∀ c ∈ word, isUpper c = true) (hrow : row.all isDigit = true) :
    (word ++ row).span isUpper = (word,row) := by
  have hdrop : row.takeWhile isUpper = [] ∧ row.dropWhile isUpper = row := by
    cases row with
    | nil => exact ⟨rfl,rfl⟩
    | cons c row =>
      have hdigit : isDigit c = true := (List.all_eq_true.mp hrow) c List.mem_cons_self
      have hupper : isUpper c = false := by
        by_contra h
        rw [Bool.not_eq_false,isUpper_iff] at h
        have : c.toNat ≤ 57 := by
          simp only [isDigit,Char.le_def,UInt32.le_iff_toNat_le,decide_eq_true_eq] at hdigit
          exact hdigit.2
        omega
      simp [hupper]
  rw [List.span_eq_takeWhile_dropWhile,List.takeWhile_append_of_pos hword,
    List.dropWhile_append_of_pos hword,hdrop.1,hdrop.2,List.append_nil]

/-- The column of an address is the exact one as long as doubles are exact. -/
theorem getCoordinates_getColumn (hword : ∀ c ∈ word, isUpper c = true) (hne : word ≠ [])
    (hrow : row.all isDigit = true) (hrne : row ≠ []) (h : columnNumber word ≤ 2 ^ 53) :
    ∃ c : ℕ, getCoordinates (word ++ row) = .ok (digitsValue row,c) ∧
      getColumn word = .fin c := by
  obtain ⟨n,hn⟩ := exists_columnNumber hne
  have hfold : word.foldl (fun col c => col * 26 + (c.toNat - 64)) 0 = columnNumber word := by
    rw [columnNumber,value,digitsOf,List.foldl_map]
    apply List.foldl_ext
    intro col c hc
    have := isUpper_iff.mp (hword c hc)
    omega
  refine ⟨n,?_,?_⟩
  · rw [getCoordinates,span_append hword hrow]
    simp [hne,hrne,hrow,hfold,hn]
  · rw [← map_letter_digitsOf hword]
    exact getColumn_map (digitsOf_lt hword) (hn ▸ h) hn

theorem columnNumber_le (hword : ∀ c ∈ word, isUpper c = true) (hlen : word.length ≤ 11) :
    columnNumber word ≤ 2 ^ 53 := by
  have hlt := BijectiveBase.value_lt (digitsOf_lt hword)
  have hpow : 27 ^ (digitsOf word).length ≤ 27 ^ 11 :=
    Nat.pow_le_pow_right (by norm_num) (by simpa [digitsOf] using hlen)
  have h11 : 27 ^ 11 ≤ 2 ^ 53 := by norm_num
  exact hlt.le.trans (hpow.trans h11)

/-- Up to `2 ^ 53` the two functions are inverse to each other. -/
theorem getCharCode_getColumn :
    (∀ n : ℕ, n < 2 ^ 53 → ∃ word, getCharCode (.fin n) = some word ∧ word ≠ [] ∧
      (∀ c ∈ word, isUpper c = true) ∧ getColumn word = .fin n) ∧
      ∀ word, word ≠ [] → (∀ c ∈ word, isUpper c = true) →
        columnNumber word ≤ 2 ^ 53 ∨ word.length ≤ 11 →
        getCharCode (getColumn word) = some word := by
  constructor
  · intro n hn
    obtain ⟨ds,hds,hval⟩ := BijectiveBase.exists_value (b := 26) (by norm_num) (n + 1)
    have hne : ds ≠ [] := by
      rintro rfl
      simp at hval
    have hupper : ∀ c ∈ ds.map letter, isUpper c = true := by
      intro c hc
      obtain ⟨d,hd,rfl⟩ := List.mem_map.mp hc
      have := letter_toNat d (hds d hd)
      have := hds d hd
      rw [isUpper_iff]
      omega
    exact ⟨ds.map letter,getCharCode_natCast hn hds hval,by simpa using hne,hupper,
      getColumn_map hds hn hval⟩
  · intro word hne hword h
    have hle : columnNumber word ≤ 2 ^ 53 := h.elim id (columnNumber_le hword)
    obtain ⟨n,hn⟩ := exists_columnNumber hne
    have hword' := map_letter_digitsOf hword
    have hcol := getColumn_map (digitsOf_lt hword) (hn ▸ hle) hn
    have hchar := getCharCode_natCast (hn ▸ hle) (digitsOf_lt hword) hn
    rw [hword'] at hcol hchar
    rw [hcol,hchar]

theorem getCharCode_getColumn_ab : getCharCode (getColumn ['A','B']) = some ['A','B'] :=
  getCharCode_getColumn.2 ['A','B'] (by simp) (by simp [isUpper]) (.inr (by simp))

/-- Column `2 ^ 53` has the name of the column before it, and the word after this name stands for
no column. -/
theorem getCharCode_lost :
    getCharCode (.fin (2 ^ 53 : ℕ)) = some ['B','K','T','X','H','S','O','G','H','K','K','F'] ∧
      getColumn ['B','K','T','X','H','S','O','G','H','K','K','F'] = .fin (2 ^ 53 - 1 : ℕ) ∧
      getCharCode (getColumn ['B','K','T','X','H','S','O','G','H','K','K','G']) =
        some ['B','K','T','X','H','S','O','G','H','K','K','F'] := by
  have hds : ∀ d ∈ [1,10,19,23,7,18,14,6,7,10,10,5], d < 26 := by decide
  have hval : value 26 [1,10,19,23,7,18,14,6,7,10,10,5] = 2 ^ 53 - 1 + 1 := by decide
  have hname := getCharCode_natCast (by norm_num) hds hval
  have hcol := getColumn_map hds (by norm_num) hval
  have hsame : getCharCode (.fin (2 ^ 53 : ℕ)) = getCharCode (.fin (2 ^ 53 - 1 : ℕ)) := by
    have hlost : ((Num.fin (2 ^ 53 : ℕ)).add (.fin 1)).toDouble = .fin (2 ^ 53 : ℕ) := by
      have := toDouble_lost
      rw [Num.add]
      push_cast
      exact this
    have hkept : ((Num.fin (2 ^ 53 - 1 : ℕ)).add (.fin 1)).toDouble = .fin (2 ^ 53 : ℕ) := by
      have := toDouble_natCast (n := 2 ^ 53) le_rfl
      rw [Num.add]
      norm_num at this ⊢
      exact this
    rw [getCharCode,getCharCode,hlost,hkept]
  have hnds : ∀ d ∈ [1,10,19,23,7,18,14,6,7,10,10] ++ [6], d < 26 := by decide
  have hnval : value 26 ([1,10,19,23,7,18,14,6,7,10,10] ++ [6]) = 2 ^ 53 + 1 := by decide
  have hnext := getColumn_lost hnds hnval
  exact ⟨hsame.trans hname,hcol,(congrArg getCharCode hnext).trans hname⟩

end ResumePointers.Spreadsheet
