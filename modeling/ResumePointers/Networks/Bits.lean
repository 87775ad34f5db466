import ResumePointers.Lib.Crc
import Mathlib.Algebra.Group.Nat.Defs
import Mathlib.Data.Int.Notation

/-! The functions on bit strings that both labs have (`networks_lab2/generator.py`,
`networks_lab3/generator.py` and the two `recording.py`). A string of `0` and `1` is a list of
bits, and an index that is out of range is an error. -/
namespace ResumePointers.Networks

inductive Failure
  | index
deriving DecidableEq

/-- 010111010111. -/
def GENERATOR : List Bool :=
  [false,true,false,true,true,true,false,true,false,true,true,true]

/-- The loop of `decTobitstring`, least digit first; `n` steps are enough. -/
def digits : ℕ → ℕ → List Bool
  | 0,_ => []
  | fuel + 1,n => if n > 0 then decide (n % 2 = 1)::digits fuel (n / 2) else []

/-- `decTobitstring(n, noOfBits)`; in the second lab `noOfBits` is 5. -/
def decTobitstring (n : ℤ) (noOfBits : ℕ) : List Bool :=
  let str := digits n.toNat n.toNat
  (str ++ zeros (noOfBits - str.length)).reverse

/-- `strToDec(s, nbits)`; in the second lab `nbits` is 5. -/
def strToDec (s : List Bool) (nbits : ℕ) : Except Failure ℕ :=
  (List.range nbits).foldlM (fun ans i =>
    match s.reverse[i]? with
    | some bit => .ok (if bit then ans + 1 <<< i else ans)
    | none => .error .index) 0

/-- Flip the bit at an index of the message. -/
def bitflip (message : List Bool) (i : ℕ) : List Bool :=
  message.take i ++ (message[i]?.map not).toList ++ message.drop (i + 1)

/-- All but the first bits of `a` and `b`; `b` is never the longer one. -/
def xor (a b : List Bool) : List Bool := xorBits a.tail b.tail

/-- The test of `tmp[0]` in `mod2div`, and what is made of `tmp`. -/
def reduce (divisor : List Bool) (pick : ℕ) : List Bool → Except Failure (List Bool)
  | [] => .error .index
  | t::tmp => .ok (if t then xor divisor (t::tmp) else xor (zeros pick) (t::tmp))

/-- The loop of `mod2div` over the bits not picked yet. -/
def mod2divLoop (divisor : List Bool) :
    List Bool → ℕ → List Bool → Except Failure (List Bool)
  | [],pick,tmp => reduce divisor pick tmp
  | d::dividend,pick,tmp => do
    let r ← reduce divisor pick tmp
    mod2divLoop divisor dividend (pick + 1) (r ++ [d])

def mod2div (dividend divisor : List Bool) : Except Failure (List Bool) :=
  mod2divLoop divisor (dividend.drop divisor.length) divisor.length
    (dividend.take divisor.length)

def encode_data (data key : List Bool) : Except Failure (List Bool) := do
  let remainder ← mod2div (data ++ zeros (key.length - 1)) key
  pure (data ++ remainder)

/-- The loop of the receivers that looks for the end of the preamble, `sync`, from position `i`
on. -/
def scan (sync received_message : List Bool) : ℕ → ℕ → ℕ
  | 0,i => i
  | fuel + 1,i =>
    if i < received_message.length then
      if (received_message.drop i).take sync.length = sync then i
      else scan sync received_message fuel (i + 1)
    else i

variable {a b d g r s u v : List Bool} {x : Bool} {i k n pick : ℕ}

theorem reduce_eq (hr : r.length = g.length) (hp : g.length < pick) (x b : Bool) :
    reduce (x::g) pick (r ++ [b]) = .ok (shiftIn g r b) := by
  cases r with
  | nil => cases b <;> simp [reduce,xor,xorBits,shiftIn]
  | cons t r =>
    obtain ⟨p,rfl⟩ : ∃ p, pick = p + 1 := ⟨pick - 1,by omega⟩
    have hzero : xor (zeros (p + 1)) (t::(r ++ [b])) = r ++ [b] :=
      zeros_xorBits (by simp at hr ⊢; omega)
    cases t with
    | true => rfl
    | false => exact congrArg Except.ok hzero

theorem mod2divLoop_eq (hr : r.length = g.length) (hp : g.length < pick) (x b : Bool)
    (v : List Bool) : mod2divLoop (x::g) v pick (r ++ [b]) =
      .ok ((b::v).foldl (shiftIn g) r) := by
  induction v generalizing r pick b with
  | nil => rw [mod2divLoop,reduce_eq hr hp]; rfl
  | cons d v ih =>
    rw [mod2divLoop,reduce_eq hr hp,List.foldl_cons]
    exact ih (length_shiftIn hr b) (by omega) d

/-- The division leaves what the shift register holds; the first bit of the divisor plays no
part. -/
theorem mod2div_eq (x : Bool) (h : g.length < a.length) :
    mod2div a (x::g) = .ok (remainder g a) := by
  have hsplit : a = a.take g.length ++ a[g.length]::a.drop (g.length + 1) := by
    rw [List.getElem_cons_drop,List.take_append_drop]
  have htake : (a.take g.length).length = g.length := by simp [h.le]
  have htake' : a.take (g.length + 1) = a.take g.length ++ [a[g.length]] :=
    List.take_succ_eq_append_getElem h
  rw [mod2div,List.length_cons,htake',mod2divLoop_eq htake (by omega)]
  conv_rhs => rw [remainder,hsplit,List.foldl_append,← remainder,remainder_short htake]

theorem encode_data_eq (x : Bool) (ha : a ≠ []) :
    encode_data a (x::g) = .ok (a ++ remainder g (a ++ zeros g.length)) := by
  have hpos := List.length_pos_iff.mpr ha
  rw [encode_data,List.length_cons,Nat.add_sub_cancel,mod2div_eq x (by simp; omega)]
  rfl

theorem bitflip_append (u v : List Bool) (b : Bool) :
    bitflip (u ++ b::v) u.length = u ++ (!b)::v := by
  simp [bitflip]

theorem bitflip_eq_modify (a : List Bool) (i : ℕ) : bitflip a i = a.modify i not := by
  by_cases h : i < a.length
  · rw [List.modify_eq_take_cons_drop h,bitflip,List.getElem?_eq_getElem h]
    simp
  · rw [List.modify_eq_self (not_lt.mp h),bitflip,List.take_of_length_le (not_lt.mp h),
      List.getElem?_eq_none (not_lt.mp h),List.drop_eq_nil_of_le (by omega)]
    simp

@[simp] theorem length_bitflip (a : List Bool) (i : ℕ) : (bitflip a i).length = a.length := by
  rw [bitflip_eq_modify,List.length_modify]

@[simp] theorem bitflip_bitflip (a : List Bool) (i : ℕ) : bitflip (bitflip a i) i = a := by
  rw [bitflip_eq_modify,bitflip_eq_modify,List.modify_modify_eq]
  have hid : not ∘ not = id := by funext b; exact Bool.not_not b
  rw [hid,List.modify_id]

theorem bitflip_comm (a : List Bool) (i j : ℕ) :
    bitflip (bitflip a i) j = bitflip (bitflip a j) i := by
  rcases eq_or_ne i j with rfl | h
  · rfl
  · simp only [bitflip_eq_modify]
    exact List.modify_modify_ne _ _ _ h

theorem remainder_bitflip (g : List Bool) (h : i < a.length) : remainder g (bitflip a i) =
    xorBits (remainder g a) (syndrome g (a.length - 1 - i)) := by
  have hsplit : a = a.take i ++ a[i]::a.drop (i + 1) := by
    rw [List.getElem_cons_drop,List.take_append_drop]
  have hlen : (a.take i).length = i := List.length_take_of_le h.le
  have hflip := bitflip_append (a.take i) (a.drop (i + 1)) a[i]
  rw [hlen,← hsplit] at hflip
  rw [hflip,remainder_flip,← hsplit,List.length_drop]
  congr 2
  omega

/-- The number with the digits `bits`, least digit first. -/
def ofBits (bits : List Bool) : ℕ := bits.foldr (fun bit n => bit.toNat + 2 * n) 0

theorem ofBits_concat (bits : List Bool) (b : Bool) :
    ofBits (bits ++ [b]) = ofBits bits + b.toNat * 2 ^ bits.length := by
  induction bits with
  | nil => simp [ofBits]
  | cons c bits ih =>
    have hcons (l : List Bool) : ofBits (c::l) = c.toNat + 2 * ofBits l := rfl
    rw [List.cons_append,hcons,hcons,ih,List.length_cons,Nat.pow_succ,Nat.mul_add,
      ← Nat.add_assoc,Nat.mul_left_comm 2,Nat.mul_comm 2 (2 ^ _)]

theorem ofBits_lt (bits : List Bool) : ofBits bits < 2 ^ bits.length := by
  induction bits with
  | nil => decide
  | cons c bits ih =>
    have hcons : ofBits (c::bits) = c.toNat + 2 * ofBits bits := rfl
    have hc := Bool.toNat_lt c
    rw [hcons,List.length_cons,Nat.pow_succ]
    omega

theorem ofBits_append_zeros (bits : List Bool) (n : ℕ) :
    ofBits (bits ++ zeros n) = ofBits bits := by
  induction n with
  | zero => simp [zeros]
  | succ n ih =>
    rw [zeros,List.replicate_succ',← List.append_assoc,ofBits_concat,← zeros,ih]
    simp

theorem ofBits_digits {fuel : ℕ} (h : n ≤ fuel) : ofBits (digits fuel n) = n := by
  induction fuel generalizing n with
  | zero => rw [Nat.le_zero.mp h]; rfl
  | succ fuel ih =>
    rw [digits]
    split_ifs with hpos
    · have hcons : ofBits (decide (n % 2 = 1)::digits fuel (n / 2)) =
          (decide (n % 2 = 1)).toNat + 2 * ofBits (digits fuel (n / 2)) := rfl
      rw [hcons,ih (by omega)]
      rcases Nat.mod_two_eq_zero_or_one n with h | h <;> simp [h] <;> omega
    · rw [Nat.eq_zero_of_not_pos hpos]; rfl

theorem length_digits_le {fuel : ℕ} (h : n < 2 ^ k) : (digits fuel n).length ≤ k := by
  induction fuel generalizing n k with
  | zero => exact Nat.zero_le _
  | succ fuel ih =>
    rw [digits]
    split_ifs with hpos
    · cases k with
      | zero => rw [Nat.pow_zero] at h; omega
      | succ k =>
        rw [Nat.pow_succ] at h
        exact Nat.succ_le_succ (ih (by omega))
    · exact Nat.zero_le _

/-- A number that fits gets exactly the digits asked for. -/
theorem length_decTobitstring (h : n < 2 ^ k) : (decTobitstring n k).length = k := by
  have : (digits n n).length ≤ k := length_digits_le h
  simp [decTobitstring]
  omega

theorem lt_of_length_decTobitstring {z : ℤ} (h : (decTobitstring z k).length = k) :
    z.toNat < 2 ^ k := by
  have hlen : (digits z.toNat z.toNat).length ≤ k := by
    simp [decTobitstring] at h
    omega
  calc z.toNat = ofBits (digits z.toNat z.toNat) := (ofBits_digits le_rfl).symm
    _ < 2 ^ (digits z.toNat z.toNat).length := ofBits_lt _
    _ ≤ 2 ^ k := Nat.pow_le_pow_right (by decide) hlen

theorem le_length_decTobitstring (n : ℤ) (k : ℕ) : k ≤ (decTobitstring n k).length := by
  simp [decTobitstring]
  omega

theorem strToDec_eq (h : k ≤ s.length) : strToDec s k = .ok (ofBits (s.reverse.take k)) := by
  induction k with
  | zero => rfl
  | succ k ih =>
    have hk : k < s.reverse.length := by rw [List.length_reverse]; exact h
    have hprev := ih (Nat.le_of_succ_le h)
    rw [strToDec] at hprev ⊢
    rw [List.range_succ,List.foldlM_append,hprev,List.take_succ_eq_append_getElem hk,ofBits_concat,
      List.length_take_of_le hk.le]
    simp only [List.foldlM_cons,List.foldlM_nil,List.getElem?_eq_getElem hk]
    cases s.reverse[k] <;> simp [Nat.one_shiftLeft] <;> rfl

theorem strToDec_lt (h : strToDec s k = .ok n) (hs : k ≤ s.length) : n < 2 ^ k := by
  rw [strToDec_eq hs] at h
  obtain rfl := Except.ok.inj h
  refine (ofBits_lt _).trans_eq ?_
  rw [List.length_take_of_le (by simpa using hs)]

/-- What is written is read back. -/
theorem strToDec_decTobitstring (h : n < 2 ^ k) : strToDec (decTobitstring n k) k = .ok n := by
  have hlen := length_decTobitstring h
  rw [strToDec_eq hlen.ge,decTobitstring,List.reverse_reverse]
  rw [decTobitstring,List.length_reverse] at hlen
  rw [List.take_of_length_le hlen.le,ofBits_append_zeros]
  exact congrArg _ (ofBits_digits le_rfl)

theorem scan_eq {sync w : List Bool} {fuel t i : ℕ} (hi : i ≤ t) (hf : t < i + fuel)
    (hlt : t < w.length) (hmiss : ∀ j < t, (w.drop j).take sync.length ≠ sync)
    (hhit : (w.drop t).take sync.length = sync) : scan sync w fuel i = t := by
  induction fuel generalizing i with
  | zero => omega
  | succ fuel ih =>
    rw [scan,if_pos (by omega)]
    rcases eq_or_lt_of_le hi with rfl | hlt'
    · rw [if_pos hhit]
    · rw [if_neg (hmiss i hlt'),ih hlt' (by omega)]

/-- After an idle channel, the end of the preamble is found where it was put, whatever
follows. -/
theorem scan_preamble (preamble sync : List Bool) (t k : ℕ) (rest : List Bool)
    (hfit : t + (true::sync).length ≤ preamble.length)
    (hmiss : ∀ m < t, (preamble.drop m).take (true::sync).length ≠ true::sync)
    (hhit : (preamble.drop t).take (true::sync).length = true::sync) :
    scan (true::sync) (zeros k ++ (preamble ++ rest)) (zeros k ++ (preamble ++ rest)).length 0 =
      k + t := by
  have hin (m : ℕ) (hm : m ≤ t) : ((zeros k ++ (preamble ++ rest)).drop (k + m)).take
      (true::sync).length = (preamble.drop m).take (true::sync).length := by
    have hdrop : (zeros k ++ (preamble ++ rest)).drop (k + m) = preamble.drop m ++ rest := by
      rw [List.drop_append,List.drop_eq_nil_of_le (by simp),length_zeros,Nat.add_sub_cancel_left,
        List.nil_append,List.drop_append_of_le_length (by omega)]
    rw [hdrop,List.take_append_of_le_length (by rw [List.length_drop]; omega)]
  have hlen : t < preamble.length := by simp at hfit; omega
  refine scan_eq (Nat.zero_le _) ?_ ?_ ?_ ?_
  · simp; omega
  · simp; omega
  · intro j hj
    by_cases hk : j < k
    · have hzero : (zeros k ++ (preamble ++ rest))[j]? = some false := by
        rw [List.getElem?_append_left (by simpa using hk),zeros,List.getElem?_replicate,if_pos hk]
      rw [List.drop_eq_getElem_cons (by simp; omega)]
      intro he
      rw [List.getElem?_eq_getElem (by simp; omega)] at hzero
      rw [List.length_cons,List.take_succ_cons,Option.some.inj hzero] at he
      cases he
    · obtain ⟨m,rfl⟩ := Nat.exists_eq_add_of_le (not_lt.mp hk)
      rw [hin m (by omega)]
      exact hmiss m (by omega)
  · rw [hin t le_rfl]
    exact hhit

end ResumePointers.Networks
