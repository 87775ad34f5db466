import ResumePointers.Networks.Bits
import Mathlib.Data.Finset.Card

/-! The second lab: error correction of a coded frame, and the frame on the channel
(`networks_lab2/generator.py`, `networks_lab2/recording.py`). -/
namespace ResumePointers.Networks.Lab2

/-- `mod2div(message, GENERATOR) == "0" * (len(GENERATOR) - 1)`. -/
def divides (message : List Bool) : Except Failure Bool := do
  pure (decide ((← mod2div message GENERATOR) = zeros (GENERATOR.length - 1)))

/-- `message[:-len(GENERATOR) + 1]`. -/
def strip (message : List Bool) : List Bool :=
  message.take (message.length - (GENERATOR.length - 1))

/-- The first loop of `error_correction`, over the positions left. -/
def correctOne (error_message : List Bool) :
    List ℕ → Except Failure (Option (List Bool × List ℕ))
  | [] => pure none
  | i::positions => do
    let message := bitflip error_message i
    if ← divides message then pure (some (strip message,[i]))
    else correctOne error_message positions

/-- The inner loop over `j` of the second one. -/
def correctSecond (error_message : List Bool) (i : ℕ) :
    List ℕ → Except Failure (Option (List Bool × List ℕ))
  | [] => pure none
  | j::positions => do
    let message := bitflip (bitflip error_message i) j
    if ← divides message then pure (some (strip message,[i,j]))
    else correctSecond error_message i positions

def correctTwo (error_message : List Bool) :
    List ℕ → Except Failure (Option (List Bool × List ℕ))
  | [] => pure none
  | i::positions => do
    match ← correctSecond error_message i
      (List.range' (i + 1) (error_message.length - (i + 1))) with
    | some r => pure (some r)
    | none => correctTwo error_message positions

/-- `error_correction`; the function may end without a `return`, and the positions may be
`None`. -/
def error_correction (error_message : List Bool) :
    Except Failure (Option (List Bool × Option (List ℕ))) := do
  if ← divides error_message then pure (some (error_message,none))
  else
    match ← correctOne error_message (List.range error_message.length) with
    | some (message,positions) => pure (some (message,some positions))
    | none =>
      match ← correctTwo error_message (List.range error_message.length) with
      | some (message,positions) => pure (some (message,some positions))
      | none => pure none

/-- The generator without its first bit, which `mod2div` never uses. -/
def feedback : List Bool := GENERATOR.tail

/-- What a flip at distance `k` from the end of a frame adds to the remainder; distance 31 is
used for no flip at all. -/
def term (k : ℕ) : List Bool := if k < 31 then syndrome feedback k else zeros 11

/-- No flip, one flip and two flips at distances below 31. -/
def patterns : List (ℕ × ℕ) :=
  (31,31)::(List.range 32).flatMap fun j => (List.range j).map fun i => (i,j)

variable {data message : List Bool} {F : Finset ℕ} {i j k l n : ℕ}

theorem length_term (k : ℕ) : (term k).length = 11 := by
  rw [term]
  split_ifs
  · exact length_syndrome
  · exact length_zeros 11

theorem mem_patterns (hij : i < j) (hj : j ≤ 31) : (i,j) ∈ patterns := by
  simp [patterns]
  omega

/-- All errors of at most two bits leave different remainders. -/
theorem patterns_injective {p q : ℕ × ℕ} (hp : p ∈ patterns) (hq : q ∈ patterns)
    (h : xorBits (term p.1) (term p.2) = xorBits (term q.1) (term q.2)) : p = q := by
  have hd : distinct (patterns.map fun p => ofBits (xorBits (term p.1) (term p.2))) 0 = true := by
    decide +kernel
  exact List.inj_on_of_nodup_map (distinct_sound hd).1 hp hq (congrArg ofBits h)

theorem term_eq (hk : k < 31) : term k = syndrome feedback k := if_pos hk

theorem term_inj (hk : k < 31) (hl : l < 31) : term k = term l ↔ k = l := by
  refine ⟨fun h => ?_,congrArg term⟩
  have := patterns_injective (mem_patterns hk le_rfl) (mem_patterns hl le_rfl)
    (congrArg (xorBits · (term 31)) h)
  exact congrArg Prod.fst this

theorem term_ne_zeros (hk : k < 31) : term k ≠ zeros 11 := fun h => by
  have he : xorBits (term k) (term 31) = xorBits (term 31) (term 31) :=
    congrArg (xorBits · (term 31)) h
  have := patterns_injective (mem_patterns hk le_rfl) (List.mem_cons_self ..) he
  simp at this
  omega

theorem divides_eq (h : 11 < message.length) :
    divides message = .ok (decide (remainder feedback message = zeros 11)) := by
  have hd : mod2div message GENERATOR = .ok (remainder feedback message) := mod2div_eq false h
  rw [divides,hd]
  rfl

/-- The searches of `error_correction` go through the positions until the test succeeds. -/
theorem correctOne_eq (h : 11 < message.length) (positions : List ℕ) :
    correctOne message positions = .ok ((positions.find? fun i =>
      remainder feedback (bitflip message i) = zeros 11).map fun i =>
        (strip (bitflip message i),[i])) := by
  induction positions with
  | nil => rfl
  | cons i positions ih =>
    have hd : divides (bitflip message i) = _ := divides_eq (by rwa [length_bitflip])
    rw [correctOne,hd,List.find?_cons]
    cases hi : decide (remainder feedback (bitflip message i) = zeros 11) with
    | true => rfl
    | false => exact ih

theorem correctSecond_eq (h : 11 < message.length) (i : ℕ) (positions : List ℕ) :
    correctSecond message i positions = .ok ((positions.find? fun j =>
      remainder feedback (bitflip (bitflip message i) j) = zeros 11).map fun j =>
        (strip (bitflip (bitflip message i) j),[i,j])) := by
  induction positions with
  | nil => rfl
  | cons j positions ih =>
    have hd : divides (bitflip (bitflip message i) j) = _ := divides_eq (by simpa using h)
    rw [correctSecond,hd,List.find?_cons]
    cases hj : decide (remainder feedback (bitflip (bitflip message i) j) = zeros 11) with
    | true => rfl
    | false => exact ih

theorem correctTwo_eq (h : 11 < message.length) (positions : List ℕ) :
    correctTwo message positions = .ok (positions.findSome? fun i =>
      ((List.range' (i + 1) (message.length - (i + 1))).find? fun j =>
        remainder feedback (bitflip (bitflip message i) j) = zeros 11).map fun j =>
          (strip (bitflip (bitflip message i) j),[i,j])) := by
  induction positions with
  | nil => rfl
  | cons i positions ih =>
    rw [correctTwo,correctSecond_eq h,List.findSome?_cons]
    cases (List.range' (i + 1) (message.length - (i + 1))).find? fun j =>
        remainder feedback (bitflip (bitflip message i) j) = zeros 11 with
    | none => exact ih
    | some j => rfl

theorem find?_eq_some_of_unique {α : Type} {p : α → Bool} {l : List α} {a : α} (ha : a ∈ l)
    (hp : p a = true) (hu : ∀ x ∈ l, p x = true → x = a) : l.find? p = some a := by
  cases hf : l.find? p with
  | none => exact absurd hp (List.find?_eq_none.mp hf a ha)
  | some x => rw [hu x (List.mem_of_find?_eq_some hf) (List.find?_some hf)]

theorem findSome?_eq_some_of_unique {α β : Type} {f : α → Option β} {l : List α} {a : α} {r : β}
    (ha : a ∈ l) (hf : f a = some r) (hu : ∀ x ∈ l, ∀ r', f x = some r' → r' = r) :
    l.findSome? f = some r := by
  cases hs : l.findSome? f with
  | none =>
    rw [List.findSome?_eq_none_iff.mp hs a ha] at hf
    cases hf
  | some r' =>
    obtain ⟨x,hx,hr⟩ := List.exists_of_findSome?_eq_some hs
    rw [hu x hx r' hr]

theorem remainder_bitflip_term (hn : message.length ≤ 31) (hi : i < message.length) :
    remainder feedback (bitflip message i) =
      xorBits (remainder feedback message) (term (message.length - 1 - i)) := by
  rw [remainder_bitflip feedback hi,term_eq (by omega)]

/-- The flip of bit `i` makes the frame divisible if the remainder is that of the flip. -/
theorem bitflip_zeros_iff (hn : message.length ≤ 31) (hi : i < message.length) :
    remainder feedback (bitflip message i) = zeros 11 ↔
      remainder feedback message = term (message.length - 1 - i) := by
  have h := @xorBits_eq_zeros (remainder feedback message) (term (message.length - 1 - i))
    (by rw [length_remainder,length_term]; rfl)
  rw [length_term] at h
  rw [remainder_bitflip_term hn hi,h]

theorem bitflip_two_zeros_iff (hn : message.length ≤ 31) (hi : i < message.length)
    (hj : j < message.length) :
    remainder feedback (bitflip (bitflip message i) j) = zeros 11 ↔ remainder feedback message =
      xorBits (term (message.length - 1 - j)) (term (message.length - 1 - i)) := by
  have hlen : (remainder feedback message).length = 11 := length_remainder
  rw [bitflip_zeros_iff (by rwa [length_bitflip]) (by rwa [length_bitflip]),length_bitflip,
    remainder_bitflip_term hn hi]
  constructor
  · intro h
    rw [← h,xorBits_assoc,xorBits_self,length_term,xorBits_zeros hlen.le]
  · intro h
    rw [h,xorBits_assoc,xorBits_self,length_term,xorBits_zeros (length_term _).le]

theorem term_pair_inj {k' l' : ℕ} (hkl : k < l) (hl : l ≤ 31) (hkl' : k' < l') (hl' : l' ≤ 31)
    (h : xorBits (term k) (term l) = xorBits (term k') (term l')) : k = k' ∧ l = l' :=
  Prod.mk.inj (patterns_injective (mem_patterns hkl hl) (mem_patterns hkl' hl') h)

theorem xorBits_none (k : ℕ) : xorBits (term k) (term 31) = term k :=
  xorBits_zeros (length_term k).le

/-- A coded frame with one flipped bit is put right. -/
theorem error_correction_one (hc : remainder feedback message = zeros 11)
    (hlen : 11 < message.length) (hn : message.length ≤ 31) (hi : i < message.length) :
    error_correction (bitflip message i) = .ok (some (strip message,some [i])) := by
  have hlen' : 11 < (bitflip message i).length := by rwa [length_bitflip]
  have hn' : (bitflip message i).length ≤ 31 := by rwa [length_bitflip]
  have hrem : remainder feedback (bitflip message i) = term (message.length - 1 - i) := by
    rw [remainder_bitflip_term hn hi,hc,zeros_xorBits (length_term _).le]
  have hfind : (List.range (bitflip message i).length).find? (fun j =>
      remainder feedback (bitflip (bitflip message i) j) = zeros 11) = some i := by
    refine find?_eq_some_of_unique (by simpa using hi) (by simpa using hc) fun j hj hz => ?_
    have hj' := List.mem_range.mp hj
    have hz' := (bitflip_zeros_iff hn' hj').mp (of_decide_eq_true hz)
    rw [length_bitflip] at hj' hz'
    rw [hrem,term_inj (by omega) (by omega)] at hz'
    omega
  have hnz : decide (remainder feedback (bitflip message i) = zeros 11) = false :=
    decide_eq_false fun hz => term_ne_zeros (by omega) (hrem.symm.trans hz)
  rw [error_correction,divides_eq hlen',hnz,correctOne_eq hlen',hfind,Option.map_some,
    bitflip_bitflip]
  rfl

/-- A coded frame with two flipped bits is put right. -/
theorem error_correction_two (hc : remainder feedback message = zeros 11)
    (hlen : 11 < message.length) (hn : message.length ≤ 31) (hij : i < j)
    (hj : j < message.length) : error_correction (bitflip (bitflip message i) j) =
      .ok (some (strip message,some [i,j])) := by
  have hi := hij.trans hj
  have hback := @bitflip_two_zeros_iff (bitflip (bitflip message i) j) j i
  have hrem : remainder feedback (bitflip (bitflip message i) j) =
      xorBits (term (message.length - 1 - j)) (term (message.length - 1 - i)) := by
    rw [xorBits_comm]
    simpa [hc,hn,hi,hj] using hback
  have hlen' : 11 < (bitflip (bitflip message i) j).length := by simpa using hlen
  have hn' : (bitflip (bitflip message i) j).length ≤ 31 := by simpa using hn
  have hnz : decide (remainder feedback (bitflip (bitflip message i) j) = zeros 11) = false := by
    refine decide_eq_false fun hz => ?_
    have hz' := (bitflip_zeros_iff (by rwa [length_bitflip]) (by rwa [length_bitflip])).mp hz
    rw [remainder_bitflip_term hn hi,hc,zeros_xorBits (length_term _).le,length_bitflip,
      term_inj (by omega) (by omega)] at hz'
    omega
  have hone : (List.range (bitflip (bitflip message i) j).length).find? (fun x =>
      remainder feedback (bitflip (bitflip (bitflip message i) j) x) = zeros 11) = none := by
    refine List.find?_eq_none.mpr fun x hx hz => ?_
    have hx' := List.mem_range.mp hx
    have hz' := (bitflip_zeros_iff hn' hx').mp (of_decide_eq_true hz)
    simp only [length_bitflip] at hx' hz'
    rw [hrem,← xorBits_none (message.length - 1 - x)] at hz'
    have := term_pair_inj (by omega) (by omega) (by omega) le_rfl hz'
    omega
  -- of the pairs only the two flipped positions pass the test
  have hpair (x y : ℕ) (hxy : x < y) (hy : y < message.length) : remainder feedback
      (bitflip (bitflip (bitflip (bitflip message i) j) x) y) = zeros 11 ↔ x = i ∧ y = j := by
    rw [bitflip_two_zeros_iff hn' (by simp; omega) (by simpa using hy),hrem]
    simp only [length_bitflip]
    constructor
    · intro h
      have := term_pair_inj (by omega) (by omega) (by omega) (by omega) h
      omega
    · rintro ⟨rfl,rfl⟩
      rfl
  have hsecond : (List.range' (i + 1) ((bitflip (bitflip message i) j).length - (i + 1))).find?
      (fun y => remainder feedback (bitflip (bitflip (bitflip (bitflip message i) j) i) y) =
        zeros 11) = some j := by
    refine find?_eq_some_of_unique ?_ (decide_eq_true ((hpair i j hij hj).mpr ⟨rfl,rfl⟩))
      fun y hy hz => ?_
    · rw [List.mem_range'_1,length_bitflip,length_bitflip]
      omega
    · rw [List.mem_range'_1,length_bitflip,length_bitflip] at hy
      exact ((hpair i y (by omega) (by omega)).mp (of_decide_eq_true hz)).2
  have htwo : correctTwo (bitflip (bitflip message i) j)
      (List.range (bitflip (bitflip message i) j).length) =
        .ok (some (strip message,[i,j])) := by
    rw [correctTwo_eq hlen']
    refine congrArg _ (findSome?_eq_some_of_unique (a := i) (by simpa using hi) ?_ ?_)
    · rw [hsecond,Option.map_some,bitflip_comm _ j,bitflip_bitflip,bitflip_bitflip]
    · intro x hx r hr
      obtain ⟨y,hy,rfl⟩ := Option.map_eq_some_iff.mp hr
      have hxy := List.mem_of_find?_eq_some hy
      rw [List.mem_range'_1,length_bitflip,length_bitflip] at hxy
      have hzero := List.find?_some hy
      rw [decide_eq_true_eq,hpair x y (by omega) (by omega)] at hzero
      obtain ⟨rfl,rfl⟩ := hzero
      rw [bitflip_comm _ y,bitflip_bitflip,bitflip_bitflip]
  rw [error_correction,divides_eq hlen',hnz,correctOne_eq hlen',hone]
  dsimp only [pure,bind,Except.pure,Except.bind,Option.map_none]
  rw [htwo]
  rfl

/-- The frame with the bits at the positions in `F` flipped. -/
def flipped (F : Finset ℕ) (message : List Bool) : List Bool :=
  message.mapIdx fun i bit => bit ^^ decide (i ∈ F)

theorem flipped_empty (message : List Bool) : flipped ∅ message = message := by
  refine List.ext_getElem? fun k => ?_
  simp [flipped]

theorem flipped_insert (hi : i ∉ F) (message : List Bool) :
    flipped (insert i F) message = bitflip (flipped F message) i := by
  rw [bitflip_eq_modify]
  refine List.ext_getElem? fun k => ?_
  rw [List.getElem?_modify,flipped,flipped,List.getElem?_mapIdx,List.getElem?_mapIdx]
  by_cases hk : i = k
  · subst hk
    cases message[i]? <;> simp [hi]
  · have : ¬ k = i := fun h => hk h.symm
    simp [hk,this]

theorem coded_spec {coded : List Bool} (hd : data ≠ [])
    (he : encode_data data GENERATOR = .ok coded) : remainder feedback coded = zeros 11 ∧
      strip coded = data ∧ coded.length = data.length + 11 := by
  have henc : encode_data data GENERATOR =
      .ok (data ++ remainder feedback (data ++ zeros 11)) := encode_data_eq false hd
  have hlen : (remainder feedback (data ++ zeros 11)).length = 11 := length_remainder
  obtain rfl := Except.ok.inj (henc.symm.trans he)
  have hlength : (data ++ remainder feedback (data ++ zeros 11)).length = data.length + 11 := by
    rw [List.length_append,hlen]
  refine ⟨remainder_check feedback data,?_,hlength⟩
  rw [strip,hlength]
  exact List.take_left' rfl

/-- `error_correction` gives back the data and the flipped positions, unless no bit was
flipped. -/
theorem error_correction_iff {coded : List Bool} (hd : data ≠ [])
    (he : encode_data data GENERATOR = .ok coded) (hn : coded.length ≤ 31)
    (hF : F ⊆ Finset.range coded.length) (hcard : F.card ≤ 2) :
    (∃ positions, error_correction (flipped F coded) = .ok (some (data,positions)) ∧
      (positions.getD []).toFinset = F) ↔ F.Nonempty := by
  obtain ⟨hc,hstrip,hlen⟩ := coded_spec hd he
  have hlen' : 11 < coded.length := by have := List.length_pos_iff.mpr hd; omega
  constructor
  · rintro ⟨positions,h,-⟩
    by_contra hempty
    rw [Finset.not_nonempty_iff_eq_empty.mp hempty,flipped_empty,error_correction,
      divides_eq hlen',hc] at h
    have heq : coded = data := (Prod.mk.inj (Option.some.inj (Except.ok.inj h))).1
    have := congrArg List.length heq
    omega
  · intro hne
    have hpos := Finset.card_pos.mpr hne
    obtain hone | htwo : F.card = 1 ∨ F.card = 2 := by omega
    · obtain ⟨i,rfl⟩ := Finset.card_eq_one.mp hone
      have hi := Finset.mem_range.mp (hF (Finset.mem_singleton_self i))
      refine ⟨some [i],?_,by simp⟩
      rw [← insert_empty_eq i,flipped_insert (Finset.notMem_empty i),flipped_empty,
        error_correction_one hc hlen' hn hi,hstrip]
    · obtain ⟨i,j,hij,rfl⟩ : ∃ i j, i < j ∧ F = {i,j} := by
        obtain ⟨i,j,hdiff,rfl⟩ := Finset.card_eq_two.mp htwo
        rcases lt_or_gt_of_ne hdiff with h | h
        · exact ⟨i,j,h,rfl⟩
        · exact ⟨j,i,h,Finset.pair_comm i j⟩
      have hj := Finset.mem_range.mp (hF (by simp : j ∈ _))
      refine ⟨some [i,j],?_,by simp⟩
      rw [flipped_insert (by simp [hij.ne]),← insert_empty_eq j,
        flipped_insert (Finset.notMem_empty j),flipped_empty,bitflip_comm,
        error_correction_two hc hlen' hn hij hj,hstrip]

/-- The frame of the data 1, with its first bit and its last bit flipped. -/
theorem error_correction_iff_one :
    (∃ positions, error_correction (flipped {0,11}
        [true,true,false,true,true,true,false,true,false,true,true,true]) =
          .ok (some ([true],positions)) ∧ (positions.getD []).toFinset = {0,11}) ↔
      ({0,11} : Finset ℕ).Nonempty :=
  error_correction_iff (by decide) rfl (by decide) (by decide) (by decide)

/-- Without a flip the check bits stay on, and no positions are given. -/
theorem error_correction_no_flip :
    ∃ coded, encode_data [true] GENERATOR = .ok coded ∧ coded.length ≤ 31 ∧
      error_correction (flipped ∅ coded) = .ok (some (coded,none)) ∧
      ¬ ∃ positions, error_correction (flipped ∅ coded) = .ok (some ([true],positions)) ∧
        (positions.getD []).toFinset = ∅ := by
  refine ⟨[true,true,false,true,true,true,false,true,false,true,true,true],rfl,by decide,rfl,?_⟩
  rintro ⟨positions,h,-⟩
  have heq := (Prod.mk.inj (Option.some.inj (Except.ok.inj h))).1
  exact absurd heq (by decide)

/-- 101010101010101011. -/
def PREAMBLE : List Bool :=
  [true,false,true,false,true,false,true,false,true,false,true,false,true,false,true,false,
    true,true]

def addPreamble (bitstring : List Bool) : List Bool :=
  PREAMBLE ++ decTobitstring bitstring.length 5 ++ bitstring

/-- What the receiver takes for the coded message, `error_message`. -/
def receive (received_message : List Bool) : Except Failure (List Bool) := do
  let i := scan [true,false,true,false,true,true] received_message received_message.length 0
  let lenBits := (received_message.drop (i + 6)).take 5
  let lengthOfMessage ← strToDec lenBits 5
  pure ((received_message.drop (i + 11)).take lengthOfMessage)

theorem drop_preamble (k n : ℕ) (rest : List Bool) :
    (zeros k ++ (PREAMBLE ++ rest)).drop (k + (18 + n)) = rest.drop n := by
  have h := @List.drop_length_add_append _ (zeros k) (PREAMBLE ++ rest) (18 + n)
  rw [length_zeros] at h
  exact h.trans (@List.drop_length_add_append _ PREAMBLE rest n)

theorem receive_eq (k : ℕ) (rest : List Bool) :
    receive (zeros k ++ (PREAMBLE ++ rest)) =
      strToDec (rest.take 5) 5 >>= fun n => pure ((rest.drop 5).take n) := by
  have hscan := scan_preamble PREAMBLE [false,true,false,true,true] 12 k rest (by decide)
    (by decide) (by decide)
  rw [receive,hscan,Nat.add_assoc,Nat.add_assoc,drop_preamble k 0,drop_preamble k 5,List.drop_zero]

/-- A frame on an idle channel is received as it was sent, if its length fits in five bits. -/
theorem receive_iff (k : ℕ) (coded rest : List Bool) :
    receive (zeros k ++ addPreamble coded ++ rest) = .ok coded ↔ coded.length ≤ 31 := by
  rw [addPreamble,List.append_assoc,List.append_assoc,List.append_assoc,receive_eq]
  have hfield := le_length_decTobitstring coded.length 5
  constructor
  · intro h
    have hlen : ((decTobitstring coded.length 5 ++ (coded ++ rest)).take 5).length = 5 :=
      List.length_take_of_le (by rw [List.length_append]; omega)
    cases hn : strToDec ((decTobitstring coded.length 5 ++ (coded ++ rest)).take 5) 5 with
    | error e => rw [hn] at h; cases h
    | ok n =>
      rw [hn] at h
      have hlt := strToDec_lt hn hlen.ge
      have := congrArg List.length (Except.ok.inj h)
      rw [List.length_take] at this
      omega
  · intro h
    have hlen : (decTobitstring coded.length 5).length = 5 :=
      length_decTobitstring (Nat.lt_succ_of_le h)
    rw [List.take_left' hlen,List.drop_left' hlen,
      strToDec_decTobitstring (show coded.length < 2 ^ 5 from Nat.lt_succ_of_le h)]
    exact congrArg Except.ok (List.take_left' rfl)

/-- The coded message of 21 data bits, with its first bit flipped, is read as 16 bits. -/
theorem receive_long : ∃ coded, encode_data (zeros 21) GENERATOR = .ok coded ∧
    receive (zeros 2 ++ addPreamble (bitflip coded 0)) =
      .ok ([false,true] ++ zeros 14) ∧
    receive (zeros 2 ++ addPreamble (bitflip coded 0)) ≠ .ok (bitflip coded 0) :=
  ⟨zeros 32,rfl,rfl,by decide⟩

end ResumePointers.Networks.Lab2
