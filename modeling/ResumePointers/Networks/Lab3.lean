import ResumePointers.Networks.Bits

/-! The frames of the third lab (`networks_lab3/generator.py`, `recording.py` and `main.py`). -/
namespace ResumePointers.Networks.Lab3

/-- 10101010101010101111. -/
def PREAMBLE : List Bool :=
  [true,false,true,false,true,false,true,false,true,false,true,false,true,false,true,false,
    true,true,true,true]

def encode_data (data : List Bool) : Except Failure (List Bool) :=
  Networks.encode_data data GENERATOR

def addPreamble (bitstring : List Bool) (senderMAC destMAC : ℤ) : List Bool :=
  PREAMBLE ++ decTobitstring (bitstring.length + 4 : ℕ) 5 ++ decTobitstring senderMAC 2 ++
    decTobitstring destMAC 2 ++ bitstring

/-- What is on the channel, one signal after another; `none` is the `x`. -/
def convertMessage (message : List Bool) : List (Option Bool) :=
  (message.flatMap fun bit => [none,some bit]) ++ [none]

def strip_and_remove_x (bitstring : List (Option Bool)) : List Bool :=
  let stripped_bitstring :=
    ((bitstring.dropWhile Option.isNone).reverse.dropWhile Option.isNone).reverse
  stripped_bitstring.filterMap id

structure Message where
  msg : List Bool
  destMAC : ℤ
deriving DecidableEq

/-- `frameGenerator` at the station `MAC`. -/
def frameGenerator (MAC : ℕ) (message : Message) : Except Failure (List Bool) := do
  let crcPlusMessage ← encode_data message.msg
  pure (addPreamble crcPlusMessage MAC message.destMAC)

structure Info where
  isMyMsg : Bool
  collision : Bool
  lenBits : List Bool
  lenMsg : ℤ
  senderMAC : List Bool
  recieverMAC : List Bool
  sentMsg : List Bool

/-- `getInfo` at the station `MAC`. -/
def getInfo (MAC : ℕ) (received_message : List (Option Bool)) : Except Failure Info := do
  let received_message := strip_and_remove_x received_message
  let i := scan [true,false,true,false,true,true,true,true] received_message
    received_message.length 0
  let lenBits := (received_message.drop (i + 8)).take 5
  let lengthOfMessage : ℤ := (← strToDec lenBits 5) - 4
  let senderMAC := (received_message.drop (i + 13)).take 2
  let receiverMAC := (received_message.drop (i + 15)).take 2
  let sentMessage := (received_message.drop (i + 17)).take lengthOfMessage.toNat
  let isMyMsg := decide ((← strToDec receiverMAC 2) = MAC)
  let collision := decide ((← mod2div sentMessage GENERATOR) ≠ zeros (GENERATOR.length - 1))
  pure ⟨isMyMsg,collision,lenBits,lengthOfMessage,senderMAC,receiverMAC,sentMessage⟩

/-- `sentMsg[:-11]`, the message without its check bits. -/
def Info.text (info : Info) : List Bool := info.sentMsg.take (info.sentMsg.length - 11)

variable {msg : List Bool} {MAC senderMAC destMAC : ℕ} {info : Info}

theorem dropWhile_isNone_filterMap (l : List (Option Bool)) :
    (l.dropWhile Option.isNone).filterMap id = l.filterMap id := by
  induction l with
  | nil => rfl
  | cons a l ih => cases a with
    | none => exact ih
    | some b => rfl

/-- Every `x` is removed, wherever it stands. -/
theorem strip_and_remove_x_eq (l : List (Option Bool)) :
    strip_and_remove_x l = l.filterMap id := by
  rw [strip_and_remove_x,List.filterMap_reverse,dropWhile_isNone_filterMap,List.filterMap_reverse,
    List.reverse_reverse,dropWhile_isNone_filterMap]

theorem strip_convertMessage (message : List Bool) :
    strip_and_remove_x (convertMessage message) = message := by
  rw [strip_and_remove_x_eq,convertMessage,List.filterMap_append]
  induction message with
  | nil => rfl
  | cons b message ih => exact congrArg (b::·) ih

/-- The fields that follow the preamble. -/
def parse (MAC : ℕ) (rest : List Bool) : Except Failure Info := do
  let lengthOfMessage : ℤ := (← strToDec (rest.take 5) 5) - 4
  let sentMessage := (rest.drop 9).take lengthOfMessage.toNat
  let isMyMsg := decide ((← strToDec ((rest.drop 7).take 2) 2) = MAC)
  let collision := decide ((← mod2div sentMessage GENERATOR) ≠ zeros (GENERATOR.length - 1))
  pure ⟨isMyMsg,collision,rest.take 5,lengthOfMessage,(rest.drop 5).take 2,(rest.drop 7).take 2,
    sentMessage⟩

theorem getInfo_eq (MAC : ℕ) (rest : List Bool) :
    getInfo MAC (convertMessage (PREAMBLE ++ rest)) = parse MAC rest := by
  have hscan := scan_preamble PREAMBLE [false,true,false,true,true,true,true] 12 0 rest
    (by decide) (by decide) (by decide)
  rw [getInfo,strip_convertMessage]
  simp only [zeros,List.replicate_zero,List.nil_append] at hscan
  rw [hscan]
  rfl

theorem frameGenerator_eq (MAC : ℕ) (destMAC : ℤ) (hm : msg ≠ []) :
    ∃ check, check.length = 11 ∧ mod2div (msg ++ check) GENERATOR = .ok (zeros 11) ∧
      frameGenerator MAC ⟨msg,destMAC⟩ = .ok (addPreamble (msg ++ check) MAC destMAC) := by
  have hlen : (remainder GENERATOR.tail (msg ++ zeros 11)).length = 11 := length_remainder
  have henc : encode_data msg = .ok (msg ++ remainder GENERATOR.tail (msg ++ zeros 11)) :=
    encode_data_eq false hm
  refine ⟨_,hlen,?_,by rw [frameGenerator,henc]; rfl⟩
  have hlt : GENERATOR.tail.length <
      (msg ++ remainder GENERATOR.tail (msg ++ zeros 11)).length := by
    have := List.length_pos_iff.mpr hm
    rw [List.length_append,hlen]
    exact Nat.lt_add_of_pos_left this
  exact (mod2div_eq false hlt).trans (congrArg _ (remainder_check ..))

/-- A frame whose length fits in five bits is parsed as it was built. -/
theorem parse_frame {coded : List Bool} (hl : coded.length ≤ 27)
    (hcrc : mod2div coded GENERATOR = .ok (zeros 11)) (hs : senderMAC < 4) (hd : destMAC < 4) :
    parse MAC (decTobitstring (coded.length + 4 : ℕ) 5 ++ decTobitstring senderMAC 2 ++
      decTobitstring destMAC 2 ++ coded) = .ok ⟨decide (destMAC = MAC),false,
        decTobitstring (coded.length + 4 : ℕ) 5,coded.length,decTobitstring senderMAC 2,
        decTobitstring destMAC 2,coded⟩ := by
  have hlen : (decTobitstring (coded.length + 4 : ℕ) 5).length = 5 :=
    length_decTobitstring (show coded.length + 4 < 2 ^ 5 by omega)
  have hsender : (decTobitstring senderMAC 2).length = 2 := length_decTobitstring hs
  have hdest : (decTobitstring destMAC 2).length = 2 := length_decTobitstring hd
  generalize hfield : decTobitstring (coded.length + 4 : ℕ) 5 = field at hlen ⊢
  have hread : strToDec field 5 = .ok (coded.length + 4) := by
    rw [← hfield]
    exact strToDec_decTobitstring (show coded.length + 4 < 2 ^ 5 by omega)
  have hdread : strToDec (decTobitstring destMAC 2) 2 = .ok destMAC :=
    strToDec_decTobitstring hd
  generalize decTobitstring senderMAC 2 = sender at hsender ⊢
  generalize decTobitstring destMAC 2 = dest at hdest hdread ⊢
  rw [List.append_assoc,List.append_assoc]
  have hskip (k : ℕ) : (field ++ (sender ++ (dest ++ coded))).drop (5 + k) =
      (sender ++ (dest ++ coded)).drop k := by
    rw [← hlen]
    exact List.drop_length_add_append k
  have h7 : (field ++ (sender ++ (dest ++ coded))).drop 7 = dest ++ coded :=
    (hskip 2).trans (List.drop_left' hsender)
  have h9 : (field ++ (sender ++ (dest ++ coded))).drop 9 = coded := by
    rw [hskip 4,← List.append_assoc]
    exact List.drop_left' (by simp [hsender,hdest])
  have hint : ((coded.length + 4 : ℕ) : ℤ) - 4 = coded.length := by omega
  rw [parse,List.take_left' hlen,hread,h7,h9,List.take_left' hdest,hskip 0,List.drop_zero,
    List.take_left' hsender]
  dsimp only [bind,Except.bind]
  rw [hint,Int.toNat_natCast,List.take_length,hdread,hcrc]
  rfl

theorem parse_length {rest : List Bool} (h : parse MAC rest = .ok info)
    (hr : 5 ≤ rest.length) : info.sentMsg.length ≤ 27 := by
  have hlen : (rest.take 5).length = 5 := List.length_take_of_le hr
  rw [parse] at h
  cases hn : strToDec (rest.take 5) 5 with
  | error e => rw [hn] at h; cases h
  | ok n =>
    have hlt := strToDec_lt hn hlen.ge
    rw [hn] at h
    cases hd : strToDec ((rest.drop 7).take 2) 2 with
    | error e => simp only [hd,bind,Except.bind] at h; cases h
    | ok d =>
      cases hc : mod2div ((rest.drop 9).take ((n : ℤ) - 4).toNat) GENERATOR with
      | error e => simp only [hd,hc,bind,Except.bind] at h; cases h
      | ok c =>
        simp only [hd,hc,bind,Except.bind] at h
        obtain rfl := Except.ok.inj h
        rw [List.length_take]
        omega

/-- The frame of a message of at most 16 bits is heard as it was sent. -/
theorem getInfo_frame {frame : List Bool} {dest : ℤ}
    (hf : frameGenerator senderMAC ⟨msg,dest⟩ = .ok frame) (hm : msg ≠ [])
    (hl : msg.length ≤ 16) (hs : senderMAC < 4) (hd : dest.toNat < 4) (MAC : ℕ) :
    ∃ info, getInfo MAC (convertMessage frame) = .ok info ∧
      (info.isMyMsg = true ↔ dest.toNat = MAC) ∧ info.collision = false ∧
      info.senderMAC = decTobitstring senderMAC 2 ∧ info.recieverMAC = decTobitstring dest 2 ∧
      info.text = msg := by
  obtain ⟨check,hcheck,hcrc,hframe⟩ := frameGenerator_eq senderMAC dest hm
  obtain rfl := Except.ok.inj (hframe.symm.trans hf)
  have hlen : (msg ++ check).length ≤ 27 := by rw [List.length_append]; omega
  have hdest : decTobitstring dest 2 = decTobitstring dest.toNat 2 := rfl
  rw [addPreamble,hdest]
  refine ⟨_,(getInfo_eq MAC _).trans (parse_frame hlen hcrc hs hd),decide_eq_true_iff,rfl,rfl,rfl,?_⟩
  rw [Info.text,List.length_append,hcheck,Nat.add_sub_cancel]
  exact List.take_left' rfl

/-- What `frameGenerator` makes of a message is heard at every station as what was sent, exactly
if the message has at most 16 bits. -/
theorem getInfo_iff (hm : msg ≠ []) (hs : senderMAC < 4) (hd : destMAC < 4) :
    (∃ frame info, frameGenerator senderMAC ⟨msg,destMAC⟩ = .ok frame ∧
      getInfo MAC (convertMessage frame) = .ok info ∧ info.collision = false ∧
      info.senderMAC = decTobitstring senderMAC 2 ∧ (info.isMyMsg = true ↔ destMAC = MAC) ∧
      info.text = msg) ↔ msg.length ≤ 16 := by
  obtain ⟨check,hcheck,hcrc,hframe⟩ := frameGenerator_eq senderMAC destMAC hm
  constructor
  · rintro ⟨frame,info,hf,hi,-,-,-,ht⟩
    obtain rfl := Except.ok.inj (hframe.symm.trans hf)
    simp only [addPreamble,List.append_assoc] at hi
    rw [getInfo_eq] at hi
    have hfield := le_length_decTobitstring ((msg ++ check).length + 4 : ℕ) 5
    have hlen := parse_length hi (by rw [List.length_append]; omega)
    have := congrArg List.length ht
    rw [Info.text,List.length_take] at this
    omega
  · intro h
    obtain ⟨info,hi,hmine,hcol,hsender,-,htext⟩ := getInfo_frame hframe hm h hs hd MAC
    exact ⟨_,info,hframe,hi,hcol,hsender,hmine,htext⟩

/-- The station 2 hears a message of three bits from the station 1. -/
theorem getInfo_iff_three :
    (∃ frame info, frameGenerator 1 ⟨[true,false,true],2⟩ = .ok frame ∧
      getInfo 2 (convertMessage frame) = .ok info ∧ info.collision = false ∧
      info.senderMAC = decTobitstring 1 2 ∧ (info.isMyMsg = true ↔ 2 = 2) ∧
      info.text = [true,false,true]) ↔ [true,false,true].length ≤ 16 :=
  @getInfo_iff [true,false,true] 2 1 2 (by decide) (by decide) (by decide)

/-- With 17 bits the length field is one bit longer than it is read, and every field after it is
read one bit too early. -/
theorem getInfo_long : ∃ frame info, frameGenerator 1 ⟨zeros 17,2⟩ = .ok frame ∧
    getInfo 2 (convertMessage frame) = .ok info ∧
    info.senderMAC = [false,false] ∧ info.isMyMsg = false ∧ info.text = [false] ∧
    ¬ (info.collision = false ∧ info.senderMAC = decTobitstring 1 2 ∧
      (info.isMyMsg = true ↔ 2 = 2) ∧ info.text = zeros 17) := by
  refine ⟨_,_,rfl,rfl,rfl,rfl,rfl,?_⟩
  rintro ⟨-,-,hmine,-⟩
  exact absurd (hmine.mpr rfl) (by decide)

end ResumePointers.Networks.Lab3
