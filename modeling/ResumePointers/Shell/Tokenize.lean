import Mathlib.Data.List.Basic

/-! The tokenizer of the shell (`os/my_shell.c`), with the sizes of its buffers. A piece that no
delimiter ends is dropped. -/
namespace ResumePointers.Shell

def MAX_INPUT_SIZE : ℕ := 1024
def MAX_TOKEN_SIZE : ℕ := 64
def MAX_NUM_TOKENS : ℕ := 64

abbrev Token := List Char

/-- The loop over the characters of a line, with `token` in the buffer and `tokens` found so far;
`none` is a store behind the end of the buffer or of the array. -/
def tokenizeLoop (delim : Char → Bool) : List Char → Token → List Token → Option (List Token)
  | [], _, tokens => if tokens.length < MAX_NUM_TOKENS then some tokens else none
  | c::cs, token, tokens =>
    if token.length < MAX_TOKEN_SIZE then
      if delim c then
        if token = [] then tokenizeLoop delim cs [] tokens
        else if tokens.length < MAX_NUM_TOKENS then tokenizeLoop delim cs [] (tokens ++ [token])
        else none
      else tokenizeLoop delim cs (token ++ [c]) tokens
    else none

def blank (c : Char) : Bool := c == ' ' || c == '\n' || c == '\t'

def tokenize (line : List Char) : Option (List Token) := tokenizeLoop blank line [] []

def tokenizeForAmpersand (line : List Char) : Option (List Token) :=
  tokenizeLoop (fun c => c == '&' || c == '\n' || c == '\t') line [] []

/-- The words of a line: the nonempty pieces between blanks. -/
def words (line : List Char) : List Token := (line.splitOnP blank).filter (· ≠ [])

variable {delim : Char → Bool} {line cs : List Char} {token : Token} {tokens : List Token}

/-- The tokenizer finds the pieces that a delimiter ends. -/
theorem tokenizeLoop_eq
    (hsize : ∀ t ∈ cs.splitOnPPrepend delim token.reverse, t.length < MAX_TOKEN_SIZE)
    (hnum : tokens.length + ((cs.splitOnPPrepend delim token.reverse).dropLast.filter
      (· ≠ [])).length < MAX_NUM_TOKENS) :
    tokenizeLoop delim cs token tokens =
      some (tokens ++ (cs.splitOnPPrepend delim token.reverse).dropLast.filter (· ≠ [])) := by
  induction cs generalizing token tokens with
  | nil =>
    rw [tokenizeLoop,if_pos (by omega)]
    simp
  | cons c cs ih =>
    rw [List.splitOnPPrepend_cons_eq_if] at hsize hnum ⊢
    rw [tokenizeLoop]
    by_cases hd : delim c = true
    · rw [if_pos hd,List.reverse_reverse] at hsize hnum ⊢
      have hne : cs.splitOnP delim ≠ [] := List.splitOnP_ne_nil delim cs
      have htok : token.length < MAX_TOKEN_SIZE := hsize token (List.mem_cons_self ..)
      rw [if_pos htok,if_pos hd]
      rw [List.dropLast_cons_of_ne_nil hne,List.filter_cons] at hnum ⊢
      have hrest := fun tokens => @ih [] tokens fun t ht =>
        hsize t (List.mem_cons_of_mem _ ht)
      simp only [List.reverse_nil,List.splitOnPPrepend_nil_right] at hrest
      by_cases hnil : token = []
      · rw [if_pos hnil]
        simp only [hnil,ne_eq,not_true_eq_false,decide_false,Bool.false_eq_true,if_false] at hnum ⊢
        exact hrest tokens hnum
      · have hyes : decide (token ≠ []) = true := decide_eq_true hnil
        rw [if_pos hyes,List.length_cons] at hnum
        rw [if_neg hnil,if_pos (by omega),if_pos hyes,
          hrest (tokens ++ [token]) (by rw [List.length_append,List.length_singleton]; omega),
          List.append_assoc]
        rfl
    · rw [if_neg hd] at hsize hnum ⊢
      have hrev : (token ++ [c]).reverse = c::token.reverse := by simp
      have hlong : (token ++ [c]).length < MAX_TOKEN_SIZE := by
        rw [List.splitOnPPrepend_eq_modifyHead] at hsize
        obtain ⟨p,ps,hp⟩ := List.exists_cons_of_ne_nil (List.splitOnP_ne_nil delim cs)
        rw [hp,List.modifyHead_cons] at hsize
        have := hsize _ (List.mem_cons_self ..)
        simp only [List.length_append,List.length_reverse,List.length_cons,List.length_nil] at this ⊢
        omega
      rw [List.length_append,List.length_singleton] at hlong
      rw [if_pos (by omega),if_neg hd,ih (hrev ▸ hsize) (hrev ▸ hnum),hrev]

/-- A line that ends in a newline is cut into its words. -/
theorem tokenize_line (hsize : ∀ t ∈ words line, t.length < MAX_TOKEN_SIZE)
    (hnum : (words line).length < MAX_NUM_TOKENS) : tokenize (line ++ ['\n']) = some (words line) := by
  have hsplit : (line ++ ['\n']).splitOnPPrepend blank [] = line.splitOnP blank ++ [[]] := by
    rw [List.splitOnPPrepend_nil_right,List.splitOnP_append_cons line [] (by decide)]
    rfl
  have hwords : ((line ++ ['\n']).splitOnPPrepend blank []).dropLast.filter (· ≠ []) =
      words line := by
    rw [hsplit,List.dropLast_concat,words]
  have hloop := @tokenizeLoop_eq blank (line ++ ['\n']) [] []
    (fun t ht => ?_) (by rw [List.reverse_nil,hwords]; simpa using hnum)
  · rw [List.reverse_nil,hwords] at hloop
    exact hloop
  · rw [List.reverse_nil,hsplit,List.mem_append,List.mem_singleton] at ht
    rcases ht with ht | rfl
    · by_cases hnil : t = []
      · rw [hnil]; decide
      · exact hsize t (List.mem_filter.mpr ⟨ht,decide_eq_true hnil⟩)
    · decide

end ResumePointers.Shell
