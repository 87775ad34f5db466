import ResumePointers.Shell.Tokenize

/-! Which strings the two tokenizers of the shell cut into their runs of non-separators. -/
namespace ResumePointers.Shell

/-- The separators of `tokenizeForAmpersand`. -/
def separator (c : Char) : Bool := c == '&' || c == '\n' || c == '\t'

/-- The maximal runs of characters that are no separators, in order. -/
def runs (delim : Char → Bool) (line : List Char) : List Token :=
  (line.splitOnP delim).filter (· ≠ [])

/-- The line that `main` gives to the tokenizers; `none` if the newline takes the place of the
final null. -/
def lineRead (line : List Char) : Option (List Char) :=
  if line.length + 2 ≤ MAX_INPUT_SIZE then some (line ++ ['\n']) else none

/-- The runs fit into the buffers. -/
structure Fits (delim : Char → Bool) (line : List Char) : Prop where
  short : ∀ t ∈ runs delim line, t.length < MAX_TOKEN_SIZE
  few : (runs delim line).length < MAX_NUM_TOKENS

/-- The last run has a separator after it. -/
def Ended (delim : Char → Bool) (line : List Char) : Prop := ∀ c ∈ line.getLast?, delim c = true

variable {delim : Char → Bool} {line cs : List Char} {token acc : Token} {tokens ts : List Token}

/-- What a loop has found and stored when it ends. -/
theorem tokenizeLoop_some (h : tokenizeLoop delim cs token tokens = some ts) :
    ts = tokens ++ (cs.splitOnPPrepend delim token.reverse).dropLast.filter (· ≠ []) ∧
      ts.length < MAX_NUM_TOKENS ∧
      ∀ t ∈ (cs.splitOnPPrepend delim token.reverse).dropLast, t.length < MAX_TOKEN_SIZE := by
  induction cs generalizing token tokens with
  | nil =>
    rw [tokenizeLoop] at h
    split at h
    · next hnum =>
      obtain rfl := Option.some.inj h
      exact ⟨by simp,hnum,by simp⟩
    · cases h
  | cons c cs ih =>
    rw [List.splitOnPPrepend_cons_eq_if]
    rw [tokenizeLoop] at h
    split at h
    · next hsize =>
      by_cases hd : delim c = true
      · have hne : cs.splitOnP delim ≠ [] := List.splitOnP_ne_nil delim cs
        rw [if_pos hd] at h ⊢
        rw [List.dropLast_cons_of_ne_nil hne,List.reverse_reverse,List.filter_cons]
        have hrest : ∀ {tokens}, tokenizeLoop delim cs [] tokens = some ts →
            ts = tokens ++ (cs.splitOnP delim).dropLast.filter (· ≠ []) ∧
              ts.length < MAX_NUM_TOKENS ∧
              ∀ t ∈ token::(cs.splitOnP delim).dropLast, t.length < MAX_TOKEN_SIZE := fun h => by
          obtain ⟨heq,hnum,hall⟩ := ih h
          rw [List.reverse_nil,List.splitOnPPrepend_nil_right] at heq hall
          exact ⟨heq,hnum,List.forall_mem_cons.mpr ⟨hsize,hall⟩⟩
        by_cases hnil : token = []
        · rw [if_pos hnil] at h
          rw [if_neg (by simp [hnil])]
          exact hrest h
        · rw [if_neg hnil] at h
          rw [if_pos (decide_eq_true hnil)]
          split at h
          · obtain ⟨heq,hnum,hall⟩ := hrest h
            exact ⟨by rw [heq,List.append_assoc]; rfl,hnum,hall⟩
          · cases h
      · rw [if_neg hd] at h ⊢
        have hrev : (token ++ [c]).reverse = c::token.reverse := by simp
        exact hrev ▸ ih h
    · cases h

/-- Nothing is left at the end if the last character is a separator. -/
theorem getLast_pieces (delim : Char → Bool) (cs : List Char) (acc : Token) :
    (cs.splitOnPPrepend delim acc).getLast? = some [] ↔ Ended delim cs ∧ (cs = [] → acc = []) := by
  induction cs generalizing acc with
  | nil => simp [Ended]
  | cons c cs ih =>
    rw [List.splitOnPPrepend_cons_eq_if]
    have hlast : Ended delim (c::cs) ↔ Ended delim cs ∧ (cs = [] → delim c = true) := by
      cases cs <;> simp [Ended]
    by_cases hd : delim c = true
    · obtain ⟨p,ps,hp⟩ := List.exists_cons_of_ne_nil (List.splitOnP_ne_nil delim cs)
      rw [if_pos hd,hp,List.getLast?_cons_cons,← hp,← List.splitOnPPrepend_nil_right,ih,hlast]
      simp [hd]
    · rw [if_neg hd,ih,hlast]
      simp [hd]

theorem runs_eq_dropLast_iff (delim : Char → Bool) (line : List Char) :
    (line.splitOnP delim).dropLast.filter (· ≠ []) = runs delim line ↔ Ended delim line := by
  have hne : line.splitOnP delim ≠ [] := List.splitOnP_ne_nil delim line
  have hlast := getLast_pieces delim line []
  rw [List.splitOnPPrepend_nil_right,List.getLast?_eq_some_getLast hne,Option.some.injEq] at hlast
  have hruns : runs delim line = (line.splitOnP delim).dropLast.filter (· ≠ []) ++
      [(line.splitOnP delim).getLast hne].filter (· ≠ []) := by
    rw [runs,← List.filter_append,List.dropLast_append_getLast]
  rw [hruns,List.self_eq_append_right,← hlast.trans (by simp : _ ↔ Ended delim line)]
  simp

/-- The loop finds the runs, without a store behind the end of a buffer, if they fit and a
separator ends the last one, and only then. -/
theorem tokenizeLoop_iff (delim : Char → Bool) (line : List Char) :
    tokenizeLoop delim line [] [] = some (runs delim line) ↔ Ended delim line ∧ Fits delim line := by
  constructor
  · intro h
    obtain ⟨heq,hnum,hall⟩ := tokenizeLoop_some h
    rw [List.reverse_nil,List.splitOnPPrepend_nil_right] at heq hall
    rw [List.nil_append] at heq
    refine ⟨(runs_eq_dropLast_iff delim line).mp heq.symm,fun t ht => ?_,hnum⟩
    rw [heq] at ht
    exact hall t (List.mem_filter.mp ht).1
  · rintro ⟨hend,hfits⟩
    have hruns := (runs_eq_dropLast_iff delim line).mpr hend
    have hsize : ∀ t ∈ line.splitOnP delim, t.length < MAX_TOKEN_SIZE := by
      intro t ht
      by_cases hnil : t = []
      · rw [hnil]
        decide
      · exact hfits.short t (List.mem_filter.mpr ⟨ht,decide_eq_true hnil⟩)
    have hloop := @tokenizeLoop_eq delim line [] [] (by simpa using hsize)
      (by simpa [← hruns] using hfits.few)
    rw [List.reverse_nil,List.splitOnPPrepend_nil_right,hruns] at hloop
    exact hloop

theorem runs_newline (hd : delim '\n' = true) (line : List Char) :
    runs delim (line ++ ['\n']) = runs delim line := by
  rw [runs,List.splitOnP_append_cons line [] hd,List.filter_append]
  simp [runs]

theorem ended_newline (hd : delim '\n' = true) (line : List Char) : Ended delim (line ++ ['\n']) := by
  intro c hc
  rw [List.getLast?_concat,Option.mem_some_iff] at hc
  exact hc ▸ hd

/-- In a line that `main` reads the newline ends the last run. -/
theorem lineRead_iff (hd : delim '\n' = true) (line : List Char) :
    ((lineRead line).bind fun l => tokenizeLoop delim l [] []) = some (runs delim line) ↔
      line.length + 2 ≤ MAX_INPUT_SIZE ∧ Fits delim line := by
  have hruns := runs_newline hd line
  have hfits : Fits delim (line ++ ['\n']) ↔ Fits delim line :=
    ⟨fun ⟨h,h'⟩ => ⟨hruns ▸ h,hruns ▸ h'⟩,fun ⟨h,h'⟩ => ⟨hruns.symm ▸ h,hruns.symm ▸ h'⟩⟩
  have hloop := tokenizeLoop_iff delim (line ++ ['\n'])
  rw [hruns,hfits,and_iff_right (ended_newline hd line)] at hloop
  rw [lineRead]
  split
  · next hlen => rw [Option.bind_some,hloop,and_iff_right hlen]
  · next hlen => exact iff_of_false nofun fun h => hlen h.1

/-- A tokenizer returns the runs of a string, without a store behind the end of a buffer, if they
fit and a separator ends the last one, and only then. `main` puts that separator behind a line that
it reads, if there is room for it and the final null. -/
theorem tokenizers_split_iff (line : List Char) :
    (tokenize line = some (runs blank line) ↔ Ended blank line ∧ Fits blank line) ∧
    (tokenizeForAmpersand line = some (runs separator line) ↔
      Ended separator line ∧ Fits separator line) ∧
    ((lineRead line).bind tokenize = some (runs blank line) ↔
      line.length + 2 ≤ MAX_INPUT_SIZE ∧ Fits blank line) ∧
    ((lineRead line).bind tokenizeForAmpersand = some (runs separator line) ↔
      line.length + 2 ≤ MAX_INPUT_SIZE ∧ Fits separator line) :=
  ⟨tokenizeLoop_iff blank line,tokenizeLoop_iff separator line,lineRead_iff (by decide) line,
    lineRead_iff (by decide) line⟩

/-- The first command of `a&b &` is cut into no words, and a word of 64 letters is stored behind
the end of the buffer. -/
theorem last_run_is_dropped :
    lineRead "a&b &".toList = some "a&b &\n".toList ∧
    tokenize "a&b &\n".toList = some ["a&b".toList,['&']] ∧
    tokenizeForAmpersand "a&b &\n".toList = some [['a'],"b ".toList] ∧
    tokenize ['a'] = some [] ∧ runs blank ['a'] = [['a']] ∧
    (lineRead (List.replicate 64 'a')).bind tokenize = none := by
  decide +kernel

end ResumePointers.Shell
