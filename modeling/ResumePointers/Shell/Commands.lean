import ResumePointers.Shell.Tokenize
import Mathlib.Data.Int.Notation
import Mathlib.Data.List.Induction

/-! What the shell hands to `execvp` (`os/my_shell.c`). The three loops over the tokens of a line
share one shape: one array for all commands of the line, which is closed at a separator, and not
at the end of the line. -/
namespace ResumePointers.Shell

/-- An entry of `subCommands`; `malloc` leaves what was there. -/
inductive Cell
  | null
  | str (t : Token)
  | junk
deriving DecidableEq

/-- The strings before the first `NULL`; `none` is a read of what nobody has written. -/
def argv : List Cell → Option (List Token)
  | .str t::a => (t::·) <$> argv a
  | .null::_ => some []
  | _ => none

/-- `NULL` at `tokPointer` and behind it. -/
def terminate (a : List Cell) (tokPointer : ℕ) : List Cell :=
  a.take tokPointer ++ List.replicate (MAX_NUM_TOKENS - tokPointer) .null

/-- The loop over the tokens and over the end of the line, with the vectors that `execvp` gets. -/
def commands (sep : Token) : List Token → List Cell → ℕ → Option (List (List Token))
  | [], subCommands, _ => (fun v => [v]) <$> argv subCommands
  | t::ts, subCommands, tokPointer =>
    if tokPointer < MAX_NUM_TOKENS then
      if t = sep then do
        let v ← argv (terminate subCommands tokPointer)
        let vs ← commands sep ts (terminate subCommands tokPointer) 0
        some (v::vs)
      else commands sep ts (subCommands.set tokPointer (.str t)) (tokPointer + 1)
    else none

def andAnd : Token := ['&','&']
def andAndAnd : Token := ['&','&','&']
def ampersand : Token := ['&']

/-- `cmd && cmd`, one after the other. -/
def series := commands andAnd

/-- `cmd &&& cmd`, all at once. -/
def parallel := commands andAndAnd

/-- `cmd & cmd`, all but the last in the background. -/
def background := commands ampersand

/-- 0 where the last of the two separators is `&&`, and 1 where it is `&&&`. -/
def seriesOrPar (tokens : List Token) : ℤ :=
  tokens.foldl (fun r t => if t = andAnd then 0 else if t = andAndAnd then 1 else r) (-1)

/-- The last place of `apna`, or -1. -/
def findString (tokens : List Token) (apna : Token) : ℤ :=
  (tokens.zipIdx.foldl (fun r x => if x.1 = apna then (x.2 : ℤ) else r) (-1))

/-- What `main` hands to `execvp` for a line, in this order; `none` where it reads or writes
outside of its arrays, or reads what is not there. -/
def execs (junk : List Cell) (line : List Char) : Option (List (List Token)) :=
  if line.length + 2 ≤ MAX_INPUT_SIZE then do
    let tokens ← tokenize (line ++ ['\n'])
    match tokens with
    | [] => some []
    | t::ts =>
      if t = ['c','d'] then some []
      else if ts = [] ∧ ['e','x','i','t'] <+: t then some []
      else if seriesOrPar (t::ts) = 0 then series (t::ts) junk 0
      else if seriesOrPar (t::ts) = 1 then parallel (t::ts) junk 0
      else if findString (t::ts) ampersand ≠ -1 then
        if findString (t::ts) ampersand = ts.length then do
          let subCommands ← tokenizeForAmpersand (line ++ ['\n'])
          subCommands.mapM tokenize
        else background (t::ts) junk 0
      else some [t::ts]
  else none

variable {sep t : Token} {ts prev cur : List Token} {junk base : List Cell} {line : List Char}

/-- The array with the tokens of one command, behind its separator. -/
def closed (prev : List Token) : List Cell :=
  prev.map .str ++ List.replicate (MAX_NUM_TOKENS - prev.length) .null

theorem argv_map (xs : List Token) (a : List Cell) :
    argv (xs.map .str ++ a) = (xs ++ ·) <$> argv a := by
  induction xs with
  | nil => simp
  | cons x xs ih =>
    simp only [List.map_cons,List.cons_append,argv,ih,Option.map_eq_map,Option.map_map]
    rfl

theorem argv_null {n : ℕ} (h : 0 < n) : argv (List.replicate n .null) = some [] := by
  obtain ⟨m,rfl⟩ := Nat.exists_eq_succ_of_ne_zero (by omega : n ≠ 0)
  rfl

theorem argv_closed (h : prev.length < MAX_NUM_TOKENS) : argv (closed prev) = some prev := by
  rw [closed,argv_map,argv_null (by omega)]
  simp

theorem length_closed (h : prev.length ≤ MAX_NUM_TOKENS) :
    (closed prev).length = MAX_NUM_TOKENS := by
  rw [closed,List.length_append,List.length_map,List.length_replicate]
  omega

/-- Behind a shorter command the tokens of the one before are still there. -/
theorem argv_left (hcur : cur.length < MAX_NUM_TOKENS) (hprev : prev.length < MAX_NUM_TOKENS) :
    argv (cur.map .str ++ (closed prev).drop cur.length) =
      some (cur ++ prev.drop cur.length) := by
  rw [argv_map,closed,List.drop_append,← List.map_drop,argv_map,List.drop_replicate,
    argv_null (by rw [List.length_map]; omega)]
  simp

theorem terminate_eq (a : List Cell) : terminate (cur.map .str ++ a) cur.length = closed cur := by
  rw [terminate,closed,List.take_append_of_le_length (by simp),List.take_of_length_le (by simp)]

theorem set_next (hlt : cur.length < base.length) :
    (cur.map Cell.str ++ base.drop cur.length).set cur.length (.str t) =
      (cur ++ [t]).map Cell.str ++ base.drop (cur ++ [t]).length := by
  rw [List.set_append_right _ _ (by simp),List.length_map,Nat.sub_self,
    List.drop_eq_getElem_cons hlt,List.set_cons_zero]
  simp

/-- The vectors of the commands, where `prev` is the command before them: the last one has what
`prev` has left. -/
def spoil (prev : List Token) : List (List Token) → List (List Token)
  | [] => []
  | [last] => [last ++ prev.drop last.length]
  | cmd::next::cmds => cmd :: spoil cmd (next::cmds)

theorem spoil_cons {cmd : List Token} {cmds : List (List Token)} (h : cmds ≠ []) :
    spoil prev (cmd::cmds) = cmd :: spoil cmd cmds := by
  cases cmds with
  | nil => exact (h rfl).elim
  | cons next cmds => rfl

theorem length_spoil (prev : List Token) (cmds : List (List Token)) :
    (spoil prev cmds).length = cmds.length := by
  induction cmds generalizing prev with
  | nil => rfl
  | cons cmd cmds ih =>
    by_cases h : cmds = []
    · subst h; rfl
    · rw [spoil_cons h,List.length_cons,List.length_cons,ih]

/-- The loop, from a token on. Until the first separator `base` is what `malloc` left. -/
theorem commands_eq (hbase : base.length = MAX_NUM_TOKENS)
    (hor : sep ∈ ts ∨ prev.length < MAX_NUM_TOKENS ∧ base = closed prev)
    (hlen : cur.length + ts.length < MAX_NUM_TOKENS) :
    commands sep ts (cur.map .str ++ base.drop cur.length) cur.length =
      some (spoil prev (ts.splitOnPPrepend (· == sep) cur.reverse)) := by
  induction ts generalizing prev cur base with
  | nil =>
    rcases hor with hmem | ⟨hprev,rfl⟩
    · cases hmem
    · rw [commands,argv_left (by simpa using hlen) hprev]
      simp [spoil]
  | cons t ts ih =>
    rw [List.length_cons] at hlen
    rw [commands,if_pos (by omega),List.splitOnPPrepend_cons_eq_if]
    by_cases ht : t = sep
    · have hclosed : (closed cur).length = MAX_NUM_TOKENS := length_closed (by omega)
      have hrest := @ih cur [] (closed cur) hclosed (.inr ⟨by omega,rfl⟩)
        (by rw [List.length_nil]; omega)
      simp only [List.map_nil,List.nil_append,List.length_nil,List.drop_zero,List.reverse_nil,
        List.splitOnPPrepend_nil_right] at hrest
      rw [if_pos ht,if_pos (beq_iff_eq.mpr ht),terminate_eq,argv_closed (by omega),
        List.reverse_reverse,spoil_cons (List.splitOnP_ne_nil _ _)]
      simp only [bind,Option.bind_some,hrest]
    · rw [if_neg ht,if_neg (by simpa using ht),set_next (by omega)]
      have hor' : sep ∈ ts ∨ prev.length < MAX_NUM_TOKENS ∧ base = closed prev :=
        hor.imp_left fun hmem => (List.mem_cons.mp hmem).resolve_left (Ne.symm ht)
      have hrest := @ih prev (cur ++ [t]) base hbase hor'
        (by rw [List.length_append,List.length_singleton]; omega)
      rw [List.length_append,List.length_singleton] at hrest
      rw [List.length_append,List.length_singleton,hrest]
      simp

/-- One command after the other has its own tokens exactly if the last one has no fewer than the
one before it. -/
theorem spoil_eq_iff {cmds : List (List Token)} : spoil prev cmds = cmds ↔
    ∀ front p last, prev::cmds = front ++ [p,last] → p.length ≤ last.length := by
  induction cmds generalizing prev with
  | nil =>
    refine iff_of_true rfl fun front p last h => ?_
    have := congrArg List.length h
    simp at this
  | cons cmd cmds ih =>
    by_cases hnil : cmds = []
    · subst hnil
      simp only [spoil,List.cons.injEq,and_true,List.append_right_eq_self,List.drop_eq_nil_iff]
      constructor
      · intro h front p last he
        obtain ⟨rfl,rfl,rfl⟩ : front = [] ∧ prev = p ∧ cmd = last := by
          match front with
          | [] => simpa using he
          | [_] => simp at he
          | _::_::_ => simp at he
        exact h
      · exact fun h => h [] prev cmd rfl
    · rw [spoil_cons hnil,List.cons.injEq,ih]
      constructor
      · rintro ⟨-,h⟩ front p last he
        match front with
        | [] =>
          simp only [List.nil_append,List.cons.injEq] at he
          exact (hnil he.2.2).elim
        | f::front =>
          rw [List.cons_append,List.cons.injEq] at he
          exact h front p last he.2
      · exact fun h => ⟨rfl,fun front p last he => h (prev::front) p last (by rw [he]; rfl)⟩

def isSep (t : Token) : Bool := t == andAnd || t == andAndAnd || t == ampersand

/-- The commands of a line: the words between its separators. -/
def segments (line : List Char) : List (List Token) := (words line).splitOnP isSep

/-- A line that fits the buffers, with a separator between commands that are not empty. -/
structure Wellformed (line : List Char) : Prop where
  short : line.length ≤ 1022
  tokens_short : ∀ t ∈ words line, t.length < MAX_TOKEN_SIZE
  tokens_few : (words line).length < MAX_NUM_TOKENS
  separated : 2 ≤ (segments line).length
  nonempty : ∀ s ∈ segments line, s ≠ []

theorem length_splitOnP {α : Type} (p : α → Bool) (xs : List α) :
    (xs.splitOnP p).length = xs.countP p + 1 := by
  induction xs with
  | nil => simp
  | cons x xs ih =>
    rw [List.splitOnP_cons_eq_if_modifyHead,List.countP_cons]
    by_cases h : p x
    · simp [h,ih]
    · simp [h,ih]

theorem splitOnP_congr {α : Type} {p q : α → Bool} {xs : List α} (h : ∀ x ∈ xs, p x = q x) :
    xs.splitOnP p = xs.splitOnP q := by
  induction xs with
  | nil => rfl
  | cons x xs ih =>
    rw [List.splitOnP_cons_eq_if_modifyHead,List.splitOnP_cons_eq_if_modifyHead,
      h x (List.mem_cons_self ..),ih fun y hy => h y (List.mem_cons_of_mem _ hy)]

theorem of_countP_eq {α : Type} {p q : α → Bool} {xs : List α} (hpq : ∀ x, p x → q x)
    (h : xs.countP p = xs.countP q) : ∀ x ∈ xs, q x → p x := by
  induction xs with
  | nil => exact fun x hx => (List.not_mem_nil hx).elim
  | cons y ys ih =>
    have hle : ys.countP p ≤ ys.countP q := List.countP_mono_left fun x _ => hpq x
    rw [List.countP_cons,List.countP_cons] at h
    rintro x hx hq
    rcases List.mem_cons.mp hx with rfl | hx
    · by_contra hp
      rw [if_neg hp,if_pos hq] at h
      omega
    · refine ih ?_ x hx hq
      by_cases hp : p y
      · rw [if_pos hp,if_pos (hpq y hp)] at h
        omega
      · rw [if_neg hp] at h
        omega

theorem seriesOrPar_append (ts : List Token) (t : Token) : seriesOrPar (ts ++ [t]) =
    if t = andAnd then 0 else if t = andAndAnd then 1 else seriesOrPar ts := by
  simp [seriesOrPar]

theorem seriesOrPar_spec (ts : List Token) : seriesOrPar ts = 0 ∧ andAnd ∈ ts ∨
    seriesOrPar ts = 1 ∧ andAndAnd ∈ ts ∨
    seriesOrPar ts = -1 ∧ andAnd ∉ ts ∧ andAndAnd ∉ ts := by
  induction ts using List.reverseRecOn with
  | nil => exact .inr (.inr ⟨rfl,List.not_mem_nil,List.not_mem_nil⟩)
  | append_singleton ts t ih =>
    rw [seriesOrPar_append]
    by_cases ht : t = andAnd
    · exact .inl ⟨if_pos ht,by simp [ht]⟩
    · by_cases ht' : t = andAndAnd
      · exact .inr (.inl ⟨by rw [if_neg ht,if_pos ht'],by simp [ht']⟩)
      · rw [if_neg ht,if_neg ht']
        refine ih.imp (And.imp_right fun h => ?_) (Or.imp (And.imp_right fun h => ?_)
          (And.imp_right fun h => ⟨?_,?_⟩))
        · exact List.mem_append_left _ h
        · exact List.mem_append_left _ h
        · simpa [Ne.symm ht] using h.1
        · simpa [Ne.symm ht'] using h.2

theorem findString_append (ts : List Token) (t apna : Token) : findString (ts ++ [t]) apna =
    if t = apna then (ts.length : ℤ) else findString ts apna := by
  simp [findString,List.zipIdx_append]

theorem findString_spec (ts : List Token) (apna : Token) : findString ts apna = -1 ∧ apna ∉ ts ∨
    ∃ front back, ts = front ++ apna::back ∧ findString ts apna = front.length := by
  induction ts using List.reverseRecOn with
  | nil => exact .inl ⟨rfl,List.not_mem_nil⟩
  | append_singleton ts t ih =>
    rw [findString_append]
    by_cases ht : t = apna
    · exact .inr ⟨ts,[],by rw [ht],if_pos ht⟩
    · rw [if_neg ht]
      refine ih.imp (And.imp_right fun h => ?_) fun ⟨front,back,hts,h⟩ => ?_
      · simpa [Ne.symm ht] using h
      · exact ⟨front,back ++ [t],by rw [hts]; simp,h⟩

/-- `cd` runs nothing, whatever follows. -/
theorem execs_cd (h : Wellformed line) (hcd : (words line).head? = some ['c','d']) :
    execs junk line = some [] := by
  have hline : line.length + 2 ≤ MAX_INPUT_SIZE := by
    have := h.short
    rw [MAX_INPUT_SIZE]
    omega
  obtain ⟨ts,hw⟩ := List.head?_eq_some_iff.mp hcd
  rw [execs,if_pos hline,tokenize_line h.tokens_short h.tokens_few,hw]
  rfl

/-- A line of commands that is no `cd` goes to one of the three loops, by one of its separators. -/
theorem execs_eq (h : Wellformed line) (hcd : (words line).head? ≠ some ['c','d']) :
    ∃ sep ∈ words line, isSep sep ∧ execs junk line = commands sep (words line) junk 0 := by
  have hsegments : (words line).countP isSep + 1 = (segments line).length :=
    (length_splitOnP ..).symm
  have hcount : 0 < (words line).countP isSep := by have := h.separated; omega
  have hline : line.length + 2 ≤ MAX_INPUT_SIZE := by
    have := h.short
    rw [MAX_INPUT_SIZE]
    omega
  have hlast : ∀ front sep, isSep sep = true → words line ≠ front ++ [sep] := by
    intro front sep hsep hw
    refine h.nonempty [] ?_ rfl
    rw [segments,hw,List.splitOnP_append_cons front [] hsep]
    simp
  rw [execs,if_pos hline,tokenize_line h.tokens_short h.tokens_few]
  simp only [bind,Option.bind_some]
  cases hw : words line with
  | nil => rw [hw] at hcount; simp at hcount
  | cons t ts =>
    rw [hw] at hcd hlast
    have htail : ts ≠ [] := by
      rintro rfl
      rw [hw,List.countP_pos_iff] at hcount
      obtain ⟨sep,hmem,hsep⟩ := hcount
      rw [List.mem_singleton] at hmem
      exact hlast [] sep hsep (by rw [hmem]; rfl)
    simp only
    rw [if_neg (by simpa using hcd),if_neg (fun h => htail h.1)]
    rcases seriesOrPar_spec (t::ts) with ⟨hs,hmem⟩ | ⟨hs,hmem⟩ | ⟨hs,hseries,hparallel⟩
    · exact ⟨andAnd,hmem,rfl,by rw [if_pos hs]; rfl⟩
    · exact ⟨andAndAnd,hmem,rfl,by rw [if_neg (by rw [hs]; decide),if_pos hs]; rfl⟩
    · rw [if_neg (by rw [hs]; decide),if_neg (by rw [hs]; decide)]
      rcases findString_spec (t::ts) ampersand with ⟨-,hnone⟩ | ⟨front,back,hts,hf⟩
      · rw [hw,List.countP_pos_iff] at hcount
        obtain ⟨sep,hmem,hsep⟩ := hcount
        rw [isSep,Bool.or_eq_true,Bool.or_eq_true,beq_iff_eq,beq_iff_eq,beq_iff_eq] at hsep
        rcases hsep with (rfl | rfl) | rfl
        · exact (hseries hmem).elim
        · exact (hparallel hmem).elim
        · exact (hnone hmem).elim
      · have hback : back ≠ [] := by
          rintro rfl
          exact hlast front ampersand rfl hts
        have hlen := congrArg List.length hts
        rw [List.length_append,List.length_cons,List.length_cons] at hlen
        have hpos := List.length_pos_iff.mpr hback
        refine ⟨ampersand,by rw [hts]; simp,rfl,?_⟩
        rw [if_pos (by rw [hf]; omega),if_neg (by rw [hf]; omega)]
        rfl

/-- The vectors of a whole line. -/
theorem spoil_nil_eq_iff {cmds : List (List Token)} : spoil [] cmds = cmds ↔
    ∀ front p last, cmds = front ++ [p,last] → p.length ≤ last.length := by
  rw [spoil_eq_iff]
  constructor
  · exact fun h front p last he => h ([]::front) p last (by rw [he]; rfl)
  · intro h front p last he
    match front with
    | [] =>
      rw [List.nil_append,List.cons.injEq] at he
      rw [← he.1]
      exact Nat.zero_le _
    | f::front =>
      rw [List.cons_append,List.cons.injEq] at he
      exact h front p last he.2

/-- The vectors are the commands exactly if the line is no `cd`, has one kind of separator, and its
last command has no fewer words than the one before it. -/
theorem execs_iff (h : Wellformed line) (hjunk : junk.length = MAX_NUM_TOKENS) :
    execs junk line = some (segments line) ↔ (words line).head? ≠ some ['c','d'] ∧
      (∀ s ∈ words line, ∀ t ∈ words line, isSep s → isSep t → s = t) ∧
      ∀ front prev last, segments line = front ++ [prev,last] → prev.length ≤ last.length := by
  by_cases hcd : (words line).head? = some ['c','d']
  · refine iff_of_false (fun he => ?_) fun h => h.1 hcd
    rw [execs_cd h hcd,Option.some.injEq] at he
    have := h.separated
    rw [← he,List.length_nil] at this
    omega
  · obtain ⟨sep,hmem,hsep,he⟩ := @execs_eq junk line h hcd
    have hvectors : execs junk line = some (spoil [] ((words line).splitOnP (· == sep))) := by
      have := @commands_eq sep (words line) [] [] junk hjunk (.inl hmem)
        (by rw [List.length_nil,Nat.zero_add]; exact h.tokens_few)
      simpa [he] using this
    have hsplit (hsame : ∀ t ∈ words line, isSep t → t = sep) :
        (words line).splitOnP (· == sep) = segments line := by
      refine splitOnP_congr fun t ht => Bool.eq_iff_iff.mpr ⟨fun h => ?_,fun h => ?_⟩
      · rw [beq_iff_eq.mp h]; exact hsep
      · exact beq_iff_eq.mpr (hsame t ht h)
    rw [hvectors,Option.some.injEq]
    constructor
    · intro hs
      -- as many commands as segments, so no separator of another kind
      have hcount : (words line).countP (· == sep) = (words line).countP isSep := by
        have := congrArg List.length hs
        rw [length_spoil,segments,length_splitOnP,length_splitOnP] at this
        omega
      have hsame : ∀ t ∈ words line, isSep t → t = sep := fun t ht hT => beq_iff_eq.mp <|
        of_countP_eq (fun x hx => by rw [beq_iff_eq.mp hx]; exact hsep) hcount t ht hT
      rw [hsplit hsame] at hs
      exact ⟨hcd,fun s hs t ht hS hT => (hsame s hs hS).trans (hsame t ht hT).symm,
        spoil_nil_eq_iff.mp hs⟩
    · rintro ⟨-,hsame,hlast⟩
      rw [hsplit fun t ht hT => hsame t ht sep hmem hT hsep]
      exact spoil_nil_eq_iff.mpr hlast

def abLine : List Char := "a && b c".toList

theorem wellformed_ab : Wellformed abLine where
  short := by decide
  tokens_short := by decide
  tokens_few := by decide
  separated := by decide
  nonempty := by decide

theorem execs_ab : execs (List.replicate 64 .junk) abLine = some (segments abLine) :=
  (execs_iff wellformed_ab List.length_replicate).mpr
    ⟨by decide,by decide,spoil_nil_eq_iff.mp (by decide)⟩

def echoLine : List Char := "echo a b && ls".toList

/-- `ls` gets the arguments of `echo`. -/
theorem last_command_spoiled : Wellformed echoLine ∧
    execs (List.replicate 64 .junk) echoLine ≠ some (segments echoLine) := by
  refine ⟨⟨?_,?_,?_,?_,?_⟩,?_⟩ <;> decide

end ResumePointers.Shell
