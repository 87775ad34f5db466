import ResumePointers.User.Sh
import Mathlib.Data.List.Basic
import Mathlib.Logic.Function.Iterate

/-! The language of the shell's parser: a line is split into tokens, `parsecmd` accepts the lines that
the grammar derives, and returns the command of the derivation. -/
namespace ResumePointers.User.Sh

inductive Token
  | word (w : Str)
  | sym (c : Char)
deriving DecidableEq

def flush (w : Str) (ts : List Token) : List Token := if w = [] then ts else .word w::ts

/-- The tokens of a string that stands behind a part `w` of a word; `+` is for `>>`. -/
def lexFrom : Str → Str → List Token
  | w, [] => flush w []
  | w, '>':: '>'::s => flush w (.sym '+'::lexFrom [] s)
  | w, c::s =>
    if whitespace c then flush w (lexFrom [] s)
    else if symbols c then flush w (.sym c::lexFrom [] s)
    else lexFrom (w ++ [c]) s

def lex (s : Str) : List Token := lexFrom [] s

/-- What `gettoken` returns for a token, and its text. -/
def Token.kind : Token → Char
  | .word _ => 'a'
  | .sym c => c

def Token.text : Token → Str
  | .word w => w
  | .sym c => if c = '+' then ['>','>'] else [c]

/-- The first token is one of `toks`, for which `peek` looks at its first character. -/
def starts (toks : Str) : List Token → Bool
  | .sym c::_ => toks.contains (if c = '+' then '>' else c)
  | _ => false

@[simp] theorem flush_nil (ts : List Token) : flush [] ts = ts := if_pos rfl

theorem plain_iff {c : Char} : plain c = true ↔ whitespace c = false ∧ symbols c = false := by
  simp [plain]

theorem lexFrom_whitespace {c : Char} (h : whitespace c = true) (w s : Str) :
    lexFrom w (c::s) = flush w (lexFrom [] s) := by
  rw [lexFrom,if_pos h]
  rintro s rfl rfl
  exact absurd h (by decide)

theorem lexFrom_symbol {c : Char} (h : symbols c = true) {s : Str}
    (hs : ∀ s', c = '>' → s ≠ '>'::s') (w : Str) :
    lexFrom w (c::s) = flush w (.sym c::lexFrom [] s) := by
  have hw : ¬whitespace c = true := by
    have := of_decide_eq_true h
    simp only [List.mem_cons,List.not_mem_nil,or_false] at this
    rcases this with rfl | rfl | rfl | rfl | rfl | rfl | rfl <;> decide
  rw [lexFrom,if_neg hw,if_pos h]
  exact hs

theorem lexFrom_plain {c : Char} (h : plain c = true) (w s : Str) :
    lexFrom w (c::s) = lexFrom (w ++ [c]) s := by
  obtain ⟨hw,hs⟩ := plain_iff.mp h
  rw [lexFrom,if_neg (by simp [hw]),if_neg (by simp [hs])]
  rintro s rfl rfl
  exact absurd h (by decide)

theorem lex_skip (s : Str) : lex (skip s) = lex s := by
  induction s with
  | nil => rfl
  | cons c s ih =>
    by_cases h : whitespace c = true
    · rw [skip,List.dropWhile_cons_of_pos h,lex,lex,lexFrom_whitespace h]
      exact ih
    · rw [skip,List.dropWhile_cons_of_neg h]

theorem lexFrom_flush {c : Char} (h : plain c = false) (w s : Str) :
    lexFrom w (c::s) = flush w (lex (c::s)) := by
  by_cases hw : whitespace c = true
  · rw [lex,lexFrom_whitespace hw,lexFrom_whitespace hw,flush_nil]
  · have hs : symbols c = true := by simpa [plain,hw] using h
    by_cases ha : ∃ s', c = '>' ∧ s = '>'::s'
    · obtain ⟨s',rfl,rfl⟩ := ha
      simp [lex,lexFrom]
    · have ha' : ∀ s', c = '>' → s ≠ '>'::s' := fun s' h₁ h₂ => ha ⟨s',h₁,h₂⟩
      rw [lex,lexFrom_symbol hs ha',lexFrom_symbol hs ha',flush_nil]

/-- A word that is begun ends where the characters of words do. -/
theorem lexFrom_word {w : Str} (hw : w ≠ []) (s : Str) :
    lexFrom w s = .word (w ++ s.takeWhile plain)::lex (s.dropWhile plain) := by
  induction s generalizing w with
  | nil => simp [lexFrom,lex,flush,hw]
  | cons c s ih =>
    by_cases h : plain c = true
    · rw [lexFrom_plain h,ih (by simp),List.takeWhile_cons_of_pos h,List.dropWhile_cons_of_pos h]
      simp
    · rw [List.takeWhile_cons_of_neg h,List.dropWhile_cons_of_neg h,List.append_nil]
      rw [lexFrom_flush (by simpa using h),flush,if_neg hw]

/-- What `gettoken` and `peek` find where the white space is skipped. -/
theorem skip_cases (s : Str) :
    (skip s = [] ∧ lex s = []) ∨
    (∃ s', skip s = '>':: '>'::s' ∧ lex s = .sym '+'::lex s') ∨
    (∃ c s', skip s = c::s' ∧ symbols c = true ∧ (∀ s'', c = '>' → s' ≠ '>'::s'') ∧
      lex s = .sym c::lex s') ∨
    (∃ c s', skip s = c::s' ∧ plain c = true ∧
      lex s = .word ((c::s').takeWhile plain)::lex ((c::s').dropWhile plain)) := by
  rw [← lex_skip s]
  cases hs : skip s with
  | nil => exact .inl ⟨rfl,rfl⟩
  | cons c s' =>
    have hw : ¬whitespace c = true := by
      have hd : s.dropWhile whitespace = c::s' := hs
      have := List.head_dropWhile_not (l := s) whitespace (by simp [hd])
      simpa [hd] using this
    by_cases ha : ∃ s'', c = '>' ∧ s' = '>'::s''
    · obtain ⟨s'',rfl,rfl⟩ := ha
      exact .inr (.inl ⟨s'',rfl,by simp [lex,lexFrom]⟩)
    have ha' : ∀ s'', c = '>' → s' ≠ '>'::s'' := fun s'' h₁ h₂ => ha ⟨s'',h₁,h₂⟩
    by_cases hc : symbols c = true
    · exact .inr (.inr (.inl ⟨c,s',rfl,hc,ha',by rw [lex,lexFrom_symbol hc ha']; simp [lex]⟩))
    · have hp : plain c = true := by simp [plain,hw,hc]
      refine .inr (.inr (.inr ⟨c,s',rfl,hp,?_⟩))
      rw [lex,lexFrom_plain hp,lexFrom_word (by simp)]
      rw [List.takeWhile_cons_of_pos hp,List.dropWhile_cons_of_pos hp]
      rfl

theorem peek_eq (s toks : Str) (h : toks.all symbols = true) :
    peek s toks = (starts toks (lex s),skip s) := by
  obtain ⟨hs,hl⟩ | ⟨s',hs,hl⟩ | ⟨c,s',hs,hc,ha,hl⟩ | ⟨c,s',hs,hc,hl⟩ := skip_cases s
  · simp [peek,hs,hl,starts]
  · simp [peek,hs,hl,starts]
  · have : c ≠ '+' := by rintro rfl; exact absurd hc (by decide)
    simp [peek,hs,hl,starts,this]
  · have : c ∉ toks := fun hm => absurd (List.all_eq_true.mp h c hm) (by simp [(plain_iff.mp hc).2])
    simp [peek,hs,hl,starts,this]

theorem gettoken_nil {s : Str} (h : lex s = []) : gettoken s = ('\x00',[],[]) := by
  obtain ⟨hs,-⟩ | ⟨s',-,hl⟩ | ⟨c,s',-,-,-,hl⟩ | ⟨c,s',-,-,hl⟩ := skip_cases s
  · rw [gettoken,hs]
  all_goals simp [h] at hl

theorem gettoken_cons {s : Str} {t : Token} {ts : List Token} (h : lex s = t::ts) :
    ∃ s', gettoken s = (t.kind,t.text,s') ∧ lex s' = ts := by
  obtain ⟨-,hl⟩ | ⟨s',hs,hl⟩ | ⟨c,s',hs,hc,ha,hl⟩ | ⟨c,s',hs,hc,hl⟩ := skip_cases s <;>
    rw [h] at hl
  · cases hl
  · cases hl
    exact ⟨skip s',by rw [gettoken,hs]; rfl,lex_skip s'⟩
  · cases hl
    refine ⟨skip s',?_,lex_skip s'⟩
    have hp : c ≠ '+' := by rintro rfl; exact absurd hc (by decide)
    rw [gettoken,hs]
    split
    · cases ‹_ = []›
    · cases ‹_ = _›; exact absurd rfl (ha _ rfl)
    · cases ‹_ = _›; simp [hc,Token.kind,Token.text,hp]
  · cases hl
    refine ⟨_,?_,lex_skip _⟩
    have hc' : symbols c = false := (plain_iff.mp hc).2
    rw [gettoken,hs]
    split
    · cases ‹_ = []›
    · cases ‹_ = _›; exact absurd hc (by decide)
    · cases ‹_ = _›; simp [hc',Token.kind,Token.text]

/-- The tokens of a string are words and the symbols of the shell. -/
theorem sym_of_lex {s : Str} {c : Char} {ts : List Token} (h : lex s = .sym c::ts) :
    c ∈ ['<','|','>','+','&',';','(',')'] := by
  obtain ⟨-,hl⟩ | ⟨s',-,hl⟩ | ⟨c',s',-,hc,-,hl⟩ | ⟨c',s',-,-,hl⟩ := skip_cases s <;>
    rw [h] at hl <;> cases hl
  · decide
  · have := of_decide_eq_true hc
    simp only [List.mem_cons,List.not_mem_nil,or_false] at this ⊢
    tauto

/-- A mix of words and redirections, with the words and the redirections in it. -/
inductive Items : List Token → List Str → List Redir → Prop
  | nil : Items [] [] []
  | word {ts argv rs} (w : Str) : Items ts argv rs → Items (.word w::ts) (w::argv) rs
  | redir {ts argv rs} {c : Char} (hc : c ∈ ['<','>','+']) (w : Str) :
      Items ts argv rs → Items (.sym c::.word w::ts) argv (redirection c w::rs)

inductive Kind
  | line
  | pipe
  | exec

/-- The grammar of the shell. An empty command is an `exec` with no arguments. -/
inductive Derives : Kind → List Token → Cmd → Prop
  | items {ts argv rs} : Items ts argv rs → argv.length < MAXARGS →
      Derives .exec ts (rs.foldl redircmd (.exec argv))
  | block {ts us rs c} : Derives .line ts c → Items us [] rs →
      Derives .exec (.sym '('::(ts ++ .sym ')'::us)) (rs.foldl redircmd c)
  | single {ts c} : Derives .exec ts c → Derives .pipe ts c
  | pipe {ts us c d} : Derives .exec ts c → Derives .pipe us d →
      Derives .pipe (ts ++ .sym '|'::us) (.pipe c d)
  | last {ts c} (k : ℕ) : Derives .pipe ts c →
      Derives .line (ts ++ List.replicate k (.sym '&')) (Cmd.back^[k] c)
  | list {ts us c d} (k : ℕ) : Derives .pipe ts c → Derives .line us d →
      Derives .line (ts ++ List.replicate k (.sym '&') ++ .sym ';'::us) (.list (Cmd.back^[k] c) d)

/-- What the parser says before it exits. -/
def panics : List String :=
  ["missing file for redirection","syntax","too many args","syntax - missing )"]

/-- The parser has read tokens with `P`, or it has stopped with a message of its own. -/
def Reads {α : Type} (P : List Token → α → Prop) (s : Str) : Except String (α × Str) → Prop
  | .ok (a,rest) => ∃ ts, lex s = ts ++ lex rest ∧ P ts a
  | .error e => e ∈ panics

section Reads

variable {α β : Type} {P Q : List Token → α → Prop} {R : List Token → β → Prop} {s s' : Str}

theorem Reads.ok {a : α} {rest : Str} (hs : lex s = lex rest) (h : P [] a) :
    Reads P s (.ok (a,rest)) := ⟨[],by simpa using hs,h⟩

theorem Reads.bind {x : Except String (α × Str)} {f : α × Str → Except String (β × Str)}
    (h : Reads P s x)
    (hf : ∀ ts a rest, lex s = ts ++ lex rest → P ts a →
      Reads (fun us b => R (ts ++ us) b) rest (f (a,rest))) :
    Reads R s (x >>= f) := by
  rcases x with e | ⟨a,rest⟩
  · exact h
  · obtain ⟨ts,hs,ha⟩ := h
    have hr := hf ts a rest hs ha
    change Reads R s (f (a,rest))
    rcases hx : f (a,rest) with e | ⟨b,rest'⟩ <;> rw [hx] at hr
    · exact hr
    · obtain ⟨us,hs',hb⟩ := hr
      exact ⟨ts ++ us,by rw [hs,hs',List.append_assoc],hb⟩

/-- The parser has read the tokens `ts` before. -/
theorem Reads.after {x : Except String (α × Str)} (ts : List Token) (hs : lex s = ts ++ lex s')
    (h : Reads (fun us a => P (ts ++ us) a) s' x) : Reads P s x := by
  rcases x with e | ⟨a,rest⟩
  · exact h
  · obtain ⟨us,hs',ha⟩ := h
    exact ⟨ts ++ us,by rw [hs,hs',List.append_assoc],ha⟩

theorem Reads.imp {x : Except String (α × Str)} (h : Reads P s x) (hi : ∀ ts a, P ts a → Q ts a) :
    Reads Q s x := by
  rcases x with e | ⟨a,rest⟩
  · exact h
  · obtain ⟨ts,hs,ha⟩ := h
    exact ⟨ts,hs,hi ts a ha⟩

end Reads

theorem starts_iff {toks : Str} {ts : List Token} :
    starts toks ts = true ↔ ∃ c us, ts = .sym c::us ∧ (if c = '+' then '>' else c) ∈ toks := by
  rcases ts with _ | ⟨w | c,us⟩ <;> simp [starts]

/-- A token that `peek` finds among symbols is read by `gettoken`. -/
theorem exists_of_starts {toks : Str} {s : Str} (h : starts toks (lex s) = true) :
    ∃ c s', (if c = '+' then '>' else c) ∈ toks ∧ gettoken (skip s) = (c,(Token.sym c).text,s') ∧
      lex s = .sym c::lex s' := by
  obtain ⟨c,us,hl,hc⟩ := starts_iff.mp h
  obtain ⟨s',hg,hs'⟩ := gettoken_cons ((lex_skip s).trans hl)
  exact ⟨c,s',hc,hg,by rw [hl,hs']⟩

theorem exists_of_starts_one {x : Char} (hx : x ≠ '>') {s : Str} (h : starts [x] (lex s) = true) :
    ∃ s', (gettoken (skip s)).2.2 = s' ∧ lex s = .sym x::lex s' := by
  obtain ⟨c,s',hc,hg,hl⟩ := exists_of_starts h
  rw [List.mem_singleton] at hc
  split at hc
  · exact absurd hc.symm hx
  · exact ⟨s',by rw [hg],hc ▸ hl⟩

theorem redir_mem {c : Char} (h : (if c = '+' then '>' else c) ∈ ['<','>']) : c ∈ ['<','>','+'] := by
  split at h
  · simp [*]
  · simp only [List.mem_cons,List.not_mem_nil,or_false] at h ⊢
    tauto

theorem parseredirs_reads {fuel : ℕ} {s : Str} (h : (lex s).length < fuel) :
    Reads (Items · [] ·) s (parseredirs fuel s) := by
  induction fuel generalizing s with
  | zero => omega
  | succ fuel ih =>
    rw [parseredirs,peek_eq s _ (by decide)]
    by_cases hs : starts ['<','>'] (lex s) = true
    · obtain ⟨c,s₁,hc,hg,hl⟩ := exists_of_starts hs
      simp only [hs,hg,if_true]
      rcases hl₁ : lex s₁ with _ | ⟨t,ts⟩
      · simp [gettoken_nil hl₁,Reads,panics]
      obtain ⟨s₂,hg₂,hs₂⟩ := gettoken_cons hl₁
      rw [hg₂]
      rcases t with w | d
      · rw [hl,hl₁,← hs₂,List.length_cons,List.length_cons] at h
        have hw : lex s = [.sym c,.word w] ++ lex s₂ := by rw [hl,hl₁,hs₂]; rfl
        exact .after _ hw (.bind (ih (by omega)) fun us rs rest hus hr =>
          .ok rfl (by simpa using .redir (redir_mem hc) w hr))
      · have : d ≠ 'a' := by rintro rfl; exact absurd (sym_of_lex hl₁) (by decide)
        simp [Token.kind,this,Reads,panics]
    · simp only [hs]
      exact .ok (lex_skip s).symm .nil

theorem Items.append {ts us : List Token} {argv argv' : List Str} {rs rs' : List Redir}
    (h : Items ts argv rs) (h' : Items us argv' rs') :
    Items (ts ++ us) (argv ++ argv') (rs ++ rs') := by
  induction h with
  | nil => exact h'
  | word w _ ih => exact .word w ih
  | redir hc w _ ih => exact .redir hc w ih

/-- The tokens of a command whose first arguments and redirections are there already. -/
def Args (argv : List Str) (redirs : List Redir) (ts : List Token) (c : Cmd) : Prop :=
  ∃ argv' rs, Items ts argv' rs ∧ (argv ++ argv').length < MAXARGS ∧
    c = (redirs ++ rs).foldl redircmd (.exec (argv ++ argv'))

theorem parseargs_reads {fuel : ℕ} {s : Str} {argv : List Str} {redirs : List Redir}
    (h : (lex s).length < fuel) (ha : argv.length < MAXARGS) :
    Reads (Args argv redirs) s (parseargs fuel argv redirs s) := by
  induction fuel generalizing s argv redirs with
  | zero => omega
  | succ fuel ih =>
    have hend : Args argv redirs [] (redirs.foldl redircmd (.exec argv)) :=
      ⟨[],[],.nil,by simpa using ha,by simp⟩
    rw [parseargs,peek_eq s _ (by decide)]
    by_cases hs : starts ['|',')','&',';'] (lex s) = true
    · simp only [hs,if_true]
      exact .ok (lex_skip s).symm hend
    simp only [hs]
    rcases hl : lex s with _ | ⟨t,ts⟩
    · rw [gettoken_nil ((lex_skip s).trans hl)]
      exact .ok hl hend
    obtain ⟨s₁,hg,hs₁⟩ := gettoken_cons ((lex_skip s).trans hl)
    rw [hg]
    rcases t with w | d
    · by_cases hm : argv.length + 1 ≥ MAXARGS
      · simp [Token.kind,hm,Reads,panics]
      rw [hl,← hs₁,List.length_cons] at h
      have hw : lex s = [.word w] ++ lex s₁ := by rw [hl,hs₁]; rfl
      simp only [Token.kind,Token.text,hm]
      refine .after _ hw (.bind (parseredirs_reads (by omega)) fun us rs rest hus hr => ?_)
      have hlen : (lex rest).length < fuel := by
        rw [hus,List.length_append] at h
        omega
      refine .imp (ih hlen (by simp; omega)) ?_
      rintro ts c ⟨argv',rs',hi,hm',rfl⟩
      exact ⟨w::argv',rs ++ rs',by simpa using .word w (hr.append hi),by simpa using hm',by simp⟩
    · have : d ≠ 'a' ∧ d ≠ '\x00' := by
        constructor <;> rintro rfl <;> exact absurd (sym_of_lex hl) (by decide)
      simp [Token.kind,this.1,this.2,Reads,panics]

theorem parsebacks_reads {fuel : ℕ} {s : Str} {c : Cmd} (h : (lex s).length < fuel) :
    Reads (fun ts d => ∃ k, ts = .replicate k (.sym '&') ∧ d = Cmd.back^[k] c) s
      (parsebacks fuel c s) := by
  induction fuel generalizing s c with
  | zero => omega
  | succ fuel ih =>
    rw [parsebacks,peek_eq s _ (by decide)]
    by_cases hs : starts ['&'] (lex s) = true
    · obtain ⟨s₁,hg,hl⟩ := exists_of_starts_one (by decide) hs
      simp only [hs,hg,if_true]
      rw [hl,List.length_cons] at h
      refine .after [.sym '&'] hl (.imp (ih (by omega)) ?_)
      rintro ts d ⟨k,rfl,rfl⟩
      exact ⟨k + 1,rfl,rfl⟩
    · simp only [hs]
      exact .ok (lex_skip s).symm ⟨0,rfl,rfl⟩

/-- The function of the parser for a part of the grammar. -/
def parser : Kind → ℕ → Str → Except String (Cmd × Str)
  | .line => parseline
  | .pipe => parsepipe
  | .exec => parseexec

/-- The calls between two tokens that are read. -/
def depth : Kind → ℕ
  | .line => 4
  | .pipe => 3
  | .exec => 2

section Step

variable {fuel : ℕ} {s : Str}
  (ih : ∀ k s, 4 * (lex s).length + depth k ≤ fuel → Reads (Derives k) s (parser k fuel s))
include ih

theorem parseline_reads (h : 4 * (lex s).length + 4 ≤ fuel + 1) :
    Reads (Derives .line) s (parseline (fuel + 1) s) := by
  rw [parseline]
  refine .bind (ih .pipe s (by simp [depth]; omega)) fun ts c s₁ hs hc => ?_
  have hn := congrArg List.length hs
  rw [List.length_append] at hn
  refine .bind (parsebacks_reads (by omega)) fun us c' s₂ hs₂ ⟨k,hk,hc'⟩ => ?_
  have hn₂ := congrArg List.length hs₂
  rw [List.length_append] at hn₂
  subst hk hc'
  simp only [peek_eq s₂ [';'] (by decide)]
  by_cases hp : starts [';'] (lex s₂) = true
  · obtain ⟨s₃,hg,hl⟩ := exists_of_starts_one (by decide) hp
    rw [hl,List.length_cons] at hn₂
    simp only [hp,hg,if_true]
    refine .after [.sym ';'] hl (.bind (ih .line s₃ (by simp [depth]; omega)) fun vs d rest hs hd => ?_)
    have := Derives.list k hc hd
    exact .ok rfl (by simpa using this)
  · simp only [hp]
    exact .ok (lex_skip s₂).symm (by simpa using .last k hc)

theorem parsepipe_reads (h : 4 * (lex s).length + 3 ≤ fuel + 1) :
    Reads (Derives .pipe) s (parsepipe (fuel + 1) s) := by
  rw [parsepipe]
  refine .bind (ih .exec s (by simp [depth]; omega)) fun ts c s₁ hs hc => ?_
  have hn := congrArg List.length hs
  rw [List.length_append] at hn
  simp only [peek_eq s₁ ['|'] (by decide)]
  by_cases hp : starts ['|'] (lex s₁) = true
  · obtain ⟨s₂,hg,hl⟩ := exists_of_starts_one (by decide) hp
    rw [hl,List.length_cons] at hn
    simp only [hp,hg,if_true]
    refine .after [.sym '|'] hl (.bind (ih .pipe s₂ (by simp [depth]; omega)) fun us d rest hs hd => ?_)
    exact .ok rfl (by simpa using .pipe hc hd)
  · simp only [hp]
    exact .ok (lex_skip s₁).symm (by simpa using .single hc)

theorem parseblock_reads (h : 4 * (lex s).length + 1 ≤ fuel + 1) (hs : starts ['('] (lex s) = true) :
    Reads (Derives .exec) s (parseblock (fuel + 1) s) := by
  obtain ⟨s₁,hg,hl⟩ := exists_of_starts_one (by decide) hs
  rw [hl,List.length_cons] at h
  rw [parseblock,peek_eq s _ (by decide)]
  simp only [hs,hg,Bool.not_true]
  refine .after [.sym '('] hl (.bind (ih .line s₁ (by simp [depth]; omega)) fun ts c s₂ hs₂ hc => ?_)
  have hn := congrArg List.length hs₂
  rw [List.length_append] at hn
  simp only [peek_eq s₂ [')'] (by decide)]
  by_cases hp : starts [')'] (lex s₂) = true
  · obtain ⟨s₃,hg,hl⟩ := exists_of_starts_one (by decide) hp
    rw [hl,List.length_cons] at hn
    simp only [hp,hg,Bool.not_true]
    refine .after [.sym ')'] hl (.bind (parseredirs_reads (by omega)) fun us rs rest hs hr => ?_)
    exact .ok rfl (by simpa using .block hc hr)
  · simp [hp,Reads,panics]

end Step

theorem parseexec_reads {fuel : ℕ} {s : Str} (h : 4 * (lex s).length + 2 ≤ fuel + 1)
    (hb : starts ['('] (lex s) = true → Reads (Derives .exec) s (parseblock fuel (skip s))) :
    Reads (Derives .exec) s (parseexec (fuel + 1) s) := by
  rw [parseexec,peek_eq s _ (by decide)]
  by_cases hs : starts ['('] (lex s) = true
  · simpa only [hs,if_true] using hb hs
  · simp only [hs]
    have hl := congrArg List.length (lex_skip s)
    refine .after [] (lex_skip s).symm ?_
    refine .bind (parseredirs_reads (by omega)) fun ts rs s₁ hs₁ hr => ?_
    have hn := congrArg List.length hs₁
    rw [List.length_append] at hn
    refine .imp (parseargs_reads (by omega) (by decide)) ?_
    rintro us c ⟨argv,rs',hi,hm,rfl⟩
    exact .items (by simpa using hr.append hi) hm

/-- With fuel for the tokens, each function of the parser reads what the grammar derives. -/
theorem parser_reads (fuel : ℕ) (k : Kind) (s : Str) (h : 4 * (lex s).length + depth k ≤ fuel) :
    Reads (Derives k) s (parser k fuel s) := by
  induction fuel using Nat.strong_induction_on generalizing k s with
  | _ fuel ih =>
    obtain ⟨fuel,rfl⟩ : ∃ n, fuel = n + 1 := ⟨fuel - 1,by cases k <;> simp [depth] at h <;> omega⟩
    cases k with
    | line => exact parseline_reads (ih fuel (by omega)) h
    | pipe => exact parsepipe_reads (ih fuel (by omega)) h
    | exec =>
      refine parseexec_reads h fun hs => ?_
      obtain ⟨n,rfl⟩ : ∃ n, fuel = n + 1 := ⟨fuel - 1,by simp [depth] at h; omega⟩
      rw [depth,← lex_skip s] at h
      rw [← lex_skip s] at hs
      exact .after [] (lex_skip s).symm (parseblock_reads (ih n (by omega)) (by omega) hs)

/-! ## What the grammar derives is read -/

/-- The tokens behind a part of a command: they are at an end, or begin with one of these. -/
def Ends (toks : Str) (ts : List Token) : Prop := ts = [] ∨ ∃ c us, ts = .sym c::us ∧ c ∈ toks

def follow : Kind → Str
  | .line => [')']
  | .pipe => [')','&',';']
  | .exec => ['|',')','&',';']

theorem Ends.mono {a b : Str} {ts : List Token} (h : Ends a ts)
    (hab : (a.all fun c => decide (c ∈ b)) = true) : Ends b ts :=
  h.imp_right fun ⟨c,us,hc,hm⟩ => ⟨c,us,hc,of_decide_eq_true (List.all_eq_true.mp hab c hm)⟩

theorem Ends.not_starts {a b : Str} {ts : List Token} (h : Ends a ts)
    (hab : (a.all fun c => decide ((if c = '+' then '>' else c) ∉ b)) = true) :
    starts b ts = false := by
  rcases h with rfl | ⟨c,us,rfl,hc⟩
  · rfl
  · simpa [starts] using of_decide_eq_true (List.all_eq_true.mp hab c hc)

theorem parseredirs_nil {s : Str} (h : starts ['<','>'] (lex s) = false) (fuel : ℕ) :
    parseredirs (fuel + 1) s = .ok ([],skip s) := by
  rw [parseredirs,peek_eq s _ (by decide)]
  simp only [h]
  rfl

theorem parseredirs_cons {s : Str} {c : Char} {w : Str} {us : List Token}
    (hc : c ∈ ['<','>','+']) (hs : lex s = .sym c::.word w::us) :
    ∃ s', lex s' = us ∧ ∀ fuel, parseredirs (fuel + 1) s = (do
      let (rs,rest) ← parseredirs fuel s'
      pure (redirection c w::rs,rest)) := by
  obtain ⟨s₁,hg,hs₁⟩ := gettoken_cons ((lex_skip s).trans hs)
  obtain ⟨s₂,hg₂,hs₂⟩ := gettoken_cons hs₁
  refine ⟨s₂,hs₂,fun fuel => ?_⟩
  have hp : starts ['<','>'] (lex s) = true := by
    rw [hs]
    simp only [List.mem_cons,List.not_mem_nil,or_false] at hc
    rcases hc with rfl | rfl | rfl <;> rfl
  rw [parseredirs,peek_eq s _ (by decide)]
  simp only [hp,hg,hg₂,if_true]
  rfl

theorem parseredirs_of_items {ts u : List Token} {rs : List Redir} (h : Items ts [] rs) {s : Str}
    (hs : lex s = ts ++ u) (hu : starts ['<','>'] u = false) {fuel : ℕ}
    (hf : (lex s).length < fuel) :
    ∃ rest, parseredirs fuel s = .ok (rs,rest) ∧ lex rest = u := by
  generalize ha : ([] : List Str) = argv at h
  obtain ⟨fuel,rfl⟩ : ∃ n, fuel = n + 1 := ⟨fuel - 1,by omega⟩
  induction h generalizing s fuel with
  | word => cases ha
  | nil =>
    rw [List.nil_append] at hs
    exact ⟨skip s,parseredirs_nil (hs ▸ hu) fuel,(lex_skip s).trans hs⟩
  | redir hc w _ ih =>
    rw [List.cons_append,List.cons_append] at hs
    obtain ⟨s',hs',he⟩ := parseredirs_cons hc hs
    rw [hs,List.length_cons,List.length_cons,← hs'] at hf
    obtain ⟨fuel,rfl⟩ : ∃ n, fuel = n + 1 := ⟨fuel - 1,by omega⟩
    obtain ⟨rest,hp,hr⟩ := ih hs' ha fuel (by omega)
    exact ⟨rest,by rw [he,hp]; rfl,hr⟩

theorem parseargs_end {s : Str} (h : Ends (follow .exec) (lex s)) (fuel : ℕ) (argv : List Str)
    (redirs : List Redir) :
    ∃ rest, parseargs (fuel + 1) argv redirs s = .ok (redirs.foldl redircmd (.exec argv),rest) ∧
      lex rest = lex s := by
  rw [parseargs,peek_eq s _ (by decide)]
  rcases h with h | ⟨c,us,h,hc⟩
  · refine ⟨[],?_,h.symm⟩
    simp only [h,gettoken_nil ((lex_skip s).trans h)]
    rfl
  · have hp : starts ['|',')','&',';'] (lex s) = true := by
      rw [h]
      simp only [follow,List.mem_cons,List.not_mem_nil,or_false] at hc
      rcases hc with rfl | rfl | rfl | rfl <;> rfl
    exact ⟨skip s,by simp only [hp,if_true]; rfl,lex_skip s⟩

theorem parseargs_word {s w : Str} {us : List Token} (hs : lex s = .word w::us) (argv : List Str)
    (ha : argv.length + 1 < MAXARGS) :
    ∃ s', lex s' = us ∧ ∀ fuel redirs, parseargs (fuel + 1) argv redirs s = (do
      let (rs,rest) ← parseredirs fuel s'
      parseargs fuel (argv ++ [w]) (redirs ++ rs) rest) := by
  obtain ⟨s',hg,hs'⟩ := gettoken_cons ((lex_skip s).trans hs)
  refine ⟨s',hs',fun fuel redirs => ?_⟩
  rw [parseargs,peek_eq s _ (by decide),hs]
  simp only [starts,hg,Token.kind,Token.text]
  rw [if_neg (by decide),if_neg (by decide),if_neg (by decide),if_neg (by omega)]

theorem parseargs_of_items {ts u : List Token} {argv' : List Str} {rs' : List Redir}
    (h : Items ts argv' rs') {s : Str} (hs : lex s = ts ++ u) (hu : Ends (follow .exec) u)
    (argv : List Str) (redirs : List Redir) (ha : (argv ++ argv').length < MAXARGS)
    {f g : ℕ} (hf : (lex s).length < f) (hg : (lex s).length < g) :
    ∃ rs s' rest, parseredirs f s = .ok (rs,s') ∧ parseargs g argv (redirs ++ rs) s' =
      .ok ((redirs ++ rs').foldl redircmd (.exec (argv ++ argv')),rest) ∧ lex rest = u := by
  obtain ⟨f,rfl⟩ : ∃ n, f = n + 1 := ⟨f - 1,by omega⟩
  obtain ⟨g,rfl⟩ : ∃ n, g = n + 1 := ⟨g - 1,by omega⟩
  induction h generalizing s argv redirs f g with
  | nil =>
    rw [List.nil_append] at hs
    have hs' := (lex_skip s).trans hs
    obtain ⟨rest,hp,hr⟩ := parseargs_end (hs' ▸ hu) g argv (redirs ++ [])
    exact ⟨[],skip s,rest,parseredirs_nil (hs ▸ hu.not_starts (by decide)) f,
      by rw [hp,List.append_nil argv],hr.trans hs'⟩
  | @word ts argv' rs' w _ ih =>
    rw [List.cons_append] at hs
    have hs₁ := (lex_skip s).trans hs
    obtain ⟨s',hs',he⟩ := parseargs_word hs₁ argv (by simp at ha; omega)
    rw [hs,List.length_cons,← hs'] at hf hg
    obtain ⟨g,rfl⟩ : ∃ n, g = n + 1 := ⟨g - 1,by omega⟩
    obtain ⟨rs,s'',rest,hp,hq,hr⟩ := ih hs' (argv ++ [w]) redirs (by simpa using ha)
      g (by omega) g (by omega)
    refine ⟨[],skip s,rest,parseredirs_nil (by rw [hs]; rfl) f,?_,hr⟩
    rw [he,List.append_nil,hp]
    change parseargs (g + 1) (argv ++ [w]) (redirs ++ rs) s'' = _
    rw [hq,List.append_assoc,List.singleton_append]
  | @redir ts argv' rs' c hc w _ ih =>
    rw [List.cons_append,List.cons_append] at hs
    obtain ⟨s',hs',he⟩ := parseredirs_cons hc hs
    rw [hs,List.length_cons,List.length_cons,← hs'] at hf hg
    obtain ⟨f,rfl⟩ : ∃ n, f = n + 1 := ⟨f - 1,by omega⟩
    obtain ⟨rs,s'',rest,hp,hq,hr⟩ := ih hs' argv (redirs ++ [redirection c w]) ha
      f (by omega) g (by omega)
    refine ⟨redirection c w::rs,s'',rest,by rw [he,hp]; rfl,?_,hr⟩
    rw [List.append_assoc,List.singleton_append] at hq
    rw [hq,List.append_assoc,List.singleton_append]

theorem peek_of_ends (toks : Str) {s b : Str} {ts : List Token} (hs : lex s = ts)
    (h : Ends b ts) (hb : (b.all fun c => decide ((if c = '+' then '>' else c) ∉ toks)) = true)
    (ht : toks.all symbols = true) : peek s toks = (false,skip s) := by
  rw [peek_eq s toks ht,hs,h.not_starts hb]

theorem peek_of_sym {s : Str} {c : Char} {ts : List Token} (hs : lex s = .sym c::ts)
    (hc : symbols c = true) :
    ∃ s', peek s [c] = (true,skip s) ∧ (gettoken (skip s)).2.2 = s' ∧ lex s' = ts := by
  have hp : c ≠ '+' := by rintro rfl; exact absurd hc (by decide)
  obtain ⟨s',hg,hs'⟩ := gettoken_cons ((lex_skip s).trans hs)
  refine ⟨s',?_,by rw [hg],hs'⟩
  rw [peek_eq s [c] (by simpa using hc),hs]
  simp [starts,hp]

theorem parsebacks_of_replicate {k : ℕ} {u : List Token} {s : Str}
    (hs : lex s = .replicate k (.sym '&') ++ u) (hu : Ends [')',';'] u) {c : Cmd} {fuel : ℕ}
    (hf : (lex s).length < fuel) :
    ∃ rest, parsebacks fuel c s = .ok (Cmd.back^[k] c,rest) ∧ lex rest = u := by
  obtain ⟨fuel,rfl⟩ : ∃ n, fuel = n + 1 := ⟨fuel - 1,by omega⟩
  induction k generalizing s c fuel with
  | zero =>
    rw [List.replicate_zero,List.nil_append] at hs
    rw [parsebacks,peek_of_ends ['&'] hs hu (by decide) (by decide)]
    exact ⟨skip s,rfl,(lex_skip s).trans hs⟩
  | succ k ih =>
    rw [List.replicate_succ,List.cons_append] at hs
    obtain ⟨s',hp,hg,hs'⟩ := peek_of_sym hs (by decide)
    rw [hs,List.length_cons,← hs'] at hf
    obtain ⟨fuel,rfl⟩ : ∃ n, fuel = n + 1 := ⟨fuel - 1,by omega⟩
    rw [parsebacks,hp]
    simp only [hg,if_true]
    exact ih hs' fuel (by omega)

section Calls

variable {fuel : ℕ} {s s₁ s₂ s₃ rest : Str} {c d : Cmd}

theorem parsepipe_single (hc : parseexec fuel s = .ok (c,s₁)) (hp : peek s₁ ['|'] = (false,s₂)) :
    parsepipe (fuel + 1) s = .ok (c,s₂) := by
  rw [parsepipe,hc]
  simp only [bind,Except.bind,hp]
  rfl

theorem parsepipe_pipe (hc : parseexec fuel s = .ok (c,s₁)) (hp : peek s₁ ['|'] = (true,s₂))
    (hd : parsepipe fuel (gettoken s₂).2.2 = .ok (d,rest)) :
    parsepipe (fuel + 1) s = .ok (.pipe c d,rest) := by
  rw [parsepipe,hc]
  simp only [bind,Except.bind,hp,hd,if_true]
  rfl

theorem parseline_last (hc : parsepipe fuel s = .ok (c,s₁)) (hb : parsebacks fuel c s₁ = .ok (d,s₂))
    (hp : peek s₂ [';'] = (false,s₃)) : parseline (fuel + 1) s = .ok (d,s₃) := by
  rw [parseline,hc]
  simp only [bind,Except.bind,hb,hp]
  rfl

theorem parseline_list {c' : Cmd} (hc : parsepipe fuel s = .ok (c,s₁))
    (hb : parsebacks fuel c s₁ = .ok (c',s₂)) (hp : peek s₂ [';'] = (true,s₃))
    (hd : parseline fuel (gettoken s₃).2.2 = .ok (d,rest)) :
    parseline (fuel + 1) s = .ok (.list c' d,rest) := by
  rw [parseline,hc]
  simp only [bind,Except.bind,hb,hp,hd,if_true]
  rfl

theorem parseblock_ok {rs : List Redir} {s₄ : Str} (hp : peek s ['('] = (true,s₁))
    (hc : parseline fuel (gettoken s₁).2.2 = .ok (c,s₂)) (hq : peek s₂ [')'] = (true,s₃))
    (hr : parseredirs fuel (gettoken s₃).2.2 = .ok (rs,s₄)) :
    parseblock (fuel + 1) s = .ok (rs.foldl redircmd c,s₄) := by
  rw [parseblock,hp]
  simp only [bind,Except.bind,hc,hq,hr,Bool.not_true]
  rfl

theorem parseexec_block (hp : peek s ['('] = (true,s₁)) :
    parseexec (fuel + 1) s = parseblock fuel s₁ := by
  rw [parseexec,hp]
  rfl

theorem parseexec_items {rs : List Redir} (hp : peek s ['('] = (false,s₁))
    (hr : parseredirs fuel s₁ = .ok (rs,s₂)) :
    parseexec (fuel + 1) s = parseargs fuel [] rs s₂ := by
  rw [parseexec,hp]
  simp only [bind,Except.bind,hr]
  rfl

end Calls

theorem Items.not_block {ts u : List Token} {argv : List Str} {rs : List Redir}
    (h : Items ts argv rs) (hu : Ends (follow .exec) u) : starts ['('] (ts ++ u) = false := by
  cases h with
  | nil => exact hu.not_starts (by decide)
  | word => rfl
  | redir hc =>
    simp only [List.mem_cons,List.not_mem_nil,or_false] at hc
    rcases hc with rfl | rfl | rfl <;> rfl

theorem ends_replicate (k : ℕ) {u : List Token} (hu : Ends (follow .pipe) u) :
    Ends (follow .pipe) (.replicate k (.sym '&') ++ u) := by
  cases k with
  | zero => exact hu
  | succ k => exact .inr ⟨'&',_,rfl,by decide⟩

/-- Each function of the parser reads what the grammar derives, if an end of it follows. -/
theorem parser_of_derives {k : Kind} {ts : List Token} {c : Cmd} (h : Derives k ts c) {s : Str}
    {u : List Token} (hs : lex s = ts ++ u) (hu : Ends (follow k) u) {fuel : ℕ}
    (hf : 4 * (lex s).length + depth k ≤ fuel) :
    ∃ rest, parser k fuel s = .ok (c,rest) ∧ lex rest = u := by
  obtain ⟨fuel,rfl⟩ : ∃ n, fuel = n + 2 :=
    ⟨fuel - 2,by cases k <;> simp only [depth] at hf <;> omega⟩
  induction h generalizing s u fuel with
  | items hi hm =>
    simp only [depth] at hf
    have hl := congrArg List.length (lex_skip s)
    have hp : peek s ['('] = (false,skip s) := by
      rw [peek_eq s _ (by decide),hs,hi.not_block hu]
    obtain ⟨rs,s',rest,hd,hq,hr⟩ := parseargs_of_items hi ((lex_skip s).trans hs) hu
      [] [] hm (f := fuel + 1) (g := fuel + 1) (by omega) (by omega)
    exact ⟨rest,(parseexec_items hp hd).trans hq,hr⟩
  | @block ts us rs c hc hr ih =>
    rw [List.cons_append,List.append_assoc,List.cons_append] at hs
    simp only [depth,parser] at hf ih
    obtain ⟨-,hp,-,-⟩ := peek_of_sym hs (by decide)
    obtain ⟨s₁,hp₁,hg₁,hs₁⟩ := peek_of_sym ((lex_skip s).trans hs) (by decide)
    rw [hs,← hs₁,List.length_cons] at hf
    obtain ⟨fuel,rfl⟩ : ∃ n, fuel = n + 2 := ⟨fuel - 2,by omega⟩
    obtain ⟨s₂,hc₂,hs₂⟩ := ih hs₁ (.inr ⟨')',_,rfl,by decide⟩) fuel (by omega)
    obtain ⟨s₃,hp₃,hg₃,hs₃⟩ := peek_of_sym hs₂ (by decide)
    rw [hs₁,← hs₃,List.length_append,List.length_cons] at hf
    obtain ⟨rest,hd,hr'⟩ := parseredirs_of_items hr hs₃ (hu.not_starts (by decide))
      (show _ < fuel + 2 by omega)
    rw [← hg₁] at hc₂
    rw [← hg₃] at hd
    exact ⟨rest,(parseexec_block hp).trans (parseblock_ok hp₁ hc₂ hp₃ hd),hr'⟩
  | single hc ih =>
    simp only [depth,parser] at hf ih
    obtain ⟨fuel,rfl⟩ : ∃ n, fuel = n + 1 := ⟨fuel - 1,by omega⟩
    obtain ⟨s₁,hc₁,hs₁⟩ := ih hs (hu.mono (by decide)) fuel (by omega)
    have hp := peek_of_ends ['|'] hs₁ hu (by decide) (by decide)
    exact ⟨skip s₁,parsepipe_single hc₁ hp,(lex_skip s₁).trans hs₁⟩
  | @pipe ts us c d hc hd ihc ihd =>
    rw [List.append_assoc,List.cons_append] at hs
    simp only [depth,parser] at hf ihc ihd
    obtain ⟨fuel,rfl⟩ : ∃ n, fuel = n + 1 := ⟨fuel - 1,by omega⟩
    obtain ⟨s₁,hc₁,hs₁⟩ := ihc hs (.inr ⟨'|',_,rfl,by decide⟩) fuel (by omega)
    obtain ⟨s₂,hp₂,hg₂,hs₂⟩ := peek_of_sym hs₁ (by decide)
    rw [hs,← hs₂,List.length_append,List.length_cons] at hf
    obtain ⟨rest,hd₂,hr⟩ := ihd hs₂ hu fuel (by omega)
    rw [← hg₂] at hd₂
    exact ⟨rest,parsepipe_pipe hc₁ hp₂ hd₂,hr⟩
  | @last ts c k hc ih =>
    rw [List.append_assoc] at hs
    simp only [depth,parser] at hf ih
    obtain ⟨fuel,rfl⟩ : ∃ n, fuel = n + 1 := ⟨fuel - 1,by omega⟩
    obtain ⟨s₁,hc₁,hs₁⟩ := ih hs (ends_replicate k (hu.mono (by decide))) fuel (by omega)
    rw [hs,← hs₁,List.length_append] at hf
    obtain ⟨s₂,hb,hs₂⟩ := parsebacks_of_replicate (c := c) hs₁
      (hu.mono (by decide)) (show _ < fuel + 2 by omega)
    have hp := peek_of_ends [';'] hs₂ hu (by decide) (by decide)
    exact ⟨skip s₂,parseline_last hc₁ hb hp,(lex_skip s₂).trans hs₂⟩
  | @list ts us c d k hc hd ihc ihd =>
    rw [List.append_assoc,List.append_assoc,List.cons_append] at hs
    simp only [depth,parser] at hf ihc ihd
    obtain ⟨fuel,rfl⟩ : ∃ n, fuel = n + 1 := ⟨fuel - 1,by omega⟩
    have hu' : ∀ a : Str, ';' ∈ a → Ends a (.sym ';'::(us ++ u)) := fun a ha => .inr ⟨_,_,rfl,ha⟩
    obtain ⟨s₁,hc₁,hs₁⟩ := ihc hs (ends_replicate k (hu' _ (by decide))) fuel (by omega)
    rw [hs,← hs₁,List.length_append] at hf
    obtain ⟨s₂,hb,hs₂⟩ := parsebacks_of_replicate (c := c) hs₁
      (hu' _ (by decide)) (show _ < fuel + 2 by omega)
    obtain ⟨s₃,hp₃,hg₃,hs₃⟩ := peek_of_sym hs₂ (by decide)
    rw [hs₁,List.length_append,List.length_cons,← hs₃] at hf
    obtain ⟨rest,hd₃,hr⟩ := ihd hs₃ hu fuel (by omega)
    rw [← hg₃] at hd₃
    exact ⟨rest,parseline_list hc₁ hb hp₃ hd₃,hr⟩

theorem length_flush (w : Str) (ts : List Token) :
    (flush w ts).length = ts.length + if w = [] then 0 else 1 := by
  unfold flush
  split <;> rfl

theorem length_lexFrom_le (w s : Str) :
    (lexFrom w s).length ≤ s.length + if w = [] then 0 else 1 := by
  fun_induction lexFrom w s with
  | case1 w => simp [length_flush]
  | case2 w s ih => rw [length_flush]; simp at ih ⊢; omega
  | case3 w c s _ _ ih => rw [length_flush]; simp at ih ⊢; omega
  | case4 w c s _ _ _ ih => rw [length_flush]; simp at ih ⊢; omega
  | case5 w c s _ _ _ ih => simp at ih ⊢; omega

theorem length_lex_le (s : Str) : (lex s).length ≤ s.length :=
  (length_lexFrom_le [] s).trans (by simp)

theorem skip_eq_nil_iff (s : Str) : skip s = [] ↔ lex s = [] := by
  obtain ⟨hs,hl⟩ | ⟨s',hs,hl⟩ | ⟨c,s',hs,-,-,hl⟩ | ⟨c,s',hs,-,hl⟩ := skip_cases s <;> simp [hs,hl]

theorem parsecmd_ok {s rest : Str} {c : Cmd} (h : parseline (4 * s.length + 5) s = .ok (c,rest)) :
    parsecmd s = if lex rest = [] then .ok c else .error "syntax" := by
  rw [parsecmd,h]
  simp only [bind,Except.bind,peek_eq rest [] (by simp),ne_eq,skip_eq_nil_iff,ite_not]
  rfl

theorem parseline_reads_line (s : Str) :
    Reads (Derives .line) s (parseline (4 * s.length + 5) s) := by
  have := length_lex_le s
  exact parser_reads (4 * s.length + 5) .line s (by simp only [depth]; omega)

theorem derives_of_parsecmd {s : Str} {c : Cmd} (h : parsecmd s = .ok c) :
    Derives .line (lex s) c := by
  have hr := parseline_reads_line s
  rcases hx : parseline (4 * s.length + 5) s with e | ⟨d,rest⟩
  · simp [parsecmd,hx,bind,Except.bind] at h
  · rw [hx] at hr
    obtain ⟨ts,hs,hd⟩ := hr
    rw [parsecmd_ok hx] at h
    split at h
    · cases h
      rwa [hs,‹lex rest = []›,List.append_nil]
    · cases h

theorem parsecmd_of_derives {s : Str} {c : Cmd} (h : Derives .line (lex s) c) :
    parsecmd s = .ok c := by
  have := length_lex_le s
  obtain ⟨rest,hx,hrest⟩ := parser_of_derives h (List.append_nil _).symm (.inl rfl)
    (show 4 * (lex s).length + depth .line ≤ 4 * s.length + 5 by simp only [depth]; omega)
  rw [parsecmd_ok hx,if_pos hrest]

/-- The parser accepts the lines that the grammar derives and returns the command of the derivation;
it stops at the others with a message of its own. -/
theorem parsecmd_iff (s : Str) :
    (∀ c, parsecmd s = .ok c ↔ Derives .line (lex s) c) ∧
      ∀ e, parsecmd s = .error e → e ∈ panics := by
  refine ⟨fun c => ⟨derives_of_parsecmd,parsecmd_of_derives⟩,fun e h => ?_⟩
  have hr := parseline_reads_line s
  rcases hx : parseline (4 * s.length + 5) s with e' | ⟨d,rest⟩
  · rw [hx] at hr
    simp only [parsecmd,hx,bind,Except.bind,Except.error.injEq] at h
    exact h ▸ hr
  · rw [parsecmd_ok hx] at h
    split at h <;> cases h
    decide

example : parsecmd ['a','<','b','|','(','c','&',')','>','>','d'] =
    .ok (.pipe (.redir (.exec [['a']]) ['b'] 0 0) (.redir (.back (.exec [['c']])) ['d'] 0x201 1)) := by
  decide +kernel

end ResumePointers.User.Sh
