import ResumePointers.Lib.Letters
import Mathlib.Data.List.Basic

/-! `grep.c`: the matcher decides the language of the pattern, and the loop over the buffer prints
the lines that match. A file that is read gives all the bytes asked for, up to its end. -/
namespace ResumePointers.User

open Computability

/-- The loop of `matchstar`; `here` is `matchhere` with the rest of the pattern. -/
def matchstar (c : Char) (here : List Char → Bool) : List Char → Bool
  | [] => here []
  | t::text => here (t::text) || ((t == c || c == '.') && matchstar c here text)

def matchhere : List Char → List Char → Bool
  | [], _ => true
  | c:: '*'::re, text => matchstar c (matchhere re) text
  | ['$'], text => text.isEmpty
  | c::re, t::text => (c == '.' || c == t) && matchhere re text
  | _::_, [] => false

/-- The loop of `match`. -/
def search (re : List Char) : List Char → Bool
  | [] => matchhere re []
  | t::text => matchhere re (t::text) || search re text

def match_ (re text : List Char) : Bool :=
  match re with
  | '^'::re => matchhere re text
  | re => search re text

/-- The letters that a character of a pattern stands for. -/
def stands (c : Char) : Set Char := {t | c = '.' ∨ c = t}

/-- The texts that begin with a match of the pattern. -/
def here : List Char → Language Char
  | [] => ⊤
  | c:: '*'::re => (letters (stands c))∗ * here re
  | ['$'] => 1
  | c::re => letters (stands c) * here re

/-- The texts with a match of the pattern. -/
def language (re : List Char) : Language Char :=
  match re with
  | '^'::re => here re
  | re => ⊤ * here re

theorem matchstar_iff {c : Char} {rest : List Char → Bool} {M : Language Char}
    (h : ∀ text, rest text = true ↔ text ∈ M) (text : List Char) :
    matchstar c rest text = true ↔ text ∈ (letters (stands c))∗ * M := by
  induction text with
  | nil => rw [matchstar,h,nil_mem_kstar_mul]
  | cons t text ih =>
    rw [matchstar,Bool.or_eq_true,Bool.and_eq_true,h,ih,cons_mem_kstar_mul]
    rw [Bool.or_eq_true,beq_iff_eq,beq_iff_eq]
    exact or_congr_right (and_congr_left' (or_comm.trans (or_congr_right eq_comm)))

theorem matchhere_iff (re text : List Char) : matchhere re text = true ↔ text ∈ here re := by
  induction re using here.induct generalizing text with
  | case1 => exact iff_of_true rfl trivial
  | case2 c re ih => exact matchstar_iff ih text
  | case3 =>
    cases text with
    | nil => simp [matchhere,here]
    | cons t text => simp [matchhere,here]
  | case4 c re hstar hend ih =>
    rw [here.eq_4 c re hstar hend]
    cases text with
    | nil =>
      rw [matchhere]
      · exact iff_of_false Bool.false_ne_true nil_mem_letters_mul
      · exact hstar
      · exact hend
    | cons t text =>
      rw [matchhere,cons_mem_letters_mul,Bool.and_eq_true,ih,Bool.or_eq_true,beq_iff_eq,beq_iff_eq]
      · exact Iff.rfl
      · exact hstar
      · exact hend

theorem match_iff (re text : List Char) : match_ re text = true ↔ text ∈ language re := by
  have hsearch : ∀ text, search re text = true ↔ text ∈ ⊤ * here re := by
    intro text
    induction text with
    | nil => rw [search,matchhere_iff,nil_mem_top_mul]
    | cons t text ih => rw [search,Bool.or_eq_true,matchhere_iff,ih,cons_mem_top_mul]
  unfold match_ language
  split
  · exact matchhere_iff _ text
  · exact hsearch text

/-- The size of `buf`. -/
def BUFSIZE : ℕ := 1024

/-- `strchr` of `ulib.c`: the string from the character on. A string ends at its NUL. -/
def strchr : List Char → Char → Option (List Char)
  | [], _ => none
  | x::s, c => if x = '\x00' then none else if x = c then some (x::s) else strchr s c

theorem strchr_length {s q : List Char} {c : Char} (h : strchr s c = some q) :
    0 < q.length ∧ q.length ≤ s.length := by
  induction s with
  | nil => cases h
  | cons x s ih =>
    rw [strchr] at h
    split at h
    · cases h
    · split at h
      · cases h
        exact ⟨Nat.succ_pos _,le_rfl⟩
      · exact (ih h).imp id fun hle => hle.trans (Nat.le_succ _)

/-- The lines in the buffer: what is printed of them, and what is left behind the last. -/
def scan (pattern p : List Char) : List Char × List Char :=
  match _h : strchr p '\n' with
  | none => ([],p)
  | some q =>
    let line := p.take (p.length - q.length)
    let r := scan pattern q.tail
    ((if match_ pattern line then line ++ ['\n'] else []) ++ r.1,r.2)
termination_by p.length
decreasing_by
  have := strchr_length _h
  rw [List.length_tail]
  omega

/-- What is left of a line that does not fit into the buffer. -/
def kept (line : List Char) : List Char := line.drop ((BUFSIZE - 1) * (line.length / (BUFSIZE - 1)))

/-- The lines of a file that a newline ends. -/
def lines (file : List Char) : List (List Char) := (file.splitOn '\n').dropLast

end ResumePointers.User
