import ResumePointers.Lib.Simulation
import Mathlib.Data.List.Induction

/-! An editor of lines: what is typed can be erased until its line ends, and from then on it can be
read. -/
namespace ResumePointers

variable {A : Type}

/-- What can be read, and the line that is typed. -/
structure LineEditor (A : Type) where
  ready : List A
  line : List A

namespace LineEditor

inductive Key (A : Type)
  | kill
  | erase
  | char (a : A)

/-- The characters that end a line, and how many characters are kept. -/
structure Rules (A : Type) where
  newline : A
  eof : A
  size : ℕ

def empty : LineEditor A := ⟨[],[]⟩

/-- What a reader gets, whether it is told the end of the file, whether it is done, and what is left
to be read. -/
structure Reading (A : Type) where
  got : List A
  eof : Bool
  done : Bool
  rest : List A

/-- How a reader goes on: it waits for more, it returns how much it got, or it was killed. -/
inductive Back
  | waits
  | returns (n : ℕ)
  | fails
deriving DecidableEq

/-- The keys that are typed with what the screen gets for them, where `none` takes the last character
away, and the turns of readers, that have room for `n` of `target` characters. -/
inductive Event (A : Type)
  | typed (ks : List (Key A)) (shown : List (Option A))
  | read (n target : ℕ) (got : List A) (eof : Bool) (back : Back)

variable [DecidableEq A] (R : Rules A)

def type (t : LineEditor A) : Key A → LineEditor A
  | .kill => { t with line := [] }
  | .erase => { t with line := t.line.dropLast }
  | .char a =>
    if t.ready.length + t.line.length < R.size then
      if a = R.newline ∨ a = R.eof ∨ t.ready.length + t.line.length + 1 = R.size then
        ⟨t.ready ++ (t.line ++ [a]),[]⟩
      else { t with line := t.line ++ [a] }
    else t

/-- What the screen gets for a key. -/
def echo (t : LineEditor A) : Key A → List (Option A)
  | .kill => List.replicate t.line.length none
  | .erase => List.replicate (min t.line.length 1) none
  | .char a => if t.ready.length + t.line.length < R.size then [some a] else []

def typeAll (t : LineEditor A) : List (Key A) → LineEditor A × List (Option A)
  | [] => (t,[])
  | k::ks =>
    let r := typeAll (t.type R k) ks
    (r.1,t.echo R k ++ r.2)

/-- A reader stops behind the end of a line. It leaves an end of file to the next one unless it is all
that it reads. -/
def read : ℕ → Bool → List A → Reading A
  | 0,_,q => ⟨[],false,true,q⟩
  | _ + 1,_,[] => ⟨[],false,false,[]⟩
  | n + 1,first,a::q =>
    if a = R.eof then
      if first then ⟨[],true,true,q⟩ else ⟨[],false,true,a::q⟩
    else if a = R.newline then ⟨[a],false,true,q⟩
    else
      let r := read n false q
      { r with got := a::r.got }

inductive Step : Event A → LineEditor A → LineEditor A → Prop
  | typed (t : LineEditor A) (ks : List (Key A)) :
      Step (.typed ks (t.typeAll R ks).2) t (t.typeAll R ks).1
  | returns (t : LineEditor A) (n target : ℕ) (r : Reading A) (hr : read R n (n = target) t.ready = r)
      (hd : r.done = true) :
      Step (.read n target r.got r.eof (.returns (target - (n - r.got.length)))) t
        { t with ready := r.rest }
  | waits (t : LineEditor A) (n target : ℕ) (r : Reading A) (hr : read R n (n = target) t.ready = r)
      (hd : r.done = false) (back : Back) (hb : back = .waits ∨ back = .fails) :
      Step (.read n target r.got r.eof back) t { t with ready := r.rest }

/-- What an event puts on the screen. -/
def Event.shown : Event A → List (Option A)
  | .typed _ shown => shown
  | .read .. => []

/-- What an event takes out of the editor. -/
def Event.taken : Event A → List A
  | .typed .. => []
  | .read _ _ got eof _ => got ++ if eof then [R.eof] else []

/-- The line has not ended, and it ends when there is no place left. -/
structure Open (t : LineEditor A) : Prop where
  line : ∀ a ∈ t.line, a ≠ R.newline ∧ a ≠ R.eof
  size : t.ready.length + t.line.length ≤ R.size
  full : t.ready.length + t.line.length = R.size → t.line = []

theorem Open.type {R : Rules A} {t : LineEditor A} (h : t.Open R) (k : Key A) :
    (t.type R k).Open R := by
  have hsize := h.size
  cases k with
  | kill => exact ⟨nofun,by simp [LineEditor.type]; omega,fun _ => rfl⟩
  | erase =>
    refine ⟨fun a ha => h.line a ((List.dropLast_sublist t.line).subset ha),?_,fun hf => ?_⟩
    · simp [LineEditor.type]
      omega
    · have hlen : (t.line.dropLast).length = t.line.length - 1 := List.length_dropLast
      simp only [LineEditor.type,hlen] at hf ⊢
      have hl : t.line = [] := by
        by_cases hn : t.line.length = 0
        · exact List.eq_nil_of_length_eq_zero hn
        · omega
      simp [hl]
  | char a =>
    simp only [LineEditor.type]
    split
    · split
      · exact ⟨nofun,by simp; omega,fun _ => rfl⟩
      · rename_i hlt ha
        simp only [not_or] at ha
        refine ⟨fun b hb => ?_,by simp; omega,fun hf => ?_⟩
        · rcases List.mem_append.mp hb with hb | hb
          · exact h.line b hb
          · rw [List.mem_singleton.mp hb]
            exact ⟨ha.1,ha.2.1⟩
        · simp only [List.length_append,List.length_singleton] at hf
          omega
    · exact h

end LineEditor

end ResumePointers
