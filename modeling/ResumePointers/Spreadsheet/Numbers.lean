import Mathlib

/-! The numbers of the spreadsheet's formulas: exact rationals, the two infinities and `NaN`, with
the arithmetic and the `parseFloat` of the language. -/
namespace ResumePointers.Spreadsheet

inductive Num
  | nan
  | negInf
  | fin (q : ℚ)
  | posInf
deriving DecidableEq

namespace Num

def isNaN : Num → Bool
  | nan => true
  | _ => false

/-- -1, 0 or 1. -/
def sign : Num → ℤ
  | nan => 0
  | negInf => -1
  | fin q => if q < 0 then -1 else if 0 < q then 1 else 0
  | posInf => 1

/-- The infinity of a sign; `NaN` for no sign. -/
def infinite (s : ℤ) : Num := if s < 0 then negInf else if 0 < s then posInf else nan

def add : Num → Num → Num
  | nan,_ => nan
  | _,nan => nan
  | fin a,fin b => fin (a + b)
  | negInf,posInf => nan
  | posInf,negInf => nan
  | negInf,_ => negInf
  | _,negInf => negInf
  | posInf,_ => posInf
  | _,posInf => posInf

def neg : Num → Num
  | nan => nan
  | negInf => posInf
  | fin q => fin (-q)
  | posInf => negInf

def sub (a b : Num) : Num := a.add b.neg

def mul : Num → Num → Num
  | nan,_ => nan
  | _,nan => nan
  | fin a,fin b => fin (a * b)
  | a,b => infinite (a.sign * b.sign)

def div : Num → Num → Num
  | nan,_ => nan
  | _,nan => nan
  | fin a,fin b => if b = 0 then infinite (fin a).sign else fin (a / b)
  | fin _,_ => fin 0
  | a,fin b => infinite (a.sign * if b < 0 then -1 else 1)
  | _,_ => nan

/-- `a < b`, which is false for a `NaN`. -/
def lt : Num → Num → Bool
  | nan,_ => false
  | _,nan => false
  | fin a,fin b => a < b
  | negInf,negInf => false
  | negInf,_ => true
  | fin _,posInf => true
  | _,_ => false

/-- `Math.min` of two numbers. -/
def min (a b : Num) : Num := if a.isNaN || b.isNaN then nan else if b.lt a then b else a

def max (a b : Num) : Num := if a.isNaN || b.isNaN then nan else if a.lt b then b else a

end Num

/-- White space of the language. -/
def isSpace (c : Char) : Bool :=
  c.toNat ∈ [0x9,0xa,0xb,0xc,0xd,0x20,0xa0,0x1680,0x2028,0x2029,0x202f,0x205f,0x3000,0xfeff] ∨
    0x2000 ≤ c.toNat ∧ c.toNat ≤ 0x200a

def isDigit (c : Char) : Bool := '0' ≤ c ∧ c ≤ '9'

def isUpper (c : Char) : Bool := 'A' ≤ c ∧ c ≤ 'Z'

/-- The number that a string of digits writes. -/
def digitsValue (ds : List Char) : ℕ := ds.foldl (fun n d => 10 * n + (d.toNat - 48)) 0

/-- A sign, and what follows it. -/
def splitSign : List Char → Bool × List Char
  | '-'::s => (true,s)
  | '+'::s => (false,s)
  | s => (false,s)

/-- The power of ten that an exponent at the front of the text stands for. -/
def exponent : List Char → ℤ
  | c::s =>
    if c = 'e' ∨ c = 'E' then
      let (negative,s) := splitSign s
      let ds := s.takeWhile isDigit
      if negative then -digitsValue ds else digitsValue ds
    else 0
  | [] => 0

/-- `parseFloat`: the longest prefix that is a decimal literal. -/
def parseFloat (text : List Char) : Num :=
  let (negative,s) := splitSign (text.dropWhile isSpace)
  if ['I','n','f','i','n','i','t','y'].isPrefixOf s then if negative then .negInf else .posInf
  else
    let (whole,s) := s.span isDigit
    let (fraction,s) := match s with
      | '.'::t => t.span isDigit
      | s => ([],s)
    if whole = [] ∧ fraction = [] then .nan
    else
      let q : ℚ := digitsValue (whole ++ fraction) * (10 : ℚ) ^ (exponent s - fraction.length)
      .fin (if negative then -q else q)

end ResumePointers.Spreadsheet
