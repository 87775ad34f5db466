import Mathlib.Data.List.TakeWhile

/-! The parser of the shell (`sh.c`): the scanner `gettoken`, `peek`, and the recursive descent over
them. A string has no NUL, which stands behind its end. -/
namespace ResumePointers.User.Sh

abbrev Str := List Char

def MAXARGS : ℕ := 10
def O_RDONLY : ℕ := 0x000
def O_WRONLY : ℕ := 0x001
def O_CREATE : ℕ := 0x200

/-- Parsed command representation. -/
inductive Cmd
  | exec (argv : List Str)
  | redir (cmd : Cmd) (file : Str) (mode fd : ℕ)
  | pipe (left right : Cmd)
  | list (left right : Cmd)
  | back (cmd : Cmd)
deriving DecidableEq

def whitespace (c : Char) : Bool := c ∈ [' ','\t','\r','\n','\x0b']
def symbols (c : Char) : Bool := c ∈ ['<','|','>','&',';','(',')']

/-- The characters of words. -/
def plain (c : Char) : Bool := !whitespace c && !symbols c

def skip (s : Str) : Str := s.dropWhile whitespace

/-- The kind of the next token, its text, and what is behind it. -/
def gettoken (s : Str) : Char × Str × Str :=
  match skip s with
  | [] => ('\x00',[],[])
  | '>':: '>'::s => ('+',['>','>'],skip s)
  | c::s =>
    if symbols c then (c,[c],skip s)
    else ('a',(c::s).takeWhile plain,skip ((c::s).dropWhile plain))

def peek (s toks : Str) : Bool × Str :=
  match skip s with
  | [] => (false,[])
  | c::s => (toks.contains c,c::s)

/-- A redirection without the command that it is around. -/
structure Redir where
  file : Str
  mode : ℕ
  fd : ℕ
deriving DecidableEq

def redircmd (cmd : Cmd) (r : Redir) : Cmd := .redir cmd r.file r.mode r.fd

/-- The redirection for a token. -/
def redirection (tok : Char) (file : Str) : Redir :=
  if tok = '<' then ⟨file,O_RDONLY,0⟩ else ⟨file,O_WRONLY + O_CREATE,1⟩

/-- The loop of `parseredirs`; the redirections that it adds, the innermost first. In every function
here `fuel` bounds the iterations and the depth. -/
def parseredirs : ℕ → Str → Except String (List Redir × Str)
  | 0, _ => .error "fuel"
  | fuel + 1, s =>
    let (found,s) := peek s ['<','>']
    if found then
      let (tok,_,s) := gettoken s
      let (tok',file,s) := gettoken s
      if tok' ≠ 'a' then .error "missing file for redirection"
      else do
        let (rs,s) ← parseredirs fuel s
        pure (redirection tok file::rs,s)
    else pure ([],s)

/-- The loop of `parseexec` with the arguments found so far. The redirections are around the one
`execcmd`, into which later arguments are still put. -/
def parseargs : ℕ → List Str → List Redir → Str → Except String (Cmd × Str)
  | 0, _, _, _ => .error "fuel"
  | fuel + 1, argv, redirs, s =>
    let (found,s) := peek s ['|',')','&',';']
    if found then pure (redirs.foldl redircmd (.exec argv),s)
    else
      let (tok,arg,s') := gettoken s
      if tok = '\x00' then pure (redirs.foldl redircmd (.exec argv),s')
      else if tok ≠ 'a' then .error "syntax"
      else if argv.length + 1 ≥ MAXARGS then .error "too many args"
      else do
        let (rs,s) ← parseredirs fuel s'
        parseargs fuel (argv ++ [arg]) (redirs ++ rs) s

/-- The loop over `&` of `parseline`. -/
def parsebacks : ℕ → Cmd → Str → Except String (Cmd × Str)
  | 0, _, _ => .error "fuel"
  | fuel + 1, cmd, s =>
    let (found,s) := peek s ['&']
    if found then parsebacks fuel (.back cmd) (gettoken s).2.2 else pure (cmd,s)

mutual

def parseline : ℕ → Str → Except String (Cmd × Str)
  | 0, _ => .error "fuel"
  | fuel + 1, s => do
    let (cmd,s) ← parsepipe fuel s
    let (cmd,s) ← parsebacks fuel cmd s
    let (found,s) := peek s [';']
    if found then
      let (right,s) ← parseline fuel (gettoken s).2.2
      pure (.list cmd right,s)
    else pure (cmd,s)

def parsepipe : ℕ → Str → Except String (Cmd × Str)
  | 0, _ => .error "fuel"
  | fuel + 1, s => do
    let (cmd,s) ← parseexec fuel s
    let (found,s) := peek s ['|']
    if found then
      let (right,s) ← parsepipe fuel (gettoken s).2.2
      pure (.pipe cmd right,s)
    else pure (cmd,s)

def parseblock : ℕ → Str → Except String (Cmd × Str)
  | 0, _ => .error "fuel"
  | fuel + 1, s =>
    let (found,s) := peek s ['(']
    if !found then .error "parseblock"
    else do
      let (cmd,s) ← parseline fuel (gettoken s).2.2
      let (found,s) := peek s [')']
      if !found then .error "syntax - missing )"
      else
        let (rs,s) ← parseredirs fuel (gettoken s).2.2
        pure (rs.foldl redircmd cmd,s)

def parseexec : ℕ → Str → Except String (Cmd × Str)
  | 0, _ => .error "fuel"
  | fuel + 1, s =>
    let (found,s) := peek s ['(']
    if found then parseblock fuel s
    else do
      let (rs,s) ← parseredirs fuel s
      parseargs fuel [] rs s

end

def parsecmd (s : Str) : Except String Cmd := do
  let (cmd,s) ← parseline (4 * s.length + 5) s
  let (_,s) := peek s []
  if s ≠ [] then .error "syntax" else pure cmd

end ResumePointers.User.Sh
