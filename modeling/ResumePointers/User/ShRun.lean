import ResumePointers.User.ShGrammar
import Mathlib.Logic.Function.Basic

/-! What the shell executes (`runcmd` of `sh.c`): it wires a command with `close`, `dup`, `pipe` and
`open`, which take the lowest free descriptor. -/
namespace ResumePointers.User.Sh

def NOFILE : ℕ := 16

/-- What a descriptor is for; `α` is what the shell was started with. A pipe is named by the place of
its command in the line. -/
inductive Desc (α : Type)
  | start (a : α)
  | opened (file : Str) (mode : ℕ)
  | read (pipe : List Bool)
  | write (pipe : List Bool)
deriving DecidableEq

abbrev Table (α : Type) := ℕ → Option (Desc α)

/-- The programs that are started, with what each of them has: one after the other, at once, or
without waiting. What is behind an `open` is for the case that the file can be opened. -/
inductive Run (β : Type)
  | exit
  | panic (msg : String)
  | exec (argv : List Str) (b : β)
  | opening (file : Str) (mode : ℕ) (cmd : Run β)
  | list (left right : Run β)
  | pipe (left right : Run β)
  | back (cmd : Run β)
deriving DecidableEq

def Run.map {β γ : Type} (f : β → γ) : Run β → Run γ
  | exit => exit
  | panic msg => panic msg
  | exec argv b => exec argv (f b)
  | opening file mode cmd => opening file mode (cmd.map f)
  | list left right => list (left.map f) (right.map f)
  | pipe left right => pipe (left.map f) (right.map f)
  | back cmd => back (cmd.map f)

variable {α : Type}

def fdalloc (t : Table α) : Option ℕ := (List.range NOFILE).find? fun fd => (t fd).isNone

def close (t : Table α) (fd : ℕ) : Table α := Function.update t fd none

/-- The table with a new descriptor, and the descriptor. -/
def alloc (t : Table α) (d : Desc α) : Option (ℕ × Table α) :=
  (fdalloc t).map fun fd => (fd,Function.update t fd (some d))

def dup (t : Table α) (fd : ℕ) : Table α :=
  match t fd with
  | none => t
  | some d => ((alloc t d).map (·.2)).getD t

/-- `here` is the place of the command in the line. A child has its own copy of the table. -/
def runcmd (here : List Bool) : Cmd → Table α → Run (Table α)
  | .exec [], _ => .exit
  | .exec argv, t => .exec argv t
  | .redir cmd file mode fd, t =>
    .opening file mode (match alloc (close t fd) (.opened file mode) with
      | none => .exit
      | some (_,t) => runcmd (here ++ [false]) cmd t)
  | .list left right, t =>
    .list (runcmd (here ++ [false]) left t) (runcmd (here ++ [true]) right t)
  | .pipe left right, t =>
    match alloc t (.read here) with
    | none => .panic "pipe"
    | some (p0,t) =>
      match alloc t (.write here) with
      | none => .panic "pipe"
      | some (p1,t) =>
        .pipe
          (runcmd (here ++ [false]) left (close (close (dup (close t 1) p1) p0) p1))
          (runcmd (here ++ [true]) right (close (close (dup (close t 0) p0) p0) p1))
  | .back cmd, t => .back (runcmd (here ++ [false]) cmd t)

/-- What a program reads and writes. -/
structure Io (α : Type) where
  stdin : Desc α
  stdout : Desc α
  stderr : Desc α
deriving DecidableEq

/-- The table of a program: its three descriptors and no other. -/
def Io.table (io : Io α) : Table α
  | 0 => some io.stdin
  | 1 => some io.stdout
  | 2 => some io.stderr
  | _ => none

/-- What a command means. -/
def wire (here : List Bool) : Cmd → Io α → Run (Io α)
  | .exec [], _ => .exit
  | .exec argv, io => .exec argv io
  | .redir cmd file mode fd, io =>
    .opening file mode (wire (here ++ [false]) cmd
      (if fd = 0 then { io with stdin := .opened file mode }
      else { io with stdout := .opened file mode }))
  | .list left right, io =>
    .list (wire (here ++ [false]) left io) (wire (here ++ [true]) right io)
  | .pipe left right, io =>
    .pipe (wire (here ++ [false]) left { io with stdout := .write here })
      (wire (here ++ [true]) right { io with stdin := .read here })
  | .back cmd, io => .back (wire (here ++ [false]) cmd io)

/-- Every redirection is one of the standard input or output. -/
def Redirects : Cmd → Prop
  | .exec _ => True
  | .redir cmd _ _ fd => fd < 2 ∧ Redirects cmd
  | .pipe left right => Redirects left ∧ Redirects right
  | .list left right => Redirects left ∧ Redirects right
  | .back cmd => Redirects cmd

theorem redirects_foldl {rs : List Redir} (hrs : ∀ r ∈ rs, r.fd < 2) {c : Cmd} (hc : Redirects c) :
    Redirects (rs.foldl redircmd c) := by
  induction rs generalizing c with
  | nil => exact hc
  | cons r rs ih =>
    exact ih (fun r' hr => hrs r' (List.mem_cons_of_mem r hr)) ⟨hrs r (by simp),hc⟩

theorem Items.fd_lt {ts : List Token} {argv : List Str} {rs : List Redir} (h : Items ts argv rs) :
    ∀ r ∈ rs, r.fd < 2 := by
  induction h with
  | nil => simp
  | word _ _ ih => exact ih
  | redir _ w _ ih =>
    rw [List.forall_mem_cons]
    refine ⟨?_,ih⟩
    unfold redirection
    split <;> simp

theorem redirects_back (k : ℕ) {c : Cmd} (hc : Redirects c) : Redirects (Cmd.back^[k] c) := by
  induction k generalizing c with
  | zero => exact hc
  | succ k ih => exact ih hc

theorem Derives.redirects {k : Kind} {ts : List Token} {c : Cmd} (h : Derives k ts c) :
    Redirects c := by
  induction h with
  | items hi _ => exact redirects_foldl hi.fd_lt trivial
  | block _ hr ih => exact redirects_foldl hr.fd_lt ih
  | single _ ih => exact ih
  | pipe _ _ ihc ihd => exact ⟨ihc,ihd⟩
  | last k _ ih => exact redirects_back k ih
  | list k _ _ ihc ihd => exact ⟨redirects_back k ihc,ihd⟩

theorem fdalloc_eq {t : Table α} {fd : ℕ} (hfd : fd < NOFILE) (hlt : ∀ i < fd, t i ≠ none)
    (h : t fd = none) : fdalloc t = some fd := by
  rw [fdalloc,List.find?_range_eq_some]
  refine ⟨by rw [h]; rfl,List.mem_range.mpr hfd,fun i hi => ?_⟩
  simpa [Option.isSome_iff_ne_none] using hlt i hi

theorem alloc_eq {t : Table α} {fd : ℕ} (hfd : fd < NOFILE) (hlt : ∀ i < fd, t i ≠ none)
    (h : t fd = none) (d : Desc α) : alloc t d = some (fd,Function.update t fd (some d)) := by
  rw [alloc,fdalloc_eq hfd hlt h]
  rfl

/-- The table of a program with a pipe. -/
def Io.piped (io : Io α) (here : List Bool) : Table α :=
  Function.update (Function.update io.table 3 (some (.read here))) 4 (some (.write here))

@[simp] theorem close_self (t : Table α) (fd : ℕ) : close t fd fd = none := Function.update_self _ _ _

theorem table_ne_none (io : Io α) : ∀ fd < 3, io.table fd ≠ none
  | 0, _ => nofun
  | 1, _ => nofun
  | 2, _ => nofun

theorem alloc_stdin (io : Io α) (d : Desc α) :
    alloc (close io.table 0) d = some (0,{ io with stdin := d }.table) := by
  rw [alloc_eq (by decide) (by omega) (close_self _ _),close,Function.update_idem]
  congr 2
  funext fd
  rcases fd with _ | _ | _ | fd <;> rfl

theorem alloc_stdout (io : Io α) (d : Desc α) :
    alloc (close io.table 1) d = some (1,{ io with stdout := d }.table) := by
  have hlt : ∀ i < 1, close io.table 1 i ≠ none := fun i hi => by
    obtain rfl : i = 0 := by omega
    nofun
  rw [alloc_eq (by decide) hlt (close_self _ _),close,Function.update_idem]
  congr 2
  funext fd
  rcases fd with _ | _ | _ | fd <;> rfl

theorem alloc_read (io : Io α) (here : List Bool) : alloc io.table (.read here) =
    some (3,Function.update io.table 3 (some (.read here))) :=
  alloc_eq (by decide) (table_ne_none io) rfl _

theorem alloc_write (io : Io α) (here : List Bool) :
    alloc (Function.update io.table 3 (some (.read here))) (.write here) =
      some (4,io.piped here) := by
  refine alloc_eq (by decide) (fun i hi => ?_) rfl _
  by_cases h3 : i = 3
  · subst h3
    simp
  · rw [Function.update_of_ne h3]
    exact table_ne_none io i (by omega)

/-- The left child of a pipe. -/
theorem piped_left (io : Io α) (here : List Bool) :
    close (close (dup (close (io.piped here) 1) 4) 3) 4 =
      { io with stdout := .write here }.table := by
  have hlt : ∀ i < 1, close (io.piped here) 1 i ≠ none := fun i hi => by
    obtain rfl : i = 0 := by omega
    nofun
  have hd : close (io.piped here) 1 4 = some (.write here) := rfl
  rw [dup,hd]
  dsimp only
  rw [alloc_eq (by decide) hlt (close_self _ _)]
  funext fd
  rcases fd with _ | _ | _ | _ | _ | fd <;> rfl

theorem piped_right (io : Io α) (here : List Bool) :
    close (close (dup (close (io.piped here) 0) 3) 3) 4 =
      { io with stdin := .read here }.table := by
  have hd : close (io.piped here) 0 3 = some (.read here) := rfl
  rw [dup,hd]
  dsimp only
  rw [alloc_eq (by decide) (by omega) (close_self _ _)]
  funext fd
  rcases fd with _ | _ | _ | _ | _ | fd <;> rfl

theorem runcmd_eq_wire {c : Cmd} (h : Redirects c) (here : List Bool) (io : Io α) :
    runcmd here c io.table = (wire here c io).map Io.table := by
  induction c generalizing here io with
  | exec argv => cases argv <;> rfl
  | redir cmd file mode fd ih =>
    obtain ⟨hfd,hc⟩ := h
    rw [runcmd,wire,Run.map]
    obtain rfl | rfl : fd = 0 ∨ fd = 1 := by omega
    · rw [alloc_stdin]
      exact congrArg (Run.opening file mode) (ih hc _ _)
    · rw [alloc_stdout]
      exact congrArg (Run.opening file mode) (ih hc _ _)
  | pipe left right ihl ihr =>
    rw [runcmd,wire,Run.map,alloc_read]
    dsimp only
    rw [alloc_write]
    dsimp only
    rw [piped_left,piped_right,ihl h.1,ihr h.2]
  | list left right ihl ihr => rw [runcmd,wire,Run.map,ihl h.1,ihr h.2]
  | back cmd ih => rw [runcmd,wire,Run.map,ih h]

/-- A line that the shell reads runs as it means: with `close`, `dup`, `pipe` and `open`, every program
gets its standard input and output and no other descriptor. -/
theorem runcmd_parsecmd {s : Str} {c : Cmd} (h : parsecmd s = .ok c) (io : Io α) :
    runcmd [] c io.table = (wire [] c io).map Io.table :=
  runcmd_eq_wire (derives_of_parsecmd h).redirects [] io

/-- What the shell itself reads and writes. -/
def console : Io ℕ := ⟨.start 0,.start 1,.start 2⟩

theorem runcmd_parsecmd_pipe :
    runcmd [] (.pipe (.exec [['a']]) (.exec [['b']])) console.table =
      .pipe (.exec [['a']] { console with stdout := .write [] }.table)
        (.exec [['b']] { console with stdin := .read [] }.table) :=
  runcmd_parsecmd (s := ['a','|','b']) (by decide +kernel) console

end ResumePointers.User.Sh
