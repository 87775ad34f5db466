import Mathlib
import ResumePointers.Shell.Splitting
import ResumePointers.Shell.Commands

/-! Chains with `&&` in the shell of the quiz (`os/lab-quiz1-submission/my-shell-b.c`), which reads
its lines and cuts them into tokens as the other one does. A command tells of a failed `execvp`
through a pipe; what status it ends with nobody asks. -/
namespace ResumePointers.Shell.Chain

/-- How a command ends: `execvp` returns, or its program exits with a status. -/
inductive Outcome
  | execFailure
  | exited (status : ℕ)
deriving DecidableEq

/-- What the child writes into its pipe. -/
def Outcome.written : Outcome → Option ℤ
  | .execFailure => some (-1)
  | .exited _ => none

/-- The variable `success` after `read`. At the end of file it is left as it was, which is `stale`,
for it has no first value. -/
def success (written : Option ℤ) (stale : ℤ) : ℤ := written.getD stale

/-- The loop that replaces the separators by `NULL`, from index `i` on, with the places behind
them. -/
def cut : List Token → ℕ → List Cell × List ℤ
  | [],_ => ([Cell.null],[])
  | t::ts,i =>
    let (tokens,prev) := cut ts (i + 1)
    if t = andAnd then (.null::tokens,(i + 1 : ℕ)::prev) else (.str t::tokens,prev)

/-- The array `prev`. -/
def starts (prev : List ℤ) : List ℤ :=
  (0::prev) ++ List.replicate (MAX_NUM_TOKENS - (prev.length + 1)) (-1)

/-- The loop over `prev`, with the vectors for `execvp`. Every round waits for its command. -/
def chainLoop (outcome : ℕ → Outcome) (stale : ℕ → ℤ) (tokens : List Cell) :
    List ℤ → ℕ → Option (List (List Token))
  | [],_ => some []
  | start::prev,i =>
    if start = -1 then some []
    else do
      let cmd ← argv (tokens.drop start.toNat)
      if success (outcome i).written (stale i) = -1 then some [cmd]
      else
        let cmds ← chainLoop outcome stale tokens prev (i + 1)
        some (cmd::cmds)

/-- The branch without `&&`. The copy of a name of the environment has room for eight characters. -/
def single (getenv : Token → Option Token) : List Token → Option (List (List Token))
  | [] => none
  | [t] => if t = ['e','c','h','o'] then none else some [[t]]
  | t::s::ts =>
    if t = ['e','c','h','o'] ∧ s.head? = some '$' then
      if s.length ≤ 9 then
        match getenv s.tail with
        | some env => some [t::env::ts]
        | none => some [[t]]
      else none
    else some [t::s::ts]

/-- The commands that a line runs; `none` where something outside of an array is read or written. -/
def run (getenv : Token → Option Token) (outcome : ℕ → Outcome) (stale : ℕ → ℤ) (line : List Char) :
    Option (List (List Token)) := do
  let line ← lineRead line
  let tokens ← tokenize line
  if andAnd ∈ tokens then
    let (tokens,prev) := cut tokens 0
    chainLoop outcome stale tokens (starts prev) 0
  else single getenv tokens

/-- The commands of a chain. -/
def commands (line : List Char) : List (List Token) := (words line).splitOnP (· == andAnd)

/-- A line of commands with `&&` between them that fits the buffers. -/
structure Joined (line : List Char) : Prop where
  short : line.length ≤ 1022
  tokens_short : ∀ t ∈ words line, t.length < MAX_TOKEN_SIZE
  tokens_few : (words line).length < MAX_NUM_TOKENS
  separated : andAnd ∈ words line
  nonempty : ∀ s ∈ commands line, s ≠ []

/-- Every command but the last one has succeeded, where `i` is the place of the first one. -/
def Succeeded (outcome : ℕ → Outcome) (i : ℕ) (cmds : List (List Token)) : Prop :=
  ∀ j, j + 1 < cmds.length → outcome (i + j) = .exited 0

/-- The longest front of a chain in which every command but the last one has succeeded. -/
structure Longest (outcome : ℕ → Outcome) (i : ℕ) (chain cmds : List (List Token)) : Prop where
  front : cmds <+: chain
  succeeded : Succeeded outcome i cmds
  longest : ∀ other, other <+: chain → Succeeded outcome i other → other.length ≤ cmds.length

/-- Where a command that is not the last one is reached and its program ends, nothing is read, and
`success` happens to have a value that fits the status. -/
def Fitting (outcome : ℕ → Outcome) (stale : ℕ → ℤ) (i n : ℕ) : Prop :=
  ∀ j, j + 1 < n → (∀ k < j, outcome (i + k) = .exited 0) →
    ∀ status, outcome (i + j) = .exited status → (status = 0 ↔ stale (i + j) ≠ -1)

variable {outcome : ℕ → Outcome} {stale : ℕ → ℤ} {getenv : Token → Option Token} {line : List Char}
  {chain cmds : List (List Token)} {i : ℕ}

/-- The tokens with `NULL` behind every command. -/
def flat (cmds : List (List Token)) : List Cell := cmds.flatMap fun cmd => cmd.map .str ++ [Cell.null]

/-- The places behind the separators, where `i` is the place of the first command. -/
def offsets : ℕ → List (List Token) → List ℤ
  | i,cmd::next::cmds => (i + cmd.length + 1 : ℕ)::offsets (i + cmd.length + 1) (next::cmds)
  | _,_ => []

theorem cut_eq (ts : List Token) (i : ℕ) : cut ts i =
    (flat (ts.splitOnP (· == andAnd)),offsets i (ts.splitOnP (· == andAnd))) := by
  induction ts generalizing i with
  | nil => rfl
  | cons t ts ih =>
    obtain ⟨cmd,cmds,hsplit⟩ := List.exists_cons_of_ne_nil (List.splitOnP_ne_nil (· == andAnd) ts)
    rw [cut,ih,List.splitOnP_cons_eq_if_modifyHead,hsplit]
    by_cases ht : t = andAnd
    · simp [ht,flat,offsets]
    · have hne : (t == andAnd) = false := by simpa using ht
      simp only [if_neg ht,hne,Bool.false_eq_true,if_false,List.modifyHead_cons]
      cases cmds with
      | nil => simp [flat,offsets]
      | cons next cmds =>
        have hplace : i + 1 + cmd.length + 1 = i + (t::cmd).length + 1 := by
          rw [List.length_cons]
          omega
        simp only [flat,offsets,hplace,List.flatMap_cons,List.map_cons,List.cons_append]

/-- What is run of a chain. -/
def ran (outcome : ℕ → Outcome) (stale : ℕ → ℤ) : ℕ → List (List Token) → List (List Token)
  | _,[] => []
  | i,cmd::cmds =>
    cmd::if success (outcome i).written (stale i) = -1 then [] else ran outcome stale (i + 1) cmds

theorem argv_flat (cmd : List Token) (cmds : List (List Token)) :
    argv (flat (cmd::cmds)) = some cmd := by
  rw [flat,List.flatMap_cons,List.append_assoc,argv_map]
  simp [argv]

/-- The loop, from the command on that begins behind `front`. -/
theorem chainLoop_eq (outcome : ℕ → Outcome) (stale : ℕ → ℤ) (front : List Cell)
    (cmd : List Token) (cmds : List (List Token)) (i n : ℕ) :
    chainLoop outcome stale (front ++ flat (cmd::cmds))
      ((front.length : ℤ)::offsets front.length (cmd::cmds) ++ List.replicate n (-1)) i =
      some (ran outcome stale i (cmd::cmds)) := by
  have hstart (front : List Cell) : (front.length : ℤ) ≠ -1 := by omega
  induction cmds generalizing front cmd i with
  | nil =>
    have hend : chainLoop outcome stale (front ++ flat [cmd]) (List.replicate n (-1)) (i + 1) =
        some [] := by
      cases n <;> rfl
    have hoff : offsets front.length [cmd] = [] := rfl
    rw [hoff,List.cons_append,List.nil_append,chainLoop,if_neg (hstart front),
      Int.toNat_natCast,List.drop_left,argv_flat,hend]
    simp only [bind,Option.bind_some,ran]
    split_ifs <;> rfl
  | cons next cmds ih =>
    have hnext := ih (front ++ (cmd.map Cell.str ++ [Cell.null])) next (i + 1)
    have hflat : front ++ flat (cmd::next::cmds) =
        front ++ (cmd.map Cell.str ++ [Cell.null]) ++ flat (next::cmds) := by
      simp [flat]
    have hlen : (front ++ (cmd.map Cell.str ++ [Cell.null])).length = front.length + cmd.length + 1 := by
      simp [Nat.add_assoc]
    rw [← hflat,hlen] at hnext
    rw [offsets,List.cons_append,chainLoop,if_neg (hstart front),Int.toNat_natCast,List.drop_left,
      argv_flat,hnext]
    simp only [bind,Option.bind_some]
    by_cases hstop : success (outcome i).written (stale i) = -1
    · simp [ran,hstop]
    · rw [if_neg hstop,ran.eq_def outcome stale i]
      simp only [if_neg hstop]

/-- What a chain should run. -/
def expected (outcome : ℕ → Outcome) : ℕ → List (List Token) → List (List Token)
  | _,[] => []
  | i,cmd::cmds => cmd::if outcome i = .exited 0 then expected outcome (i + 1) cmds else []

theorem succeeded_cons (cmd : List Token) (h : cmds ≠ []) :
    Succeeded outcome i (cmd::cmds) ↔ outcome i = .exited 0 ∧ Succeeded outcome (i + 1) cmds := by
  have hpos := List.length_pos_iff.mpr h
  constructor
  · intro hs
    refine ⟨hs 0 (by rw [List.length_cons]; omega),fun j hj => ?_⟩
    have := hs (j + 1) (by rw [List.length_cons]; omega)
    rwa [← Nat.add_assoc,Nat.add_right_comm] at this
  · rintro ⟨h0,hs⟩ j hj
    cases j with
    | zero => exact h0
    | succ j =>
      rw [List.length_cons] at hj
      have := hs j (by omega)
      rwa [Nat.add_right_comm] at this

theorem expected_longest (outcome : ℕ → Outcome) (i : ℕ) (chain : List (List Token)) :
    Longest outcome i chain (expected outcome i chain) := by
  induction chain generalizing i with
  | nil =>
    refine ⟨List.prefix_rfl,?_,?_⟩
    · intro j hj
      exact absurd hj (Nat.not_lt_zero _)
    · intro other hother _
      rw [List.prefix_nil.mp hother]
      exact le_rfl
  | cons cmd chain ih =>
    rw [expected]
    by_cases h0 : outcome i = .exited 0
    · rw [if_pos h0]
      obtain ⟨hfront,hsucc,hlong⟩ := ih (i + 1)
      refine ⟨(List.prefix_cons_inj cmd).mpr hfront,?_,?_⟩
      · by_cases hnil : expected outcome (i + 1) chain = []
        · rw [hnil]
          intro j hj
          rw [List.length_singleton] at hj
          omega
        · exact (succeeded_cons cmd hnil).mpr ⟨h0,hsucc⟩
      · intro other hother hs
        cases other with
        | nil => exact Nat.zero_le _
        | cons c other =>
          obtain ⟨rfl,hrest⟩ := List.cons_prefix_cons.mp hother
          rw [List.length_cons,List.length_cons]
          apply Nat.succ_le_succ
          by_cases hnil : other = []
          · rw [hnil]
            exact Nat.zero_le _
          · exact hlong other hrest ((succeeded_cons c hnil).mp hs).2
    · rw [if_neg h0]
      refine ⟨(List.prefix_cons_inj cmd).mpr (List.nil_prefix ..),?_,?_⟩
      · intro j hj
        rw [List.length_singleton] at hj
        omega
      · intro other hother hs
        by_contra hlen
        rw [List.length_singleton,not_le] at hlen
        exact h0 (hs 0 hlen)

/-- There is only one such front. -/
theorem longest_iff : Longest outcome i chain cmds ↔ cmds = expected outcome i chain := by
  constructor
  · rintro ⟨hfront,hsucc,hlong⟩
    obtain ⟨hfront',hsucc',hlong'⟩ := expected_longest outcome i chain
    have hlen : cmds.length = (expected outcome i chain).length :=
      le_antisymm (hlong' cmds hfront hsucc) (hlong _ hfront' hsucc')
    exact (List.prefix_of_prefix_length_le hfront hfront' hlen.le).eq_of_length hlen
  · rintro rfl
    exact expected_longest outcome i chain

theorem fitting_cons {n : ℕ} : Fitting outcome stale i (n + 2) ↔
    (∀ status, outcome i = .exited status → (status = 0 ↔ stale i ≠ -1)) ∧
      (outcome i = .exited 0 → Fitting outcome stale (i + 1) (n + 1)) := by
  constructor
  · intro h
    refine ⟨h 0 (by omega) (fun k hk => absurd hk (Nat.not_lt_zero k)),fun h0 j hj hk => ?_⟩
    have := h (j + 1) (by omega) (fun k hk' => ?_)
    · rwa [← Nat.add_assoc,Nat.add_right_comm] at this
    · cases k with
      | zero => exact h0
      | succ k =>
        have := hk k (by omega)
        rwa [Nat.add_right_comm] at this
  · rintro ⟨h0,hrest⟩ j hj hk
    cases j with
    | zero => exact h0
    | succ j =>
      have := hrest (hk 0 (Nat.succ_pos j)) j (by omega) (fun k hk' => ?_)
      · rwa [Nat.add_right_comm] at this
      · have := hk (k + 1) (by omega)
        rwa [← Nat.add_assoc,Nat.add_right_comm] at this

theorem ran_eq_iff (chain : List (List Token)) (i : ℕ) :
    ran outcome stale i chain = expected outcome i chain ↔ Fitting outcome stale i chain.length := by
  induction chain generalizing i with
  | nil => exact iff_of_true rfl fun j hj => absurd hj (Nat.not_lt_zero _)
  | cons cmd chain ih =>
    rw [ran,expected,List.cons.injEq,and_iff_right rfl]
    cases chain with
    | nil =>
      refine iff_of_true ?_ fun j hj => absurd hj (by rw [List.length_singleton]; omega)
      simp [ran,expected]
    | cons next chain =>
      rw [List.length_cons,List.length_cons,fitting_cons,← List.length_cons,← ih]
      cases hout : outcome i with
      | execFailure => simp [success,Outcome.written]
      | exited status =>
        by_cases hstale : stale i = -1
        · by_cases hs : status = 0
          · simp [success,Outcome.written,hstale,hs,expected]
          · simp [success,Outcome.written,hstale,hs]
        · by_cases hs : status = 0
          · simp [success,Outcome.written,hstale,hs]
          · simp [success,Outcome.written,hstale,hs,ran]

theorem run_eq (h : Joined line) :
    run getenv outcome stale line = some (ran outcome stale 0 (commands line)) := by
  have hline : line.length + 2 ≤ MAX_INPUT_SIZE := by
    have := h.short
    rw [MAX_INPUT_SIZE]
    omega
  obtain ⟨cmd,cmds,hcmds⟩ := List.exists_cons_of_ne_nil
    (List.splitOnP_ne_nil (· == andAnd) (words line))
  have hloop := chainLoop_eq outcome stale [] cmd cmds 0
    (MAX_NUM_TOKENS - ((offsets 0 (cmd::cmds)).length + 1))
  rw [run,lineRead,if_pos hline]
  simp only [bind,Option.bind_some,tokenize_line h.tokens_short h.tokens_few,if_pos h.separated,
    cut_eq,hcmds,commands]
  exact hloop

/-- A chain runs its longest front whose commands but the last one succeed if and only if
`success` fits wherever it is not set. -/
theorem run_longest_iff (getenv : Token → Option Token) (outcome : ℕ → Outcome) (stale : ℕ → ℤ)
    (h : Joined line) :
    (∃ cmds, run getenv outcome stale line = some cmds ∧
      Longest outcome 0 (commands line) cmds) ↔
    Fitting outcome stale 0 (commands line).length := by
  rw [run_eq h,← ran_eq_iff]
  simp only [Option.some.injEq,longest_iff]
  constructor
  · rintro ⟨cmds,hran,hexp⟩
    exact hran.trans hexp
  · exact fun h => ⟨_,rfl,h⟩

def catLine : List Char := "cat x && ls".toList

theorem joined_cat : Joined catLine where
  short := by decide
  tokens_short := by decide
  tokens_few := by decide
  separated := by decide
  nonempty := by decide

theorem run_longest_cat : ∃ cmds,
    run (fun _ => none) (fun _ => .exited 0) (fun _ => 0) catLine = some cmds ∧
      Longest (fun _ => .exited 0) 0 (commands catLine) cmds := by
  refine (run_longest_iff (fun _ => none) (fun _ => .exited 0) (fun _ => 0) joined_cat).mpr ?_
  intro j _ _ status h
  cases h
  simp

/-- `ls` is run although `cat` has found no file. -/
theorem failed_command_goes_on : Joined catLine ∧
    run (fun _ => none) (fun i => if i = 0 then .exited 1 else .exited 0) (fun _ => 0) catLine =
      some [["cat".toList,['x']],["ls".toList]] ∧
    ¬ Longest (fun i => if i = 0 then .exited 1 else .exited 0) 0 (commands catLine)
      [["cat".toList,['x']],["ls".toList]] := by
  refine ⟨joined_cat,by decide,?_⟩
  intro h
  have := h.succeeded 0 (by decide)
  cases this

end ResumePointers.Shell.Chain
