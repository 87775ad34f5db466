import ResumePointers.Lib.AtomicStore
import Mathlib.Data.Finset.Card

/-! The log of the file system (`os/memory-assignment/log.c`): processes that write blocks between
`begin_op` and `end_op`, the commit by the last of them, and the recovery after a crash. A crash
comes between two writes of blocks to the disk. -/
namespace ResumePointers.Fs

/-- The words of a block. -/
abbrev Sector := ℕ → ℕ

abbrev NPROC := 64
def MAXOPBLOCKS := 10
def LOGSIZE := MAXOPBLOCKS * 3

abbrev Proc := Fin NPROC

/-- The fields of the superblock that the log reads. -/
structure Superblock where
  logstart : ℕ
  nlog : ℕ

/-- Where the process is that commits or recovers: which block it writes next. -/
inductive Phase
  | off
  | idle
  | write_log (tail : ℕ)
  | install_trans (tail : ℕ)
deriving DecidableEq

/-- The disk, the buffers that are not written back yet (`B_DIRTY`), `struct log`, and for every
process in a system call the blocks it has written. The length of `lh` is `lh.n`. -/
structure State where
  disk : ℕ → Sector
  dirty : ℕ → Option Sector
  lh : List ℕ
  outstanding : ℤ
  committing : Bool
  phase : Phase
  ops : Proc → Option (Finset ℕ)

inductive Stop
  | sleep
  | panic (msg : String)
deriving DecidableEq

abbrev M := EStateM Stop State

/-- System calls run: the kernel has recovered. -/
def State.up (s : State) : Prop := s.phase = .idle ∨ s.committing = true

/-- The contents of a block, from its buffer if it is there. -/
def State.bread (s : State) (b : ℕ) : Sector := (s.dirty b).getD (s.disk b)

/-- The block numbers in a header block. -/
def read_head (hb : Sector) : List ℕ := (List.range (hb 0)).map fun i => hb (i + 1)

/-- The header block for these numbers; the words behind them stay. -/
def write_head (lh : List ℕ) (hb : Sector) : Sector
  | 0 => lh.length
  | i + 1 => (lh[i]?).getD (hb (i + 1))

/-- `sleep` is tried again later. -/
def begin_op (p : Proc) : M Unit := do
  let s ← get
  if s.committing then throw .sleep
  else if s.lh.length + (s.outstanding + 1) * MAXOPBLOCKS > (LOGSIZE : ℤ) then throw .sleep
  else set { s with outstanding := s.outstanding + 1, ops := Function.update s.ops p (some ∅) }

theorem begin_op_spec (p : Proc) (s : State) : Post (begin_op p) s
    (fun _ t => s.committing = false ∧
      s.lh.length + (s.outstanding + 1) * MAXOPBLOCKS ≤ (LOGSIZE : ℤ) ∧
      t = { s with
        outstanding := s.outstanding + 1, ops := Function.update s.ops p (some ∅) })
    fun e _ => e = .sleep ∧ (s.committing = true ∨
      s.lh.length + (s.outstanding + 1) * MAXOPBLOCKS > (LOGSIZE : ℤ)) := by
  simp only [begin_op,post_bind,post_get]
  split
  · rename_i hc
    exact ⟨rfl,.inl hc⟩
  · rename_i hc
    split
    · rename_i hn
      exact ⟨rfl,.inr hn⟩
    · rename_i hn
      exact ⟨by simpa using hc,by omega,rfl⟩

/-- A process reads a block, gives it the contents `data`, and calls `log_write`. -/
def log_write (sb : Superblock) (p : Proc) (b : ℕ) (data : Sector) : M Unit := do
  let s ← get
  if s.lh.length ≥ LOGSIZE ∨ s.lh.length + 1 ≥ sb.nlog then throw (.panic "too big a transaction")
  else if s.outstanding < 1 then throw (.panic "log_write outside of trans")
  else set { s with
    lh := if b ∈ s.lh then s.lh else s.lh ++ [b]
    dirty := Function.update s.dirty b (some data)
    ops := Function.update s.ops p ((s.ops p).map (insert b)) }

theorem log_write_spec (sb : Superblock) (p : Proc) (b : ℕ) (data : Sector) (s : State) :
    Post (log_write sb p b data) s
      (fun _ t => s.lh.length < LOGSIZE ∧ s.lh.length + 1 < sb.nlog ∧ 1 ≤ s.outstanding ∧
        t = { s with
          lh := if b ∈ s.lh then s.lh else s.lh ++ [b]
          dirty := Function.update s.dirty b (some data)
          ops := Function.update s.ops p ((s.ops p).map (insert b)) })
      fun _ _ => LOGSIZE ≤ s.lh.length ∨ sb.nlog ≤ s.lh.length + 1 ∨ s.outstanding < 1 := by
  simp only [log_write,post_bind,post_get]
  split
  · rename_i h
    exact h.imp id .inl
  · rename_i h
    push Not at h
    split
    · rename_i ho
      exact .inr (.inr ho)
    · rename_i ho
      exact ⟨h.1,h.2,by omega,rfl⟩

/-- The last process out goes on to `commit`. -/
def end_op (p : Proc) : M Unit := do
  let s ← get
  if s.committing then throw (.panic "log.committing")
  else if s.outstanding - 1 = 0 then set { s with
    outstanding := 0, committing := true, phase := .write_log 0, ops := Function.update s.ops p none }
  else set { s with outstanding := s.outstanding - 1, ops := Function.update s.ops p none }

theorem end_op_spec (p : Proc) (s : State) : Post (end_op p) s
    (fun _ t => s.committing = false ∧
      ((s.outstanding = 1 ∧ t = { s with
        outstanding := 0, committing := true, phase := .write_log 0
        ops := Function.update s.ops p none }) ∨
      (s.outstanding ≠ 1 ∧ t = { s with
        outstanding := s.outstanding - 1, ops := Function.update s.ops p none })))
    fun _ _ => s.committing = true := by
  simp only [end_op,post_bind,post_get]
  split
  · assumption
  · rename_i hc
    split
    · rename_i ho
      exact ⟨by simpa using hc,.inl ⟨by omega,rfl⟩⟩
    · rename_i ho
      exact ⟨by simpa using hc,.inr ⟨by omega,rfl⟩⟩

/-- The next block that `commit` or `recover_from_log` writes; the last one is the empty header. -/
def commit (sb : Superblock) : M Unit := do
  let s ← get
  match s.phase with
  | .write_log tail =>
    if s.lh = [] then set { s with committing := false, phase := .idle }
    else match s.lh[tail]? with
      | some b => set { s with
          disk := Function.update s.disk (sb.logstart + tail + 1) (s.bread b)
          phase := .write_log (tail + 1) }
      | none => set { s with
          disk := Function.update s.disk sb.logstart (write_head s.lh (s.bread sb.logstart))
          phase := .install_trans 0 }
  | .install_trans tail =>
    match s.lh[tail]? with
    | some b => set { s with
        disk := Function.update s.disk b (s.bread (sb.logstart + tail + 1))
        dirty := Function.update s.dirty b none
        phase := .install_trans (tail + 1) }
    | none => set { s with
        disk := Function.update s.disk sb.logstart (write_head [] (s.bread sb.logstart))
        lh := []
        committing := false
        phase := .idle }
  | _ => throw .sleep

theorem commit_spec (sb : Superblock) (s : State) : Post (commit sb) s
    (fun _ t => (∃ tail, s.phase = .write_log tail ∧ s.lh = [] ∧
        t = { s with committing := false, phase := .idle }) ∨
      (∃ tail b, s.phase = .write_log tail ∧ s.lh[tail]? = some b ∧ t = { s with
        disk := Function.update s.disk (sb.logstart + tail + 1) (s.bread b)
        phase := .write_log (tail + 1) }) ∨
      (∃ tail, s.phase = .write_log tail ∧ s.lh.length ≤ tail ∧ s.lh ≠ [] ∧ t = { s with
        disk := Function.update s.disk sb.logstart (write_head s.lh (s.bread sb.logstart))
        phase := .install_trans 0 }) ∨
      (∃ tail b, s.phase = .install_trans tail ∧ s.lh[tail]? = some b ∧ t = { s with
        disk := Function.update s.disk b (s.bread (sb.logstart + tail + 1))
        dirty := Function.update s.dirty b none
        phase := .install_trans (tail + 1) }) ∨
      (∃ tail, s.phase = .install_trans tail ∧ s.lh.length ≤ tail ∧ t = { s with
        disk := Function.update s.disk sb.logstart (write_head [] (s.bread sb.logstart))
        lh := []
        committing := false
        phase := .idle }))
    fun e _ => e = .sleep ∧ (s.phase = .off ∨ s.phase = .idle) := by
  simp only [commit,post_bind,post_get]
  split
  · rename_i tail hp
    split
    · rename_i hl
      exact .inl ⟨tail,hp,hl,rfl⟩
    · rename_i hl
      split
      · rename_i b hb
        exact .inr (.inl ⟨tail,b,hp,hb,rfl⟩)
      · rename_i hb
        exact .inr (.inr (.inl ⟨tail,hp,List.getElem?_eq_none_iff.mp hb,hl,rfl⟩))
  · rename_i tail hp
    split
    · rename_i b hb
      exact .inr (.inr (.inr (.inl ⟨tail,b,hp,hb,rfl⟩)))
    · rename_i hb
      exact .inr (.inr (.inr (.inr ⟨tail,hp,List.getElem?_eq_none_iff.mp hb,rfl⟩)))
  · rename_i h₁ h₂
    refine ⟨rfl,?_⟩
    cases hp : s.phase with
    | off => exact .inl rfl
    | idle => exact .inr rfl
    | write_log tail => exact (h₁ tail hp).elim
    | install_trans tail => exact (h₂ tail hp).elim

/-- The memory is lost. -/
def crash : M Unit :=
  modify fun s => { s with
    dirty := fun _ => none, lh := [], outstanding := 0, committing := false, phase := .off
    ops := fun _ => none }

/-- `initlog`, up to the first block that `recover_from_log` writes. -/
def initlog (sb : Superblock) : M Unit := do
  let s ← get
  if s.phase = .off then set { s with
    lh := read_head (s.bread sb.logstart), phase := .install_trans 0 }
  else throw .sleep

theorem initlog_spec (sb : Superblock) (s : State) : Post (initlog sb) s
    (fun _ t => s.phase = .off ∧
      t = { s with lh := read_head (s.bread sb.logstart), phase := .install_trans 0 })
    fun e _ => e = .sleep := by
  simp only [initlog,post_bind,post_get]
  split
  · rename_i hp
    exact ⟨hp,rfl⟩
  · exact rfl

inductive Op
  | begin_op (p : Proc)
  | log_write (p : Proc) (b : ℕ) (data : Sector)
  | end_op (p : Proc)
  | commit
  | crash
  | initlog

def step (sb : Superblock) : Op → M Unit
  | .begin_op p => begin_op p
  | .log_write p b data => log_write sb p b data
  | .end_op p => end_op p
  | .commit => commit sb
  | .crash => crash
  | .initlog => initlog sb

/-- The blocks outside of the log. -/
def Home (sb : Superblock) (b : ℕ) : Prop := b < sb.logstart ∨ sb.logstart + sb.nlog ≤ b

/-- How system calls use the log: between `begin_op` and `end_op` a process writes blocks outside of
the log, and has written fewer than `MAXOPBLOCKS` different ones before it writes one more. -/
def Used (sb : Superblock) : Op → State → Prop
  | .begin_op p, s => s.up ∧ s.ops p = none
  | .log_write p b _, s => (∃ ws, s.ops p = some ws ∧ ws.card < MAXOPBLOCKS) ∧ Home sb b
  | .end_op p, s => s.ops p ≠ none
  | _, _ => True

/-- A machine that is off, with an empty log on its disk. -/
structure Formatted (sb : Superblock) (s : State) : Prop where
  empty : read_head (s.disk sb.logstart) = []
  dirty : s.dirty = fun _ => none
  lh : s.lh = []
  outstanding : s.outstanding = 0
  committing : s.committing = false
  phase : s.phase = .off
  ops : s.ops = fun _ => none

/-- A disk of zeros. -/
def blank : State := ⟨fun _ _ => 0,fun _ => none,[],0,false,.off,fun _ => none⟩

theorem formatted_blank (sb : Superblock) : Formatted sb blank := ⟨rfl,rfl,rfl,rfl,rfl,rfl,rfl⟩

/-- The runs of the log, with crashes. -/
abbrev Runs (sb : Superblock) : State → List Op → State → Prop :=
  Trace (Completes (step sb) (Used sb))

end ResumePointers.Fs
