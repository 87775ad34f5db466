import ResumePointers.Lib.Runs
import Mathlib.Data.Fintype.Basic
import Mathlib.Data.Finset.Card

/-! Threads that share a state, a mutex and a condition variable, in any number and any
interleaving. The code of a thread is a table with one atomic instruction for each program
counter. -/
namespace ResumePointers

variable {Tid σ Pc : Type}

/-- An atomic instruction. A wait on the condition variable is `unlock` to an `asleep`. -/
inductive Instr (σ Pc : Type)
  | call (next : List Pc)
  | lock (next : Pc)
  | unlock (next : Pc)
  | act (f : σ → σ) (next : σ → Pc)
  | asleep (woken : Pc)
  | signal (next : Pc)

structure Threads (Tid σ Pc : Type) where
  shared : σ
  owner : Option Tid
  pc : Tid → Pc

/-- A decision of the scheduler: who goes on, where a thread has a choice to what, and whom a
signal wakes. -/
inductive Sched (Tid Pc : Type)
  | call (t : Tid) (p : Pc)
  | run (t : Tid)
  | wakeup (t : Tid)
  | signal (t : Tid) (woken : List Tid)

/-- Where a thread goes that is woken, if it sleeps. -/
def Instr.wakes : Instr σ Pc → Option Pc
  | .asleep p => some p
  | _ => none

namespace Threads

variable [DecidableEq Tid]

def go (c : Threads Tid σ Pc) (t : Tid) (p : Pc) : Threads Tid σ Pc :=
  { c with pc := Function.update c.pc t p }

/-- A signal of `t`, which goes on to `p`, wakes the threads of `woken`. -/
def wake (code : Pc → Instr σ Pc) (c : Threads Tid σ Pc) (t : Tid) (p : Pc) (woken : List Tid) :
    Threads Tid σ Pc :=
  { c with pc := fun u =>
      if u = t then p else if u ∈ woken then (code (c.pc u)).wakes.getD (c.pc u) else c.pc u }

/-- The whole program is in the mutex and out of it only through `lock` and `unlock`; a decision
that is not possible stops with `()`. -/
def exec [DecidableEq Pc] [Fintype Tid] (code : Pc → Instr σ Pc) :
    Sched Tid Pc → EStateM Unit (Threads Tid σ Pc) Unit
  | .call t p => do
    let c ← get
    match code (c.pc t) with
    | .call next => if p ∈ next then set (c.go t p) else throw ()
    | _ => throw ()
  | .run t => do
    let c ← get
    match code (c.pc t) with
    | .lock p => if c.owner = none then set { c.go t p with owner := some t } else throw ()
    | .unlock p => set { c.go t p with owner := none }
    | .act f next => set { c.go t (next c.shared) with shared := f c.shared }
    | _ => throw ()
  | .wakeup t => do
    let c ← get
    match code (c.pc t) with
    | .asleep p => set (c.go t p)
    | _ => throw ()
  | .signal t woken => do
    let c ← get
    match code (c.pc t) with
    | .signal p =>
      if (∀ u ∈ woken, (code (c.pc u)).wakes ≠ none) ∧ woken.Nodup ∧
          (woken = [] → ∀ u, (code (c.pc u)).wakes = none) then set (c.wake code t p woken)
      else throw ()
    | _ => throw ()

variable {c : Threads Tid σ Pc} {t u : Tid} {p : Pc}

@[simp] theorem go_pc (c : Threads Tid σ Pc) (t : Tid) (p : Pc) :
    (c.go t p).pc = Function.update c.pc t p := rfl

section Rules

variable [DecidableEq Pc] [Fintype Tid] {code : Pc → Instr σ Pc} {Q : Threads Tid σ Pc → Prop}

theorem call_post (h : ∀ next, code (c.pc t) = .call next → p ∈ next → Q (c.go t p)) :
    Partial (exec code (.call t p)) c fun _ d => Q d := by
  simp only [exec,post_bind,post_get]
  split
  · rename_i next hc
    split
    · rename_i hp
      exact h next hc hp
    · trivial
  · trivial

/-- The rule of a thread that goes on: one goal for each kind of instruction. -/
theorem run_post
    (hlock : ∀ p, code (c.pc t) = .lock p → c.owner = none → Q { c.go t p with owner := some t })
    (hunlock : ∀ p, code (c.pc t) = .unlock p → Q { c.go t p with owner := none })
    (hact : ∀ f next, code (c.pc t) = .act f next →
      Q { c.go t (next c.shared) with shared := f c.shared }) :
    Partial (exec code (.run t)) c fun _ d => Q d := by
  simp only [exec,post_bind,post_get]
  split
  · rename_i q hc
    split
    · rename_i ho
      exact hlock q hc ho
    · trivial
  · rename_i q hc
    exact hunlock q hc
  · rename_i f next hc
    exact hact f next hc
  · trivial

theorem wakeup_post (h : ∀ p, code (c.pc t) = .asleep p → Q (c.go t p)) :
    Partial (exec code (.wakeup t)) c fun _ d => Q d := by
  simp only [exec,post_bind,post_get]
  split
  · rename_i q hc
    exact h q hc
  · trivial

theorem signal_post {woken : List Tid} (h : ∀ p, code (c.pc t) = .signal p →
    (∀ u ∈ woken, (code (c.pc u)).wakes ≠ none) → woken.Nodup →
    (woken = [] → ∀ u, (code (c.pc u)).wakes = none) → Q (c.wake code t p woken)) :
    Partial (exec code (.signal t woken)) c fun _ d => Q d := by
  simp only [exec,post_bind,post_get]
  split
  · rename_i q hc
    split
    · rename_i hw
      exact h q hc hw.1 hw.2.1 hw.2.2
    · trivial
  · trivial

/-- No instruction is one of a condition variable. -/
def Quiet (code : Pc → Instr σ Pc) : Prop := ∀ q, (code q).wakes = none ∧ ∀ p, code q ≠ .signal p

/-- A step of threads without condition variables is a call or an instruction. -/
theorem Quiet.post (hq : Quiet code) {op : Sched Tid Pc}
    (hcall : ∀ t p, op = .call t p → Partial (exec code (.call t p)) c fun _ d => Q d)
    (hrun : ∀ t, op = .run t → Partial (exec code (.run t)) c fun _ d => Q d) :
    Partial (exec code op) c fun _ d => Q d := by
  cases op with
  | call t p => exact hcall t p rfl
  | run t => exact hrun t rfl
  | wakeup t =>
    refine wakeup_post fun p hc => ?_
    have hn := (hq (c.pc t)).1
    rw [hc] at hn
    cases hn
  | signal t woken => exact signal_post fun p hc => ((hq _).2 p hc).elim

end Rules

/-- The owner of the mutex is the thread whose program counter is inside of it. -/
def Owned (holds : Pc → Bool) (owner : Option Tid) (pc : Tid → Pc) : Prop :=
  ∀ t, owner = some t ↔ holds (pc t) = true

namespace Owned

variable {holds : Pc → Bool} {owner : Option Tid} {pc : Tid → Pc}

theorem move (h : Owned holds owner pc) (hp : holds p = holds (pc t)) :
    Owned holds owner (Function.update pc t p) := by
  intro u
  by_cases hu : u = t
  · subst hu
    rw [Function.update_self,hp]
    exact h u
  · rw [Function.update_of_ne hu]
    exact h u

theorem lock (h : Owned holds none pc) (hp : holds p = true) :
    Owned holds (some t) (Function.update pc t p) := by
  intro u
  by_cases hu : u = t
  · subst hu
    rw [Function.update_self]
    exact iff_of_true rfl hp
  · rw [Function.update_of_ne hu,← h u]
    exact iff_of_false (fun he => hu (Option.some.inj he).symm) nofun

theorem unlock (h : Owned holds owner pc) (hold : holds (pc t) = true) (hp : holds p = false) :
    Owned holds none (Function.update pc t p) := by
  intro u
  by_cases hu : u = t
  · subst hu
    rw [Function.update_self,hp]
    exact iff_of_false nofun nofun
  · rw [Function.update_of_ne hu,← h u,(h t).mpr hold]
    exact iff_of_false nofun fun he => hu (Option.some.inj he).symm

omit [DecidableEq Tid] in
/-- Two threads are not inside at once. -/
theorem eq (h : Owned holds owner pc) (ht : holds (pc t) = true) (hu : holds (pc u) = true) :
    t = u :=
  Option.some.inj (((h t).mpr ht).symm.trans ((h u).mpr hu))

end Owned

/-- How many threads are at a program counter of `P`. -/
def count [Fintype Tid] (P : Pc → Bool) (pc : Tid → Pc) : ℕ :=
  (Finset.univ.filter fun t => P (pc t) = true).card

theorem count_update [Fintype Tid] (P : Pc → Bool) (pc : Tid → Pc) (t : Tid) (p : Pc) :
    count P (Function.update pc t p) + (P (pc t)).toNat = count P pc + (P p).toNat := by
  have hoff : ∀ q : Tid → Pc, count P q =
      ((Finset.univ.erase t).filter fun u => P (q u) = true).card + (P (q t)).toNat := by
    intro q
    rw [count,← Finset.insert_erase (Finset.mem_univ t),Finset.filter_insert,Finset.erase_insert]
    · cases hP : P (q t) with
      | true => rw [if_pos rfl,Finset.card_insert_of_notMem (by simp)]; rfl
      | false => rw [if_neg nofun]; rfl
    · exact Finset.notMem_erase t _
  have hsame : ((Finset.univ.erase t).filter fun u => P (Function.update pc t p u) = true) =
      (Finset.univ.erase t).filter fun u => P (pc u) = true :=
    Finset.filter_congr fun u hu => by rw [Function.update_of_ne (Finset.ne_of_mem_erase hu)]
  rw [hoff (Function.update pc t p),hoff pc,hsame,Function.update_self]
  omega

omit [DecidableEq Tid] in
theorem count_pos [Fintype Tid] {P : Pc → Bool} {pc : Tid → Pc} (h : P (pc t) = true) :
    0 < count P pc :=
  Finset.card_pos.mpr ⟨t,Finset.mem_filter.mpr ⟨Finset.mem_univ t,h⟩⟩

omit [DecidableEq Tid] in
theorem count_zero [Fintype Tid] {P : Pc → Bool} {pc : Tid → Pc} (h : count P pc = 0) (t : Tid) :
    P (pc t) = false :=
  Bool.eq_false_iff.mpr fun ht => absurd (count_pos ht) (by omega)

omit [DecidableEq Tid] in
theorem count_eq_zero [Fintype Tid] {P : Pc → Bool} {pc : Tid → Pc} (h : ∀ t, P (pc t) = false) :
    count P pc = 0 := by
  rw [count,Finset.card_eq_zero,Finset.filter_eq_empty_iff]
  intro t _
  rw [h t]
  decide

omit [DecidableEq Tid] in
/-- Of the threads inside, there is none but the one that holds the mutex. -/
theorem count_of_holds [Fintype Tid] {holds P : Pc → Bool} {owner : Option Tid} {pc : Tid → Pc}
    (h : Owned holds owner pc) (ht : holds (pc t) = true) (hP : ∀ p, P p = true → holds p = true) :
    count P pc = (P (pc t)).toNat := by
  have honly : ∀ u, P (pc u) = true → u = t := fun u hu => h.eq (hP _ hu) ht
  cases hp : P (pc t) with
  | true =>
    rw [count,Finset.card_eq_one.mpr ⟨t,?_⟩]
    · rfl
    · ext u
      rw [Finset.mem_filter,Finset.mem_singleton]
      refine ⟨fun hu => honly u hu.2,?_⟩
      rintro rfl
      exact ⟨Finset.mem_univ u,hp⟩
  | false =>
    refine count_eq_zero fun u => Bool.eq_false_iff.mpr fun hu => ?_
    rw [honly u hu,hp] at hu
    cases hu

end Threads

end ResumePointers
