import ResumePointers.Lib.Simulation
import Mathlib.Data.Set.Insert

/-! A store whose contents survive a crash as a whole: several parties write between a start and a
finish, and only what is there while none of them is active becomes durable. -/
namespace ResumePointers

variable {A V P : Type}

/-- The contents now, the contents after a crash, and who is between its start and its finish. -/
structure AtomicStore (A V P : Type) where
  durable : A → V
  live : A → V
  active : Set P

namespace AtomicStore

inductive Event (A V P : Type)
  | start (p : P)
  | write (p : P) (a : A) (v : V)
  | finish (p : P)
  | commit
  | crash

/-- The events that the parties see; a commit is none of them. -/
def Event.seen : Event A V P → Option (Event A V P)
  | .commit => none
  | e => some e

def fresh (v : A → V) : AtomicStore A V P := ⟨v,v,∅⟩

variable [DecidableEq A]

inductive Step : Event A V P → AtomicStore A V P → AtomicStore A V P → Prop
  | start {t : AtomicStore A V P} {p : P} (h : p ∉ t.active) :
      Step (.start p) t { t with active := insert p t.active }
  | write {t : AtomicStore A V P} {p : P} (h : p ∈ t.active) (a : A) (v : V) :
      Step (.write p a v) t { t with live := Function.update t.live a v }
  | finish {t : AtomicStore A V P} {p : P} (h : p ∈ t.active) :
      Step (.finish p) t { t with active := t.active \ {p} }
  | commit {t : AtomicStore A V P} (h : t.active = ∅) :
      Step .commit t { t with durable := t.live }
  | crash (t : AtomicStore A V P) : Step .crash t { t with live := t.durable, active := ∅ }

/-- All or nothing: the durable contents are those of a moment of the run at which nobody was
active. -/
theorem durable_quiescent {es : List (Event A V P)} {v : A → V} {t : AtomicStore A V P}
    (h : Trace Step (fresh v) es t) :
    ∃ es' u, es' <+: es ∧ Trace Step (fresh v) es' u ∧ u.active = ∅ ∧ u.live = t.durable := by
  induction h with
  | nil => exact ⟨[],fresh v,List.prefix_refl _,.nil,rfl,rfl⟩
  | @snoc ls l t₁ t₂ htr hl ih =>
    obtain ⟨es',u,hpre,hu,hact,hlive⟩ := ih
    have hkeep (hd : t₂.durable = t₁.durable) : ∃ es' u, es' <+: ls ++ [l] ∧
        Trace Step (fresh v) es' u ∧ u.active = ∅ ∧ u.live = t₂.durable :=
      ⟨es',u,hpre.trans (List.prefix_append _ _),hu,hact,hlive.trans hd.symm⟩
    cases hl with
    | commit he => exact ⟨ls,_,List.prefix_append _ _,htr,he,rfl⟩
    | start => exact hkeep rfl
    | write => exact hkeep rfl
    | finish => exact hkeep rfl
    | crash => exact hkeep rfl

end AtomicStore

end ResumePointers
