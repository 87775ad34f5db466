import ResumePointers.Lib.Simulation
import Mathlib.Logic.Function.Basic

/-! A store whose cells are held by one party at a time: who gets a cell gets what was put there
last, and only who holds it puts something there. -/
namespace ResumePointers

variable {A V P : Type}

structure LockedStore (A V P : Type) where
  contents : A → V
  holder : A → Option P

namespace LockedStore

inductive Event (A V P : Type)
  | got (p : P) (a : A) (v : V)
  | put (p : P) (a : A) (v : V)
  | release (p : P) (a : A)
deriving DecidableEq

def fresh (v : A → V) : LockedStore A V P := ⟨v,fun _ => none⟩

variable [DecidableEq A]

inductive Step : Event A V P → LockedStore A V P → LockedStore A V P → Prop
  | got {t : LockedStore A V P} {a : A} (h : t.holder a = none) (p : P) :
      Step (.got p a (t.contents a)) t { t with holder := Function.update t.holder a (some p) }
  | put {t : LockedStore A V P} {p : P} {a : A} (h : t.holder a = some p) (v : V) :
      Step (.put p a v) t { t with contents := Function.update t.contents a v }
  | release {t : LockedStore A V P} {p : P} {a : A} (h : t.holder a = some p) :
      Step (.release p a) t { t with holder := Function.update t.holder a none }

/-- What an event leaves in a cell. -/
def Event.after (a : A) (v : V) : Event A V P → V
  | .put _ b w => if b = a then w else v
  | _ => v

/-- What was put into a cell last. -/
def last (v : A → V) (a : A) (es : List (Event A V P)) : V := es.foldl (Event.after a) (v a)

theorem contents_eq_last {v : A → V} {es : List (Event A V P)} {t : LockedStore A V P}
    (h : Trace Step (fresh v) es t) (a : A) : t.contents a = last v a es := by
  induction h with
  | nil => rfl
  | @snoc ls l t u _ hl ih =>
    rw [last,List.foldl_append,List.foldl_cons,List.foldl_nil,← last,← ih]
    cases hl with
    | got => rfl
    | release => rfl
    | @put _ p b h w =>
      by_cases hb : b = a
      · subst hb
        simp [Event.after]
      · simp [Event.after,hb,Function.update_of_ne (Ne.symm hb)]

/-- What a party gets is what was put last. -/
theorem got_eq_last {v : A → V} {es : List (Event A V P)} {t : LockedStore A V P} {p : P} {a : A}
    {x : V} (h : Trace Step (fresh v) (es ++ [.got p a x]) t) : x = last v a es := by
  generalize hes : es ++ [Event.got p a x] = es' at h
  cases h with
  | nil => simp at hes
  | @snoc ls l u _ hu hl =>
    obtain ⟨rfl,hl'⟩ := List.append_inj' hes rfl
    cases hl'
    cases hl
    exact contents_eq_last hu a

end LockedStore

end ResumePointers
