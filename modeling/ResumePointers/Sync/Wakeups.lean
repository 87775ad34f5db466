import ResumePointers.Sync.Zemaphore

/-! Who waits at the semaphore of `os/zemaphore.c`: with the mutex free, as many threads as the count
is below 0, if nobody wakes without a signal. -/
namespace ResumePointers.Sync.Zemaphore

open Threads

/-- Blocked in the condition wait, and not yet signalled. -/
def Pc.asleep : Pc → Bool
  | .dSleep => true
  | _ => false

/-- Past the decrement of `zem_down`, and not yet asleep or past the test. -/
def Pc.owes : Pc → Bool
  | .dTest | .dWait => true
  | _ => false

variable {Tid : Type} [Fintype Tid] [DecidableEq Tid] {c d : Threads Tid Zem Pc} {t u : Tid}
  {p q : Pc} {k : ℕ}

/-- The count without the steps of a `zem_down` and of a `zem_up` that have only begun. -/
def level (c : Threads Tid Zem Pc) : ℤ :=
  c.shared.countVal + count Pc.owes c.pc - count Pc.signals c.pc

/-- There are as many sleepers as the count, so taken, is below 0, and who goes to sleep has found
it there. -/
structure Level (c : Threads Tid Zem Pc) : Prop where
  owned : Owned Pc.holds c.owner c.pc
  sleepers : (count Pc.asleep c.pc : ℤ) = max 0 (-level c)
  below : ∀ t, c.pc t = .dWait → c.shared.countVal < 0

/-- A thread at `q` goes on to `p`, and changes the number of sleepers as it changes the level. -/
theorem Level.step (h : Level c) (hq : c.pc t = q) {o : Option Tid} {s : Zem}
    (ho : Owned Pc.holds o (Function.update c.pc t p))
    (hs : ∀ l : ℤ, l = level c → (p.asleep.toNat : ℤ) - q.asleep.toNat =
      max 0 (-(l + (s.countVal - c.shared.countVal) + p.owes.toNat - q.owes.toNat -
        p.signals.toNat + q.signals.toNat)) - max 0 (-l))
    (hb : p = .dWait → s.countVal < 0)
    (hv : s.countVal = c.shared.countVal ∨ q.holds = true) :
    Level (⟨s,o,Function.update c.pc t p⟩ : Threads Tid Zem Pc) where
  owned := ho
  sleepers := by
    have h1 := count_update Pc.asleep c.pc t p
    have h2 := count_update Pc.owes c.pc t p
    have h3 := count_update Pc.signals c.pc t p
    have h4 := h.sleepers
    have h5 := hs _ rfl
    rw [hq] at h1 h2 h3
    unfold level at *
    dsimp only
    omega
  below u hu := by
    dsimp only at hu ⊢
    by_cases hut : u = t
    · subst hut
      rw [Function.update_self] at hu
      exact hb hu
    · rw [Function.update_of_ne hut] at hu
      rcases hv with hv | hv
      · rw [hv]
        exact h.below u hu
      · exact (hut (h.owned.eq (by rw [hu]; rfl) (by rw [hq]; exact hv))).elim

/-- A step that neither counts nor sleeps nor wakes. -/
theorem Level.move (h : Level c) (hq : c.pc t = q) {o : Option Tid} {s : Zem}
    (ho : Owned Pc.holds o (Function.update c.pc t p)) (hs : s.countVal = c.shared.countVal)
    (h1 : p.asleep = q.asleep) (h2 : p.owes = q.owes) (h3 : p.signals = q.signals)
    (hb : p = .dWait → s.countVal < 0) :
    Level (⟨s,o,Function.update c.pc t p⟩ : Threads Tid Zem Pc) :=
  h.step hq ho (fun l _ => by rw [h1,h2,h3,hs]; omega) hb (.inl hs)

omit [DecidableEq Tid] in
/-- With the mutex, a thread knows the level. -/
theorem Level.eq (h : Level c) (hq : c.pc t = q) (hh : q.holds = true) :
    level c = c.shared.countVal + q.owes.toNat - q.signals.toNat := by
  subst hq
  have h1 := count_of_holds (P := Pc.owes) h.owned hh fun p hp => by cases p <;> first | rfl | cases hp
  have h2 := count_of_holds (P := Pc.signals) h.owned hh fun p hp => by
    cases p <;> first | rfl | cases hp
  rw [level,h1,h2]

end ResumePointers.Sync.Zemaphore
