import ResumePointers.Lib.Threads

/-! The semaphore (`os/zemaphore.c`). `zem_down` waits once where it finds the count negative, and
goes on when it is woken, whoever woke it. -/
namespace ResumePointers.Sync.Zemaphore

open Threads

/-- `countVal`, and what no program writes down: the calls of `zem_down` that have returned and
the calls of `zem_up` that have performed their increment. -/
structure Zem where
  countVal : ℤ
  returned : ℤ
  raised : ℤ
deriving DecidableEq

inductive Pc
  | idle
  | dLock
  | dDec
  | dTest
  | dWait
  | dSleep
  | dRelock
  | dUnlock
  | dReturn
  | uLock
  | uInc
  | uSignal
  | uUnlock
deriving DecidableEq

/-- `zem_down` and `zem_up`. A wait releases the mutex, sleeps, and takes the mutex again. -/
def code : Pc → Instr Zem Pc
  | .idle => .call [.dLock,.uLock]
  | .dLock => .lock .dDec
  | .dDec => .act (fun s => { s with countVal := s.countVal - 1 }) fun _ => .dTest
  | .dTest => .act id fun s => if s.countVal < 0 then .dWait else .dUnlock
  | .dWait => .unlock .dSleep
  | .dSleep => .asleep .dRelock
  | .dRelock => .lock .dUnlock
  | .dUnlock => .unlock .dReturn
  | .dReturn => .act (fun s => { s with returned := s.returned + 1 }) fun _ => .idle
  | .uLock => .lock .uInc
  | .uInc => .act (fun s => { s with countVal := s.countVal + 1, raised := s.raised + 1 })
    fun _ => .uSignal
  | .uSignal => .signal .uUnlock
  | .uUnlock => .unlock .idle

def Pc.holds : Pc → Bool
  | .dDec | .dTest | .dWait | .dUnlock | .uInc | .uSignal | .uUnlock => true
  | _ => false

/-- Past the decrement of `zem_down`, and not yet returned. -/
def Pc.down : Pc → Bool
  | .dTest | .dWait | .dSleep | .dRelock | .dUnlock | .dReturn => true
  | _ => false

/-- Waiting, or about to find out whether to wait. -/
def Pc.waits : Pc → Bool
  | .dTest | .dWait | .dSleep => true
  | _ => false

/-- Past the increment of `zem_up`, and before the signal. -/
def Pc.signals : Pc → Bool
  | .uSignal => true
  | _ => false

variable {Tid : Type} [Fintype Tid] [DecidableEq Tid] {c : Threads Tid Zem Pc} {t u : Tid}
  {p q : Pc} {k : ℕ}

/-- `zem_init(s, k)`, before any thread has made a call. -/
def init (Tid : Type) (k : ℕ) : Threads Tid Zem Pc := ⟨⟨k,0,0⟩,none,fun _ => .idle⟩

/-- Where the count is negative, there are so many threads waiting for it to rise, and one more
for a `zem_up` that has not signalled yet. -/
structure Inv (k : ℕ) (c : Threads Tid Zem Pc) : Prop where
  owned : Owned Pc.holds c.owner c.pc
  balance : c.shared.countVal + c.shared.returned + count Pc.down c.pc = k + c.shared.raised
  debt : (count Pc.signals c.pc : ℤ) - c.shared.countVal ≤ count Pc.waits c.pc

omit [DecidableEq Tid] in
theorem init_inv : Inv k (init Tid k) where
  owned t := iff_of_false nofun nofun
  balance := by
    rw [count_eq_zero fun _ => rfl]
    simp [init]
  debt := by
    rw [count_eq_zero fun _ => rfl,count_eq_zero fun _ => rfl]
    simp [init]

/-- A thread at `q` goes on to `p`. -/
theorem Inv.step (h : Inv k c) (hq : c.pc t = q) {o : Option Tid} {s : Zem}
    (ho : Owned Pc.holds o (Function.update c.pc t p))
    (hb : s.countVal + s.returned + p.down.toNat + c.shared.raised =
      c.shared.countVal + c.shared.returned + q.down.toNat + s.raised)
    (hd : (p.signals.toNat : ℤ) + q.waits.toNat + c.shared.countVal ≤
        q.signals.toNat + p.waits.toNat + s.countVal ∨
      (count Pc.signals (Function.update c.pc t p) : ℤ) - s.countVal ≤ 0) :
    Inv k (⟨s,o,Function.update c.pc t p⟩ : Threads Tid Zem Pc) where
  owned := ho
  balance := by
    have h1 := count_update Pc.down c.pc t p
    have h2 := h.balance
    rw [hq] at h1
    dsimp only
    omega
  debt := by
    have h1 := count_update Pc.signals c.pc t p
    have h2 := count_update Pc.waits c.pc t p
    have h3 := h.debt
    rw [hq] at h1 h2
    dsimp only
    omega

/-- Where a thread goes that neither counts nor waits nor signals. -/
def plain : List (Pc × Pc) :=
  [(.idle,.dLock),(.idle,.uLock),(.dLock,.dDec),(.dRelock,.dUnlock),(.dUnlock,.dReturn),(.uLock,.uInc),
    (.uUnlock,.idle)]

/-- What a step comes to. -/
inductive Stepped (c : Threads Tid Zem Pc) : Threads Tid Zem Pc → Prop
  | plain {t : Tid} {p : Pc} {o : Option Tid} (hm : (c.pc t,p) ∈ plain)
    (ho : Owned Pc.holds o (Function.update c.pc t p)) :
    Stepped c ⟨c.shared,o,Function.update c.pc t p⟩
  | decrement {t : Tid} (hq : c.pc t = .dDec)
    (ho : Owned Pc.holds c.owner (Function.update c.pc t .dTest)) :
    Stepped c ⟨{ c.shared with countVal := c.shared.countVal - 1 },c.owner,
      Function.update c.pc t .dTest⟩
  | below {t : Tid} (hq : c.pc t = .dTest) (hneg : c.shared.countVal < 0)
    (ho : Owned Pc.holds c.owner (Function.update c.pc t .dWait)) :
    Stepped c ⟨c.shared,c.owner,Function.update c.pc t .dWait⟩
  | notBelow {t : Tid} (hq : c.pc t = .dTest) (hneg : ¬ c.shared.countVal < 0)
    (ho : Owned Pc.holds c.owner (Function.update c.pc t .dUnlock)) :
    Stepped c ⟨c.shared,c.owner,Function.update c.pc t .dUnlock⟩
  | wait {t : Tid} (hq : c.pc t = .dWait)
    (ho : Owned Pc.holds none (Function.update c.pc t .dSleep)) :
    Stepped c ⟨c.shared,none,Function.update c.pc t .dSleep⟩
  | back {t : Tid} (hq : c.pc t = .dReturn)
    (ho : Owned Pc.holds c.owner (Function.update c.pc t .idle)) :
    Stepped c ⟨{ c.shared with returned := c.shared.returned + 1 },c.owner,
      Function.update c.pc t .idle⟩
  | increment {t : Tid} (hq : c.pc t = .uInc)
    (ho : Owned Pc.holds c.owner (Function.update c.pc t .uSignal)) :
    Stepped c ⟨{ c.shared with countVal := c.shared.countVal + 1, raised := c.shared.raised + 1 },
      c.owner,Function.update c.pc t .uSignal⟩
  | unheard {t : Tid} (hq : c.pc t = .uSignal) (hnone : ∀ u, (code (c.pc u)).wakes = none)
    (ho : Owned Pc.holds c.owner (Function.update c.pc t .uUnlock)) : Stepped c (c.go t .uUnlock)
  | heard {t u : Tid} (hq : c.pc t = .uSignal) (hu : c.pc u = .dSleep)
    (ho : Owned Pc.holds c.owner (Function.update (Function.update c.pc u .dRelock) t .uUnlock)) :
    Stepped c ((c.go u .dRelock).go t .uUnlock)

theorem run_stepped (h : Owned Pc.holds c.owner c.pc) :
    Partial (exec code (.run t)) c fun _ d => Stepped c d := by
  refine run_post (fun p hc ho => ?_) (fun p hc => ?_) fun f next hc => ?_
  · have hlock : p.holds = true → Owned Pc.holds (some t) (Function.update c.pc t p) := fun hp =>
      Owned.lock (ho ▸ h) hp
    cases hq : c.pc t with
    | dLock => rw [hq] at hc; cases hc; exact .plain (by rw [hq]; decide) (hlock rfl)
    | dRelock => rw [hq] at hc; cases hc; exact .plain (by rw [hq]; decide) (hlock rfl)
    | uLock => rw [hq] at hc; cases hc; exact .plain (by rw [hq]; decide) (hlock rfl)
    | _ => rw [hq] at hc; cases hc
  · have hunlock : (c.pc t).holds = true → p.holds = false →
        Owned Pc.holds none (Function.update c.pc t p) := fun hh hp => h.unlock hh hp
    cases hq : c.pc t with
    | dWait => rw [hq] at hc hunlock; cases hc; exact .wait hq (hunlock rfl rfl)
    | dUnlock => rw [hq] at hc hunlock; cases hc; exact .plain (by rw [hq]; decide) (hunlock rfl rfl)
    | uUnlock => rw [hq] at hc hunlock; cases hc; exact .plain (by rw [hq]; decide) (hunlock rfl rfl)
    | _ => rw [hq] at hc; cases hc
  · have hmove : ∀ {p : Pc}, p.holds = (c.pc t).holds →
        Owned Pc.holds c.owner (Function.update c.pc t p) := fun hp => h.move hp
    cases hq : c.pc t with
    | dDec => rw [hq] at hc hmove; cases hc; exact .decrement hq (hmove rfl)
    | dTest =>
      rw [hq] at hc hmove
      cases hc
      dsimp only
      split
      · next hneg => exact .below hq hneg (hmove rfl)
      · next hneg => exact .notBelow hq hneg (hmove rfl)
    | dReturn => rw [hq] at hc hmove; cases hc; exact .back hq (hmove rfl)
    | uInc => rw [hq] at hc hmove; cases hc; exact .increment hq (hmove rfl)
    | _ => rw [hq] at hc; cases hc

omit [Fintype Tid] in
/-- A signal that wakes nobody. -/
theorem wake_nil (p : Pc) : c.wake code t p [] = c.go t p := by
  simp only [wake,go,List.not_mem_nil,if_false]
  congr 1
  funext u
  rw [Function.update_apply]

omit [Fintype Tid] in
theorem wake_one (hu : c.pc u = .dSleep) (hne : u ≠ t) (p : Pc) :
    c.wake code t p [u] = (c.go u .dRelock).go t p := by
  simp only [wake,go,List.mem_singleton]
  congr 1
  funext v
  rw [Function.update_apply,Function.update_apply]
  by_cases hv : v = u
  · subst hv
    rw [if_neg hne,if_pos rfl,if_neg hne,if_pos rfl,hu]
    rfl
  · rw [if_neg hv,if_neg hv]

/-- Nobody wakes without a signal, and a signal wakes one thread at most. -/
def Calm (op : Sched Tid Pc) (_ : Threads Tid Zem Pc) : Prop :=
  match op with
  | .wakeup _ => False
  | .signal _ woken => woken.length ≤ 1
  | _ => True

omit [Fintype Tid] [DecidableEq Tid] in
theorem asleep_of_wakes (hu : (code (c.pc u)).wakes ≠ none) : c.pc u = .dSleep := by
  cases hr : c.pc u with
  | dSleep => rfl
  | _ => rw [hr] at hu; exact (hu rfl).elim

/-- What a signal does that wakes one thread at most. -/
theorem signal_cases {woken : List Tid} (hok : Calm (.signal t woken) c) :
    Partial (exec code (.signal t woken)) c fun _ d => c.pc t = .uSignal ∧
      ((∀ u, (code (c.pc u)).wakes = none) ∧ d = c.go t .uUnlock ∨
        ∃ u, c.pc u = .dSleep ∧ d = (c.go u .dRelock).go t .uUnlock) := by
  refine signal_post fun p hc hsleep _ hnone => ?_
  cases hq : c.pc t with
  | uSignal =>
    rw [hq] at hc
    cases hc
    refine ⟨rfl,?_⟩
    cases woken with
    | nil => exact .inl ⟨hnone rfl,wake_nil _⟩
    | cons u rest =>
      obtain rfl : rest = [] := by
        simpa [Calm] using hok
      have hu := asleep_of_wakes (hsleep u (List.mem_singleton_self u))
      have hne : u ≠ t := by
        rintro rfl
        rw [hq] at hu
        cases hu
      exact .inr ⟨u,hu,wake_one hu hne _⟩
  | _ => rw [hq] at hc; cases hc

/-- A step without a spurious wake-up is one of these. -/
theorem exec_stepped (op : Sched Tid Pc) (h : Owned Pc.holds c.owner c.pc) (hok : Calm op c) :
    Partial (exec code op) c fun _ d => Stepped c d := by
  cases op with
  | call t p =>
    refine call_post fun next hc hp => ?_
    cases hq : c.pc t with
    | idle =>
      rw [hq] at hc
      cases hc
      rcases List.mem_cons.mp hp with rfl | hp
      · exact .plain (by rw [hq]; decide) (h.move (hq ▸ rfl))
      · obtain rfl := List.mem_singleton.mp hp
        exact .plain (by rw [hq]; decide) (h.move (hq ▸ rfl))
    | _ => rw [hq] at hc; cases hc
  | run t => exact run_stepped h
  | wakeup t => exact hok.elim
  | signal t woken =>
    refine (signal_cases hok).imp ?_
    rintro - d ⟨hq,⟨hnone,rfl⟩ | ⟨u,hu,rfl⟩⟩
    · exact .unheard hq hnone (h.move (hq ▸ rfl))
    · have hne : t ≠ u := by
        rintro rfl
        rw [hq] at hu
        cases hu
      have hone : Owned Pc.holds c.owner (Function.update c.pc u .dRelock) := h.move (hu ▸ rfl)
      refine .heard hq hu (hone.move ?_)
      rw [Function.update_of_ne hne,hq]
      rfl

omit [Fintype Tid] [DecidableEq Tid] in
/-- The mutex is held, so no `zem_up` is between its increment and its signal. -/
theorem no_signal (h : Owned Pc.holds c.owner c.pc) (hq : c.pc t = q) (hh : q.holds = true)
    (hs : q.signals = false) : (c.pc u).signals = false := by
  rw [Bool.eq_false_iff]
  intro hu
  have hhu : (c.pc u).holds = true := by
    cases hr : c.pc u with
    | uSignal => rfl
    | _ => rw [hr] at hu; cases hu
  rw [h.eq hhu (hq ▸ hh),hq,hs] at hu
  cases hu

theorem plain_counts (h : (q,p) ∈ plain) :
    p.down = q.down ∧ p.signals = q.signals ∧ p.waits = q.waits := by
  have hall : ∀ m ∈ plain,
      m.2.down = m.1.down ∧ m.2.signals = m.1.signals ∧ m.2.waits = m.1.waits := by decide
  exact hall _ h

theorem exec_inv (op : Sched Tid Pc) (h : Inv k c) (hok : Calm op c) :
    Partial (exec code op) c fun _ d => Inv k d := by
  refine (exec_stepped op h.owned hok).imp fun _ d hd => ?_
  cases hd with
  | plain hm ho =>
    obtain ⟨hdown,hsignals,hwaits⟩ := plain_counts hm
    exact h.step rfl ho (by rw [hdown]) (.inl (by rw [hsignals,hwaits]))
  | decrement hq ho =>
    refine h.step hq ho ?_ (.inl ?_)
    · simp only [Pc.down,Bool.toNat_true,Bool.toNat_false]
      omega
    · simp only [Pc.signals,Pc.waits,Bool.toNat_true,Bool.toNat_false]
      omega
  | below hq hneg ho => exact h.step hq ho rfl (.inl le_rfl)
  | @notBelow t hq hneg ho =>
    refine h.step hq ho rfl (.inr ?_)
    rw [count_eq_zero fun u => ?_]
    · omega
    · by_cases hut : u = t
      · subst hut
        rw [Function.update_self]
        rfl
      · rw [Function.update_of_ne hut]
        exact no_signal h.owned hq rfl rfl
  | wait hq ho => exact h.step hq ho rfl (.inl le_rfl)
  | back hq ho =>
    refine h.step hq ho ?_ (.inl le_rfl)
    simp only [Pc.down,Bool.toNat_true,Bool.toNat_false]
    omega
  | increment hq ho =>
    refine h.step hq ho ?_ (.inl ?_)
    · simp only [Pc.down,Bool.toNat_false]
      omega
    · simp only [Pc.signals,Pc.waits,Bool.toNat_true,Bool.toNat_false]
      omega
  | unheard hq hnone ho =>
    refine h.step hq ho rfl (.inl ?_)
    simp only [Pc.signals,Pc.waits,Bool.toNat_true,Bool.toNat_false]
    omega
  | @heard t u hq hu ho =>
    -- the signal is given, and the thread that got it no longer waits
    have hne : t ≠ u := by
      rintro rfl
      rw [hq] at hu
      cases hu
    have ht : Function.update c.pc u .dRelock t = .uSignal := by
      rw [Function.update_of_ne hne,hq]
    have d1 := count_update Pc.down c.pc u .dRelock
    have d2 := count_update Pc.down (Function.update c.pc u .dRelock) t .uUnlock
    have s1 := count_update Pc.signals c.pc u .dRelock
    have s2 := count_update Pc.signals (Function.update c.pc u .dRelock) t .uUnlock
    have w1 := count_update Pc.waits c.pc u .dRelock
    have w2 := count_update Pc.waits (Function.update c.pc u .dRelock) t .uUnlock
    rw [hu] at d1 s1 w1
    rw [ht] at d2 s2 w2
    simp only [Pc.down,Pc.signals,Pc.waits,Bool.toNat_true,Bool.toNat_false] at d1 d2 s1 s2 w1 w2
    have hbal := h.balance
    have hdebt := h.debt
    refine ⟨ho,?_,?_⟩
    · simp only [go]
      omega
    · simp only [go]
      omega

/-- The interleavings without spurious wake-ups. -/
abbrev Run (Tid : Type) [Fintype Tid] [DecidableEq Tid] (k : ℕ) : Threads Tid Zem Pc → Prop :=
  Reach (exec code) Calm fun c => c = init Tid k

end ResumePointers.Sync.Zemaphore
