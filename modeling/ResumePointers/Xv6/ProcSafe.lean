import ResumePointers.Xv6.ProcFamily

/-! The table of processes is safe under every scheduling: a process is executed by one processor at a
time, its slot is not freed under it, and no wakeup of `wait` is lost. -/
namespace ResumePointers.Xv6.ProcTable

/-- A process at this place has the lock. -/
def Pc.holds : Pc → Bool
  | .user | .forking .. => false
  | _ => true

variable {Cpu : Type}

/-- A processor is in a section under the lock. -/
def State.holds (s : State Cpu) (c : Cpu) : Bool :=
  match s.cpu c with
  | .idle => false
  | .scan _ => true
  | .on p => (s.proc p).pc.holds

/-- What a process has become before it leaves the processor. -/
def Next.fits (next : Next) (st : Procstate) : Prop :=
  if next = .dead then st = .zombie else st = .sleeping ∨ st = .runnable

/-- A process that a processor executes. -/
def OnOk (x : Proc) : Prop :=
  match x.pc with
  | .user | .forking .. | .waiting => x.state = .running
  | .switching next => next.fits x.state
  | .switched next => x.state = .running ∧ next ≠ .dead

/-- A slot that no processor executes. -/
def OffOk (x : Proc) : Prop :=
  match x.state with
  | .running => False
  | .sleeping | .runnable => ∃ next ≠ Next.dead, x.pc = .switched next
  | _ => True

/-- The lock is with the processor that is in a section under it, and no two processors execute one
process. -/
structure Cpus (s : State Cpu) : Prop where
  lock : ∀ c, s.lock = some c ↔ s.holds c = true
  alone : ∀ c c' p, s.cpu c = .on p → s.cpu c' = .on p → c = c'
  on : ∀ c p, s.cpu c = .on p → OnOk (s.proc p)
  off : ∀ p, (∀ c, s.cpu c ≠ .on p) → OffOk (s.proc p)

theorem OnOk.congr {x y : Proc} (h : OnOk x) (hpc : y.pc = x.pc) (hs : y.state = x.state) : OnOk y := by
  unfold OnOk at h ⊢
  rwa [hpc,hs]

theorem OffOk.congr {x y : Proc} (h : OffOk x) (hpc : y.pc = x.pc) (hs : y.state = x.state) :
    OffOk y := by
  unfold OffOk at h ⊢
  rwa [hpc,hs]

theorem onOk_outside {x : Proc} (hh : x.pc.holds = false) : OnOk x ↔ x.state = .running := by
  unfold OnOk
  cases hp : x.pc with
  | user => rfl
  | forking np b => rfl
  | _ => simp [hp,Pc.holds] at hh

/-- A slot under a processor is in use. -/
theorem OnOk.used {x : Proc} (h : OnOk x) : x.state ≠ .unused ∧ x.state ≠ .embryo := by
  unfold OnOk at h
  cases hp : x.pc with
  | switching next =>
    simp only [hp,Next.fits] at h
    split at h
    · rw [h]
      exact ⟨nofun,nofun⟩
    · rcases h with h | h <;> rw [h] <;> exact ⟨nofun,nofun⟩
  | switched next =>
    simp only [hp] at h
    rw [h.1]
    exact ⟨nofun,nofun⟩
  | _ =>
    simp only [hp] at h
    rw [h]
    exact ⟨nofun,nofun⟩

namespace Cpus

variable {s t : State Cpu} {c : Cpu} {p q : Slot}

/-- Who does not run and does not have the lock is on no processor. -/
theorem off_of (h : Cpus s) (hlock : ∀ c, s.lock = some c → s.cpu c ≠ .on q)
    (hq : (s.proc q).state ≠ .running) (c : Cpu) : s.cpu c ≠ .on q := by
  intro hc
  by_cases hh : (s.proc q).pc.holds = true
  · refine hlock c ((h.lock c).mpr ?_) hc
    rw [State.holds,hc]
    exact hh
  · exact hq ((onOk_outside (by simpa using hh)).mp (h.on c q hc))

theorem off_of_unused (h : Cpus s) (hq : (s.proc q).state = .unused ∨ (s.proc q).state = .embryo)
    (c : Cpu) : s.cpu c ≠ .on q := by
  intro hc
  obtain ⟨h1,h2⟩ := (h.on c q hc).used
  exact hq.elim h1 h2

variable [DecidableEq Cpu]

/-- One processor goes on; what the others execute stays. -/
theorem change (h : Cpus s) {x : Ctx} (hcpu : t.cpu = Function.update s.cpu c x)
    (hsame : ∀ c' ≠ c, ∀ q, s.cpu c' = .on q →
      (t.proc q).pc = (s.proc q).pc ∧ (t.proc q).state = (s.proc q).state)
    (hx : ∀ q, x = .on q → (∀ c' ≠ c, s.cpu c' ≠ .on q) ∧ OnOk (t.proc q))
    (hoff : ∀ q, (∀ c' ≠ c, s.cpu c' ≠ .on q) → x ≠ .on q → OffOk (t.proc q))
    (hlock : (s.lock = none ∨ s.lock = some c) ∧ t.lock = (if t.holds c then some c else none) ∨
      t.lock = s.lock ∧ t.holds c = s.holds c) : Cpus t := by
  have hself : t.cpu c = x := by rw [hcpu,Function.update_self]
  have hne : ∀ c' ≠ c, t.cpu c' = s.cpu c' := fun c' hc => by rw [hcpu,Function.update_of_ne hc]
  have hholds : ∀ c' ≠ c, t.holds c' = s.holds c' := fun c' hc => by
    rw [State.holds,State.holds,hne c' hc]
    split
    · rfl
    · rfl
    · rw [(hsame c' hc _ ‹_›).1]
  refine ⟨fun c' => ?_,fun c₁ c₂ q h₁ h₂ => ?_,fun c' q hq => ?_,fun q hq => ?_⟩
  · by_cases hc : c' = c
    · subst hc
      rcases hlock with ⟨-,hl⟩ | ⟨hl,hh⟩
      · rw [hl]
        split <;> simp_all
      · rw [hl,hh]
        exact h.lock c'
    · rw [hholds c' hc,← h.lock c']
      rcases hlock with ⟨hs,hl⟩ | ⟨hl,-⟩
      · rw [hl]
        refine iff_of_false ?_ ?_
        · split
          · exact fun he => hc (Option.some.inj he).symm
          · nofun
        · rcases hs with hs | hs <;> rw [hs]
          · nofun
          · exact fun he => hc (Option.some.inj he).symm
      · rw [hl]
  · by_cases hc₁ : c₁ = c <;> by_cases hc₂ : c₂ = c
    · rw [hc₁,hc₂]
    · rw [hc₁,hself] at h₁
      rw [hne c₂ hc₂] at h₂
      exact absurd h₂ ((hx q h₁).1 c₂ hc₂)
    · rw [hc₂,hself] at h₂
      rw [hne c₁ hc₁] at h₁
      exact absurd h₁ ((hx q h₂).1 c₁ hc₁)
    · rw [hne c₁ hc₁] at h₁
      rw [hne c₂ hc₂] at h₂
      exact h.alone c₁ c₂ q h₁ h₂
  · by_cases hc : c' = c
    · rw [hc,hself] at hq
      exact (hx q hq).2
    · rw [hne c' hc] at hq
      exact (h.on c' q hq).congr (hsame c' hc q hq).1 (hsame c' hc q hq).2
  · exact hoff q (fun c' hc => by rw [← hne c' hc]; exact hq c') (hself ▸ hq c)

theorem off_elsewhere (hc : s.cpu c ≠ .on q) (hq : ∀ c' ≠ c, s.cpu c' ≠ .on q) (c' : Cpu) :
    s.cpu c' ≠ .on q := by
  by_cases hcc : c' = c
  · rwa [hcc]
  · exact hq c' hcc

/-- A processor that executes no process goes on in the scheduler. -/
theorem schedule (h : Cpus s) {x : Ctx} {l : Option Cpu} (hc : ∀ q, s.cpu c ≠ .on q)
    (hx : ∀ q, x ≠ .on q) (hlock : s.lock = none ∨ s.lock = some c)
    (hl : l = if x = .idle then none else some c) :
    Cpus { s with cpu := Function.update s.cpu c x, lock := l } := by
  refine h.change rfl (fun _ _ _ _ => ⟨rfl,rfl⟩) (fun q hq => (hx q hq).elim)
    (fun q hq _ => h.off q (off_elsewhere (hc q) hq)) (.inl ⟨hlock,?_⟩)
  rw [hl]
  cases x with
  | on q => exact (hx q rfl).elim
  | _ => simp [State.holds]

/-- The process on a processor goes on, and slots change that are on none. -/
theorem act (h : Cpus s) (hc : s.cpu c = .on p) (hcpu : t.cpu = s.cpu) (hon : OnOk (t.proc p))
    (hother : ∀ q ≠ p, ((t.proc q).pc = (s.proc q).pc ∧ (t.proc q).state = (s.proc q).state) ∨
      (∀ c, s.cpu c ≠ .on q) ∧ OffOk (t.proc q))
    (hlock : (s.lock = none ∨ s.lock = some c) ∧
        t.lock = (if (t.proc p).pc.holds then some c else none) ∨
      t.lock = s.lock ∧ (t.proc p).pc.holds = (s.proc p).pc.holds) : Cpus t := by
  have hother' : ∀ c' ≠ c, ∀ q, s.cpu c' = .on q → q ≠ p := by
    rintro c' hc' q hq rfl
    exact hc' (h.alone c' c q hq hc)
  have hth : t.holds c = (t.proc p).pc.holds := by rw [State.holds,hcpu,hc]
  have hsh : s.holds c = (s.proc p).pc.holds := by rw [State.holds,hc]
  refine h.change (c := c) (x := .on p) (by rw [hcpu,← hc,Function.update_eq_self]) ?_ ?_ ?_ ?_
  · intro c' hc' q hq
    exact (hother q (hother' c' hc' q hq)).resolve_right fun hr => hr.1 c' hq
  · rintro q ⟨⟩
    exact ⟨fun c' hc' hq => hother' c' hc' p hq rfl,hon⟩
  · intro q hq hqp
    have hqp' : q ≠ p := fun he => hqp (by rw [he])
    rcases hother q hqp' with hs | hs
    · exact (h.off q (off_elsewhere (by rwa [hc]) hq)).congr hs.1 hs.2
    · exact hs.2
  · rwa [hth,hsh]

end Cpus

/-! What the operations do. -/

structure Inv (s : State Cpu) : Prop where
  cpus : Cpus s
  family : Family s.proc

/-- The steps that a processor cannot make, and the panic that is meant. -/
abbrev Fails (e : Stop) : Prop := e = .disabled ∨ e = .panic "init exiting"

abbrev Safe (m : M Cpu Result) (s : State Cpu) : Prop :=
  Post m s (fun _ t => Inv t) fun e _ => Fails e

theorem unlocked {s : State Cpu} (hl : s.lock = none) : { s with lock := none } = s := by
  rw [← hl]

theorem myproc_post {s : State Cpu} {c : Cpu} {Q : Slot → State Cpu → Prop}
    (h : ∀ p, s.cpu c = .on p → (s.proc p).pc = .user → Q p s) :
    Post (myproc c) s Q fun e _ => Fails e := by
  simp only [myproc,post_bind,post_get]
  split
  · split
    · exact h _ ‹_› ‹_›
    · exact .inl rfl
  · exact .inl rfl

theorem find_post {s : State Cpu} {f : Proc → Bool} {Q : Option Slot → State Cpu → Prop}
    {E : Stop → State Cpu → Prop} (hsome : ∀ p, f (s.proc p) = true → Q (some p) s)
    (hnone : (∀ p, f (s.proc p) = false) → Q none s) : Post (find f) s Q E := by
  simp only [find,post_bind,post_get,post_pure]
  cases hf : (List.finRange NPROC).find? fun p => f (s.proc p) with
  | none => exact hnone fun p => by simpa using List.find?_eq_none.mp hf p (List.mem_finRange p)
  | some p =>
    have hp := List.find?_some hf
    exact hsome p hp

namespace Cpus

variable {s t : State Cpu} {c : Cpu} {p q : Slot}

theorem holds_of (hc : s.cpu c = .on p) : s.holds c = (s.proc p).pc.holds := by
  rw [State.holds,hc]

/-- Processes that are on no processor are woken. -/
theorem wake (h : Cpus s) (hl : s.lock = none) (hcpu : t.cpu = s.cpu) (htl : t.lock = s.lock)
    (hw : ∀ q, (t.proc q).pc = (s.proc q).pc ∧ ((t.proc q).state = (s.proc q).state ∨
      (s.proc q).state = .sleeping ∧ (t.proc q).state = .runnable)) : Cpus t := by
  refine ⟨fun c => ?_,fun c c' p hc hc' => ?_,fun c p hc => ?_,fun p hp => ?_⟩
  · rw [htl,h.lock,State.holds,State.holds,hcpu]
    cases s.cpu c with
    | on p => simp only [(hw p).1]
    | _ => rfl
  · rw [hcpu] at hc hc'
    exact h.alone c c' p hc hc'
  · rw [hcpu] at hc
    refine (h.on c p hc).congr (hw p).1 ((hw p).2.resolve_right fun hs => ?_)
    have hh : (s.proc p).pc.holds = false := by
      rw [← holds_of hc,← Bool.not_eq_true,← h.lock,hl]
      nofun
    rw [(onOk_outside hh).mp (h.on c p hc)] at hs
    cases hs.1
  · rw [hcpu] at hp
    have hoff := h.off p hp
    rcases (hw p).2 with hs | ⟨hs,ht⟩
    · exact hoff.congr (hw p).1 hs
    · simp only [OffOk,hs,ht,(hw p).1] at hoff ⊢
      exact hoff

variable [DecidableEq Cpu]

theorem acquire_post (h : Cpus s) (hc : s.holds c = false) {Q : Unit → State Cpu → Prop}
    (hQ : s.lock = none → Q () { s with lock := some c }) :
    Post (acquire c) s Q fun e _ => Fails e := by
  have hl : s.lock ≠ some c := by
    rw [Ne,h.lock,hc]
    nofun
  simp only [acquire,post_bind,post_get]
  rw [if_neg hl]
  split
  · exact hQ ‹_›
  · exact .inl rfl

end Cpus

theorem release_post [DecidableEq Cpu] {s : State Cpu} {c : Cpu} {Q : Unit → State Cpu → Prop}
    {E : Stop → State Cpu → Prop} (hl : s.lock = some c) (hQ : Q () { s with lock := none }) :
    Post (release c) s Q E := by
  simp only [release,post_bind,post_get]
  rw [if_pos hl]
  exact hQ

namespace Inv

variable {s : State Cpu} {c : Cpu} {p q np : Slot} {x : Proc} {l : Option Cpu}

theorem running (h : Inv s) (hc : s.cpu c = .on p) (hh : (s.proc p).pc.holds = false) :
    (s.proc p).state = .running := (onOk_outside hh).mp (h.cpus.on c p hc)

variable [DecidableEq Cpu]

/-- The process on a processor goes on by itself. -/
theorem self (h : Inv s) (hc : s.cpu c = .on p) (hon : OnOk x)
    (hparent : x.parent = (s.proc p).parent) (hforks : x.pc.forks = (s.proc p).pc.forks)
    (hlive : x.state.live = true ∧ (s.proc p).state.live = true)
    (hwaits : x.state = .sleeping → x.chan = some (.proc p) → x.killed = false ∧
      (∃ q, (s.proc q).parent = some p) ∧ ∀ q, (s.proc q).parent = some p → (s.proc q).state ≠ .zombie)
    (hlock : (s.lock = none ∨ s.lock = some c) ∧ l = (if x.pc.holds then some c else none)) :
    Inv { s with proc := Function.update s.proc p x, lock := l } where
  cpus := h.cpus.act hc rfl (by simpa using hon)
    (fun q hq => .inl (by simp [Function.update_of_ne hq])) (.inl (by simpa using hlock))
  family := h.family.self hparent (.inr hlive) hforks (fun he => by rw [he] at hlive; cases hlive.2)
    hwaits

/-- The process on a processor goes on by itself, without a change of its state. -/
theorem goto (h : Inv s) (hc : s.cpu c = .on p) {k : Pc}
    (hpc : (s.proc p).pc = .user ∨ (s.proc p).pc = .waiting) (hk : k = .user ∨ k = .waiting)
    (hlock : (s.lock = none ∨ s.lock = some c) ∧ l = (if k.holds then some c else none)) :
    Inv { s with proc := Function.update s.proc p { s.proc p with pc := k }, lock := l } := by
  have hs : (s.proc p).state = .running := by
    have := h.cpus.on c p hc
    rcases hpc with hpc | hpc <;> simpa [OnOk,hpc] using this
  have hforks : k.forks = (s.proc p).pc.forks := by
    rcases hpc with hpc | hpc <;> rcases hk with rfl | rfl <;> rw [hpc] <;> rfl
  refine h.self hc ?_ rfl hforks (by rw [hs]; exact ⟨rfl,rfl⟩)
    (fun he => by rw [hs] at he; cases he) hlock
  rcases hk with rfl | rfl <;> exact hs

theorem wait_safe (h : Inv s) : Safe (wait c) s := by
  simp only [Safe,wait,post_bind]
  refine myproc_post fun p hc hp => h.cpus.acquire_post (by rw [Cpus.holds_of hc,hp]; rfl) fun hl => ?_
  exact h.goto hc (.inl hp) (.inr rfl) ⟨.inl hl,rfl⟩

theorem sleep_safe (h : Inv s) (addr : ℕ) : Safe (sleep c addr) s := by
  simp only [Safe,sleep,post_bind]
  refine myproc_post fun p hc hp => h.cpus.acquire_post (by rw [Cpus.holds_of hc,hp]; rfl) fun hl => ?_
  have hs := h.running hc (by rw [hp]; rfl)
  refine h.self hc (.inl rfl) rfl (by rw [hp]; rfl) (by rw [hs]; exact ⟨rfl,rfl⟩) ?_ ⟨.inl hl,rfl⟩
  intro _ hchan
  cases hchan

theorem yieldTo_safe (h : Inv s) (hc : s.cpu c = .on p) {next : Next} (hh : (s.proc p).pc.holds = false)
    (hn : next ≠ .dead) (hforks : next.forks = (s.proc p).pc.forks) : Safe (yieldTo c p next) s := by
  simp only [Safe,yieldTo,post_bind]
  refine h.cpus.acquire_post (by rw [Cpus.holds_of hc,hh]) fun hl => ?_
  have hs := h.running hc hh
  refine h.self hc ?_ rfl hforks (by rw [hs]; exact ⟨rfl,rfl⟩) ?_ ⟨.inl hl,rfl⟩
  · simp [OnOk,Next.fits,hn]
  · intro he
    cases he

theorem yield_safe (h : Inv s) : Safe (yield c) s := by
  simp only [Safe,yield,post_bind,post_get]
  split
  · rename_i p hc
    split
    · rename_i hp
      exact h.yieldTo_safe hc (by rw [hp]; rfl) nofun (by rw [hp]; rfl)
    · rename_i np b hp
      exact h.yieldTo_safe hc (by rw [hp]; rfl) nofun (by rw [hp]; rfl)
    · exact .inl rfl
  · exact .inl rfl

theorem resumed_safe (h : Inv s) (hc : s.cpu c = .on p) {next : Next}
    (hp : (s.proc p).pc = .switched next) : Safe (resumed c p next) s := by
  have hl : s.lock = some c := (h.cpus.lock c).mpr (by rw [Cpus.holds_of hc,hp]; rfl)
  have hon := h.cpus.on c p hc
  simp only [OnOk,hp] at hon
  obtain ⟨hs,hn⟩ := hon
  have hforks : (s.proc p).pc.forks = next.forks := by rw [hp]; rfl
  have hlive : (s.proc p).state.live = true := by rw [hs]; rfl
  cases next with
  | user slept =>
    simp only [Safe,resumed,post_bind,post_get]
    refine release_post hl ?_
    exact h.self hc hs rfl hforks.symm ⟨hlive,hlive⟩ (fun he => by simp [hs] at he) ⟨.inr hl,rfl⟩
  | forking np b =>
    simp only [Safe,resumed,post_bind]
    refine release_post hl ?_
    exact h.self hc hs rfl hforks.symm ⟨hlive,hlive⟩ (fun he => by simp [hs] at he) ⟨.inr hl,rfl⟩
  | wait =>
    simp only [Safe,resumed,post_bind,post_get]
    have := h.self (l := some c) (x := { s.proc p with chan := none, pc := .waiting }) hc hs rfl
      hforks.symm ⟨hlive,hlive⟩ (fun _ => nofun) ⟨.inr hl,rfl⟩
    rwa [← hl] at this
  | dead => exact (hn rfl).elim

theorem sched_safe (h : Inv s) (hc : s.cpu c = .on p) {next : Next}
    (hp : (s.proc p).pc = .switching next) : Safe (sched c p next) s := by
  have hh : s.holds c = true := by rw [Cpus.holds_of hc,hp]; rfl
  have hl : s.lock = some c := (h.cpus.lock c).mpr hh
  have hon := h.cpus.on c p hc
  have hused := hon.used
  simp only [OnOk,hp] at hon
  have hnr : (s.proc p).state ≠ .running := by
    unfold Next.fits at hon
    split at hon
    · rw [hon]
      nofun
    · rcases hon with hon | hon <;> rw [hon] <;> nofun
  simp only [Safe,sched,post_bind,post_get]
  rw [if_neg (not_not.mpr hl),if_neg hnr]
  refine ⟨h.cpus.change (c := c) (x := .scan (p + 1)) rfl (fun c' hc' q hq => ?_) (fun q => nofun)
    (fun q hq _ => ?_) (.inr ⟨rfl,?_⟩),h.family.self rfl (.inl rfl) (by rw [hp]; rfl)
    (fun he => absurd he hused.2) (h.family.waits p)⟩
  · have hqp : q ≠ p := by
      rintro rfl
      exact hc' (h.cpus.alone c' c q hq hc)
    simp [Function.update_of_ne hqp]
  · by_cases hqp : q = p
    · subst hqp
      simp only [OffOk,Function.update_self]
      unfold Next.fits at hon
      split at hon
      · rw [hon]
        trivial
      · rcases hon with hon | hon <;> rw [hon] <;> exact ⟨next,‹_›,rfl⟩
    · have hcq : s.cpu c ≠ .on q := by
        rw [hc]
        exact fun he => hqp (Ctx.on.inj he).symm
      exact (h.cpus.off q (Cpus.off_elsewhere hcq hq)).congr (by simp [Function.update_of_ne hqp])
        (by simp [Function.update_of_ne hqp])
  · rw [hh]
    simp [State.holds]

/-- A slot that is on no processor changes, and the process on a processor goes on, outside the sections
under the lock. -/
theorem pair (h : Inv s) (hc : s.cpu c = .on p) (hnp : np ≠ p) (hs : (s.proc p).state = .running)
    {n : ℕ} {k : Pc} (hk : k.holds = false) (hoff : (∀ c, s.cpu c ≠ .on np) ∧ OffOk x)
    (hlock : (s.lock = none ∨ s.lock = some c) ∧ l = none ∨ l = s.lock ∧ (s.proc p).pc.holds = false)
    (hfam : Family (Function.update (Function.update s.proc np x) p { s.proc p with pc := k })) :
    Inv { s with
      proc := Function.update (Function.update s.proc np x) p
        { Function.update s.proc np x p with pc := k }
      nextpid := n
      lock := l } := by
  rw [Function.update_of_ne (Ne.symm hnp)]
  refine ⟨h.cpus.act hc rfl ?_ (fun q hq => ?_) ?_,hfam⟩
  · dsimp only
    rw [Function.update_self]
    exact (onOk_outside hk).mpr hs
  · by_cases hqn : q = np
    · subst hqn
      exact .inr ⟨hoff.1,by simpa [Function.update_of_ne hq] using hoff.2⟩
    · exact .inl (by simp [Function.update_of_ne hq,Function.update_of_ne hqn])
  · simp only [Function.update_self,hk,Bool.false_eq_true,if_false]
    exact hlock.imp id fun hl => ⟨hl.1,hl.2.symm⟩

omit [DecidableEq Cpu] in
/-- A process in `fork` leaves its slot, which is free again or a child. -/
theorem fill (h : Inv s) (hc : s.cpu c = .on p) {b : Bool} (hp : (s.proc p).pc = .forking np b)
    (hforks : x.pc.forks = none) (hold : ∀ q, (s.proc np).parent = some q → x.parent = some q)
    (hpar : ∀ q, x.parent = some q → q = p)
    (hstate : x.state = .unused ∧ x.parent = none ∨ x.state = .embryo ∨
      x.state = .runnable ∧ x.parent ≠ none) :
    np ≠ p ∧ (s.proc p).state = .running ∧ (∀ c, s.cpu c ≠ .on np) ∧
      Family (Function.update (Function.update s.proc np x) p { s.proc p with pc := .user }) ∧
      ∀ q ≠ p, ∀ b', (Function.update s.proc np x q).pc.forks ≠ some (np,b') := by
  obtain ⟨-,hnp,-,-⟩ := h.family.forks p np b (by rw [hp]; rfl)
  have hs := h.running hc (by rw [hp]; rfl)
  have hne : np ≠ p := by
    rintro rfl
    rw [hs] at hnp
    cases hnp
  have hother : ∀ q ≠ p, ∀ b', (s.proc q).pc.forks ≠ some (np,b') := fun q hq b' hf =>
    hq (h.family.unique q p np b' b hf (by rw [hp]; rfl))
  have hleft : Family (Function.update s.proc p { s.proc p with pc := .user }) :=
    h.family.take (by rw [hs]; rfl) (by rw [hs]; nofun) rfl fun _ _ => nofun
  have hof : Function.update s.proc p { s.proc p with pc := .user } np = s.proc np :=
    Function.update_of_ne hne _ _
  refine ⟨hne,hs,h.cpus.off_of_unused (.inr hnp),?_,fun q hq b' => ?_⟩
  · rw [Function.update_comm hne]
    refine hleft.slot (by rw [hof,hnp]; rfl) (fun q b' hf => ?_) hforks
      (fun q hq => .inl (hold q (by rwa [hof] at hq))) (fun q hq => ?_) hstate
    · by_cases hqp : q = p
      · rw [hqp,Function.update_self] at hf
        cases hf
      · rw [Function.update_of_ne hqp] at hf
        exact hother q hqp b' hf
    · rw [hpar q hq,Function.update_self,hs]
      rfl
  · by_cases hqn : q = np
    · rw [hqn,Function.update_self,hforks]
      nofun
    · rw [Function.update_of_ne hqn]
      exact hother q hq b'

theorem fork_safe (h : Inv s) : Safe (fork c) s := by
  simp only [Safe,fork,post_bind]
  refine myproc_post fun p hc hp => h.cpus.acquire_post (by rw [Cpus.holds_of hc,hp]; rfl) fun hl => ?_
  refine find_post (fun np hnp => ?_) fun _ => ?_
  · have hnp : (s.proc np).state = .unused := by simpa using hnp
    have hs := h.running hc (by rw [hp]; rfl)
    have hne : np ≠ p := by
      rintro rfl
      rw [hs] at hnp
      cases hnp
    have hfree : ∀ q b, (s.proc q).pc.forks ≠ some (np,b) := by
      intro q b hq
      have := (h.family.forks q np b hq).2.1
      rw [hnp] at this
      cases this
    have hparent := h.family.free np hnp
    have hforks := (h.family.childless (p := np) (by rw [hnp]; rfl)).2
    simp only [setProc,post_bind,post_get,post_modify]
    refine release_post rfl ?_
    refine h.pair hc hne hs rfl ⟨h.cpus.off_of_unused (.inl hnp),trivial⟩ (.inl ⟨.inl hl,rfl⟩) ?_
    have hp' : ∀ x, Function.update s.proc np x p = s.proc p :=
      fun x => Function.update_of_ne (Ne.symm hne) _ _
    have hslot : Family (Function.update s.proc np
        { s.proc np with state := .embryo, pid := s.nextpid }) :=
      h.family.slot (by rw [hnp]; rfl) hfree hforks (fun _ => .inl)
        (fun q hq => by simp [hparent] at hq) (.inr (.inl rfl))
    refine hslot.take (by rw [hp',hs]; rfl) (by rw [hp',hs]; nofun) (by rw [hp']) ?_
    rintro m b ⟨⟩
    refine ⟨by simp,by simpa using hparent,nofun,fun q _ b' => ?_⟩
    by_cases hq : q = np
    · subst hq
      simp [hforks]
    · rw [Function.update_of_ne hq]
      exact hfree q b'
  · simp only [post_bind]
    refine release_post rfl ?_
    show Inv { s with lock := none }
    rwa [unlocked hl]

theorem allocate_safe (h : Inv s) (hc : s.cpu c = .on p) (hp : (s.proc p).pc = .forking np false)
    (memory : Bool) : Safe (allocate p np memory) s := by
  obtain ⟨-,hnp,hparent,-⟩ := h.family.forks p np false (by rw [hp]; rfl)
  have hforks := (h.family.childless (p := np) (by rw [hnp]; rfl)).2
  have hold : ∀ y : Proc, ∀ q, (s.proc np).parent = some q → y.parent = some q := by
    intro y q hq
    rw [hparent] at hq
    cases hq
  simp only [Safe,allocate,post_bind,post_get]
  cases memory with
  | true =>
    obtain ⟨hne,hs,hoff,hfam,hother⟩ := h.fill
      (x := { s.proc np with parent := some p, pc := .switched (.user false) }) hc hp rfl (hold _)
      (fun q hq => (Option.some.inj hq).symm) (.inr (.inl hnp))
    refine h.pair hc hne hs rfl ⟨hoff,by simp [OffOk,hnp]⟩ (.inr ⟨rfl,by rw [hp]; rfl⟩) ?_
    have := hfam.take (p := p) (x := { s.proc p with pc := .forking np true })
      (by rw [Function.update_self,hs]; rfl) (by rw [Function.update_self,hs]; nofun)
      (by rw [Function.update_self]) ?_
    · rwa [Function.update_idem] at this
    · rintro m b ⟨⟩
      rw [Function.update_of_ne hne,Function.update_self]
      refine ⟨hnp,rfl,fun _ => rfl,fun q hq b' => ?_⟩
      rw [Function.update_of_ne hq]
      exact hother q hq b'
  | false =>
    obtain ⟨hne,hs,hoff,hfam,-⟩ := h.fill (x := { s.proc np with state := .unused }) hc hp hforks
      (hold _) (fun q hq => by simp [hparent] at hq) (.inl ⟨rfl,hparent⟩)
    exact h.pair hc hne hs rfl ⟨hoff,trivial⟩ (.inr ⟨rfl,by rw [hp]; rfl⟩) hfam

theorem forked_safe (h : Inv s) (hc : s.cpu c = .on p) (hp : (s.proc p).pc = .forking np true) :
    Safe (forked c p np) s := by
  obtain ⟨-,hnp,hparent,hpc⟩ := h.family.forks p np true (by rw [hp]; rfl)
  have hpc := hpc rfl
  simp only [Safe,forked,post_bind]
  refine h.cpus.acquire_post (by rw [Cpus.holds_of hc,hp]; rfl) fun hl => ?_
  simp only [setProc,post_get,post_modify]
  refine release_post rfl ?_
  obtain ⟨hne,hs,hoff,hfam,-⟩ := h.fill (x := { s.proc np with state := .runnable }) hc hp
    (by simp [hpc,Pc.forks,Next.forks]) (fun q hq => hq)
    (fun q hq => by simpa [hparent,eq_comm] using hq) (.inr (.inr ⟨rfl,by simp [hparent]⟩))
  exact h.pair hc hne hs rfl ⟨hoff,by simp [OffOk,hpc]⟩ (.inl ⟨.inl hl,rfl⟩) hfam

theorem waitLoop_safe (h : Inv s) (hc : s.cpu c = .on p) (hp : (s.proc p).pc = .waiting) :
    Safe (waitLoop c p) s := by
  have hl : s.lock = some c := (h.cpus.lock c).mpr (by rw [Cpus.holds_of hc,hp]; rfl)
  have hs : (s.proc p).state = .running := by
    have := h.cpus.on c p hc
    simpa [OnOk,hp] using this
  simp only [Safe,waitLoop,post_bind]
  refine find_post (fun q hq => ?_) fun hnone => ?_
  · obtain ⟨hparent,hz⟩ : (s.proc q).parent = some p ∧ (s.proc q).state = .zombie := by simpa using hq
    have hne : q ≠ p := Ne.symm (h.family.parents q p hparent).2
    have hp' : ∀ x, Function.update s.proc q x p = s.proc p :=
      fun x => Function.update_of_ne (Ne.symm hne) _ _
    have hdead : (s.proc q).state.live = false := by rw [hz]; rfl
    have hoff : ∀ c, s.cpu c ≠ .on q := by
      refine h.cpus.off_of (fun c' hc' he => ?_) (by rw [hz]; nofun)
      rw [hl] at hc'
      cases hc'
      rw [hc] at he
      exact hne (Ctx.on.inj he).symm
    simp only [setProc,post_bind,post_get,post_modify]
    refine release_post hl ?_
    refine h.pair hc hne hs rfl ⟨hoff,trivial⟩ (.inl ⟨.inr hl,rfl⟩) ?_
    have hslot : Family (Function.update s.proc q
        { s.proc q with state := .unused, pid := 0, parent := none, killed := false }) := by
      refine h.family.slot hdead (fun u b hu => ?_) (h.family.childless hdead).2 (fun u hu => .inr ?_)
        (fun _ => nofun) (.inl ⟨rfl,rfl⟩)
      · have := (h.family.forks u q b hu).2.1
        rw [hz] at this
        cases this
      · rw [hparent] at hu
        cases hu
        rw [hs]
        nofun
    exact hslot.take (by rw [hp',hs]; rfl) (by rw [hp',hs]; nofun) (by rw [hp']) fun _ _ => nofun
  · simp only [post_bind]
    refine find_post (fun q hq => ?_) fun _ => ?_
    · simp only [post_get]
      split
      · simp only [post_bind]
        refine release_post hl ?_
        exact h.goto hc (.inr hp) (.inl rfl) ⟨.inr hl,rfl⟩
      · rename_i hk
        have := h.self (l := some c) (x := { s.proc p with
          chan := some (.proc p), state := .sleeping, pc := .switching .wait }) hc (.inl rfl) rfl
          (by rw [hp]; rfl) (by rw [hs]; exact ⟨rfl,rfl⟩) (fun _ _ => ⟨?_,⟨q,by simpa using hq⟩,?_⟩)
          ⟨.inr hl,rfl⟩
        · rwa [← hl] at this
        · simpa using hk
        · intro r hr hz
          have := hnone r
          simp [hr,hz] at this
    · simp only [post_get,true_or,if_true,post_bind]
      refine release_post hl ?_
      exact h.goto hc (.inr hp) (.inl rfl) ⟨.inr hl,rfl⟩

theorem exit_safe (h : Inv s) : Safe (exit c) s := by
  simp only [Safe,exit,post_bind]
  refine myproc_post fun p hc hp => ?_
  split
  · exact .inr rfl
  rename_i hinit
  simp only [post_pure,post_bind]
  refine h.cpus.acquire_post (by rw [Cpus.holds_of hc,hp]; rfl) fun hl => ?_
  have hs := h.running hc (by rw [hp]; rfl)
  have hex := exited_cases hinit s.proc
  have hcpus : Cpus { s with proc := gone p s.proc, lock := some c } := by
    refine h.cpus.act hc rfl ?_ (fun q hq => ?_) (.inl ⟨.inl hl,?_⟩)
    · simp [OnOk,gone_self,Next.fits]
    · dsimp only
      rw [gone_of_ne hq]
      rcases (hex q).2.1 with he | ⟨hsleep,he⟩
      · exact .inl ⟨(hex q).1.1,he⟩
      · have hoff := h.cpus.off_of (q := q) (fun c' hc' => by rw [hl] at hc'; cases hc')
          (by rw [hsleep]; nofun)
        have := h.cpus.off q hoff
        refine .inr ⟨hoff,?_⟩
        simp only [OffOk,hsleep,he,(hex q).1.1] at this ⊢
        exact this
    · simp [gone_self,Pc.holds]
  exact ⟨hcpus,h.family.exit hinit hs⟩

theorem run_safe (h : Inv s) (memory : Bool) : Safe (run c memory) s := by
  simp only [Safe,run,post_bind,post_get]
  split
  · rename_i p hc
    split
    · exact .inl rfl
    · exact h.allocate_safe hc ‹_› memory
    · exact h.forked_safe hc ‹_›
    · exact h.waitLoop_safe hc ‹_›
    · exact h.sched_safe hc ‹_›
    · exact h.resumed_safe hc ‹_›
  · exact .inl rfl

theorem scheduler_safe (h : Inv s) : Safe (scheduler c) s := by
  simp only [Safe,scheduler,post_bind,post_get]
  split
  · rename_i hc
    simp only [post_bind]
    refine h.cpus.acquire_post (by rw [State.holds,hc]) fun hl => ?_
    exact ⟨h.cpus.schedule (by rw [hc]; nofun) nofun (.inl hl) rfl,h.family⟩
  · rename_i i hc
    have hnot : ∀ q, s.cpu c ≠ .on q := by
      rw [hc]
      nofun
    have hh : s.holds c = true := by rw [State.holds,hc]
    have hl : s.lock = some c := (h.cpus.lock c).mpr hh
    split
    · rename_i hi
      split
      · rename_i hs
        have hnone : ∀ c', s.cpu c' ≠ .on ⟨i,hi⟩ := by
          refine h.cpus.off_of (fun c' hc' => ?_) (by rw [hs]; nofun)
          rw [hl] at hc'
          cases hc'
          exact hnot _
        obtain ⟨next,hn,hpc⟩ : ∃ next ≠ Next.dead, (s.proc ⟨i,hi⟩).pc = .switched next := by
          have := h.cpus.off ⟨i,hi⟩ hnone
          simpa only [OffOk,hs] using this
        refine ⟨h.cpus.change (c := c) (x := .on ⟨i,hi⟩) rfl (fun c' hc' q hq => ?_) ?_
          (fun q hq hqi => ?_) (.inr ⟨rfl,?_⟩),
          h.family.self rfl (.inr ⟨rfl,by rw [hs]; rfl⟩) rfl (fun _ => rfl) (fun he => by cases he)⟩
        · have hqi : q ≠ ⟨i,hi⟩ := by
            rintro rfl
            exact hnone c' hq
          simp [Function.update_of_ne hqi]
        · rintro q ⟨⟩
          exact ⟨fun c' _ => hnone c',by simp [OnOk,hpc,hn]⟩
        · have hqi' : q ≠ ⟨i,hi⟩ := fun he => hqi (by rw [he])
          exact (h.cpus.off q (Cpus.off_elsewhere (hnot q) hq)).congr (by simp [Function.update_of_ne hqi'])
            (by simp [Function.update_of_ne hqi'])
        · rw [hh]
          simp [State.holds,hpc,Pc.holds]
      · exact ⟨h.cpus.schedule hnot nofun (.inr hl) hl,h.family⟩
    · simp only [post_bind]
      refine release_post hl ?_
      exact ⟨h.cpus.schedule hnot nofun (.inr hl) rfl,h.family⟩
  · exact .inl rfl

omit [DecidableEq Cpu] in
theorem wakeup_safe (h : Inv s) (addr : ℕ) : Safe (wakeup addr) s := by
  simp only [Safe,wakeup,post_bind,post_get]
  split
  · rename_i hl
    have hw := wakeup1_cases (some (.other addr)) s.proc
    refine ⟨h.cpus.wake hl rfl rfl fun q => ?_,h.family.wake fun q => (hw q).imp And.left id⟩
    rcases hw q with ⟨he,-⟩ | ⟨hs,he⟩
    · dsimp only
      rw [he]
      exact ⟨rfl,.inl rfl⟩
    · dsimp only
      rw [he]
      exact ⟨rfl,.inr ⟨hs,rfl⟩⟩
  · exact .inl rfl

omit [DecidableEq Cpu] in
theorem kill_safe (h : Inv s) (pid : ℕ) : Safe (kill pid) s := by
  simp only [Safe,kill,post_bind,post_get]
  split
  · rename_i hl
    simp only [post_bind]
    refine find_post (fun p _ => ?_) fun _ => h
    simp only [setProc]
    refine ⟨h.cpus.wake hl rfl rfl fun q => ?_,h.family.self rfl ?_ rfl (fun _ => rfl) fun he => ?_⟩
    · by_cases hq : q = p
      · subst hq
        by_cases hs : (s.proc q).state = .sleeping <;> simp [hs]
      · simp [Function.update_of_ne hq]
    · by_cases hs : (s.proc p).state = .sleeping
      · exact .inr (by simp [hs,Procstate.live])
      · exact .inl (if_neg hs)
    · by_cases hs : (s.proc p).state = .sleeping
      · simp [hs] at he
      · rw [if_neg hs] at he
        exact (hs he).elim
  · exact .inl rfl

theorem step_safe (h : Inv s) (op : Op Cpu) : Safe (step op) s := by
  cases op with
  | scheduler c => exact h.scheduler_safe
  | fork c => exact h.fork_safe
  | exit c => exact h.exit_safe
  | wait c => exact h.wait_safe
  | sleep c addr => exact h.sleep_safe addr
  | yield c => exact h.yield_safe
  | run c memory => exact h.run_safe memory
  | wakeup addr => exact h.wakeup_safe addr
  | kill pid => exact h.kill_safe pid

omit [DecidableEq Cpu] in
theorem start (h : Booted s) : Inv s := by
  have hpc : ∀ p, (s.proc p).pc.forks = none ∧ (s.proc p).parent = none := by
    intro p
    by_cases hp : p = initproc
    · rw [hp,h.init]
      exact ⟨rfl,rfl⟩
    · rw [h.others p hp]
      exact ⟨rfl,rfl⟩
  refine ⟨⟨fun c => ?_,fun c c' p hc => ?_,fun c p hc => ?_,fun p _ => ?_⟩,⟨fun p np b hp => ?_,
    fun p q np b b' hp => ?_,fun p q hp => ?_,fun p _ => (hpc p).2,fun p hp hu => ?_,?_,fun p hp => ?_⟩⟩
  · rw [State.holds,h.cpu c,h.lock]
    simp
  · rw [h.cpu] at hc
    cases hc
  · rw [h.cpu] at hc
    cases hc
  · by_cases hp : p = initproc
    · rw [hp,h.init]
      exact ⟨.user false,by decide,rfl⟩
    · rw [h.others p hp]
      trivial
  · rw [(hpc p).1] at hp
    cases hp
  · rw [(hpc p).1] at hp
    cases hp
  · rw [(hpc p).2] at hp
    cases hp
  · rw [h.others p hp] at hu
    exact (hu rfl).elim
  · rw [h.init]
    exact ⟨rfl,rfl⟩
  · by_cases hp' : p = initproc
    · rw [hp',h.init] at hp
      cases hp
    · rw [h.others p hp'] at hp
      cases hp

end Inv

section Runs

variable [DecidableEq Cpu]

theorem Reachable.inv {s : State Cpu} (h : Reachable s) : Inv s :=
  h.invariant (fun _ => Inv.start) fun op _ hs _ =>
    (hs.step_safe op).mono (fun _ _ ht => ht) fun _ _ _ => trivial

/-- One processor behind the boot. -/
def boot : State Unit where
  proc p := if p = initproc then ⟨.runnable,1,none,false,none,.switched (.user false)⟩
    else ⟨.unused,0,none,false,none,.user⟩
  nextpid := 2
  lock := none
  cpu _ := .idle

theorem booted_boot : Booted boot where
  init := by simp [boot]
  others _ hp := if_neg hp
  lock := rfl
  cpu _ := rfl

/-- Init has a child and sleeps in `wait`. -/
theorem exists_waiting : ∃ s : State Unit, Reachable s ∧
    decide (s.cpu () = .on initproc ∧ (s.proc initproc).state = .sleeping ∧
      (s.proc initproc).chan = some (.proc initproc)) = true :=
  exists_of_reaches (.init booted_boot) (by decide +kernel :
    reaches step (fun _ _ => True) (fun s => decide (s.cpu () = .on initproc ∧
        (s.proc initproc).state = .sleeping ∧ (s.proc initproc).chan = some (.proc initproc)))
      [.scheduler (),.scheduler (),.run () true,.fork (),.run () true,.run () true,.wait (),
        .run () true] boot = true)

/-- Under every scheduling a process is on one processor at most, its slot is not free there, and no
step panics but the exit of init. -/
theorem processes_safe {s : State Cpu} (h : Reachable s) :
    (∀ c c' p, s.cpu c = .on p → s.cpu c' = .on p → c = c') ∧
    (∀ c p, s.cpu c = .on p → (s.proc p).state ≠ .unused ∧ (s.proc p).state ≠ .embryo) ∧
    ∀ op msg t, step op s = .error (.panic msg) t → msg = "init exiting" := by
  refine ⟨h.inv.cpus.alone,fun c p hc => (h.inv.cpus.on c p hc).used,fun op msg t ht => ?_⟩
  rcases (h.inv.step_safe op).of_error ht with he | he
  · cases he
  · exact Stop.panic.inj he

theorem processes_safe_waiting : ∃ s : State Unit, Reachable s ∧ s.cpu () = .on initproc ∧
    (s.proc initproc).state ≠ .unused := by
  obtain ⟨s,h,hs⟩ := exists_waiting
  have hc := (of_decide_eq_true hs).1
  exact ⟨s,h,hc,((processes_safe h).2.1 () initproc hc).1⟩

/-- No exit is missed: a process but init has a parent that can wait for it, and a process that sleeps
in `wait` is not killed and has a child, but no zombie. -/
theorem wait_not_missed {s : State Cpu} (h : Reachable s) :
    (∀ p ≠ initproc, (s.proc p).state ≠ .unused → (s.proc p).state ≠ .embryo →
      ∃ q, (s.proc p).parent = some q ∧ (s.proc q).state.live = true) ∧
    ∀ p, (s.proc p).state = .sleeping → (s.proc p).chan = some (.proc p) → Waits s.proc p := by
  refine ⟨fun p hp hu he => ?_,h.inv.family.waits⟩
  obtain ⟨q,hq⟩ := Option.ne_none_iff_exists'.mp (h.inv.family.family p hp hu he)
  exact ⟨q,hq,(h.inv.family.parents p q hq).1⟩

theorem wait_not_missed_waiting : ∃ s : State Unit, Reachable s ∧
    ∃ q, (s.proc q).parent = some initproc ∧ (s.proc q).state ≠ .zombie := by
  obtain ⟨s,h,hs⟩ := exists_waiting
  obtain ⟨-,hsleep,hc⟩ := of_decide_eq_true hs
  obtain ⟨-,⟨q,hq⟩,hz⟩ := (wait_not_missed h).2 initproc hsleep hc
  exact ⟨s,h,q,hq,hz q hq⟩

end Runs

end ResumePointers.Xv6.ProcTable
