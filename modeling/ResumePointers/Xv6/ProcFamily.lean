import ResumePointers.Xv6.ProcTable

/-! The tree of processes: every process has a parent that can wait for it, and a process that sleeps in
`wait` has a child and no zombie. -/
namespace ResumePointers.Xv6.ProcTable

/-- The process can still do something. -/
def Procstate.live : Procstate → Bool
  | .sleeping | .runnable | .running => true
  | _ => false

/-- The slot that a process in `fork` has taken, and whether it is the child already. -/
def Next.forks : Next → Option (Slot × Bool)
  | .forking np b => some (np,b)
  | _ => none

def Pc.forks : Pc → Option (Slot × Bool)
  | .forking np b => some (np,b)
  | .switching next => next.forks
  | .switched next => next.forks
  | _ => none

/-- A process that sleeps in `wait` has a reason to. -/
def Waits (proc : Slot → Proc) (p : Slot) : Prop :=
  (proc p).killed = false ∧ (∃ q, (proc q).parent = some p) ∧
    ∀ q, (proc q).parent = some p → (proc q).state ≠ .zombie

/-- A slot that is taken in `fork` belongs to one process, and parents are alive. -/
structure Family (proc : Slot → Proc) : Prop where
  forks : ∀ p np b, (proc p).pc.forks = some (np,b) → (proc p).state.live = true ∧
    (proc np).state = .embryo ∧ (proc np).parent = (if b then some p else none) ∧
    (b = true → (proc np).pc = .switched (.user false))
  unique : ∀ p q np b b', (proc p).pc.forks = some (np,b) → (proc q).pc.forks = some (np,b') → p = q
  parents : ∀ p q, (proc p).parent = some q → (proc q).state.live = true ∧ q ≠ p
  free : ∀ p, (proc p).state = .unused → (proc p).parent = none
  family : ∀ p ≠ initproc, (proc p).state ≠ .unused → (proc p).state ≠ .embryo → (proc p).parent ≠ none
  init : (proc initproc).state.live = true ∧ (proc initproc).parent = none
  waits : ∀ p, (proc p).state = .sleeping → (proc p).chan = some (.proc p) → Waits proc p

namespace Family

variable {proc proc' : Slot → Proc} {p q np : Slot} {x : Proc} {b : Bool}

/-- Processes go on, with the same parents, and take no other slots. -/
theorem change (h : Family proc) (hpar : ∀ q, (proc' q).parent = (proc q).parent)
    (hforks : ∀ q, (proc' q).pc.forks = (proc q).pc.forks)
    (hstate : ∀ q, (proc' q).state = (proc q).state ∨
      (proc' q).state.live = true ∧ (proc q).state.live = true)
    (hpc : ∀ q, (proc q).state = .embryo → (proc' q).pc = (proc q).pc)
    (hwaits : ∀ p, (proc' p).state = .sleeping → (proc' p).chan = some (.proc p) →
      (proc' p).killed = false ∧ (∃ q, (proc q).parent = some p) ∧
        ∀ q, (proc q).parent = some p → (proc q).state ≠ .zombie) : Family proc' := by
  have hlive : ∀ q, (proc' q).state.live = (proc q).state.live := fun q =>
    (hstate q).elim (fun he => by rw [he]) fun hl => by rw [hl.1,hl.2]
  have hsame : ∀ {q st}, st.live = false → ((proc' q).state = st ↔ (proc q).state = st) := by
    intro q st hd
    rcases hstate q with he | ⟨h1,h2⟩
    · rw [he]
    · refine iff_of_false ?_ ?_ <;> rintro rfl
      · rw [hd] at h1
        cases h1
      · rw [hd] at h2
        cases h2
  refine ⟨fun u np b hu => ?_,fun u v np b b' hu hv => ?_,fun u v hu => ?_,fun u hu => ?_,
    fun u hu h1 h2 => ?_,?_,fun u hu hc => ?_⟩
  · rw [hforks] at hu
    obtain ⟨h1,h2,h3,h4⟩ := h.forks u np b hu
    exact ⟨by rw [hlive,h1],(hsame rfl).mpr h2,by rw [hpar,h3],fun hb => by rw [hpc np h2,h4 hb]⟩
  · rw [hforks] at hu hv
    exact h.unique u v np b b' hu hv
  · rw [hpar] at hu
    rw [hlive]
    exact h.parents u v hu
  · rw [hpar]
    exact h.free u ((hsame rfl).mp hu)
  · rw [hpar]
    exact h.family u hu ((hsame rfl).not.mp h1) ((hsame rfl).not.mp h2)
  · rw [hlive,hpar]
    exact h.init
  · obtain ⟨h1,⟨q,hq⟩,h3⟩ := hwaits u hu hc
    refine ⟨h1,⟨q,(hpar q).trans hq⟩,fun q hq => ?_⟩
    rw [hpar] at hq
    exact (hsame rfl).not.mpr (h3 q hq)

/-- One process goes on. -/
theorem self (h : Family proc) (hparent : x.parent = (proc p).parent)
    (hstate : x.state = (proc p).state ∨ x.state.live = true ∧ (proc p).state.live = true)
    (hforks : x.pc.forks = (proc p).pc.forks) (hpc : (proc p).state = .embryo → x.pc = (proc p).pc)
    (hwaits : x.state = .sleeping → x.chan = some (.proc p) → x.killed = false ∧
      (∃ q, (proc q).parent = some p) ∧ ∀ q, (proc q).parent = some p → (proc q).state ≠ .zombie) :
    Family (Function.update proc p x) := by
  refine h.change (fun q => ?_) (fun q => ?_) (fun q => ?_) (fun q hq => ?_) fun q hq hc => ?_ <;>
    by_cases hqp : q = p
  · rw [hqp,Function.update_self,hparent]
  · rw [Function.update_of_ne hqp]
  · rw [hqp,Function.update_self,hforks]
  · rw [Function.update_of_ne hqp]
  · rw [hqp,Function.update_self]
    exact hstate
  · rw [Function.update_of_ne hqp]
    exact .inl rfl
  · rw [hqp] at hq ⊢
    rw [Function.update_self,hpc hq]
  · rw [Function.update_of_ne hqp]
  · subst hqp
    rw [Function.update_self] at hq hc ⊢
    exact hwaits hq hc
  · rw [Function.update_of_ne hqp] at hq hc ⊢
    exact h.waits q hq hc

/-- Processes that sleep are woken. -/
theorem wake (h : Family proc) (hw : ∀ q, proc' q = proc q ∨
    (proc q).state = .sleeping ∧ proc' q = { proc q with state := .runnable }) : Family proc' := by
  refine h.change (fun q => ?_) (fun q => ?_) (fun q => ?_) (fun q hq => ?_) fun q hq hc => ?_ <;>
    rcases hw q with he | ⟨hs,he⟩
  · rw [he]
  · rw [he]
  · rw [he]
  · rw [he]
  · exact .inl (by rw [he])
  · exact .inr (by rw [he,hs]; exact ⟨rfl,rfl⟩)
  · rw [he]
  · rw [he]
  · rw [he] at hq hc ⊢
    exact h.waits q hq hc
  · rw [he] at hq
    cases hq

theorem ne_of_live (hp : (proc p).state.live = true) (hq : (proc q).state.live = false) : q ≠ p := by
  rintro rfl
  rw [hp] at hq
  cases hq

/-- A process that is not live has no children and takes no slot. -/
theorem childless (h : Family proc) (hp : (proc p).state.live = false) :
    (∀ q, (proc q).parent ≠ some p) ∧ (proc p).pc.forks = none := by
  refine ⟨fun q hq => ?_,?_⟩
  · exact ne_of_live (h.parents q p hq).1 hp rfl
  · by_contra hf
    obtain ⟨⟨np,b⟩,hnp⟩ := Option.ne_none_iff_exists'.mp hf
    exact ne_of_live (h.forks p np b hnp).1 hp rfl

/-- A slot that nobody is about to fill changes: it is taken, freed, or becomes a child. -/
theorem slot (h : Family proc) (hnp : (proc np).state.live = false)
    (hfree : ∀ p b, (proc p).pc.forks ≠ some (np,b)) (hforks : x.pc.forks = none)
    (hold : ∀ q, (proc np).parent = some q → x.parent = some q ∨ (proc q).state ≠ .sleeping)
    (hpar : ∀ q, x.parent = some q → (proc q).state.live = true)
    (hstate : x.state = .unused ∧ x.parent = none ∨ x.state = .embryo ∨
      x.state = .runnable ∧ x.parent ≠ none) : Family (Function.update proc np x) := by
  have hne : ∀ {q}, (proc q).state.live = true → q ≠ np := fun hq => Ne.symm (ne_of_live hq hnp)
  have hself := Function.update_self np x proc
  have hof : ∀ {q}, q ≠ np → Function.update proc np x q = proc q :=
    fun hq => Function.update_of_ne hq _ _
  have hforksof : ∀ {q m b}, (Function.update proc np x q).pc.forks = some (m,b) →
      q ≠ np ∧ m ≠ np ∧ (proc q).pc.forks = some (m,b) := by
    intro q m b hq
    have hqn : q ≠ np := by
      rintro rfl
      rw [hself,hforks] at hq
      cases hq
    rw [hof hqn] at hq
    refine ⟨hqn,?_,hq⟩
    rintro rfl
    exact hfree q b hq
  refine ⟨fun u m b hu => ?_,fun u v m b b' hu hv => ?_,fun u v hu => ?_,fun u hu => ?_,
    fun u hu h1 h2 => ?_,?_,fun u hu hc => ?_⟩
  · obtain ⟨hun,hm,hu⟩ := hforksof hu
    rw [hof hun,hof hm]
    exact h.forks u m b hu
  · exact h.unique u v m b b' (hforksof hu).2.2 (hforksof hv).2.2
  · by_cases hun : u = np
    · subst hun
      rw [hself] at hu
      have hv := hpar v hu
      rw [hof (hne hv)]
      exact ⟨hv,hne hv⟩
    · rw [hof hun] at hu
      have hv := h.parents u v hu
      rwa [hof (hne hv.1)]
  · by_cases hun : u = np
    · subst hun
      rw [hself] at hu ⊢
      rcases hstate with hs | hs | hs
      · exact hs.2
      · rw [hs] at hu
        cases hu
      · rw [hs.1] at hu
        cases hu
    · rw [hof hun] at hu ⊢
      exact h.free u hu
  · by_cases hun : u = np
    · subst hun
      rw [hself] at h1 h2 ⊢
      exact (hstate.resolve_left fun hs => h1 hs.1).resolve_left h2 |>.2
    · rw [hof hun] at h1 h2 ⊢
      exact h.family u hu h1 h2
  · rw [hof (hne h.init.1)]
    exact h.init
  · have hun : u ≠ np := by
      rintro rfl
      rw [hself] at hu
      rcases hstate with hs | hs | hs
      · rw [hs.1] at hu
        cases hu
      · rw [hs] at hu
        cases hu
      · rw [hs.1] at hu
        cases hu
    rw [hof hun] at hu hc
    obtain ⟨h1,⟨q,hq⟩,h3⟩ := h.waits u hu hc
    refine ⟨by rwa [hof hun],⟨q,?_⟩,fun q hq => ?_⟩
    · by_cases hqn : q = np
      · subst hqn
        rw [hself]
        exact (hold u hq).resolve_right (not_not.mpr hu)
      · rwa [hof hqn]
    · by_cases hqn : q = np
      · subst hqn
        rw [hself]
        rcases hstate with hs | hs | hs
        · rw [hs.1]
          nofun
        · rw [hs]
          nofun
        · rw [hs.1]
          nofun
      · rw [hof hqn] at hq ⊢
        exact h3 q hq

/-- A process takes a slot, or leaves `fork`. -/
theorem take (h : Family proc) (hp : (proc p).state.live = true) (hns : (proc p).state ≠ .sleeping)
    (hx : x = { proc p with pc := x.pc })
    (hforks : ∀ np b, x.pc.forks = some (np,b) → (proc np).state = .embryo ∧
      (proc np).parent = (if b then some p else none) ∧
      (b = true → (proc np).pc = .switched (.user false)) ∧
      ∀ q ≠ p, ∀ b', (proc q).pc.forks ≠ some (np,b')) :
    Family (Function.update proc p x) := by
  have hself := Function.update_self p x proc
  have hof : ∀ {q}, q ≠ p → Function.update proc p x q = proc q :=
    fun hq => Function.update_of_ne hq _ _
  have hsame : ∀ q, (Function.update proc p x q).state = (proc q).state ∧
      (Function.update proc p x q).parent = (proc q).parent := fun q => by
    by_cases hq : q = p
    · subst hq
      rw [hself,hx]
      exact ⟨rfl,rfl⟩
    · rw [hof hq]
      exact ⟨rfl,rfl⟩
  have hnotp : ∀ {np}, (proc np).state = .embryo → np ≠ p := by
    rintro np hnp rfl
    rw [hnp] at hp
    cases hp
  refine ⟨fun u m b hu => ?_,fun u v m b b' hu hv => ?_,fun u v hu => ?_,fun u hu => ?_,
    fun u hu h1 h2 => ?_,?_,fun u hu hc => ?_⟩
  · rw [(hsame u).1,(hsame m).1,(hsame m).2]
    by_cases hup : u = p
    · subst hup
      rw [hself] at hu
      obtain ⟨h1,h2,h3,-⟩ := hforks m b hu
      exact ⟨hp,h1,h2,fun hb => by rw [hof (hnotp h1),h3 hb]⟩
    · rw [hof hup] at hu
      obtain ⟨h1,h2,h3,h4⟩ := h.forks u m b hu
      exact ⟨h1,h2,h3,fun hb => by rw [hof (hnotp h2),h4 hb]⟩
  · by_cases hup : u = p <;> by_cases hvp : v = p
    · rw [hup,hvp]
    · rw [hup,hself] at hu
      rw [hof hvp] at hv
      exact absurd hv ((hforks m b hu).2.2.2 v hvp b')
    · rw [hvp,hself] at hv
      rw [hof hup] at hu
      exact absurd hu ((hforks m b' hv).2.2.2 u hup b)
    · rw [hof hup] at hu
      rw [hof hvp] at hv
      exact h.unique u v m b b' hu hv
  · rw [(hsame u).2] at hu
    rw [(hsame v).1]
    exact h.parents u v hu
  · rw [(hsame u).1] at hu
    rw [(hsame u).2]
    exact h.free u hu
  · rw [(hsame u).1] at h1 h2
    rw [(hsame u).2]
    exact h.family u hu h1 h2
  · rw [(hsame _).1,(hsame _).2]
    exact h.init
  · have hup : u ≠ p := by
      rintro rfl
      rw [(hsame u).1] at hu
      exact hns hu
    rw [hof hup] at hu hc
    obtain ⟨h1,⟨q,hq⟩,h3⟩ := h.waits u hu hc
    refine ⟨by rwa [hof hup],⟨q,(hsame q).2.trans hq⟩,fun q hq => ?_⟩
    rw [(hsame q).2] at hq
    rw [(hsame q).1]
    exact h3 q hq

end Family

/-! What `exit` leaves. -/

theorem wakeup1_cases (chan : Option Chan) (proc : Slot → Proc) (q : Slot) :
    wakeup1 chan proc q = proc q ∧ ¬((proc q).state = .sleeping ∧ (proc q).chan = chan) ∨
      (proc q).state = .sleeping ∧ wakeup1 chan proc q = { proc q with state := .runnable } := by
  rw [wakeup1]
  split
  · exact .inr ⟨‹_ ∧ _›.1,rfl⟩
  · exact .inl ⟨rfl,‹_›⟩

/-- A wakeup changes states only. -/
theorem wakeup1_same (chan : Option Chan) (proc : Slot → Proc) (q : Slot) :
    (wakeup1 chan proc q).pc = (proc q).pc ∧ (wakeup1 chan proc q).killed = (proc q).killed ∧
      (wakeup1 chan proc q).chan = (proc q).chan ∧
      (wakeup1 chan proc q).parent = (proc q).parent := by
  rcases wakeup1_cases chan proc q with ⟨he,-⟩ | ⟨-,he⟩
  · rw [he]
    exact ⟨rfl,rfl,rfl,rfl⟩
  · rw [he]
    exact ⟨rfl,rfl,rfl,rfl⟩

/-- The children of `p` in `qs` are those of init now, and init is awake if one of them is a zombie. -/
structure Abandoned (p : Slot) (qs : List Slot) (proc t : Slot → Proc) : Prop where
  pc : ∀ r, (t r).pc = (proc r).pc ∧ (t r).killed = (proc r).killed ∧ (t r).chan = (proc r).chan
  state : ∀ r, (t r).state = (proc r).state ∨ (proc r).state = .sleeping ∧ (t r).state = .runnable
  parent : ∀ r, (t r).parent =
    if (proc r).parent = some p ∧ r ∈ qs then some initproc else (proc r).parent
  awake : ∀ r, (t r).state = .sleeping → (proc r).chan = some (.proc initproc) →
    ∀ q ∈ qs, (proc q).parent = some p → (proc q).state ≠ .zombie

theorem abandoned_wakeup1 {p : Slot} {qs : List Slot} {proc t : Slot → Proc}
    (h : Abandoned p qs (wakeup1 (some (.proc initproc)) proc) t) :
    Abandoned p qs proc t ∧ ∀ r, (t r).state = .sleeping → (proc r).chan ≠ some (.proc initproc) := by
  have hw := wakeup1_cases (some (.proc initproc)) proc
  have hsame := wakeup1_same (some (.proc initproc)) proc
  have hasleep : ∀ r, (t r).state = .sleeping → (proc r).chan ≠ some (.proc initproc) := by
    intro r hr hc
    rcases h.state r with hs | ⟨-,hs⟩
    · rcases hw r with ⟨he,hn⟩ | ⟨-,he⟩
      · rw [he,hr] at hs
        exact hn ⟨hs.symm,hc⟩
      · rw [he,hr] at hs
        cases hs
    · rw [hr] at hs
      cases hs
  refine ⟨⟨fun r => ?_,fun r => ?_,fun r => ?_,fun r hr hc => (hasleep r hr hc).elim⟩,hasleep⟩
  · rw [(h.pc r).1,(h.pc r).2.1,(h.pc r).2.2,(hsame r).1,(hsame r).2.1,(hsame r).2.2.1]
    exact ⟨rfl,rfl,rfl⟩
  · rcases hw r with ⟨he,-⟩ | ⟨hs,he⟩
    · rw [← he]
      exact h.state r
    · rcases h.state r with ht | ⟨ht,-⟩
      · exact .inr ⟨hs,by rw [ht,he]⟩
      · rw [he] at ht
        cases ht
  · rw [h.parent r,(hsame r).2.2.2]

theorem abandoned_cons {p q : Slot} {qs : List Slot} {proc t : Slot → Proc} (hp : p ≠ initproc)
    (hq : (proc q).parent = some p)
    (h : Abandoned p qs (Function.update proc q { proc q with parent := some initproc }) t)
    (hawake : (proc q).state ≠ .zombie ∨
      ∀ r, (t r).state = .sleeping → (proc r).chan ≠ some (.proc initproc)) :
    Abandoned p (q::qs) proc t := by
  have hself := Function.update_self q { proc q with parent := some initproc } proc
  have hof : ∀ {r}, r ≠ q →
      Function.update proc q { proc q with parent := some initproc } r = proc r :=
    fun hr => Function.update_of_ne hr _ _
  have hsame : ∀ r, (Function.update proc q { proc q with parent := some initproc } r).state =
      (proc r).state ∧ (Function.update proc q { proc q with parent := some initproc } r).pc =
      (proc r).pc ∧ (Function.update proc q { proc q with parent := some initproc } r).killed =
      (proc r).killed ∧ (Function.update proc q { proc q with parent := some initproc } r).chan =
      (proc r).chan := fun r => by
    by_cases hr : r = q
    · subst hr
      rw [hself]
      exact ⟨rfl,rfl,rfl,rfl⟩
    · rw [hof hr]
      exact ⟨rfl,rfl,rfl,rfl⟩
  refine ⟨fun r => ?_,fun r => ?_,fun r => ?_,fun r hr hc u hu hup => ?_⟩
  · rw [← (hsame r).2.1,← (hsame r).2.2.1,← (hsame r).2.2.2]
    exact h.pc r
  · rw [← (hsame r).1]
    exact h.state r
  · rw [h.parent r]
    by_cases hr : r = q
    · subst hr
      rw [hself]
      simp [hq,Ne.symm hp]
    · rw [hof hr]
      simp [hr]
  · rcases hawake with hz | hz
    · rcases List.mem_cons.mp hu with hu | hu
      · rwa [hu]
      · by_cases huq : u = q
        · rwa [huq]
        · rw [← (hsame r).2.2.2] at hc
          have := h.awake r hr hc u hu
          rw [hof huq] at this
          exact this hup
    · exact (hz r hr hc).elim

theorem abandoned_abandon {p : Slot} (hp : p ≠ initproc) (qs : List Slot) (proc : Slot → Proc) :
    Abandoned p qs proc (abandon p qs proc) := by
  induction qs generalizing proc with
  | nil => exact ⟨fun _ => ⟨rfl,rfl,rfl⟩,fun _ => .inl rfl,fun r => by simp [abandon],nofun⟩
  | cons q qs ih =>
    rw [abandon]
    split
    · rename_i hq
      dsimp only
      rw [Function.update_self]
      split
      · obtain ⟨h,hasleep⟩ := abandoned_wakeup1 (ih (wakeup1 (some (.proc initproc))
          (Function.update proc q { proc q with parent := some initproc })))
        refine abandoned_cons hp hq h (.inr fun r hr => ?_)
        by_cases hrq : r = q
        · have := hasleep r hr
          rwa [hrq,Function.update_self,← hrq] at this
        · have := hasleep r hr
          rwa [Function.update_of_ne hrq] at this
      · exact abandoned_cons hp hq (ih _) (.inl ‹_›)
    · rename_i hq
      have h := ih proc
      refine ⟨h.pc,h.state,fun r => ?_,fun r hr hc u hu hup => ?_⟩
      · rw [h.parent r]
        by_cases hr : r = q
        · rw [hr]
          simp [hq]
        · simp [hr]
      · rcases List.mem_cons.mp hu with hu | hu
        · rw [hu] at hup
          exact (hq hup).elim
        · exact h.awake r hr hc u hu hup

/-- The table behind the loop of `exit`. -/
def exited (p : Slot) (proc : Slot → Proc) : Slot → Proc :=
  abandon p (List.finRange NPROC) (wakeup1 ((proc p).parent.map .proc) proc)

theorem exited_cases {p : Slot} (hp : p ≠ initproc) (proc : Slot → Proc) (q : Slot) :
    ((exited p proc q).pc = (proc q).pc ∧ (exited p proc q).killed = (proc q).killed ∧
      (exited p proc q).chan = (proc q).chan ∧
      (exited p proc q).parent = if (proc q).parent = some p then some initproc else (proc q).parent) ∧
    ((exited p proc q).state = (proc q).state ∨
      (proc q).state = .sleeping ∧ (exited p proc q).state = .runnable) ∧
    ((exited p proc q).state = .sleeping → (proc q).chan ≠ (proc p).parent.map .proc ∧
      ((proc q).chan = some (.proc initproc) →
        ∀ r, (proc r).parent = some p → (proc r).state ≠ .zombie)) := by
  have h := abandoned_abandon hp (List.finRange NPROC) (wakeup1 ((proc p).parent.map .proc) proc)
  have hw := wakeup1_cases ((proc p).parent.map .proc) proc
  have hsame := wakeup1_same ((proc p).parent.map .proc) proc
  have hpar := h.parent q
  rw [(hsame q).2.2.2] at hpar
  simp only [List.mem_finRange,and_true] at hpar
  refine ⟨⟨(h.pc q).1.trans (hsame q).1,(h.pc q).2.1.trans (hsame q).2.1,
    (h.pc q).2.2.trans (hsame q).2.2.1,hpar⟩,?_,fun hq => ?_⟩
  · rcases hw q with ⟨he,-⟩ | ⟨hs,he⟩
    · rw [← he]
      exact h.state q
    · rcases h.state q with ht | ⟨ht,-⟩
      · exact .inr ⟨hs,by rw [exited,ht,he]⟩
      · rw [he] at ht
        cases ht
  · have hstate : (wakeup1 ((proc p).parent.map .proc) proc q).state = .sleeping :=
      (h.state q).elim (fun he => he ▸ hq) fun he => by
        rw [exited,he.2] at hq
        cases hq
    refine ⟨fun hc => ?_,fun hc r hr hz => ?_⟩
    · rcases hw q with ⟨he,hn⟩ | ⟨-,he⟩
      · rw [he] at hstate
        exact hn ⟨hstate,hc⟩
      · rw [he] at hstate
        cases hstate
    · refine h.awake q hq ((hsame q).2.2.1.trans hc) r (List.mem_finRange r)
        ((hsame r).2.2.2.trans hr) ?_
      rcases hw r with ⟨he,-⟩ | ⟨hs,-⟩
      · rw [he,hz]
      · rw [hz] at hs
        cases hs

/-- The table that `exit` leaves. -/
def gone (p : Slot) (proc : Slot → Proc) : Slot → Proc :=
  Function.update (exited p proc) p { exited p proc p with state := .zombie, pc := .switching .dead }

section Gone

variable {proc : Slot → Proc} {p q u np : Slot} {b : Bool}

theorem gone_self : (gone p proc p).state = .zombie ∧ (gone p proc p).pc = .switching .dead := by
  rw [gone,Function.update_self]
  exact ⟨rfl,rfl⟩

theorem gone_of_ne (hq : q ≠ p) : gone p proc q = exited p proc q := Function.update_of_ne hq _ _

theorem gone_parent (hp : p ≠ initproc) (q : Slot) : (gone p proc q).parent =
    if (proc q).parent = some p then some initproc else (proc q).parent := by
  have hex := (exited_cases hp proc q).1.2.2.2
  by_cases hq : q = p
  · subst hq
    rw [gone,Function.update_self]
    exact hex
  · rw [gone_of_ne hq]
    exact hex

theorem gone_live (hp : p ≠ initproc) (hq : q ≠ p) :
    (gone p proc q).state.live = (proc q).state.live := by
  rw [gone_of_ne hq]
  rcases (exited_cases hp proc q).2.1 with he | ⟨h1,h2⟩
  · rw [he]
  · rw [h1,h2]
    rfl

theorem gone_state_iff (hp : p ≠ initproc) (hq : q ≠ p) {st : Procstate} (hst : st.live = false) :
    (gone p proc q).state = st ↔ (proc q).state = st := by
  rw [gone_of_ne hq]
  rcases (exited_cases hp proc q).2.1 with he | ⟨h1,h2⟩
  · rw [he]
  · rw [h1,h2]
    refine iff_of_false ?_ ?_ <;> rintro rfl <;> cases hst

theorem gone_forks (hp : p ≠ initproc) (hq : (gone p proc q).pc.forks = some (np,b)) :
    q ≠ p ∧ (proc q).pc.forks = some (np,b) := by
  have hqp : q ≠ p := by
    rintro rfl
    rw [gone_self.2] at hq
    cases hq
  rw [gone_of_ne hqp,(exited_cases hp proc q).1.1] at hq
  exact ⟨hqp,hq⟩

/-- Whoever sleeps in `wait` behind an exit was not woken: its children are the same, and the process
that exits is not one of them. -/
theorem Family.gone_waits (h : Family proc) (hp : p ≠ initproc)
    (hu : (gone p proc u).state = .sleeping) (hc : (gone p proc u).chan = some (.proc u)) :
    Waits (gone p proc) u := by
  have hup : u ≠ p := by
    rintro rfl
    rw [gone_self.1] at hu
    cases hu
  rw [gone_of_ne hup] at hu hc
  obtain ⟨⟨-,hkilled,hchan,-⟩,hstate,hasleep⟩ := exited_cases hp proc u
  have hsleep : (proc u).state = .sleeping := hstate.elim (fun he => he ▸ hu) fun he => he.1
  rw [hchan] at hc
  obtain ⟨hnp,hnz⟩ := hasleep hu
  obtain ⟨hk,⟨q,hq⟩,hz⟩ := h.waits u hsleep hc
  refine ⟨by rw [gone_of_ne hup,hkilled,hk],⟨q,?_⟩,fun r hr hrz => ?_⟩
  · rw [gone_parent hp,hq,if_neg fun he => hup (Option.some.inj he)]
  · rw [gone_parent hp] at hr
    by_cases hrp : r = p
    · -- the parent of `p` is awake
      subst hrp
      have hparent : (proc r).parent = some u := by
        split at hr
        · exact absurd rfl (h.parents r r ‹_›).2
        · exact hr
      rw [hparent] at hnp
      exact hnp hc
    · have hrz' := (gone_state_iff hp hrp rfl).mp hrz
      split at hr
      · cases hr
        exact hnz hc r ‹_› hrz'
      · exact hz r hr hrz'

/-- A process exits. -/
theorem Family.exit (h : Family proc) (hp : p ≠ initproc) (hs : (proc p).state = .running) :
    Family (gone p proc) := by
  have hinit : initproc ≠ p := Ne.symm hp
  have hne : ∀ {q}, (proc q).state ≠ .running → q ≠ p := by
    rintro q hq rfl
    exact hq hs
  have hdead : ∀ {q}, (gone p proc q).state ≠ .zombie → q ≠ p := by
    rintro q hq rfl
    exact hq gone_self.1
  refine ⟨fun u m b hu => ?_,fun u v m b b' hu hv => ?_,fun u v hu => ?_,fun u hu => ?_,
    fun u hu h1 h2 => ?_,?_,fun u hu hc => h.gone_waits hp hu hc⟩
  · obtain ⟨hup,hu⟩ := gone_forks hp hu
    obtain ⟨h1,h2,h3,h4⟩ := h.forks u m b hu
    have hmp : m ≠ p := hne (by rw [h2]; nofun)
    refine ⟨by rw [gone_live hp hup,h1],(gone_state_iff hp hmp rfl).mpr h2,?_,fun hb => ?_⟩
    · rw [gone_parent hp,h3,if_neg]
      cases b with
      | true => exact fun he => hup (Option.some.inj he)
      | false => nofun
    · rw [gone_of_ne hmp,(exited_cases hp proc m).1.1,h4 hb]
  · exact h.unique u v m b b' (gone_forks hp hu).2 (gone_forks hp hv).2
  · rw [gone_parent hp] at hu
    by_cases hup : (proc u).parent = some p
    · rw [if_pos hup] at hu
      cases hu
      refine ⟨by rw [gone_live hp hinit,h.init.1],?_⟩
      rintro rfl
      rw [h.init.2] at hup
      cases hup
    · rw [if_neg hup] at hu
      obtain ⟨h1,h2⟩ := h.parents u v hu
      have hvp : v ≠ p := fun hvp => hup (hvp ▸ hu)
      exact ⟨by rw [gone_live hp hvp,h1],h2⟩
  · have hup : u ≠ p := hdead (by rw [hu]; nofun)
    rw [gone_parent hp,h.free u ((gone_state_iff hp hup rfl).mp hu)]
    rfl
  · have hparent : (proc u).parent ≠ none := by
      by_cases hup : u = p
      · exact h.family u hu (by rw [hup,hs]; nofun) (by rw [hup,hs]; nofun)
      · exact h.family u hu ((gone_state_iff hp hup rfl).not.mp h1)
          ((gone_state_iff hp hup rfl).not.mp h2)
    rw [gone_parent hp]
    split
    · nofun
    · exact hparent
  · rw [gone_live hp hinit,gone_parent hp,h.init.2]
    exact ⟨h.init.1,rfl⟩

end Gone

end ResumePointers.Xv6.ProcTable
